import AgentGraph.Proofs.FullGraph
import AgentGraph.Proofs.Registry
/-!
# Graphs of builtin kinds

Under the builtin policy, at a release at which all kinds of a graph are allowed, every component of
the graph is written in full: what the policy hides holds no component.
-/
namespace AgentGraph

mutual
/-- No mapping stands in a value; opaque data does not count. -/
def Value.MapFree : Value → Prop
  | .list items => mapFreeItems items
  | .map _ => False
  | _ => True
/-- No mapping stands in the values of a list. -/
def mapFreeItems : List Value → Prop
  | [] => True
  | v :: rest => v.MapFree ∧ mapFreeItems rest
end

mutual
theorem Value.MapFree.proper {v : Value} (h : v.MapFree) : v.Proper := by
  match v with
  | .data _ => trivial
  | .component _ => trivial
  | .property _ => trivial
  | .list items => exact properItems_of_mapFree h
  | .map _ => exact h.elim
theorem properItems_of_mapFree {items : List Value} (h : mapFreeItems items) :
    properItems items := by
  match items with
  | [] => trivial
  | v :: rest => exact ⟨h.1.proper, properItems_of_mapFree h.2⟩
end

mutual
theorem Value.MapFree.keysKept {v : Value} (h : v.MapFree) : v.KeysKept := by
  match v with
  | .data _ => trivial
  | .component _ => trivial
  | .property _ => trivial
  | .list items => exact keysKeptItems_of_mapFree h
  | .map _ => exact h.elim
theorem keysKeptItems_of_mapFree {items : List Value} (h : mapFreeItems items) :
    keysKeptItems items := by
  match items with
  | [] => trivial
  | v :: rest => exact ⟨h.1.keysKept, keysKeptItems_of_mapFree h.2⟩
end

namespace Kind
variable {k : Kind}

theorem mapFreeItems_map {α : Type} (f : α → Value) (xs : List α) (h : ∀ x, (f x).MapFree) :
    mapFreeItems (xs.map f) := by
  induction xs with
  | nil => simp [mapFreeItems]
  | cons x rest ih => exact ⟨h x, ih⟩

theorem mapFree_componentList (cs : List Component) : (Value.componentList cs).MapFree :=
  mapFreeItems_map _ cs fun c => by simp [Value.MapFree]

theorem mapFree_propertyList (ps : List Property) : (Value.propertyList ps).MapFree :=
  mapFreeItems_map _ ps fun p => by simp [Value.MapFree]

theorem mapFree_slots (s : Slots) : ∀ f ∈ s.fields, f.2.MapFree := by
  simp [Slots.fields, mapFree_propertyList]

theorem mapFree_optionalText (field : String) (text : Option String) :
    ∀ f ∈ optionalText field text, f.2.MapFree := by
  cases text <;> simp [optionalText, Value.text, Value.MapFree]

/-- No field of a builtin kind holds a mapping of values. -/
theorem mapFree_fields (h : k.isBuiltin = true) : ∀ f ∈ k.fields, f.2.MapFree := by
  cases k with
  | modelConfig c =>
    refine List.forall_mem_append.mpr ⟨List.forall_mem_append.mpr ⟨List.forall_mem_append.mpr
      ⟨List.forall_mem_append.mpr ⟨mapFree_optionalText _ _, ?_⟩, mapFree_optionalText _ _⟩,
      mapFree_optionalText _ _⟩, ?_⟩
    · simp [Value.text, Value.MapFree]
    · cases c.parameters <;> simp [Value.mapping, Value.MapFree]
  | tool t =>
    refine List.forall_mem_append.mpr ⟨List.forall_mem_append.mpr ⟨mapFree_slots _, ?_⟩, ?_⟩
    · cases t.site <;> simp [Endpoint.fields, Value.text, Value.mapping, Value.MapFree]
    · simp [Value.bool, Value.MapFree]
  | agent c p ts hu s =>
    refine List.forall_mem_append.mpr ⟨mapFree_slots s, ?_⟩
    simp [Value.text, Value.bool, Value.MapFree, mapFree_componentList]
  | swarm f rs =>
    have hpairs : (Value.list (rs.map fun p => .componentList [p.1, p.2])).MapFree :=
      mapFreeItems_map _ rs fun p => mapFree_componentList _
    simp only [fields, List.forall_mem_cons]
    exact ⟨trivial, hpairs, by simp⟩
  | managerWorkers m ws => simp [fields, Value.MapFree, mapFree_componentList]
  | flow n ns cs ds s =>
    refine List.forall_mem_append.mpr ⟨mapFree_slots s, ?_⟩
    simp [Value.MapFree, mapFree_componentList]
  | node role s =>
    refine List.forall_mem_append.mpr ⟨mapFree_slots s, ?_⟩
    cases role with
    | finish b => exact mapFree_optionalText _ b
    | _ => simp [NodeRole.fields, Value.text, Value.mapping, Value.MapFree]
  | controlFlowEdge f b t =>
    cases b <;> simp [fields, optionalText, Value.text, Value.MapFree]
  | dataFlowEdge s o d i => simp [fields, Value.text, Value.MapFree]
  | extension t fs => cases h

/-- No key is repeated in the values of a builtin kind. -/
theorem proper_fields (h : k.isBuiltin = true) : properEntries k.fields :=
  properEntries_iff.mpr fun f hf => (mapFree_fields h f hf).proper

theorem nodup_fields (h : k.isBuiltin = true) : (Dict.keys k.fields).Nodup := by
  refine (keys_fields h).nodup ?_
  have hnames := Builtin.nodup_recordKeys .alternate (type_mem h)
  rw [Builtin.recordKeys, List.append_assoc] at hnames
  exact (List.nodup_append.mp hnames).1.of_map _

theorem components_optionalText (field : String) (text : Option String) :
    ∀ f ∈ optionalText field text, f.2.components = [] := by
  cases text <;> simp [optionalText]

theorem components_slots (s : Slots) : ∀ f ∈ s.fields, f.2.components = [] := by
  simp [Slots.fields]

/-- The other fields of a builtin kind hold no component. -/
theorem components_elsewhere (h : k.isBuiltin = true) :
    ∀ f ∈ k.fields, f.1 ∈ Builtin.componentFields k.componentType ∨ f.2.components = [] := by
  cases k with
  | modelConfig c =>
    have hnone : ∀ f ∈ c.fields, f.2.components = [] := by
      refine List.forall_mem_append.mpr ⟨List.forall_mem_append.mpr ⟨List.forall_mem_append.mpr
        ⟨List.forall_mem_append.mpr ⟨components_optionalText _ _, ?_⟩,
          components_optionalText _ _⟩, components_optionalText _ _⟩, ?_⟩
      · simp
      · cases c.parameters <;> simp
    exact fun f hf => .inr (hnone f hf)
  | tool t =>
    have hnone : ∀ f ∈ t.fields, f.2.components = [] := by
      refine List.forall_mem_append.mpr ⟨List.forall_mem_append.mpr ⟨components_slots _, ?_⟩, ?_⟩
      · cases t.site <;> simp [Endpoint.fields]
      · simp
    exact fun f hf => .inr (hnone f hf)
  | node role s =>
    refine List.forall_mem_append.mpr ⟨fun f hf => .inr (components_slots s f hf), ?_⟩
    cases role with
    | finish b => exact fun f hf => .inr (components_optionalText _ b f hf)
    | _ =>
      simp [componentType, NodeRole.componentType, Builtin.componentFields, NodeRole.fields]
  | controlFlowEdge f b t =>
    cases b <;> simp [componentType, Builtin.componentFields, fields, optionalText]
  | extension t fs => cases h
  | _ => simp [componentType, Builtin.componentFields, fields, Slots.fields]

end Kind

namespace Writer
variable {w : Writer} {c : Component}

/-- The builtin plugin and the builtin policy write components of builtin kinds in full. -/
theorem inFull_of_builtin
    (howned : ∀ type ∈ Builtin.types, w.registry.owner? type = some ⟨Plugin.builtin, true⟩)
    (hpolicy : w.policy = Policy.builtin) (hc : c.kind.isBuiltin = true)
    (hallowed : Policy.builtin.kindAllowed c.componentType w.target.release = true) :
    w.InFull c where
  listed := ⟨_, howned _ (Kind.type_mem hc), Plugin.write_of_builtin hc⟩
  allowed := by rwa [hpolicy]
  shown f hf := by
    refine (Kind.components_elsewhere hc f hf).imp_left fun hfield => ?_
    rw [shows, hpolicy]
    exact Builtin.componentFields_shown (Kind.type_mem hc) hfield _
  proper := Kind.proper_fields hc
  kept f hf := (Kind.mapFree_fields hc f hf).keysKept
  apart := by
    rw [Kind.names_builtin hc]
    exact Builtin.nodup_recordKeys _ (Kind.type_mem hc)

end Writer

/-- A graph of builtin kinds under the builtin policy, at a release at which they are all allowed. -/
structure Writer.BuiltinGraph (w : Writer) (root : Component) : Prop where
  owned : ∀ type ∈ Builtin.types, w.registry.owner? type = some ⟨Plugin.builtin, true⟩
  policy : w.policy = Policy.builtin
  builtin : ∀ c, Component.Reaches Component.children root c → c.kind.isBuiltin = true
  allowed : ∀ c, Component.Reaches Component.children root c →
    Policy.builtin.kindAllowed c.componentType w.target.release = true
  coherent : Component.Coherent Component.children root

namespace Writer.BuiltinGraph
variable {w : Writer} {root c : Component} (B : w.BuiltinGraph root)
include B

/-- Builtin kinds are written in full. -/
theorem full : w.FullGraph root where
  component c hc := inFull_of_builtin B.owned B.policy (B.builtin c hc) (B.allowed c hc)
  coherent := B.coherent

theorem regular : w.Regular root := B.full.regular

end Writer.BuiltinGraph

/-- With a registry that was put together without a conflict. -/
theorem Writer.builtinGraph {extensions : List Plugin} {registry : Registry} {options : SaveOptions}
    {root : Component} (hregistry : Registry.ofPlugins extensions = .ok registry)
    (hbuiltin : ∀ c, Component.Reaches Component.children root c → c.kind.isBuiltin = true)
    (hallowed : ∀ c, Component.Reaches Component.children root c →
      Policy.builtin.kindAllowed c.componentType options.release = true)
    (hsame : Component.Coherent Component.children root) :
    (options.writer registry .builtin).BuiltinGraph root where
  owned _ ht := Registry.owner?_builtin hregistry ht
  policy := rfl
  builtin := hbuiltin
  allowed := hallowed
  coherent := hsame

/-! A small graph: a team of two agents that share a model, one of them with a tool. -/
namespace Sample

def model : Component :=
  .mk 1 "model" "Model" none [] (.modelConfig
    { provider := .openAi, modelId := "m", url := none, apiKey := none, apiType := none,
      parameters := none })

def search : Component :=
  .mk 2 "search" "Search" none []
    (.tool { site := .server, slots := .empty, requiresConfirmation := false })

def alice : Component := .mk 3 "alice" "Alice" none [] (.agent model "Help." [search] true .empty)

def bob : Component := .mk 4 "bob" "Bob" none [] (.agent model "Help." [] true .empty)

/-- The team, in which the first agent hands over to the other. -/
def team : Component := .mk 5 "team" "Team" none [] (.swarm alice [(alice, bob)])

theorem mem_team {c : Component} (h : Component.Reaches Component.children team c) :
    c ∈ [team, alice, bob, model, search] := by
  refine h.mem (by simp) ?_
  simp [team, alice, bob, model, search, Component.children, Component.kind, Kind.fields,
    ModelConfig.fields, Tool.fields, Slots.fields, Slots.empty, heldComponents, optionalText,
    Value.componentsOfEntries, Value.components, Value.componentsOfList]

theorem mem_alice {c : Component} (h : Component.Reaches Component.children alice c) :
    c ∈ [alice, model, search] := by
  refine h.mem (by simp) ?_
  simp [alice, model, search, Component.children, Component.kind]

/-- Writes the tool to the sidecar, under an alias. -/
def tooled : SaveOptions :=
  { SaveOptions.default with disaggregated := [("search", some "shared-search")], exportSidecar := true }

theorem coherent : Component.Coherent Component.children team := by
  have hall : ∀ c ∈ [team, alice, bob, model, search], ∀ d ∈ [team, alice, bob, model, search],
      c.id = d.id → c.same d = true := by decide +kernel
  exact fun c d hc hd => hall c (mem_team hc) d (mem_team hd)

def writer : Writer :=
  { registry := .builtin, policy := .builtin, target := ⟨.current, .canonical⟩, maxDepth := 64 }

theorem graph : writer.BuiltinGraph team where
  owned type ht := by
    simp only [writer, Registry.owner?, Registry.builtin, List.find?_nil]
    exact if_pos (List.contains_iff_mem.mpr ht)
  policy := rfl
  builtin c hc := by
    have hall : ∀ c ∈ [team, alice, bob, model, search], c.kind.isBuiltin = true := by
      decide +kernel
    exact hall c (mem_team hc)
  allowed c hc := by
    have hall : ∀ c ∈ [team, alice, bob, model, search],
        Policy.builtin.kindAllowed c.componentType .current = true := by decide +kernel
    exact hall c (mem_team hc)
  coherent := coherent

end Sample
end AgentGraph
