import AgentGraph.Proofs.Catalog
import AgentGraph.Proofs.Placement.Survey
/-!
# Graphs that are written in full

A component is written in full if its plugin lists the fields of its kind, the policy lets the kind
and everything that holds a component through, and the keys of its record are told apart. In a graph
of such components every component is written with all its children.
-/
namespace AgentGraph

mutual
/-- No key of a mapping of values is dropped when the value is written; opaque data does not
count. -/
def Value.KeysKept : Value → Prop
  | .list items => keysKeptItems items
  | .map entries => keysKeptEntries entries
  | _ => True
/-- No key is dropped in the values of a list. -/
def keysKeptItems : List Value → Prop
  | [] => True
  | v :: rest => v.KeysKept ∧ keysKeptItems rest
/-- No key of a mapping is dropped, and none in its values. -/
def keysKeptEntries : List (String × Value) → Prop
  | [] => True
  | (key, v) :: rest => isReservedKey key = false ∧ v.KeysKept ∧ keysKeptEntries rest
end

namespace Kind
variable {k : Kind}

/-- The names that the fields of a kind may have, in order. -/
def names : Kind → List String
  | .extension _ fields => Dict.keys fields
  | k => Builtin.fieldNames k.componentType

theorem names_builtin (h : k.isBuiltin = true) : k.names = Builtin.fieldNames k.componentType := by
  cases k with
  | extension type fields => cases h
  | _ => rfl

theorem keys_names (k : Kind) : (Dict.keys k.fields).Sublist k.names := by
  cases h : k.isBuiltin with
  | true =>
    rw [names_builtin h]
    exact keys_fields h
  | false =>
    cases k with
    | extension type fields => exact .refl _
    | _ => cases h

/-- A test that lets all fields with components through loses no component. -/
theorem held_filter {fields : Dict Value} {test : String → Bool}
    (htest : ∀ f ∈ fields, test f.1 = true ∨ f.2.components = []) :
    heldComponents (fields.filter fun f => test f.1) = heldComponents fields := by
  simp only [heldComponents]
  induction fields with
  | nil => rfl
  | cons f rest ih =>
    obtain ⟨hf, hrest⟩ := List.forall_mem_cons.mp htest
    rw [List.filter_cons, Value.componentsOfEntries_eq (f :: rest), List.flatMap_cons,
      ← Value.componentsOfEntries_eq, ← ih hrest]
    split
    · rw [Value.componentsOfEntries_eq, List.flatMap_cons, ← Value.componentsOfEntries_eq]
    · rename_i hno
      rw [hf.resolve_left hno, List.nil_append]

end Kind

namespace Writer
variable {w : Writer} {root c d : Component}

/-- A component is written in full. -/
structure InFull (w : Writer) (c : Component) : Prop where
  listed : ∃ owner, w.registry.owner? c.componentType = some owner ∧
    owner.plugin.write w.target c = .ok c.kind.fields
  allowed : w.policy.kindAllowed c.componentType w.target.release = true
  shown : ∀ f ∈ c.kind.fields, w.shows c.componentType f.1 = true ∨ f.2.components = []
  proper : properEntries c.kind.fields
  kept : ∀ f ∈ c.kind.fields, f.2.KeysKept
  apart : (c.kind.names.map w.target.naming.toDocument ++ w.target.naming.protocol.names ++
    Record.baseFields).Nodup

/-- A graph of components that are written in full, in which equal ids mean equal components. -/
structure FullGraph (w : Writer) (root : Component) : Prop where
  component : ∀ c, Component.Reaches Component.children root c → w.InFull c
  coherent : Component.Coherent Component.children root

theorem keys_shown (w : Writer) (c : Component) : (Dict.keys (w.shown c)).Sublist c.kind.names := by
  refine List.Sublist.trans ?_ c.kind.keys_names
  unfold shown
  split
  · exact List.filter_sublist.map _
  · exact List.nil_sublist _

theorem mem_keys_shown {field : String} (h : field ∈ Dict.keys (w.shown d)) : field ∈ d.kind.names :=
  (w.keys_shown d).subset h

theorem InFull.shown_eq (h : w.InFull c) :
    w.shown c = c.kind.fields.filter fun f => w.shows c.componentType f.1 := by
  rw [Writer.shown, if_pos h.allowed]

/-- What is written in full is not refused. -/
theorem InFull.visibleFields_eq (h : w.InFull c) : w.visibleFields c = .ok (w.shown c) := by
  obtain ⟨owner, howner, hwrite⟩ := h.listed
  simp only [visibleFields, howner, h.allowed, if_true, hwrite, h.shown_eq]
  rfl

theorem InFull.children_eq (h : w.InFull c) : w.children c = c.children := by
  rw [children, h.shown_eq, Component.children]
  exact Kind.held_filter h.shown

theorem InFull.nodup_fields (h : w.InFull c) : (Dict.keys c.kind.fields).Nodup := by
  have hnames := h.apart
  rw [List.append_assoc] at hnames
  exact c.kind.keys_names.nodup ((List.nodup_append.mp hnames).1.of_map _)

namespace FullGraph
variable (G : w.FullGraph root)
include G

theorem children_eq (hc : Component.Reaches Component.children root c) :
    w.children c = c.children := (G.component c hc).children_eq

omit G in
theorem reaches_of_route {i : List String} {d : Component}
    (hkids : ∀ e, Component.Reaches Component.children c e → w.children e = e.children)
    (p : Component.Route Component.children c i d) : Component.Reaches w.children c d := by
  induction p with
  | here c => exact .refl c
  | @step c d e i hd p ih =>
    refine .step ((hkids c (.refl c)).symm ▸ hd) (ih fun f hf => hkids f (.step hd hf))

/-- Everything that is reached at all is reached through fields that are written. -/
theorem reaches_from (hc : Component.Reaches Component.children root c) {d : Component} :
    Component.Reaches w.children c d ↔ Component.Reaches Component.children c d := by
  constructor
  · exact fun h => h.mono fun _ _ hd => mem_children hd
  · rintro ⟨i, p⟩
    exact reaches_of_route (fun e he => G.children_eq (hc.trans he)) p

theorem reaches_iff :
    Component.Reaches w.children root c ↔ Component.Reaches Component.children root c :=
  G.reaches_from (.refl root)

/-- What is reached through fields that are written is written in full. -/
theorem inFull (hc : Component.Reaches w.children root c) : w.InFull c :=
  G.component c (G.reaches_iff.mp hc)

theorem regular : w.Regular root where
  coherent c d hc hd := G.coherent c d (G.reaches_iff.mp hc) (G.reaches_iff.mp hd)
  proper _ hc := ⟨(G.inFull hc).nodup_fields, (G.inFull hc).proper⟩

/-- An id of the graph is that of a component. -/
theorem exists_at {x : String} (hx : G.regular.dag.Reaches root.id x) :
    ∃ c, Component.Reaches Component.children root c ∧ c.id = x := by
  obtain ⟨c, hc, hid⟩ := G.regular.exists_component hx
  exact ⟨c, G.reaches_iff.mp hc, hid⟩

theorem faithful : w.Faithful root := by
  intro c fields hc h
  rw [(G.inFull hc).visibleFields_eq] at h
  exact (Except.ok.inj h).symm

end FullGraph
end Writer
end AgentGraph
