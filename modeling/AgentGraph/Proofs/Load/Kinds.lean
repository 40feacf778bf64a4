import AgentGraph.Proofs.Record.Laid
import AgentGraph.Proofs.Load.Answers
import AgentGraph.Proofs.Load.Makes
/-!
# Reading kinds back

The record of a builtin kind is read back as the kind with its data, without what is not shown, and
with what the reader gives for each component. Every field that is asked for is found where the writer
put it, and whatever stands for the components of the kind makes such a kind again.
-/
namespace AgentGraph
open List (Forall₂)

namespace Builtin

/-- The fields that the builtin policy may keep out of a document. -/
def hideable : List String :=
  ["apiKey", "apiType", "sensitiveHeaders", "requiresConfirmation", "humanInTheLoop"]

theorem shown_of_not_hideable {type field : String} (ht : type ∈ types)
    (hf : field ∈ fieldNames type) (hno : field ∉ hideable) (release : Release) :
    Policy.builtin.shows release type field = true := by
  have hall : ∀ type ∈ types, ∀ field ∈ fieldNames type, field ∉ hideable →
      Policy.builtin.shows release type field = true := by
    cases release <;> decide +kernel
  exact hall type ht field hf hno

end Builtin

theorem get?_optionalText (field key : String) (text : Option String) :
    Dict.get? (optionalText field text) key = if field = key then text.map .text else none := by
  cases text <;> simp [optionalText, Dict.get?]

/-- A value holds some components as a field of a shape wants them. -/
inductive Builtin.Shape.Holds : Shape → List Component → Value → Prop
  | one (c : Component) : Holds .one [c] (.component c)
  | list (cs : List Component) : Holds .list cs (.componentList cs)
  | pairs (ps : List (Component × Component)) :
    Holds .pairs (Kind.heldPairs ps) (.list (ps.map fun p => .componentList [p.1, p.2]))

theorem Builtin.Shape.Holds.components {shape : Shape} {cs : List Component} {v : Value}
    (h : shape.Holds cs v) : v.components = cs := by
  cases h with
  | one c => exact Value.components_component c
  | list cs => exact Value.components_componentList cs
  | pairs ps => exact Value.components_pairList ps

namespace Kind
variable {k : Kind} {field : String} {cs : List Component}

/-- A field of a kind holds some components, as a field of its name wants them, and is never
hidden. -/
structure HoldsAt (k : Kind) (field : String) (cs : List Component) : Prop where
  shown : field ∉ Builtin.hideable
  value : ∃ v, Dict.get? k.fields field = some v ∧ (Builtin.shapeOf field).Holds cs v

theorem HoldsAt.mem {c : Component} (h : k.HoldsAt field cs) (hc : c ∈ cs) :
    c ∈ heldComponents k.fields := by
  obtain ⟨v, hv, hholds⟩ := h.value
  exact mem_heldComponents (Dict.mem_of_get? hv) (by rwa [hholds.components])

/-- The components that a builtin kind holds, field by field. -/
def groups : Kind → List (List Component)
  | .agent config _ tools _ _ => [[config], tools]
  | .swarm first pairs => [[first], heldPairs pairs]
  | .managerWorkers manager workers => [[manager], workers]
  | .flow start nodes control data _ => [[start], nodes, control, data]
  | .node role _ => (heldByRole role).map fun c => [c]
  | .controlFlowEdge source _ target => [[source], [target]]
  | .dataFlowEdge source _ target _ => [[source], [target]]
  | .modelConfig _ | .tool _ | .extension _ _ => []

/-- The fields of a kind, as far as they hold components, in the order in which they are read. -/
theorem groups_held (h : k.isBuiltin = true) :
    Forall₂ k.HoldsAt (Builtin.componentFields k.componentType) k.groups := by
  cases k with
  | modelConfig c =>
    rw [componentType]
    cases c.provider <;> exact .nil
  | tool t =>
    rw [componentType, Tool.componentType]
    cases t.site <;> exact .nil
  | agent c p ts hu s =>
    exact .cons ⟨by decide, _, by simp [fields, Slots.fields, Dict.get?], .one c⟩
      (.cons ⟨by decide, _, by simp [fields, Slots.fields, Dict.get?], .list ts⟩ .nil)
  | swarm f rs =>
    exact .cons ⟨by decide, _, by simp [fields, Dict.get?], .one f⟩
      (.cons ⟨by decide, _, by simp [fields, Dict.get?], .pairs rs⟩ .nil)
  | managerWorkers m ws =>
    exact .cons ⟨by decide, _, by simp [fields, Dict.get?], .one m⟩
      (.cons ⟨by decide, _, by simp [fields, Dict.get?], .list ws⟩ .nil)
  | flow n ns cs ds s =>
    exact .cons ⟨by decide, _, by simp [fields, Slots.fields, Dict.get?], .one n⟩
      (.cons ⟨by decide, _, by simp [fields, Slots.fields, Dict.get?], .list ns⟩
        (.cons ⟨by decide, _, by simp [fields, Slots.fields, Dict.get?], .list cs⟩
          (.cons ⟨by decide, _, by simp [fields, Slots.fields, Dict.get?], .list ds⟩ .nil)))
  | node role s =>
    have hone {field : String} (c : Component) (hno : field ∉ Builtin.hideable)
        (hshape : Builtin.shapeOf field = .one)
        (hv : Dict.get? (node role s).fields field = some (.component c)) :
        Forall₂ (node role s).HoldsAt [field] [[c]] :=
      .cons ⟨hno, _, hv, hshape ▸ .one c⟩ .nil
    cases role with
    | llm c p =>
      exact hone c (by decide) rfl (by simp [fields, NodeRole.fields, Slots.fields, Dict.get?])
    | tool c =>
      exact hone c (by decide) rfl (by simp [fields, NodeRole.fields, Slots.fields, Dict.get?])
    | agent c =>
      exact hone c (by decide) rfl (by simp [fields, NodeRole.fields, Slots.fields, Dict.get?])
    | flow c =>
      exact hone c (by decide) rfl (by simp [fields, NodeRole.fields, Slots.fields, Dict.get?])
    | _ => exact .nil
  | controlFlowEdge f b t =>
    have hsource : Dict.get? (controlFlowEdge f b t).fields "fromNode" = some (.component f) := by
      cases b <;> simp [fields, Dict.get?]
    have htarget : Dict.get? (controlFlowEdge f b t).fields "toNode" = some (.component t) := by
      cases b <;> simp [fields, optionalText, Dict.get?]
    exact .cons ⟨by decide, _, hsource, .one f⟩ (.cons ⟨by decide, _, htarget, .one t⟩ .nil)
  | dataFlowEdge f o t i =>
    exact .cons ⟨by decide, _, by simp [fields, Dict.get?], .one f⟩
      (.cons ⟨by decide, _, by simp [fields, Dict.get?], .one t⟩ .nil)
  | extension type fields => cases h

end Kind

namespace Writer
variable {w : Writer} {l : Layout} {r : Records} {shows : String → String → Bool} {W : Watch}
  {reader : Reader} {record : Record} {k : Kind} {R : LoadState → Component → Component → Prop}
  {u : LoadState} {field : String}

theorem renderItems_eq (items : List Value) : w.renderItems l r items = items.map (w.render l r) := by
  induction items with
  | nil => rfl
  | cons v rest ih => rw [renderItems, ih, List.map_cons]

@[simp] theorem render_text (s : String) : w.render l r (.text s) = .string s := by
  simp [Value.text, render, Tree.strip]

@[simp] theorem render_bool (b : Bool) : w.render l r (.bool b) = .bool b := by
  simp [Value.bool, render, Tree.strip]

@[simp] theorem render_component (c : Component) :
    w.render l r (.component c) = w.written l r c.id := by
  rw [render, written]

@[simp] theorem render_componentList (cs : List Component) :
    w.render l r (.componentList cs) = .list (cs.map fun c => w.written l r c.id) := by
  simp [Value.componentList, render, renderItems_eq, Function.comp_def, written]

@[simp] theorem render_propertyList (ps : List Property) :
    w.render l r (.propertyList ps) = .list (ps.map Property.toTree) := by
  simp [Value.propertyList, render, renderItems_eq, Function.comp_def]

theorem render_mapping {entries : Dict Tree} {naming : NamingMode}
    (h : (Value.mapping entries).Plain naming) :
    w.render l r (.mapping entries) = .map entries := by
  have hplain : (Tree.map entries).Plain naming := h
  rw [Value.mapping, render, hplain.unreserved.strip_eq]

/-- A value that holds components is written so that just these are read of it. -/
theorem rendered_held {shape : Builtin.Shape} {cs : List Component} {v : Value}
    (h : shape.Holds cs v) : shape.Fits (w.render l r v) ∧
      shape.values (w.render l r v) = cs.map fun c => w.written l r c.id := by
  cases h with
  | one c =>
    rw [render_component]
    exact ⟨trivial, rfl⟩
  | list cs =>
    rw [render_componentList]
    exact ⟨⟨_, rfl⟩, rfl⟩
  | pairs ps =>
    have hrender : w.render l r (.list (ps.map fun p => .componentList [p.1, p.2])) = .list
        ((ps.map fun p => (w.written l r p.1.id, w.written l r p.2.id)).map
          fun p => .list [p.1, p.2]) := by
      simp [render, renderItems_eq, Function.comp_def]
    rw [hrender]
    refine ⟨⟨_, rfl⟩, ?_⟩
    rw [Builtin.Shape.values, Builtin.pairItems_pairs, Kind.heldPairs, List.map_flatMap,
      List.flatMap_map]
    rfl

/-- A record from which a kind is read, and a reader that gives for every component of the kind one
that stands for it. -/
structure Reading (w : Writer) (l : Layout) (r : Records) (shows : String → String → Bool)
    (W : Watch) (reader : Reader) (record : Record) (k : Kind)
    (R : LoadState → Component → Component → Prop) : Prop where
  type : record.componentType = k.componentType
  get : ∀ field ∈ Builtin.fieldNames k.componentType, record.get? field =
    if shows k.componentType field then (Dict.get? k.fields field).map (w.render l r) else none
  shown : ∀ field ∈ Builtin.fieldNames k.componentType, field ∉ Builtin.hideable →
    shows k.componentType field = true
  component : ∀ field, ∀ c ∈ heldComponents k.fields,
    reader.Yields W R record field (w.written l r c.id) c
  stays : ∀ s t c c', W.step s t → R s c c' → R t c c'
  readBack : ∀ t, ReadBack shows (R t)
  built : k.Built
  plain : ∀ f ∈ k.fields, shows k.componentType f.1 = true → f.2.Plain w.target.naming

namespace Reading
variable (H : w.Reading l r shows W reader record k R)
include H

theorem seen (hf : field ∈ Builtin.fieldNames k.componentType) (hno : field ∉ Builtin.hideable) :
    record.get? field = (Dict.get? k.fields field).map (w.render l r) := by
  rw [H.get field hf, H.shown field hf hno, if_pos rfl]

/-- A field that the kind has and that is never hidden is found. -/
theorem found {v : Value} (hv : Dict.get? k.fields field = some v)
    (hno : field ∉ Builtin.hideable) : record.get? field = some (w.render l r v) := by
  have hf : field ∈ Builtin.fieldNames k.componentType :=
    (Kind.keys_fields H.built.isBuiltin).subset (Dict.mem_keys_iff.mpr ⟨v, hv⟩)
  rw [H.seen hf hno, hv, Option.map_some]

/-- A component field is as it should be, and what is read of it are the uses of its components. -/
theorem held {cs : List Component} (h : k.HoldsAt field cs) : record.FitsAt field ∧
    record.valuesAt field = cs.map fun c => w.written l r c.id := by
  obtain ⟨v, hv, hholds⟩ := h.value
  have hget := H.found hv h.shown
  obtain ⟨hfits, hvalues⟩ := rendered_held (w := w) (l := l) (r := r) hholds
  exact ⟨(Record.fitsAt_some hget).mpr hfits, (Record.valuesAt_some hget).trans hvalues⟩

/-- Every component field is as it should be. -/
theorem fits (hf : field ∈ Builtin.componentFields k.componentType) : record.FitsAt field := by
  obtain ⟨cs, -, h⟩ := exists_left (Kind.groups_held H.built.isBuiltin).flip hf
  exact (H.held h).1

/-- Each question is answered by what stands for the components in its field. -/
theorem asked : Forall₂ (fun q cs => Forall₂ (reader.Yields W R record q.1) q.2 cs)
    (record.questions (Builtin.componentFields record.componentType)) k.groups := by
  rw [H.type, Record.questions, List.forall₂_map_left_iff]
  refine (Kind.groups_held H.built.isBuiltin).imp fun field cs hfield => ?_
  rw [(H.held hfield).2, List.forall₂_map_left_iff, List.forall₂_same]
  exact fun c hc => H.component field c (hfield.mem hc)

theorem slots {s : Slots} {rest : Dict Value} (hk : k.fields = s.fields ++ rest) (hs : s.Made) :
    record.slots = .ok s := by
  refine Record.slots_ok hs ?_ ?_
  · rw [← render_propertyList (w := w) (l := l) (r := r)]
    exact H.found (by simp [hk, Slots.fields, Dict.get?]) (by decide)
  · rw [← render_propertyList (w := w) (l := l) (r := r)]
    exact H.found (by simp [hk, Slots.fields, Dict.get?]) (by decide)

/-- A text that the kind always has. -/
theorem text {text : String} (hv : Dict.get? k.fields field = some (.text text))
    (hno : field ∉ Builtin.hideable) : record.requiredText field = .ok text := by
  refine Record.requiredText_ok ?_
  rw [H.found hv hno, render_text]

/-- A text that the kind may have and the policy may hide. -/
theorem optionalText {text : Option String} (hf : field ∈ Builtin.fieldNames k.componentType)
    (hv : Dict.get? k.fields field = text.map .text) :
    record.optionalText field = .ok (seenOr (shows k.componentType field) text none) := by
  refine Record.optionalText_ok ?_
  rw [H.get field hf, hv, seenOr]
  split <;> cases text <;> simp

/-- A truth value that the kind has and the policy may hide. -/
theorem optionalBool {b : Bool} (hf : field ∈ Builtin.fieldNames k.componentType)
    (hv : Dict.get? k.fields field = some (.bool b)) :
    record.optionalBool field = .ok (seenOr (shows k.componentType field) (some b) none) := by
  refine Record.optionalBool_ok ?_
  rw [H.get field hf, hv, seenOr]
  split <;> simp

/-- A mapping that the kind may have and the policy may hide. -/
theorem mapping? {entries : Option (Dict Tree)} (hf : field ∈ Builtin.fieldNames k.componentType)
    (hv : Dict.get? k.fields field = entries.map .mapping) :
    record.mapping? field = .ok (seenOr (shows k.componentType field) entries none) := by
  refine Record.mapping?_ok ?_
  rw [H.get field hf, hv, seenOr]
  cases entries with
  | none => split <;> rfl
  | some d =>
    split
    · rename_i hshown
      have hplain := H.plain (field, .mapping d) (Dict.mem_of_get? hv) hshown
      rw [Option.map_some, Option.map_some, render_mapping hplain, Option.map_some]
    · rfl

theorem mapping {entries : Dict Tree} (hf : field ∈ Builtin.fieldNames k.componentType)
    (hv : Dict.get? k.fields field = some (.mapping entries)) :
    record.mapping field = .ok (seenOr (shows k.componentType field) entries []) := by
  have hread : record.mapping? field =
      .ok (seenOr (shows k.componentType field) (some entries) none) := H.mapping? hf hv
  rw [Record.mapping, hread]
  exact congrArg Except.ok (seenOr_getD _ entries [])

end Reading

namespace Reading

/-! Kinds that are made of data alone. -/

theorem modelConfig {c : ModelConfig}
    (H : w.Reading l r shows W reader record (.modelConfig c) R) :
    Builtin.MakesConfig record (c.hide shows) := by
  have hnames : Builtin.fieldNames (Kind.modelConfig c).componentType = Builtin.configFields := by
    cases hp : c.provider <;> simp [Kind.componentType, hp] <;> rfl
  have hfields : ∀ {field}, field ∈ Builtin.configFields →
      field ∈ Builtin.fieldNames (Kind.modelConfig c).componentType := fun h => hnames ▸ h
  have hurl : Dict.get? (Kind.modelConfig c).fields "url" = c.url.map .text := by
    cases hp : c.parameters <;>
      simp [Kind.fields, ModelConfig.fields, Dict.get?_append, get?_optionalText, Dict.get?, hp]
  have hmodel : Dict.get? (Kind.modelConfig c).fields "modelId" = some (.text c.modelId) := by
    simp [Kind.fields, ModelConfig.fields, Dict.get?_append, get?_optionalText, Dict.get?]
  have hkey : Dict.get? (Kind.modelConfig c).fields "apiKey" = c.apiKey.map .text := by
    cases hp : c.parameters <;>
      simp [Kind.fields, ModelConfig.fields, Dict.get?_append, get?_optionalText, Dict.get?, hp]
  have htype : Dict.get? (Kind.modelConfig c).fields "apiType" = c.apiType.map .text := by
    cases hp : c.parameters <;>
      simp [Kind.fields, ModelConfig.fields, Dict.get?_append, get?_optionalText, Dict.get?, hp]
  have hparameters : Dict.get? (Kind.modelConfig c).fields "defaultGenerationParameters" =
      c.parameters.map .mapping := by
    cases hp : c.parameters <;>
      simp [Kind.fields, ModelConfig.fields, Dict.get?_append, get?_optionalText, Dict.get?, hp]
  have hurlRead := H.optionalText (hfields (by decide)) hurl
  rw [H.shown _ (hfields (by decide)) (by decide), seenOr_true] at hurlRead
  have hmodelRead := H.text hmodel (by decide)
  have hkeyRead := H.optionalText (hfields (by decide)) hkey
  have htypeRead := H.optionalText (hfields (by decide)) htype
  have hparametersRead := H.mapping? (hfields (by decide)) hparameters
  rw [H.shown _ (hfields (by decide)) (by decide), seenOr_true] at hparametersRead
  refine ⟨?_, hmodelRead, hkeyRead, htypeRead, hparametersRead⟩
  split
  · rename_i hrequires
    obtain ⟨url, hsome⟩ := Option.ne_none_iff_exists'.mp (H.built hrequires)
    have hrequired : some <$> record.requiredText "url" = .ok c.url := by
      rw [Record.requiredText, hurlRead, hsome]
      rfl
    exact hrequired
  · exact hurlRead

/-- Where a tool runs is read back by its type. -/
theorem toolSite {tool : Tool} (H : w.Reading l r shows W reader record (.tool tool) R) :
    Builtin.MakesSite record (tool.site.hide shows) := by
  have htype := H.type
  rw [Kind.componentType, Tool.componentType] at htype
  cases hs : tool.site with
  | server =>
    simp only [hs] at htype
    exact .server htype
  | client =>
    simp only [hs] at htype
    exact .client htype
  | remote e =>
    simp only [hs] at htype
    have hsite : (Kind.tool tool).fields = tool.slots.fields ++ e.fields ++
        [("requiresConfirmation", .bool tool.requiresConfirmation)] := by
      rw [Kind.fields, Tool.fields, hs]
    have hremote : (Kind.tool tool).componentType = "RemoteTool" := by
      rw [← H.type, htype]
    have hfields : ∀ {field}, field ∈ Builtin.toolFields →
        field ∈ Builtin.fieldNames (Kind.tool tool).componentType := fun h => by
      rw [hremote]
      exact h
    have hurl : Dict.get? (Kind.tool tool).fields "url" = some (.text e.url) := by
      simp [hsite, Slots.fields, Endpoint.fields, Dict.get?]
    have hmethod : Dict.get? (Kind.tool tool).fields "httpMethod" =
        (some e.httpMethod).map .text := by
      simp [hsite, Slots.fields, Endpoint.fields, Dict.get?]
    have hheaders : Dict.get? (Kind.tool tool).fields "apiHeaders" =
        some (.mapping e.apiHeaders) := by
      simp [hsite, Slots.fields, Endpoint.fields, Dict.get?]
    have hsecret : Dict.get? (Kind.tool tool).fields "sensitiveHeaders" =
        some (.mapping e.sensitiveHeaders) := by
      simp [hsite, Slots.fields, Endpoint.fields, Dict.get?]
    have hdata : Dict.get? (Kind.tool tool).fields "data" = some (.mapping e.data) := by
      simp [hsite, Slots.fields, Endpoint.fields, Dict.get?]
    have hmethodRead := H.optionalText (hfields (by decide)) hmethod
    have hheadersRead := H.mapping (hfields (by decide)) hheaders
    have hsecretRead := H.mapping (hfields (by decide)) hsecret
    have hdataRead := H.mapping (hfields (by decide)) hdata
    rw [H.shown _ (hfields (by decide)) (by decide), seenOr_true] at hmethodRead
    rw [H.shown _ (hfields (by decide)) (by decide), seenOr_true] at hheadersRead
    rw [H.shown _ (hfields (by decide)) (by decide), seenOr_true] at hdataRead
    rw [hremote] at hsecretRead
    exact .remote htype ⟨H.text hurl (by decide), ⟨_, hmethodRead, rfl⟩, hheadersRead, hsecretRead,
      hdataRead⟩

theorem tool {tool : Tool} (H : w.Reading l r shows W reader record (.tool tool) R) :
    Builtin.MakesTool record (tool.hide shows) := by
  have hmem : "requiresConfirmation" ∈ Builtin.fieldNames (Kind.tool tool).componentType := by
    cases hs : tool.site <;>
      simp [Kind.componentType, Tool.componentType, hs, Builtin.fieldNames, Builtin.toolFields]
  have hconfirmation : Dict.get? (Kind.tool tool).fields "requiresConfirmation" =
      some (.bool tool.requiresConfirmation) := by
    cases hs : tool.site <;>
      simp [Kind.fields, Tool.fields, hs, Slots.fields, Endpoint.fields, Dict.get?]
  have hslots := H.slots (List.append_assoc ..) H.built
  exact ⟨H.toolSite, hslots, _, H.optionalBool hmem hconfirmation, (seenOr_getD _ _ _).symm⟩

section Restores
variable {S : Component → Component → Prop} {answers : List (List Component)} (hS : Standing S)
include hS

/-! What stands for the components of a kind makes it again. -/

theorem agent {c : Component} {p : String} {ts : List Component} {h : Bool} {s : Slots}
    (H : w.Reading l r shows W reader record (.agent c p ts h s) R)
    (hanswers : Forall₂ (Forall₂ S) [[c], ts] answers) :
    ∃ k', Builtin.Makes record answers k' ∧ Kind.Restored shows S (.agent c p ts h s) k' := by
  obtain ⟨hconfig, htools, hslots⟩ := H.built
  obtain _ | ⟨_ | ⟨hc, ⟨⟩⟩, _ | ⟨hts, ⟨⟩⟩⟩ := hanswers
  obtain ⟨hconfig', htools'⟩ := hS.agent hc hts hconfig htools
  have hp : Dict.get? (Kind.agent c p ts h s).fields "systemPrompt" = some (.text p) := by
    simp [Kind.fields, Slots.fields, Dict.get?]
  have hh : Dict.get? (Kind.agent c p ts h s).fields "humanInTheLoop" = some (.bool h) := by
    simp [Kind.fields, Slots.fields, Dict.get?]
  have hmakes := Builtin.Makes.agent H.type (H.text hp (by decide)) hconfig'
    (H.fits (by simp [Kind.componentType, Builtin.componentFields])) htools' (H.slots rfl hslots)
    (H.optionalBool (by simp [Kind.componentType, Builtin.fieldNames]) hh)
  rw [Kind.componentType, seenOr_getD] at hmakes
  exact ⟨_, hmakes, .agent p h s hc hts⟩

theorem swarm {f : Component} {rs : List (Component × Component)}
    (H : w.Reading l r shows W reader record (.swarm f rs) R)
    (hanswers : Forall₂ (Forall₂ S) [[f], Kind.heldPairs rs] answers) :
    ∃ k', Builtin.Makes record answers k' ∧ Kind.Restored shows S (.swarm f rs) k' := by
  obtain _ | ⟨_ | ⟨hf, ⟨⟩⟩, _ | ⟨hcs, ⟨⟩⟩⟩ := hanswers
  obtain ⟨rs', rfl, hrs⟩ := Kind.pairs_of_heldPairs hcs
  exact ⟨_, .swarm H.type (H.fits (by simp [Kind.componentType, Builtin.componentFields]))
    (hS.swarm hf hrs H.built), .swarm hf hrs⟩

theorem managerWorkers {m : Component} {ws : List Component}
    (H : w.Reading l r shows W reader record (.managerWorkers m ws) R)
    (hanswers : Forall₂ (Forall₂ S) [[m], ws] answers) :
    ∃ k', Builtin.Makes record answers k' ∧ Kind.Restored shows S (.managerWorkers m ws) k' := by
  obtain _ | ⟨_ | ⟨hm, ⟨⟩⟩, _ | ⟨hws, ⟨⟩⟩⟩ := hanswers
  exact ⟨_, .managerWorkers H.type (H.fits (by simp [Kind.componentType, Builtin.componentFields]))
    (hS.managerWorkers hm hws H.built), .managerWorkers hm hws⟩

theorem flow {n : Component} {ns cs ds : List Component} {s : Slots}
    (H : w.Reading l r shows W reader record (.flow n ns cs ds s) R)
    (hanswers : Forall₂ (Forall₂ S) [[n], ns, cs, ds] answers) :
    ∃ k', Builtin.Makes record answers k' ∧ Kind.Restored shows S (.flow n ns cs ds s) k' := by
  obtain ⟨hnodes, hcontrol, hdata, hslots⟩ := H.built
  obtain _ | ⟨_ | ⟨hn, ⟨⟩⟩, _ | ⟨hns, _ | ⟨hcs, _ | ⟨hds, ⟨⟩⟩⟩⟩⟩ := hanswers
  obtain ⟨hcontrol', hdata'⟩ := hS.flowEdges hcs hds hcontrol hdata
  have hfits : ∀ field ∈ ["nodes", "controlFlowConnections", "dataFlowConnections"],
      record.FitsAt field := fun field hfield => H.fits (List.mem_cons_of_mem _ hfield)
  simp only [List.forall_mem_cons] at hfits
  exact ⟨_, .flow H.type hfits.1 (hS.flowNodes hn hns hnodes) hfits.2.1 hcontrol' hfits.2.2.1 hdata'
    (H.slots rfl hslots), .flow s hn hns hcs hds⟩

theorem controlFlowEdge {f d : Component} {b : Option String}
    (H : w.Reading l r shows W reader record (.controlFlowEdge f b d) R)
    (hanswers : Forall₂ (Forall₂ S) [[f], [d]] answers) :
    ∃ k', Builtin.Makes record answers k' ∧
      Kind.Restored shows S (.controlFlowEdge f b d) k' := by
  obtain ⟨_, hsource, hbuilt⟩ := bind_ok H.built
  obtain ⟨_, htarget, -⟩ := bind_ok hbuilt
  obtain _ | ⟨_ | ⟨hf, ⟨⟩⟩, _ | ⟨_ | ⟨hd, ⟨⟩⟩, ⟨⟩⟩⟩ := hanswers
  obtain ⟨hsource', htarget'⟩ := hS.controlFlowEdge hf hd hsource htarget
  have hb : Dict.get? (Kind.controlFlowEdge f b d).fields "fromBranch" = b.map .text := by
    cases b <;> simp [Kind.fields, AgentGraph.optionalText, Dict.get?]
  have hmem : "fromBranch" ∈ Builtin.fieldNames (Kind.controlFlowEdge f b d).componentType := by
    simp [Kind.componentType, Builtin.fieldNames]
  have hbranch := H.optionalText hmem hb
  rw [H.shown _ hmem (by decide), seenOr_true] at hbranch
  exact ⟨_, .controlFlowEdge H.type hsource' htarget' hbranch, .controlFlowEdge b hf hd⟩

theorem dataFlowEdge {c d : Component} {o i : String}
    (H : w.Reading l r shows W reader record (.dataFlowEdge c o d i) R)
    (hanswers : Forall₂ (Forall₂ S) [[c], [d]] answers) :
    ∃ k', Builtin.Makes record answers k' ∧ Kind.Restored shows S (.dataFlowEdge c o d i) k' := by
  obtain _ | ⟨_ | ⟨hc, ⟨⟩⟩, _ | ⟨_ | ⟨hd, ⟨⟩⟩, ⟨⟩⟩⟩ := hanswers
  have ho : Dict.get? (Kind.dataFlowEdge c o d i).fields "sourceOutput" = some (.text o) := by
    simp [Kind.fields, Dict.get?]
  have hi : Dict.get? (Kind.dataFlowEdge c o d i).fields "destinationInput" = some (.text i) := by
    simp [Kind.fields, Dict.get?]
  exact ⟨_, .dataFlowEdge H.type (H.text ho (by decide)) (H.text hi (by decide))
    (hS.dataFlowEdge hc hd H.built), .dataFlowEdge o i hc hd⟩

theorem node {role : NodeRole} {s : Slots}
    (H : w.Reading l r shows W reader record (.node role s) R)
    (hanswers : Forall₂ (Forall₂ S) (Kind.node role s).groups answers) :
    ∃ k', Builtin.Makes record answers k' ∧ Kind.Restored shows S (.node role s) k' := by
  obtain ⟨hrole, hs⟩ := H.built
  have htype : record.componentType = role.componentType := H.type
  have hnode : record.componentType ∈ Builtin.nodeTypes := by
    rw [htype]
    cases role <;> simp [NodeRole.componentType, Builtin.nodeTypes]
  have hfields : (Kind.node role s).fields = s.fields ++ role.fields := rfl
  have hslots := H.slots hfields hs
  have hmakes {role' : NodeRole} (hrole' : Builtin.MakesRole record s answers role')
      (hrestored : NodeRole.Restored S role role') :
      ∃ k', Builtin.Makes record answers k' ∧ Kind.Restored shows S (.node role s) k' :=
    ⟨_, .node hnode hslots hrole', .node s hrestored⟩
  cases role with
  | start =>
    cases hanswers
    exact hmakes (.start htype) .start
  | finish b =>
    cases hanswers
    have hb : Dict.get? (Kind.node (.finish b) s).fields "branchName" = b.map .text := by
      simp [Kind.fields, NodeRole.fields, Slots.fields, get?_optionalText, Dict.get?]
    have hmem : "branchName" ∈ Builtin.fieldNames (Kind.node (.finish b) s).componentType := by
      simp [Kind.componentType, NodeRole.componentType, Builtin.fieldNames]
    have hbranch := H.optionalText hmem hb
    rw [H.shown _ hmem (by decide), seenOr_true] at hbranch
    exact hmakes (.finish htype hbranch) (.finish b)
  | llm c p =>
    obtain _ | ⟨_ | ⟨hc, ⟨⟩⟩, ⟨⟩⟩ := hanswers
    have hp : Dict.get? (Kind.node (.llm c p) s).fields "promptTemplate" = some (.text p) := by
      simp [Kind.fields, NodeRole.fields, Slots.fields, Dict.get?]
    exact hmakes (.llm htype (H.text hp (by decide)) (hS.llmNode hc hrole)) (.llm p hc)
  | tool c =>
    obtain _ | ⟨_ | ⟨hc, ⟨⟩⟩, ⟨⟩⟩ := hanswers
    exact hmakes (.tool htype (hS.toolNode hc hrole)) (.tool hc)
  | agent c =>
    obtain _ | ⟨_ | ⟨hc, ⟨⟩⟩, ⟨⟩⟩ := hanswers
    exact hmakes (.agent htype (hS.agentNode hc hrole)) (.agent hc)
  | flow c =>
    obtain _ | ⟨_ | ⟨hc, ⟨⟩⟩, ⟨⟩⟩ := hanswers
    exact hmakes (.flow htype (hS.flowNode hc hrole)) (.flow hc)
  | branching m =>
    cases hanswers
    have hm : Dict.get? (Kind.node (.branching m) s).fields "mapping" =
        some (.mapping (Dict.mapValues .string m)) := by
      simp [Kind.fields, NodeRole.fields, Slots.fields, Dict.get?]
    have hmem : "mapping" ∈ Builtin.fieldNames (Kind.node (.branching m) s).componentType := by
      simp [Kind.componentType, NodeRole.componentType, Builtin.fieldNames]
    have hplain := H.plain ("mapping", .mapping (Dict.mapValues .string m)) (Dict.mem_of_get? hm)
      (H.shown "mapping" hmem (by decide))
    have hread : record.textMapping "mapping" = .ok m := by
      refine Record.textMapping_ok ?_
      rw [H.found hm (by decide), render_mapping hplain]
    exact hmakes (.branching htype hread) (.branching m)

/-- Whatever the kind, answers that stand for its components make it again. -/
theorem restores (H : w.Reading l r shows W reader record k R)
    (hanswers : Forall₂ (Forall₂ S) k.groups answers) :
    ∃ k', Builtin.Makes record answers k' ∧ Kind.Restored shows S k k' := by
  cases k with
  | modelConfig c =>
    cases hanswers
    have hprovider : Provider.ofComponentType? record.componentType =
        some (c.hide shows).provider := by
      rw [H.type, Kind.componentType, ModelConfig.hide]
      cases c.provider <;> decide
    exact ⟨_, .modelConfig hprovider H.modelConfig, .modelConfig c⟩
  | tool t =>
    cases hanswers
    exact ⟨_, .tool H.tool, .tool t⟩
  | agent c p ts h s => exact agent hS H hanswers
  | swarm f rs => exact swarm hS H hanswers
  | managerWorkers m ws => exact managerWorkers hS H hanswers
  | flow n ns cs ds s => exact flow hS H hanswers
  | node role s => exact node hS H hanswers
  | controlFlowEdge f b d => exact controlFlowEdge hS H hanswers
  | dataFlowEdge c o d i => exact dataFlowEdge hS H hanswers
  | extension type fields => exact H.built.elim

end Restores

/-- Whatever its kind, a record of the builtin catalog is read back. -/
theorem read (H : w.Reading l r shows W reader record k R) :
    W.Runs u (Builtin.read reader record) fun t k' => Kind.Restored shows (R t) k k' := by
  refine Reader.runs_of_follows (Q := fun S k' => Kind.Restored shows S k k') H.stays
    (fun t => (H.readBack t).standing) H.asked ?_ u
  intro S answers hS hanswers
  obtain ⟨k', hmakes, hk⟩ := restores hS H hanswers
  exact ⟨k', Builtin.follows_read hmakes, hk⟩

end Reading
end Writer
end AgentGraph
