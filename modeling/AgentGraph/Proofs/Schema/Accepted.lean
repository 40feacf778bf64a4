import AgentGraph.Proofs.Schema.Reading
/-!
# Which trees are read as schemas

A tree is read as a schema just if each tree that the reader comes to is a mapping whose own entries are in
order (`Checked`): no refused combinator, no bad title, known type names. From a mapping the reader goes on to
the alternatives of a union, and to items, properties and the schema of other keys where a type name asks for
them (`Slot.Asked`). What stands at a place that no type name asks for is passed over, whatever it is.
-/
namespace AgentGraph

namespace Schema

/-- The names of the types. -/
def typeNames : List String :=
  ["null", "boolean", "integer", "number", "string", "array", "object"]

/-- The places of a schema where other schemas stand. -/
inductive Slot where
  | items
  | alternatives
  | properties
  | additional

/-- What a mapping gives as the names of its types; beside alternatives none count. -/
def named (d : Dict Tree) : List Tree :=
  match Dict.get? d "anyOf", Dict.get? d "type" with
  | none, some (.list names) => names
  | none, some t => [t]
  | _, _ => []

namespace Slot

/-- The trees that stand at a place of a mapping. A reserved name is no property, and a truth value is no
schema for other keys. -/
def Holds (d : Dict Tree) : Slot → Tree → Prop
  | items, u => Dict.get? d "items" = some u
  | alternatives, u => ∃ us, Dict.get? d "anyOf" = some (.list us) ∧ u ∈ us
  | properties, u => ∃ e, Dict.get? d "properties" = some (.map e) ∧
      ∃ name, (name, u) ∈ e ∧ isReservedKey name = false
  | additional, u => Dict.get? d "additionalProperties" = some u ∧ ∀ b, u ≠ .bool b

/-- Whether the types of a mapping ask for what stands at a place. -/
def Asked (d : Dict Tree) : Slot → Prop
  | alternatives => True
  | items => .string "array" ∈ named d
  | properties | additional => .string "object" ∈ named d

theorem sizeOf_lt_of_holds {d : Dict Tree} {u : Tree} {slot : Slot} (h : slot.Holds d u) :
    sizeOf u < sizeOf (Tree.map d) := by
  have hget {key : String} {t : Tree} (h : Dict.get? d key = some t) :
      sizeOf t < sizeOf (Tree.map d) := by
    have hlt : sizeOf t < sizeOf d := Dict.sizeOf_lt_of_mem (Dict.mem_of_get? h)
    rw [Tree.map.sizeOf_spec]
    omega
  cases slot with
  | items => exact hget h
  | alternatives =>
    obtain ⟨us, hus, hu⟩ := h
    have hlist := hget hus
    have hlt := List.sizeOf_lt_of_mem hu
    rw [Tree.list.sizeOf_spec] at hlist
    omega
  | properties =>
    obtain ⟨e, he, name, hu, -⟩ := h
    have hmap := hget he
    have hlt := Dict.sizeOf_lt_of_mem hu
    rw [Tree.map.sizeOf_spec] at hmap
    omega
  | additional => exact hget h.1

theorem forall_iff {P : Slot → Prop} :
    (∀ slot, P slot) ↔ P items ∧ P alternatives ∧ P properties ∧ P additional := by
  constructor
  · exact fun h => ⟨h _, h _, h _, h _⟩
  · rintro ⟨hitems, halternatives, hproperties, hadditional⟩ slot
    cases slot <;> assumption

end Slot

/-- A tree reached from another by steps into places that a test allows. -/
inductive Reached (test : Dict Tree → Slot → Prop) : Tree → Tree → Prop
  | self (t : Tree) : Reached test t t
  | step {d : Dict Tree} {slot : Slot} {t u : Tree} (hslot : test d slot) (ht : slot.Holds d t)
    (h : Reached test t u) : Reached test (.map d) u

/-- The own entries of a mapping are those of a schema, whatever stands at its places. -/
structure Checked (d : Dict Tree) : Prop where
  combinators : ∀ key ∈ refusedCombinators, Dict.get? d key = none
  title : ∀ t, Dict.get? d "title" = some t →
    t = .null ∨ ∃ text, t = .string text ∧ isTitle text = true
  description : ∀ t, Dict.get? d "description" = some t → t = .null ∨ ∃ text, t = .string text
  alternatives : ∀ t, Dict.get? d "anyOf" = some t → ∃ ts, t = .list ts
  names : ∀ t ∈ named d, ∃ name ∈ typeNames, t = .string name
  properties : .string "object" ∈ named d →
    ∀ t, Dict.get? d "properties" = some t → ∃ e, t = .map e

/-- The tree is read as a schema. -/
def Accepted (t : Tree) : Prop := ∃ s, ofTree t = .ok s

section OneNode
variable {d : Dict Tree} {parts : Parts}

theorem readTitle_accepts : (∃ title, readTitle d = .ok title) ↔ ∀ t, Dict.get? d "title" = some t →
    t = .null ∨ ∃ text, t = .string text ∧ isTitle text = true := by
  unfold readTitle
  cases Dict.get? d "title" with
  | none => simp
  | some t =>
    cases t with
    | string text => by_cases htitle : isTitle text = true <;> simp [checkTitle, htitle]
    | _ => simp

theorem readDescription_accepts : (∃ description, readDescription d = .ok description) ↔
    ∀ t, Dict.get? d "description" = some t → t = .null ∨ ∃ text, t = .string text := by
  unfold readDescription
  cases Dict.get? d "description" with
  | none => simp
  | some t => cases t <;> simp

theorem ofTrees_accepts {ts : List Tree} : (∃ xs, ofTrees ts = .ok xs) ↔ ∀ t ∈ ts, Accepted t := by
  induction ts with
  | nil => simp [ofTrees]
  | cons t rest ih =>
    rw [ofTrees, List.forall_mem_cons, ← ih]
    simp [Accepted]

theorem ofEntries_accepts {e : Dict Tree} : (∃ ps, ofEntries e = .ok ps) ↔
    ∀ p ∈ e, isReservedKey p.1 = false → Accepted p.2 := by
  induction e with
  | nil => simp [ofEntries]
  | cons p rest ih =>
    obtain ⟨key, t⟩ := p
    rw [ofEntries, List.forall_mem_cons, ← ih]
    cases isReservedKey key <;> simp [Accepted]

theorem items_accepts : (∀ x, items? d = some x → ∃ s, x = .ok s) ↔
    ∀ u, Slot.items.Holds d u → Accepted u := by
  rw [items?_eq]
  simp [Slot.Holds, Accepted]

theorem properties_accepts : (∀ x, properties? d = some x → ∃ ps, x = .ok ps) ↔
    (∀ t, Dict.get? d "properties" = some t → ∃ e, t = .map e) ∧
      ∀ u, Slot.properties.Holds d u → Accepted u := by
  rw [properties?_eq]
  simp only [Slot.Holds]
  cases Dict.get? d "properties" with
  | none => simp
  | some t =>
    cases t with
    | map e =>
      simp only [Option.map_some, Option.some.injEq, forall_eq', ofEntries_accepts, Tree.map.injEq,
        exists_eq', true_and]
      constructor
      · rintro h u ⟨e', rfl, name, hu, hname⟩
        exact h (name, u) hu hname
      · exact fun h p hp hname => h p.2 ⟨e, rfl, p.1, hp, hname⟩
    | _ => simp

theorem additional_accepts : (∃ a, additionalOf d = .ok a) ↔
    ∀ u, Slot.additional.Holds d u → Accepted u := by
  rw [additionalOf_eq]
  simp only [Slot.Holds]
  cases Dict.get? d "additionalProperties" with
  | none => simp
  | some t =>
    cases t with
    | bool b =>
      refine iff_of_true ⟨_, rfl⟩ ?_
      rintro u ⟨hu, hbool⟩
      exact absurd (Option.some.inj hu).symm (hbool b)
    | _ => simp [Accepted]

theorem alternatives_accepts : (∀ x, alternatives? d = some x → ∃ xs, x = .ok xs) ↔
    (∀ t, Dict.get? d "anyOf" = some t → ∃ ts, t = .list ts) ∧
      ∀ u, Slot.alternatives.Holds d u → Accepted u := by
  rw [alternatives?_eq]
  simp only [Slot.Holds]
  cases Dict.get? d "anyOf" with
  | none => simp
  | some t => cases t <;> simp [ofTrees_accepts]

/-- A type name is understood if it is known and what it asks for can be read. -/
theorem ofTypeName_accepts {name : String} : (∃ type, ofTypeName parts name = .ok type) ↔
    name ∈ typeNames ∧ (name = "array" → ∀ x, parts.items = some x → ∃ s, x = .ok s) ∧
      (name = "object" → (∀ x, parts.properties = some x → ∃ ps, x = .ok ps) ∧
        ∃ a, parts.additional = .ok a) := by
  unfold ofTypeName
  split
  · simp [typeNames]
  · simp [typeNames]
  · simp [typeNames]
  · simp [typeNames]
  · simp [typeNames]
  · cases parts.items <;> simp [typeNames]
  · cases parts.properties <;> simp [typeNames]
  · have hunknown : name ∉ typeNames := by simp_all [typeNames]
    simp [hunknown]

theorem ofTypeNames_accepts {ts : List Tree} : (∃ xs, ofTypeNames parts ts = .ok xs) ↔
    ∀ t ∈ ts, ∃ name, t = .string name ∧ ∃ type, ofTypeName parts name = .ok type := by
  induction ts with
  | nil => simp [ofTypeNames]
  | cons t rest ih =>
    rw [List.forall_mem_cons, ← ih]
    cases t <;> simp [ofTypeNames]

theorem readNamedType_accepts (hany : Dict.get? d "anyOf" = none) :
    (∃ type, readNamedType parts (Dict.get? d "type") = .ok type) ↔
      ∀ t ∈ named d, ∃ name, t = .string name ∧ ∃ type, ofTypeName parts name = .ok type := by
  rw [named, hany]
  cases Dict.get? d "type" with
  | none => simp [readNamedType]
  | some t => cases t <;> simp [readNamedType, ofTypeNames_accepts]

/-- What each name among those of a list needs, said name by name or of the two that need more than to be
known. -/
theorem forall_named_iff {ts : List Tree} {I O : Prop} :
    (∀ t ∈ ts, ∃ name, t = .string name ∧
      name ∈ typeNames ∧ (name = "array" → I) ∧ (name = "object" → O)) ↔
    (∀ t ∈ ts, ∃ name ∈ typeNames, t = .string name) ∧ (.string "array" ∈ ts → I) ∧
      (.string "object" ∈ ts → O) := by
  constructor
  · intro h
    refine ⟨fun t ht => ?_, fun harray => ?_, fun hobject => ?_⟩
    · obtain ⟨name, rfl, hname, -⟩ := h t ht
      exact ⟨name, hname, rfl⟩
    · obtain ⟨name, heq, -, hneeds, -⟩ := h _ harray
      exact hneeds (Tree.string.inj heq).symm
    · obtain ⟨name, heq, -, -, hneeds⟩ := h _ hobject
      exact hneeds (Tree.string.inj heq).symm
  · rintro ⟨hnames, harray, hobject⟩ t ht
    obtain ⟨name, hname, rfl⟩ := hnames t ht
    exact ⟨name, rfl, hname, fun h => harray (h ▸ ht), fun h => hobject (h ▸ ht)⟩

/-- The type of a mapping can be read. -/
theorem readType_accepts : (∃ type, readType d = .ok type) ↔
    ((∀ t, Dict.get? d "anyOf" = some t → ∃ ts, t = .list ts) ∧
      (∀ t ∈ named d, ∃ name ∈ typeNames, t = .string name) ∧
      (.string "object" ∈ named d → ∀ t, Dict.get? d "properties" = some t → ∃ e, t = .map e)) ∧
      ∀ slot : Slot, slot.Asked d → ∀ u, slot.Holds d u → Accepted u := by
  have halternatives := alternatives_accepts (d := d)
  rw [Slot.forall_iff, readType]
  cases hany : Dict.get? d "anyOf" with
  | some t =>
    have hnamed : named d = [] := by simp [named, hany]
    obtain ⟨x, hx⟩ : ∃ x, alternatives? d = some x := by simp [alternatives?_eq, hany]
    rw [hx, hany] at halternatives
    simp only [Option.some.injEq, forall_eq'] at halternatives
    simp [hx, Slot.Asked, hnamed, halternatives]
  | none =>
    have hx : alternatives? d = none := by simp [alternatives?_eq, hany]
    have hnone : ∀ u, ¬ Slot.alternatives.Holds d u := by simp [Slot.Holds, hany]
    simp only [hx, readNamedType_accepts hany, ofTypeName_accepts, forall_named_iff, items_accepts,
      properties_accepts, additional_accepts, Slot.Asked]
    simp [hnone]
    tauto

/-- A mapping is read if its combinators, title, description and type are. -/
theorem accepted_map_iff : Accepted (.map d) ↔ refusedCombinators.find? (Dict.has d) = none ∧
    (∃ title, readTitle d = .ok title) ∧ (∃ description, readDescription d = .ok description) ∧
      ∃ type, readType d = .ok type := by
  rw [Accepted, ofTree, readType]
  cases refusedCombinators.find? (Dict.has d) with
  | some key => simp
  | none => cases alternatives? d <;> simp

/-- A mapping is read if its own entries are in order and what stands at the places that are asked for is
read. -/
theorem accepted_map_iff_checked : Accepted (.map d) ↔
    Checked d ∧ ∀ slot : Slot, slot.Asked d → ∀ u, slot.Holds d u → Accepted u := by
  have hcombinators : refusedCombinators.find? (Dict.has d) = none ↔
      ∀ key ∈ refusedCombinators, Dict.get? d key = none := by
    simp [List.find?_eq_none, Dict.get?_eq_none_iff, ← Dict.has_iff]
  rw [accepted_map_iff, hcombinators, readTitle_accepts, readDescription_accepts, readType_accepts]
  constructor
  · rintro ⟨hkeys, htitle, hdescription, ⟨hany, hnames, hproperties⟩, hslots⟩
    exact ⟨⟨hkeys, htitle, hdescription, hany, hnames, hproperties⟩, hslots⟩
  · rintro ⟨h, hslots⟩
    exact ⟨h.combinators, h.title, h.description, ⟨h.alternatives, h.names, h.properties⟩, hslots⟩

end OneNode

theorem Accepted.exists_map {t : Tree} (h : Accepted t) : ∃ d, t = .map d := by
  obtain ⟨s, h⟩ := h
  cases t with
  | map d => exact ⟨d, rfl⟩
  | _ =>
    rw [ofTree] at h
    · cases h
    · intro entries
      exact Tree.noConfusion

/-- Every tree that the reader comes to is read. -/
theorem Accepted.of_reached {t u : Tree} (h : Accepted t) (hu : Reached Slot.Asked t u) :
    Accepted u := by
  induction hu with
  | self _ => exact h
  | step hslot ht _ ih => exact ih ((accepted_map_iff_checked.mp h).2 _ hslot _ ht)

theorem accepted_of_reached_checked {t : Tree}
    (h : ∀ u, Reached Slot.Asked t u → ∃ d, u = .map d ∧ Checked d) :
    Accepted t := by
  obtain ⟨d, rfl, hd⟩ := h t (.self t)
  refine accepted_map_iff_checked.mpr ⟨hd, fun slot hslot u hu => ?_⟩
  have hlt : sizeOf u < sizeOf (Tree.map d) := Slot.sizeOf_lt_of_holds hu
  exact accepted_of_reached_checked fun v hv => h v (.step hslot hu hv)
termination_by sizeOf t

/-- A tree is read as a schema just if each tree that the reader comes to is a mapping with entries as
they should be: no refused combinator and no bad title among them. -/
theorem accepted_iff_reached {t : Tree} : (∃ s, ofTree t = .ok s) ↔
    ∀ u, Reached Slot.Asked t u → ∃ d, u = .map d ∧ Checked d := by
  constructor
  · intro h u hu
    have hread : Accepted u := Accepted.of_reached h hu
    obtain ⟨d, rfl⟩ := hread.exists_map
    exact ⟨d, rfl, (accepted_map_iff_checked.mp hread).1⟩
  · exact accepted_of_reached_checked

/-- A combinator under items that the type does not ask for is passed over. -/
theorem ofTree_passes_over_combinator :
    let t : Tree := .map [("type", .string "string"), ("items", .map [("oneOf", .list [])])]
    (∃ s, ofTree t = .ok s) ∧
      ∃ d, Reached (fun _ _ => True) t (.map d) ∧ Dict.has d "oneOf" = true := by
  intro t
  refine ⟨⟨ofType .string, rfl⟩, [("oneOf", .list [])], ?_, rfl⟩
  have hitems : Slot.items.Holds [("type", .string "string"), ("items", .map [("oneOf", .list [])])]
      (.map [("oneOf", .list [])]) := rfl
  exact .step trivial hitems (.self _)

end Schema
end AgentGraph
