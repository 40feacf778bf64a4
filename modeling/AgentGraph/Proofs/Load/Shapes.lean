import AgentGraph.Load.Record
/-!
# How fields hold components

A component field of the catalog holds one component, a list of components or a list of pairs. Which
values of a record are read as components, and in which order, follows from this.
-/
namespace AgentGraph

namespace Builtin

/-- How the value of a field holds components: as one, as a list of them, or as a list of pairs. -/
inductive Shape where
  | one
  | list
  | pairs
  deriving DecidableEq

/-- The items of the pairs in a list, up to the first item that is no pair. -/
def pairItems : List Tree → List Tree
  | .list [first, second] :: rest => first :: second :: pairItems rest
  | _ => []

namespace Shape

/-- The values that are read as components, in order. -/
def values : Shape → Tree → List Tree
  | .one, value => [value]
  | .list, .list items => items
  | .pairs, .list items => pairItems items
  | _, _ => []

/-- A value is as its field wants it. -/
def Fits : Shape → Tree → Prop
  | .one, _ => True
  | .list, value => ∃ items, value = .list items
  | .pairs, value =>
    ∃ pairs : List (Tree × Tree), value = .list (pairs.map fun p => .list [p.1, p.2])

end Shape

theorem pairItems_pairs (pairs : List (Tree × Tree)) :
    pairItems (pairs.map fun p => .list [p.1, p.2]) = pairs.flatMap fun p => [p.1, p.2] := by
  induction pairs with
  | nil => rfl
  | cons p rest ih => rw [List.map_cons, pairItems, ih]; rfl

theorem forall_pairItems {P : Tree → Prop} (hlist : ∀ items, P (.list items) → ∀ t ∈ items, P t)
    {items : List Tree} (h : ∀ t ∈ items, P t) : ∀ t ∈ pairItems items, P t := by
  induction items using pairItems.induct with
  | case1 first second rest ih =>
    obtain ⟨hpair, hrest⟩ := List.forall_mem_cons.mp h
    have hboth := hlist _ hpair
    exact List.forall_mem_cons.mpr ⟨hboth first (by simp),
      List.forall_mem_cons.mpr ⟨hboth second (by simp), ih hrest⟩⟩
  | case2 items hnone =>
    rw [pairItems.eq_def]
    split
    · exact absurd rfl (hnone _ _ _)
    · simp

namespace Shape
variable {shape : Shape} {value : Tree}

/-- What passes from a list on to its items passes on to the values that are read. -/
theorem forall_values {P : Tree → Prop} (hlist : ∀ items, P (.list items) → ∀ t ∈ items, P t)
    (h : P value) : ∀ t ∈ shape.values value, P t := by
  unfold values
  split
  · exact List.forall_mem_singleton.mpr h
  · exact hlist _ h
  · exact forall_pairItems hlist (hlist _ h)
  · simp

/-- In a value that is as its field wants it, nothing stands beside the values that are read. -/
theorem flatMap_values {α : Type} {g : Tree → List α}
    (hlist : ∀ items, g (.list items) = items.flatMap g) (h : shape.Fits value) :
    (shape.values value).flatMap g = g value := by
  cases shape with
  | one => exact List.flatMap_singleton ..
  | list =>
    obtain ⟨items, rfl⟩ := h
    exact (hlist items).symm
  | pairs =>
    obtain ⟨pairs, rfl⟩ := h
    rw [values, pairItems_pairs, hlist, List.flatMap_map, List.flatMap_assoc]
    refine congrArg (List.flatMap · pairs) (funext fun p => ?_)
    simp [hlist]

theorem fits_pairs_head {items : List Tree} (h : Shape.pairs.Fits (.list (value :: items))) :
    ∃ first second, value = .list [first, second] := by
  obtain ⟨pairs, hpairs⟩ := h
  cases pairs with
  | nil => cases hpairs
  | cons p rest =>
    cases hpairs
    exact ⟨p.1, p.2, rfl⟩

theorem fits_pair {first second : Tree} {items : List Tree} :
    Shape.pairs.Fits (.list (.list [first, second] :: items)) ↔ Shape.pairs.Fits (.list items) := by
  constructor
  · rintro ⟨pairs, hpairs⟩
    cases pairs with
    | nil => cases hpairs
    | cons p rest =>
      cases hpairs
      exact ⟨rest, rfl⟩
  · rintro ⟨pairs, hpairs⟩
    cases hpairs
    exact ⟨(first, second) :: pairs, rfl⟩

end Shape

/-- How the component fields of the catalog hold components. -/
def shapeOf : String → Shape
  | "tools" | "workers" | "nodes" | "controlFlowConnections" | "dataFlowConnections" => .list
  | "relationships" => .pairs
  | _ => .one

end Builtin

namespace Record

/-- The values of a field that are read as components, in order. -/
def valuesAt (r : Record) (field : String) : List Tree :=
  match r.get? field with
  | none => []
  | some value => (Builtin.shapeOf field).values value

/-- The value of a field is as the field wants it, if there is one. -/
def FitsAt (r : Record) (field : String) : Prop :=
  ∀ value, r.get? field = some value → (Builtin.shapeOf field).Fits value

variable {r : Record} {field : String} {value : Tree}

theorem valuesAt_none (h : r.get? field = none) : r.valuesAt field = [] := by
  rw [valuesAt, h]

theorem valuesAt_some (h : r.get? field = some value) :
    r.valuesAt field = (Builtin.shapeOf field).values value := by
  rw [valuesAt, h]

theorem fitsAt_none (h : r.get? field = none) : r.FitsAt field := by
  intro value hvalue
  rw [h] at hvalue
  cases hvalue

theorem fitsAt_some (h : r.get? field = some value) :
    r.FitsAt field ↔ (Builtin.shapeOf field).Fits value :=
  ⟨fun hfits => hfits value h, fun hfits _ hother => Option.some.inj (h.symm.trans hother) ▸ hfits⟩

theorem fitsAt_one (h : Builtin.shapeOf field = .one) : r.FitsAt field := by
  intro value _
  rw [h]
  trivial

/-- In a field that is as it should be, nothing stands beside the values that are read. -/
theorem flatMap_valuesAt {α : Type} {g : Tree → List α}
    (hlist : ∀ items, g (.list items) = items.flatMap g) (h : r.FitsAt field) :
    (r.valuesAt field).flatMap g = ((r.get? field).map g).getD [] := by
  cases hvalue : r.get? field with
  | none =>
    rw [valuesAt_none hvalue]
    rfl
  | some value =>
    rw [valuesAt_some hvalue]
    exact Builtin.Shape.flatMap_values hlist ((fitsAt_some hvalue).mp h)

/-- What is asked for some component fields. -/
def questions (r : Record) (fields : List String) : List (String × List Tree) :=
  fields.map fun field => (field, r.valuesAt field)

theorem values_questions (fields : List String) :
    (r.questions fields).flatMap (·.2) = fields.flatMap r.valuesAt := List.flatMap_map ..

/-- What passes from a list on to its items is known of what is asked for, if it is known of the
fields. -/
theorem forall_questions {P : Tree → Prop} {fields : List String}
    (hlist : ∀ items, P (.list items) → ∀ t ∈ items, P t)
    (h : ∀ field ∈ fields, ∀ value, r.get? field = some value → P value) :
    ∀ q ∈ r.questions fields, ∀ value ∈ q.2, P value := by
  refine List.forall_mem_map.mpr fun field hfield => ?_
  unfold valuesAt
  split
  · simp
  · rename_i value hvalue
    exact Builtin.Shape.forall_values hlist (h field hfield value hvalue)

/-- So what is known of the parts of the fields is known of the parts of what is asked for. -/
theorem forall_parts {α : Type} {H : α → Prop} {parts : Tree → List α} {fields : List String}
    (hlist : ∀ items, parts (.list items) = items.flatMap parts)
    (h : ∀ field ∈ fields, ∀ value, r.get? field = some value → ∀ part ∈ parts value, H part) :
    ∀ q ∈ r.questions fields, ∀ value ∈ q.2, ∀ part ∈ parts value, H part := by
  refine forall_questions (fun items hitems t ht part hpart => hitems part ?_) h
  rw [hlist]
  exact List.mem_flatMap.mpr ⟨t, ht, hpart⟩

end Record
end AgentGraph
