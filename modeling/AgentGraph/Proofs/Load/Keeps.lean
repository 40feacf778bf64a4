import AgentGraph.Proofs.Load.Makes
import AgentGraph.Proofs.Load.Values
/-!
# What a run keeps, and how it fails

What the ids of a document stand for changes step by step while the document is loaded. A run keeps
a property of it, or fails in a way that is admitted. Reading a record fails for the record itself, or
as a component fails that the record uses; if it ends well, all that stands in the component fields of
a builtin kind was asked for.
-/
namespace AgentGraph

namespace Load
variable {α : Type} {I : Dict Resolution → Prop} {F : LoadError → Prop} {m : LoadM α}

/-- A run that keeps a property of what ids stand for. -/
abbrev KeepsIds (I : Dict Resolution → Prop) (F : LoadError → Prop) (m : LoadM α) (Q : α → Prop) :
    Prop :=
  Preserves (fun s => I s.resolution) F m Q

/-- Making up an id or a handle leaves alone what ids stand for. -/
theorem keeps_freshId : KeepsIds I F freshId fun _ => True := fun _ hs => ⟨trivial, hs⟩

theorem keeps_freshHandle : KeepsIds I F freshHandle fun _ => True := fun _ hs => ⟨trivial, hs⟩

end Load

namespace Tree

mutual
/-- The mappings in a tree that stand in no other mapping. -/
def mappings : Tree → List (Dict Tree)
  | .map entries => [entries]
  | .list items => mappingsInItems items
  | _ => []
/-- The mappings in the trees of a list that stand in no other mapping. -/
def mappingsInItems : List Tree → List (Dict Tree)
  | [] => []
  | t :: rest => mappings t ++ mappingsInItems rest
end

theorem mappings_list (items : List Tree) : (list items).mappings = items.flatMap mappings := by
  rw [mappings]
  induction items with
  | nil => rfl
  | cons t rest ih => rw [mappingsInItems, ih, List.flatMap_cons]

end Tree

open Load

/-- What is said of a reference with other fields beside it. -/
def crowdedReason (naming : NamingMode) (use : Dict Tree) : String :=
  "a " ++ naming.protocol.componentRef ++ " record holds no other fields, got " ++
    ", ".intercalate (Dict.keys use)

/-- A reader that, asked for a mapping that passes one test, keeps a property of what ids stand for
and establishes another test, or fails in an admitted way. -/
structure Reader.Answers (I : Dict Resolution → Prop) (F : LoadError → Prop)
    (H T : Dict Tree → Prop) (reader : Reader) : Prop where
  nested : ∀ use, H use → Dict.get? use reader.naming.protocol.componentRef = none →
    KeepsIds I F (reader.nested use) fun _ => T use
  referenced : ∀ id, H [(reader.naming.protocol.componentRef, .string id)] →
    KeepsIds I F (reader.referenced id) fun _ =>
      T [(reader.naming.protocol.componentRef, .string id)]
  crowded : ∀ use target, H use →
    Dict.get? use reader.naming.protocol.componentRef = some target → 1 < use.length →
    F (.malformedReference (crowdedReason reader.naming use))
  /-- A reference to something that is no text. -/
  odd : ∀ target, H [(reader.naming.protocol.componentRef, target)] →
    (∀ id, target ≠ .string id) → F (.malformedReference (Json.compact target))
  ofLocal : ∀ e, e.IsLocal → F e

namespace Reader
variable {I : Dict Resolution → Prop} {F : LoadError → Prop} {H T : Dict Tree → Prop}
  {reader : Reader} {r : Record} {field : String}

section Component
variable (hr : reader.Answers I F H T)
include hr

theorem keeps_componentOf {value : Tree} (h : ∀ use ∈ value.mappings, H use) :
    KeepsIds I F (reader.componentOf r field value) fun _ => ∀ use ∈ value.mappings, T use := by
  cases value with
  | map entries =>
    simp only [Tree.mappings, List.forall_mem_singleton] at h ⊢
    simp only [componentOf]
    cases href : Dict.get? entries reader.naming.protocol.componentRef with
    | none => exact hr.nested entries h href
    | some target =>
      simp only
      split
      · rename_i hlength
        exact Ends.throw (hr.crowded entries target h href hlength)
      · rename_i hlength
        obtain rfl := Dict.eq_singleton_of_get? href hlength
        cases target with
        | string id => exact hr.referenced id h
        | _ => exact Ends.throw (hr.odd _ h fun id hid => by cases hid)
  | _ => exact Ends.throw (hr.ofLocal _ trivial)

end Component

theorem keeps_bagOf (hr : reader.Answers I F H T) {fields : List (String × Tree)}
    {bag : Dict Value} (h : ∀ pair ∈ fields, ∀ use ∈ outermost reader.naming pair.2, H use) :
    KeepsIds I F (reader.bagOf r fields bag) fun _ => True := by
  have hasked : ∀ q ∈ bagQuestions reader.naming fields, ∀ value ∈ q.2,
      ∀ use ∈ value.mappings, H use :=
    List.forall_mem_map.mpr fun pair hpair => List.forall_mem_map.mpr fun use huse =>
      List.forall_mem_singleton.mpr (h pair hpair use huse)
  exact ((asks_bagOf fields bag).preserves hr.ofLocal fun q hq value hvalue =>
    keeps_componentOf hr (hasked q hq value hvalue)).mono fun _ _ => trivial

end Reader

namespace Builtin
variable {I : Dict Resolution → Prop} {F : LoadError → Prop} {H T : Dict Tree → Prop}
  {reader : Reader} {r : Record}

/-- What stands in some fields of a record passes a test. -/
def StandsIn (H : Dict Tree → Prop) (r : Record) (fields : List String) : Prop :=
  ∀ field ∈ fields, ∀ value, r.get? field = some value → ∀ use ∈ value.mappings, H use

/-- Reading a record of a builtin type asks for all that stands in its component fields. -/
theorem keeps_read (hr : reader.Answers I F H T)
    (h : StandsIn H r (componentFields r.componentType)) :
    KeepsIds I F (read reader r) fun _ => StandsIn T r (componentFields r.componentType) := by
  have hasked := Record.forall_parts Tree.mappings_list h
  refine (asks_read.preserves hr.ofLocal fun q hq value hvalue =>
    (Reader.keeps_componentOf hr (hasked q hq value hvalue)).mono
      fun _ htested => And.intro htested trivial).mono ?_
  rintro k ⟨answers, hanswers, hk⟩ field hfield value hvalue use huse
  obtain ⟨htested, -⟩ := (List.forall₂_and_left _ _).mp (Reader.forall₂_flatten hanswers)
  rw [Record.values_questions] at htested
  have hin : use ∈ (r.valuesAt field).flatMap Tree.mappings := by
    rw [Record.flatMap_valuesAt Tree.mappings_list (hk.fits field hfield), hvalue]
    exact huse
  obtain ⟨part, hpart, huse⟩ := List.mem_flatMap.mp hin
  exact htested part (List.mem_flatMap.mpr ⟨field, hfield, hpart⟩) use huse

end Builtin
end AgentGraph
