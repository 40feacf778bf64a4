import AgentGraph.Proofs.Load.Keeps
import AgentGraph.Proofs.Load.Reading
/-!
# What a reading gives, place by place

A reader answers each mapping that stands for a component with a component that is related to it.
Then the components that a kind holds are related, in order, to the places of the record at which
components are used. A bag holds what was read for its fields, and of two fields of one name what
was read for the later one.
-/
namespace AgentGraph
open List (Forall₂)
open Load

namespace Load
variable {α : Type} {I : LoadState → Prop}

/-- A run that keeps a property of the state, and gives what fits if it ends well. -/
abbrev Delivers (I : LoadState → Prop) (m : LoadM α) (Q : α → Prop) : Prop :=
  Preserves I (fun _ => True) m Q

/-- A run that never ends well gives whatever one likes. -/
theorem Delivers.never {m : LoadM α} {P : α → Prop} (h : ∀ s a t, m s ≠ .ok (a, t)) :
    Delivers I m P := by
  intro s _
  cases hrun : m s with
  | error e => trivial
  | ok result => exact absurd hrun (h s result.1 result.2)

end Load

/-- A reader whose answers are related to the mappings that it is asked for. -/
structure Reader.Pairs (I : LoadState → Prop) (G : Dict Tree → Component → Prop)
    (H : Dict Tree → Prop) (reader : Reader) : Prop where
  nested : ∀ use, (Reader.looksLikeComponent reader.naming use = true → H use) →
    Dict.get? use reader.naming.protocol.componentRef = none →
    Delivers I (reader.nested use) fun c =>
      Reader.looksLikeComponent reader.naming use = true ∧ G use c
  referenced : ∀ id, H [(reader.naming.protocol.componentRef, .string id)] →
    Delivers I (reader.referenced id) (G [(reader.naming.protocol.componentRef, .string id)])

namespace Reader
variable {I : LoadState → Prop} {G : Dict Tree → Component → Prop} {H : Dict Tree → Prop}
  {reader : Reader} {r : Record} {field : String}

/-- The places of a field at which components are used. -/
def usesAt (naming : NamingMode) (r : Record) (field : String) : List (Dict Tree) :=
  ((r.get? field).map (outermost naming)).getD []

theorem usesAt_some {naming : NamingMode} {value : Tree} (h : r.get? field = some value) :
    usesAt naming r field = outermost naming value := by rw [usesAt, h]; rfl

section Component
variable (hr : reader.Pairs I G H)
include hr

theorem pairs_componentOf {value : Tree} (h : ∀ use ∈ outermost reader.naming value, H use) :
    Delivers I (reader.componentOf r field value) fun c =>
      Forall₂ G (outermost reader.naming value) [c] := by
  cases value with
  | map entries =>
    have huse : looksLikeComponent reader.naming entries = true → H entries := fun hlooks =>
      h entries (by simp [outermost, hlooks])
    simp only [componentOf]
    cases href : Dict.get? entries reader.naming.protocol.componentRef with
    | none =>
      refine (hr.nested entries huse href).mono fun c hc => ?_
      rw [outermost, if_pos hc.1]
      exact .cons hc.2 .nil
    | some target =>
      have hlooks : looksLikeComponent reader.naming entries = true := by
        have hkey := Dict.mem_keys_iff.mpr ⟨target, href⟩
        simp [looksLikeComponent, Dict.has_iff.mpr hkey]
      rw [outermost, if_pos hlooks]
      simp only
      split
      · exact .throw _
      · rename_i hlength
        obtain rfl := Dict.eq_singleton_of_get? href hlength
        cases target with
        | string id => exact (hr.referenced id (huse hlooks)).mono fun c hc => .cons hc .nil
        | _ => exact .throw _
  | _ => exact .throw _

end Component

/-- If what each value uses was answered, what all of them use was answered in order. -/
theorem forall₂_outermost {naming : NamingMode} {values : List Tree} {cs : List Component}
    (h : Forall₂ (fun value c => Forall₂ G (outermost naming value) [c]) values cs) :
    Forall₂ G (values.flatMap (outermost naming)) cs := by
  rw [← List.flatMap_singleton' cs]
  exact List.rel_flatMap h fun _ _ hvalue => hvalue

/-- A value was read for a field: it has its name, and its components were given for what the field
uses. -/
def ReadField (naming : NamingMode) (G : Dict Tree → Component → Prop) (field : String × Tree)
    (value : String × Value) : Prop :=
  value.1 = field.1 ∧ Forall₂ G (outermost naming field.2) value.2.components

/-- A bag is put together from what was read for each field. -/
theorem pairs_bagOf (hr : reader.Pairs I G H) {fields : List (String × Tree)} {bag : Dict Value}
    (h : ∀ pair ∈ fields, ∀ use ∈ outermost reader.naming pair.2, H use) :
    Delivers I (reader.bagOf r fields bag) fun result =>
      ∃ values, Forall₂ (ReadField reader.naming G) fields values ∧
        result = Dict.merge bag values := by
  have hasked := forall_bagQuestions h
  refine ((asks_bagOf fields bag).preserves (fun _ _ => trivial) fun q hq value hvalue =>
    pairs_componentOf hr (hasked q hq value hvalue)).mono ?_
  rintro result ⟨answers, hanswers, values, hvalues, rfl⟩
  refine ⟨values, ?_, rfl⟩
  clear h hasked
  induction hvalues with
  | nil => exact .nil
  | cons hv _ ih =>
    obtain ⟨hcs, hrest⟩ := List.forall₂_cons.mp hanswers
    refine .cons ⟨rfl, ?_⟩ (ih hrest)
    rw [← outermost_again, ← hv.held]
    exact forall₂_outermost hcs

end Reader

namespace Builtin
variable {I : LoadState → Prop} {G : Dict Tree → Component → Prop} {H : Dict Tree → Prop}
  {reader : Reader} {r : Record}

/-- The places of some fields at which components are used. -/
def usesIn (naming : NamingMode) (r : Record) (fields : List String) : List (Dict Tree) :=
  fields.flatMap (Reader.usesAt naming r)

/-- A kind was read from a record of a builtin type: it is of that type, and its components were
given for what the component fields of the type use. -/
structure ReadAs (G : Dict Tree → Component → Prop) (naming : NamingMode) (r : Record) (k : Kind) :
    Prop where
  type : k.componentType = r.componentType
  builtin : k.isBuiltin = true
  held : Forall₂ G (usesIn naming r (componentFields r.componentType)) (heldComponents k.fields)

/-- A kind that is read from a record of a builtin type holds what was given for the component
fields of the record. -/
theorem pairs_read (hr : reader.Pairs I G H)
    (h : ∀ use ∈ usesIn reader.naming r (componentFields r.componentType), H use) :
    Delivers I (read reader r) (ReadAs G reader.naming r) := by
  have huse : ∀ field ∈ componentFields r.componentType, ∀ value, r.get? field = some value →
      ∀ use ∈ Reader.outermost reader.naming value, H use := by
    intro field hfield value hvalue use huse
    exact h use (List.mem_flatMap.mpr ⟨field, hfield, by rwa [Reader.usesAt_some hvalue]⟩)
  have hasked := Record.forall_parts (Reader.outermost_list reader.naming) huse
  refine (asks_read.preserves (fun _ _ => trivial) fun q hq value hvalue =>
    Reader.pairs_componentOf hr (hasked q hq value hvalue)).mono ?_
  rintro k ⟨answers, hanswers, hk⟩
  refine ⟨hk.type, hk.builtin, ?_⟩
  have huses : (r.questions (componentFields r.componentType)).flatMap
      (fun q => q.2.flatMap (Reader.outermost reader.naming)) =
      usesIn reader.naming r (componentFields r.componentType) := by
    rw [Record.questions, List.flatMap_map]
    exact List.flatMap_congr fun field hfield =>
      Record.flatMap_valuesAt (Reader.outermost_list reader.naming) (hk.fits field hfield)
  rw [hk.held, ← huses, ← List.flatMap_assoc]
  exact Reader.forall₂_outermost (Reader.forall₂_flatten hanswers)

end Builtin
end AgentGraph
