import AgentGraph.Proofs.Clean
import AgentGraph.Proofs.Load.Asking
import AgentGraph.Proofs.Load.Findings
import AgentGraph.Proofs.Load.Outline
/-!
# How the fields of other kinds are read

A field of a kind that is not in the catalog asks for the outermost mappings in its value that look
like components. The value that is read then holds the answers in order, and what else stands in it is
data of the document. A bag is put together from what was read for each of its fields.
-/
namespace AgentGraph
open List (Forall₂)

namespace Tree

mutual
theorem below_of_outermost {naming : NamingMode} {t : Tree} {use : Dict Tree}
    (h : use ∈ Reader.outermost naming t) : t.Below (.map use) := by
  match t with
  | .map entries =>
    unfold Reader.outermost at h
    split at h
    · obtain rfl := List.mem_singleton.mp h
      exact .refl
    · obtain ⟨u, hu, hbelow⟩ := below_of_outermostInEntries h
      exact .head hu hbelow
  | .list items =>
    obtain ⟨u, hu, hbelow⟩ := below_of_outermostInItems h
    exact .head hu hbelow
  | .null | .bool _ | .number _ | .string _ => cases h
theorem below_of_outermostInItems {naming : NamingMode} {ts : List Tree} {use : Dict Tree}
    (h : use ∈ Reader.outermostInItems naming ts) : ∃ t ∈ ts, t.Below (.map use) := by
  match ts with
  | [] => cases h
  | t :: rest =>
    rcases List.mem_append.mp h with h | h
    · exact ⟨t, List.mem_cons_self, below_of_outermost h⟩
    · obtain ⟨u, hu, hbelow⟩ := below_of_outermostInItems h
      exact ⟨u, List.mem_cons_of_mem _ hu, hbelow⟩
theorem below_of_outermostInEntries {naming : NamingMode} {d : List (String × Tree)}
    {use : Dict Tree} (h : use ∈ Reader.outermostInEntries naming d) :
    ∃ t ∈ Dict.values d, t.Below (.map use) := by
  match d with
  | [] => cases h
  | (key, t) :: rest =>
    rcases List.mem_append.mp h with h | h
    · exact ⟨t, List.mem_cons_self, below_of_outermost h⟩
    · obtain ⟨u, hu, hbelow⟩ := below_of_outermostInEntries h
      exact ⟨u, List.mem_cons_of_mem _ hu, hbelow⟩
end

end Tree

namespace Reader
open Load

section
variable {naming : NamingMode}

mutual
/-- A tree that holds no component uses none. -/
theorem outermost_of_not_holds {t : Tree} (h : holdsComponent naming t = false) :
    outermost naming t = [] := by
  match t with
  | .null | .bool _ | .number _ | .string _ => rfl
  | .list items => exact outermostInItems_of_not_hold h
  | .map entries =>
    obtain ⟨hlooks, hentries⟩ := Bool.or_eq_false_iff.mp h
    rw [outermost, if_neg (by simp [hlooks])]
    exact outermostInEntries_of_not_hold hentries
theorem outermostInItems_of_not_hold {items : List Tree}
    (h : itemsHoldComponent naming items = false) : outermostInItems naming items = [] := by
  match items with
  | [] => rfl
  | t :: rest =>
    obtain ⟨ht, hrest⟩ := Bool.or_eq_false_iff.mp h
    rw [outermostInItems, outermost_of_not_holds ht, outermostInItems_of_not_hold hrest]
    rfl
theorem outermostInEntries_of_not_hold {entries : List (String × Tree)}
    (h : entriesHoldComponent naming entries = false) : outermostInEntries naming entries = [] := by
  match entries with
  | [] => rfl
  | (key, t) :: rest =>
    obtain ⟨ht, hrest⟩ := Bool.or_eq_false_iff.mp h
    rw [outermostInEntries, outermost_of_not_holds ht, outermostInEntries_of_not_hold hrest]
    rfl
end

mutual
/-- What is used in one of the uses of a tree is that use itself. -/
theorem outermost_again (t : Tree) :
    ((outermost naming t).map .map).flatMap (outermost naming) = outermost naming t := by
  match t with
  | .null | .bool _ | .number _ | .string _ => rfl
  | .list items => exact outermostInItems_again items
  | .map entries =>
    by_cases hlooks : looksLikeComponent naming entries = true
    · simp [outermost, hlooks]
    · rw [outermost, if_neg hlooks]
      exact outermostInEntries_again entries
theorem outermostInItems_again (items : List Tree) :
    ((outermostInItems naming items).map .map).flatMap (outermost naming) =
      outermostInItems naming items := by
  match items with
  | [] => rfl
  | t :: rest =>
    rw [outermostInItems, List.map_append, List.flatMap_append, outermost_again t,
      outermostInItems_again rest]
theorem outermostInEntries_again (entries : List (String × Tree)) :
    ((outermostInEntries naming entries).map .map).flatMap (outermost naming) =
      outermostInEntries naming entries := by
  match entries with
  | [] => rfl
  | (key, t) :: rest =>
    rw [outermostInEntries, List.map_append, List.flatMap_append, outermost_again t,
      outermostInEntries_again rest]
end

end

/-- A value was read of a tree: it holds what was answered, and its data is clean if the tree is. -/
structure ReadOf (t : Tree) (cs : List Component) (v : Value) : Prop where
  held : cs = v.components
  clean : t.Unreserved → v.Clean

/-- Values were read of the fields of a record, each with what was answered for its field. -/
inductive ReadFields : List (String × Tree) → List (List Component) → List (String × Value) → Prop
  | nil : ReadFields [] [] []
  | cons {name : String} {t : Tree} {cs : List Component} {v : Value}
    {fields : List (String × Tree)} {answers : List (List Component)}
    {values : List (String × Value)} (hv : ReadOf t cs v)
    (hrest : ReadFields fields answers values) :
    ReadFields ((name, t) :: fields) (cs :: answers) ((name, v) :: values)

/-- What the fields of a bag ask for. -/
def bagQuestions (naming : NamingMode) (fields : List (String × Tree)) :
    List (String × List Tree) :=
  fields.map fun f => (f.1, (outermost naming f.2).map .map)

variable {reader : Reader} {r : Record} {field : String}

mutual
theorem asks_valueOf (t : Tree) :
    reader.AsksAt r field ((outermost reader.naming t).map .map) (reader.valueOf r field t)
      (ReadOf t) := by
  match t with
  | .null | .bool _ | .number _ | .string _ => exact .pure ⟨rfl, id⟩
  | .list items =>
    unfold valueOf
    split
    · exact (asks_itemsOf items).map fun cs vs hvs => ⟨hvs.1, hvs.2⟩
    · rename_i hnone
      rw [outermost, outermostInItems_of_not_hold (by simpa using hnone)]
      exact .pure ⟨rfl, id⟩
  | .map entries =>
    unfold valueOf
    split
    · rename_i hlooks
      rw [outermost, if_pos hlooks]
      exact AsksAt.componentOf.map fun cs c hcs => ⟨hcs, fun _ => trivial⟩
    · rename_i hlooks
      rw [outermost, if_neg hlooks]
      split
      · exact (asks_entriesOf entries).map fun cs fs hfs => ⟨hfs.1, hfs.2⟩
      · rename_i hnone
        rw [outermostInEntries_of_not_hold (by simpa using hnone)]
        exact .pure ⟨rfl, id⟩
theorem asks_itemsOf (items : List Tree) :
    reader.AsksAt r field ((outermostInItems reader.naming items).map .map)
      (reader.itemsOf r field items) fun cs vs => cs = Value.componentsOfList vs ∧
        (Tree.keysAllItems (fun key => isReservedKey key = false) items → Value.cleanItems vs) := by
  match items with
  | [] => exact .pure ⟨rfl, fun _ => trivial⟩
  | t :: rest =>
    unfold itemsOf
    rw [outermostInItems, List.map_append]
    refine (asks_valueOf t).bind fun cs v hv => (asks_itemsOf rest).map fun ds vs hvs => ?_
    exact ⟨by rw [hv.held, hvs.1]; rfl, fun h => ⟨hv.clean h.1, hvs.2 h.2⟩⟩
theorem asks_entriesOf (entries : List (String × Tree)) :
    reader.AsksAt r field ((outermostInEntries reader.naming entries).map .map)
      (reader.entriesOf r field entries) fun cs fs => cs = Value.componentsOfEntries fs ∧
        (Tree.keysAllEntries (fun key => isReservedKey key = false) entries →
          Value.cleanEntries fs) := by
  match entries with
  | [] => exact .pure ⟨rfl, fun _ => trivial⟩
  | (key, t) :: rest =>
    unfold entriesOf
    rw [outermostInEntries, List.map_append]
    refine (asks_valueOf t).bind fun cs v hv => (asks_entriesOf rest).map fun ds fs hfs => ?_
    exact ⟨by rw [hv.held, hfs.1]; rfl, fun h => ⟨h.1, hv.clean h.2.1, hfs.2 h.2.2⟩⟩
end

/-- A bag is put together from what was read for each field. -/
theorem asks_bagOf (fields : List (String × Tree)) (bag : Dict Value) :
    reader.Asks r (bagQuestions reader.naming fields) (reader.bagOf r fields bag)
      fun answers result => ∃ values, ReadFields fields answers values ∧
        result = Dict.merge bag values := by
  induction fields generalizing bag with
  | nil => exact .pure ⟨[], .nil, rfl⟩
  | cons pair rest ih =>
    obtain ⟨name, t⟩ := pair
    refine .next (asks_valueOf t) fun cs v hv => (ih (bag.put name v)).mono ?_
    rintro later result ⟨values, hvalues, rfl⟩
    exact ⟨(name, v) :: values, .cons hv hvalues, rfl⟩

/-- What is known of the uses of the fields is known of the uses of what is asked for. -/
theorem forall_bagQuestions {H : Dict Tree → Prop} {naming : NamingMode}
    {fields : List (String × Tree)}
    (h : ∀ pair ∈ fields, ∀ use ∈ outermost naming pair.2, H use) :
    ∀ q ∈ bagQuestions naming fields, ∀ value ∈ q.2, ∀ use ∈ outermost naming value, H use := by
  refine List.forall_mem_map.mpr fun pair hpair value hvalue use huse => h pair hpair use ?_
  rw [← outermost_again]
  exact List.mem_flatMap.mpr ⟨value, hvalue, huse⟩

namespace ReadFields
variable {fields : List (String × Tree)} {answers : List (List Component)}
  {values : List (String × Value)}

theorem held (h : ReadFields fields answers values) : heldComponents values = answers.flatten := by
  induction h with
  | nil => rfl
  | cons hv _ ih => rw [List.flatten_cons, hv.held, ← ih]; rfl

theorem clean (h : ReadFields fields answers values)
    (hfields : ∀ f ∈ fields, isReservedKey f.1 = false ∧ f.2.Unreserved) :
    ∀ p ∈ values, isReservedKey p.1 = false ∧ p.2.Clean := by
  induction h with
  | nil => simp
  | cons hv _ ih =>
    obtain ⟨hf, hrest⟩ := List.forall_mem_cons.mp hfields
    exact List.forall_mem_cons.mpr ⟨⟨hf.1, hv.clean hf.2⟩, ih hrest⟩

end ReadFields
end Reader
end AgentGraph
