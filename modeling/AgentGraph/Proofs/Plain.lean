import AgentGraph.Component.Fields
import AgentGraph.Naming
import AgentGraph.Proofs.Dict
import AgentGraph.Tree.ReservedKeys
/-!
# Plain data

A tree is plain if no mapping in it has a reserved key or one of the two keys that make a mapping a
reference or give it entries for others. Plain data comes through a document as it is. In a proper
tree no mapping repeats a key.
-/
namespace AgentGraph

namespace Tree
variable {test : String → Prop}

mutual
/-- Every key of every mapping in a tree passes a test. -/
def KeysAll (test : String → Prop) : Tree → Prop
  | .list items => keysAllItems test items
  | .map entries => keysAllEntries test entries
  | _ => True
/-- Every key in the trees of a list passes a test. -/
def keysAllItems (test : String → Prop) : List Tree → Prop
  | [] => True
  | t :: rest => t.KeysAll test ∧ keysAllItems test rest
/-- Every key of a mapping and of its values passes a test. -/
def keysAllEntries (test : String → Prop) : List (String × Tree) → Prop
  | [] => True
  | (key, t) :: rest => test key ∧ t.KeysAll test ∧ keysAllEntries test rest
end

theorem keysAllItems_iff {ts : List Tree} :
    keysAllItems test ts ↔ ∀ t ∈ ts, t.KeysAll test := by
  induction ts with
  | nil => simp [keysAllItems]
  | cons t rest ih => simp [keysAllItems, ih]

theorem keysAllEntries_iff {d : Dict Tree} :
    keysAllEntries test d ↔ ∀ p ∈ d, test p.1 ∧ p.2.KeysAll test := by
  induction d with
  | nil => simp [keysAllEntries]
  | cons p rest ih => simp [keysAllEntries, ih, and_assoc]

@[simp] theorem keysAll_list {ts : List Tree} :
    (Tree.list ts).KeysAll test ↔ ∀ t ∈ ts, t.KeysAll test := by
  rw [KeysAll, keysAllItems_iff]

@[simp] theorem keysAll_map {d : Dict Tree} :
    (Tree.map d).KeysAll test ↔ ∀ p ∈ d, test p.1 ∧ p.2.KeysAll test := by
  rw [KeysAll, keysAllEntries_iff]

@[simp] theorem keysAll_string (s : String) : (Tree.string s).KeysAll test := trivial

@[simp] theorem keysAll_bool (b : Bool) : (Tree.bool b).KeysAll test := trivial

theorem keysAll_empty : (Tree.map []).KeysAll test := trivial

theorem KeysAll.put {d : Dict Tree} {key : String} {t : Tree} (h : (Tree.map d).KeysAll test)
    (hkey : test key) (ht : t.KeysAll test) : (Tree.map (Dict.put d key t)).KeysAll test :=
  keysAll_map.mpr (Dict.forall_mem_put (keysAll_map.mp h) ⟨hkey, ht⟩)

theorem KeysAll.append {d e : Dict Tree} (h : (Tree.map d).KeysAll test)
    (k : (Tree.map e).KeysAll test) : (Tree.map (d ++ e)).KeysAll test :=
  keysAll_map.mpr (List.forall_mem_append.mpr ⟨keysAll_map.mp h, keysAll_map.mp k⟩)

theorem KeysAll.merge {d e : Dict Tree} (h : (Tree.map d).KeysAll test)
    (k : (Tree.map e).KeysAll test) : (Tree.map (Dict.merge d e)).KeysAll test :=
  keysAll_map.mpr (Dict.forall_mem_merge (keysAll_map.mp h) (keysAll_map.mp k))

mutual
theorem KeysAll.mono {test' : String → Prop} {t : Tree} (h : t.KeysAll test)
    (himp : ∀ key, test key → test' key) : t.KeysAll test' := by
  match t with
  | .list items => exact keysAllItems_mono h himp
  | .map entries => exact keysAllEntries_mono h himp
  | .null | .bool _ | .number _ | .string _ => trivial
theorem keysAllItems_mono {test' : String → Prop} {ts : List Tree} (h : keysAllItems test ts)
    (himp : ∀ key, test key → test' key) : keysAllItems test' ts := by
  match ts with
  | [] => trivial
  | t :: rest => exact ⟨h.1.mono himp, keysAllItems_mono h.2 himp⟩
theorem keysAllEntries_mono {test' : String → Prop} {d : List (String × Tree)}
    (h : keysAllEntries test d) (himp : ∀ key, test key → test' key) :
    keysAllEntries test' d := by
  match d with
  | [] => trivial
  | (key, t) :: rest => exact ⟨himp key h.1, h.2.1.mono himp, keysAllEntries_mono h.2.2 himp⟩
end

mutual
/-- A test that is passed by every key that stands in a tree is passed by all its keys. -/
theorem keysAll_of_each {t : Tree}
    (h : ∀ key, ¬ t.KeysAll (· ≠ key) → test key) : t.KeysAll test := by
  match t with
  | .list items => exact keysAllItems_of_each h
  | .map entries => exact keysAllEntries_of_each h
  | .null | .bool _ | .number _ | .string _ => trivial
theorem keysAllItems_of_each {ts : List Tree}
    (h : ∀ key, ¬ keysAllItems (· ≠ key) ts → test key) : keysAllItems test ts := by
  match ts with
  | [] => trivial
  | t :: rest =>
    exact ⟨keysAll_of_each fun key hkey => h key fun hall => hkey hall.1,
      keysAllItems_of_each fun key hkey => h key fun hall => hkey hall.2⟩
theorem keysAllEntries_of_each {d : List (String × Tree)}
    (h : ∀ key, ¬ keysAllEntries (· ≠ key) d → test key) : keysAllEntries test d := by
  match d with
  | [] => trivial
  | (key, t) :: rest =>
    exact ⟨h key fun hall => hall.1 rfl,
      keysAll_of_each fun key hkey => h key fun hall => hkey hall.2.1,
      keysAllEntries_of_each fun key hkey => h key fun hall => hkey hall.2.2⟩
end

/-- No key of a tree is reserved. -/
def Unreserved (t : Tree) : Prop := t.KeysAll fun key => isReservedKey key = false

mutual
theorem Unreserved.strip_eq {t : Tree} (h : t.Unreserved) : t.strip = t := by
  match t with
  | .list items => rw [strip, stripList_eq h]
  | .map entries => rw [strip, stripEntries_eq h]
  | .null | .bool _ | .number _ | .string _ => rfl
theorem stripList_eq {ts : List Tree}
    (h : keysAllItems (fun key => isReservedKey key = false) ts) : stripList ts = ts := by
  match ts with
  | [] => rfl
  | t :: rest => rw [stripList, Unreserved.strip_eq h.1, stripList_eq h.2]
theorem stripEntries_eq {d : List (String × Tree)}
    (h : keysAllEntries (fun key => isReservedKey key = false) d) : stripEntries d = d := by
  match d with
  | [] => rfl
  | (key, t) :: rest =>
    obtain ⟨hkey, ht, hrest⟩ := h
    simp only [stripEntries, hkey, Bool.false_eq_true, if_false, Unreserved.strip_eq ht,
      stripEntries_eq hrest]
end

mutual
/-- Stripping leaves no reserved key. -/
theorem unreserved_strip (t : Tree) : t.strip.Unreserved := by
  match t with
  | .list items => exact unreserved_stripList items
  | .map entries => exact unreserved_stripEntries entries
  | .null | .bool _ | .number _ | .string _ => trivial
theorem unreserved_stripList (ts : List Tree) :
    keysAllItems (fun key => isReservedKey key = false) (stripList ts) := by
  match ts with
  | [] => trivial
  | t :: rest => exact ⟨unreserved_strip t, unreserved_stripList rest⟩
theorem unreserved_stripEntries (d : List (String × Tree)) :
    keysAllEntries (fun key => isReservedKey key = false) (stripEntries d) := by
  match d with
  | [] => trivial
  | (key, t) :: rest =>
    rw [stripEntries]
    split
    · exact unreserved_stripEntries rest
    · rename_i hkey
      exact ⟨by simpa using hkey, unreserved_strip t, unreserved_stripEntries rest⟩
end

mutual
/-- A tree without reserved keys is one of which nothing would be dropped. -/
theorem unreserved_iff {t : Tree} : t.Unreserved ↔ t.reservedCount = 0 := by
  match t with
  | .list items => exact unreservedItems_iff
  | .map entries => exact unreservedEntries_iff
  | .null | .bool _ | .number _ | .string _ => exact iff_of_true trivial rfl
theorem unreservedItems_iff {ts : List Tree} :
    keysAllItems (fun key => isReservedKey key = false) ts ↔ reservedCountList ts = 0 := by
  match ts with
  | [] => exact iff_of_true trivial rfl
  | t :: rest =>
    rw [keysAllItems, reservedCountList, Nat.add_eq_zero_iff, ← unreserved_iff,
      ← unreservedItems_iff]
    rfl
theorem unreservedEntries_iff {d : List (String × Tree)} :
    keysAllEntries (fun key => isReservedKey key = false) d ↔ reservedCountEntries d = 0 := by
  match d with
  | [] => exact iff_of_true trivial rfl
  | (key, t) :: rest =>
    rw [keysAllEntries, reservedCountEntries, Nat.add_eq_zero_iff, ← unreservedEntries_iff]
    cases isReservedKey key with
    | true => simp
    | false => simp [← unreserved_iff, Unreserved]
end

theorem strip_strip (t : Tree) : t.strip.strip = t.strip := (unreserved_strip t).strip_eq

/-- What is left of a mapping are some of its keys, in order. -/
theorem keys_stripEntries (d : Dict Tree) :
    (Dict.keys (stripEntries d)).Sublist (Dict.keys d) := by
  induction d with
  | nil => exact .refl _
  | cons p rest ih =>
    obtain ⟨key, t⟩ := p
    rw [stripEntries]
    split
    · exact ih.cons _
    · exact ih.cons_cons _

mutual
/-- No mapping in a tree repeats a key. -/
def Proper : Tree → Prop
  | .list items => properTrees items
  | .map entries => (Dict.keys entries).Nodup ∧ properTreeEntries entries
  | _ => True
/-- No mapping in the trees of a list repeats a key. -/
def properTrees : List Tree → Prop
  | [] => True
  | t :: rest => t.Proper ∧ properTrees rest
/-- No mapping in the values of a mapping repeats a key. -/
def properTreeEntries : List (String × Tree) → Prop
  | [] => True
  | (_, t) :: rest => t.Proper ∧ properTreeEntries rest
end

theorem properTrees_iff {ts : List Tree} : properTrees ts ↔ ∀ t ∈ ts, t.Proper := by
  induction ts with
  | nil => simp [properTrees]
  | cons t rest ih => simp [properTrees, ih]

theorem properTreeEntries_iff {d : Dict Tree} : properTreeEntries d ↔ ∀ f ∈ d, f.2.Proper := by
  induction d with
  | nil => simp [properTreeEntries]
  | cons f rest ih => simp [properTreeEntries, ih]

theorem proper_list {ts : List Tree} : (Tree.list ts).Proper ↔ ∀ t ∈ ts, t.Proper := by
  rw [Proper, properTrees_iff]

theorem proper_map {d : Dict Tree} : (Tree.map d).Proper ↔ (Dict.keys d).Nodup ∧ ∀ f ∈ d, f.2.Proper := by
  rw [Proper, properTreeEntries_iff]

end Tree

namespace NamingMode

/-- A key that means nothing in a document: it is not reserved, and it makes a mapping neither a
reference nor a sidecar. -/
structure IsPlain (naming : NamingMode) (key : String) : Prop where
  unreserved : isReservedKey key = false
  not_reference : key ≠ naming.protocol.componentRef
  not_sidecar : key ≠ naming.protocol.referencedComponents

end NamingMode

/-- All keys of a tree are plain. -/
def Tree.Plain (naming : NamingMode) (t : Tree) : Prop := t.KeysAll naming.IsPlain

theorem Tree.Plain.unreserved {naming : NamingMode} {t : Tree} (h : t.Plain naming) :
    t.Unreserved :=
  h.mono fun _ hkey => hkey.unreserved

section Component
variable (naming : NamingMode)

mutual
/-- All keys in a value are plain; the components that the value holds are not looked into. -/
def Value.Plain : Value → Prop
  | .data t => t.Plain naming
  | .component _ => True
  | .property p => p.toTree.Plain naming
  | .list items => plainItems items
  | .map entries => plainEntries entries
/-- All keys in the values of a list are plain. -/
def plainItems : List Value → Prop
  | [] => True
  | v :: rest => v.Plain ∧ plainItems rest
/-- All keys of a mapping and in its values are plain. -/
def plainEntries : List (String × Value) → Prop
  | [] => True
  | (key, v) :: rest => naming.IsPlain key ∧ v.Plain ∧ plainEntries rest
end

/-- The id of a component and all keys in its data are plain. -/
structure Component.Plain (c : Component) : Prop where
  id : naming.IsPlain c.id
  metadata : (Tree.map c.metadata).Plain naming
  fields : ∀ f ∈ c.kind.fields, f.2.Plain naming

end Component

end AgentGraph
