import AgentGraph.Naming
import AgentGraph.Tree.Basic
import AgentGraph.Proofs.Catalog
/-!
# The records of a document

A document of builtin kinds read without building anything: the trees that stand where components
are used, the entries that a record carries for others, and all records in the order in which they are
written. What looks like a record within opaque data is none.
-/
namespace AgentGraph

namespace Tree

mutual
/-- The mappings that stand for components in the value of a field, through lists. -/
def uses : Tree → List Tree
  | .map entries => [.map entries]
  | .list items => usesOfList items
  | _ => []
/-- The mappings that stand for components in the items of a list. -/
def usesOfList : List Tree → List Tree
  | [] => []
  | t :: rest => uses t ++ usesOfList rest
end

mutual
theorem size_le_of_mem_uses {t u : Tree} (h : u ∈ t.uses) : u.size ≤ t.size := by
  match t with
  | .map entries =>
    rw [uses, List.mem_singleton] at h
    exact h ▸ Nat.le_refl _
  | .list items =>
    rw [uses] at h
    have := size_le_of_mem_usesOfList h
    rw [size]
    omega
  | .null | .bool _ | .number _ | .string _ => simp [uses] at h
theorem size_le_of_mem_usesOfList {ts : List Tree} {u : Tree} (h : u ∈ usesOfList ts) :
    u.size ≤ sizeList ts := by
  match ts with
  | [] => simp [usesOfList] at h
  | t :: rest =>
    rw [usesOfList, List.mem_append] at h
    rw [sizeList]
    rcases h with h | h
    · have := size_le_of_mem_uses h
      omega
    · have := size_le_of_mem_usesOfList h
      omega
end

theorem size_le_of_get? {d : Dict Tree} {k : String} {t : Tree} (h : Dict.get? d k = some t) :
    t.size ≤ sizeEntries d := by
  induction d with
  | nil => simp at h
  | cons p rest ih =>
    obtain ⟨key, u⟩ := p
    rw [Dict.get?] at h
    rw [sizeEntries]
    split at h
    · obtain rfl := Option.some.inj h
      omega
    · have := ih h
      omega

theorem size_lt_of_mem {d : Dict Tree} {p : String × Tree} (h : p ∈ d) :
    p.2.size ≤ sizeEntries d := by
  induction d with
  | nil => simp at h
  | cons q rest ih =>
    obtain ⟨key, u⟩ := q
    rw [sizeEntries]
    rcases List.mem_cons.mp h with rfl | h
    · exact Nat.le_add_right _ _
    · have := ih h
      omega

end Tree

namespace NamingMode
variable {naming : NamingMode} {record : Dict Tree}

/-- The trees that stand where a record uses components, in the order of its fields. -/
def uses (naming : NamingMode) (record : Dict Tree) : List Tree :=
  match Dict.get? record naming.protocol.componentType with
  | some (.string type) => (Builtin.componentFields type).flatMap fun field =>
    match Dict.get? record (naming.toDocument field) with
    | some t => t.uses
    | none => []
  | _ => []

/-- The entries that a record, or the root of a sidecar, carries for others. -/
def definitions (naming : NamingMode) (record : Dict Tree) : Dict Tree :=
  match Dict.get? record naming.protocol.referencedComponents with
  | some (.map entries) => entries
  | _ => []

/-- The id to which a tree refers. -/
def reference? (naming : NamingMode) (t : Tree) : Option String :=
  match t.field? naming.protocol.componentRef with
  | some (.string id) => some id
  | _ => none

/-- The ids to which records refer. -/
def references (naming : NamingMode) (records : List (Dict Tree)) : List String :=
  records.flatMap fun record => (naming.uses record).filterMap naming.reference?

theorem size_lt_of_mem_uses {t : Tree} (h : t ∈ naming.uses record) :
    t.size < (Tree.map record).size := by
  unfold uses at h
  split at h
  · obtain ⟨field, -, h⟩ := List.mem_flatMap.mp h
    split at h
    · rename_i hget
      have hle := Tree.size_le_of_mem_uses h
      have hrecord := Tree.size_le_of_get? hget
      rw [Tree.size]
      omega
    · simp at h
  · simp at h

theorem size_lt_of_mem_definitions {p : String × Tree} (h : p ∈ naming.definitions record) :
    p.2.size < (Tree.map record).size := by
  unfold definitions at h
  split at h
  · rename_i entries hget
    have hle := Tree.size_lt_of_mem h
    have hrecord := Tree.size_le_of_get? hget
    rw [Tree.size] at hrecord ⊢
    omega
  · simp at h

/-- The records of a tree: its own, unless it is a reference, those used in place, and those that
are carried, each before what stands within it. -/
def records (naming : NamingMode) : Tree → List (Dict Tree)
  | .map record =>
    if Dict.has record naming.protocol.componentRef then []
    else record :: ((naming.uses record).attach.flatMap fun t => naming.records t.1) ++
      (naming.definitions record).attach.flatMap fun p => naming.records p.1.2
  | _ => []
termination_by t => t.size
decreasing_by
  · exact size_lt_of_mem_uses t.2
  · exact size_lt_of_mem_definitions p.2

theorem records_reference (h : Dict.has record naming.protocol.componentRef = true) :
    naming.records (.map record) = [] := by
  rw [records, if_pos h]

theorem records_map (h : Dict.get? record naming.protocol.componentRef = none) :
    naming.records (.map record) = record :: (naming.uses record).flatMap naming.records ++
      (naming.definitions record).flatMap fun p => naming.records p.2 := by
  have hno : ¬ Dict.has record naming.protocol.componentRef = true := by
    rw [Dict.has_iff]
    exact Dict.get?_eq_none_iff.mp h
  rw [records, if_neg hno,
    List.flatMap_subtype (g := naming.records) (fun _ _ => rfl), List.unattach_attach,
    List.flatMap_subtype (g := fun p => naming.records p.2) (fun _ _ => rfl), List.unattach_attach]

end NamingMode
end AgentGraph
