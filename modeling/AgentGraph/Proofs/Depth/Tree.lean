import AgentGraph.Proofs.Dict
import AgentGraph.Tree.Depth
import AgentGraph.Tree.ReservedKeys
/-!
# How deep trees nest

The worklist that looks for the depth of a tree finds it exactly if it is within the limit, and stops one
past the limit otherwise. A tree without its reserved keys is no deeper than before.
-/
namespace AgentGraph.Tree
variable {t : Tree} {ts : List Tree} {d : Dict Tree} {n limit found level : Nat}
  {stack : List (Tree × Nat)}

theorem depthList_le : depthList ts ≤ n ↔ ∀ t ∈ ts, t.depth ≤ n := by
  induction ts with
  | nil => simp [depthList]
  | cons t rest ih => rw [depthList, Nat.max_le, ih, List.forall_mem_cons]

theorem depthEntries_le : depthEntries d ≤ n ↔ ∀ p ∈ d, p.2.depth ≤ n := by
  induction d with
  | nil => simp [depthEntries]
  | cons p rest ih =>
    obtain ⟨key, t⟩ := p
    rw [depthEntries, Nat.max_le, ih, List.forall_mem_cons]

theorem depth_list_le : (list ts).depth ≤ n ↔ 1 ≤ n ∧ ∀ t ∈ ts, t.depth < n := by
  cases n with
  | zero => simp [depth]
  | succ n =>
    simp only [depth, Nat.add_le_add_iff_right, depthList_le, Nat.le_add_left, true_and, Nat.lt_succ_iff]

theorem depth_map_le : (map d).depth ≤ n ↔ 1 ≤ n ∧ ∀ p ∈ d, p.2.depth < n := by
  cases n with
  | zero => simp [depth]
  | succ n =>
    simp only [depth, Nat.add_le_add_iff_right, depthEntries_le, Nat.le_add_left, true_and, Nat.lt_succ_iff]

theorem depth_map_lt : (map d).depth < n ↔ 1 < n ∧ ∀ p ∈ d, p.2.depth + 1 < n := by
  cases n with
  | zero => simp
  | succ n =>
    rw [Nat.lt_succ_iff, depth_map_le]
    simp only [Nat.succ_lt_succ_iff, Nat.succ_le_iff]

theorem depth_of_scalar (h : t.isContainer = false) : t.depth = 0 := by
  cases t with
  | list items => cases h
  | map entries => cases h
  | _ => rfl

theorem depth_le_of_container (h : t.isContainer = true) :
    t.depth ≤ n + 1 ↔ ∀ u ∈ t.children, u.depth ≤ n := by
  cases t with
  | list items => rw [depth, Nat.add_le_add_iff_right, depthList_le, children]
  | map entries => rw [depth, Nat.add_le_add_iff_right, depthEntries_le, children, Dict.values,
      List.forall_mem_map]
  | _ => cases h

theorem one_le_depth (h : t.isContainer = true) : 1 ≤ t.depth := by
  cases t with
  | list items => simp [depth]
  | map entries => simp [depth]
  | _ => cases h

/-- A list or mapping reaches down as far as its children do from the next level. -/
theorem level_add_depth_le (h : t.isContainer = true) :
    level + t.depth ≤ n ↔ level + 1 ≤ n ∧ ∀ u ∈ t.children, level + 1 + u.depth ≤ n := by
  have hone := one_le_depth h
  have hdepth := depth_le_of_container (n := n - (level + 1)) h
  constructor
  · intro hle
    refine ⟨by omega, fun u hu => ?_⟩
    have := hdepth.mp (by omega) u hu
    omega
  · rintro ⟨hlevel, hchildren⟩
    have := hdepth.mpr fun u hu => Nat.le_sub_of_add_le' (hchildren u hu)
    omega

/-- A walk never tells more than one past the limit. -/
theorem deepest_le (hfound : found ≤ limit + 1) : deepest limit stack found ≤ limit + 1 := by
  induction stack, found using deepest.induct limit with
  | case1 found => rwa [deepest]
  | case2 found t level rest hcontainer hdeep =>
    exact Nat.le_of_eq (by rw [deepest, if_pos hcontainer, if_pos hdeep])
  | case3 found t level rest hcontainer hdeep ih =>
    rw [deepest, if_pos hcontainer, if_neg hdeep]
    exact ih (by omega)
  | case4 found t level rest hcontainer ih =>
    rw [deepest, if_neg hcontainer]
    exact ih hfound

/-- Up to the limit, what a walk tells is bounded exactly if what was found before is, and every tree
of the worklist from the level it stands at. -/
theorem deepest_le_iff (hn : n ≤ limit) (hlevels : ∀ p ∈ stack, p.2 ≤ found) :
    deepest limit stack found ≤ n ↔ found ≤ n ∧ ∀ p ∈ stack, p.2 + p.1.depth ≤ n := by
  -- Trees wait at levels that were met already, so a scalar adds nothing to what is found.
  induction stack, found using deepest.induct limit with
  | case1 found => simp [deepest]
  | case2 found t level rest hcontainer hdeep =>
    rw [deepest, if_pos hcontainer, if_pos hdeep, List.forall_mem_cons,
      level_add_depth_le hcontainer]
    omega
  | case3 found t level rest hcontainer hdeep ih =>
    obtain ⟨-, hrest⟩ := List.forall_mem_cons.mp hlevels
    have hnext : ∀ p ∈ (t.children.map (·, level + 1)).reverse ++ rest,
        p.2 ≤ max found (level + 1) := by
      refine List.forall_mem_append.mpr
        ⟨?_, fun p hp => Nat.le_trans (hrest p hp) (Nat.le_max_left _ _)⟩
      simpa only [List.mem_reverse, List.forall_mem_map] using fun _ _ => Nat.le_max_right _ _
    rw [deepest, if_pos hcontainer, if_neg hdeep, ih hnext, Nat.max_le, List.forall_mem_append,
      List.forall_mem_cons, level_add_depth_le hcontainer]
    simp only [List.mem_reverse, List.forall_mem_map, and_assoc]
  | case4 found t level rest hcontainer ih =>
    obtain ⟨hlevel, hrest⟩ := List.forall_mem_cons.mp hlevels
    have hscalar : t.depth = 0 := depth_of_scalar (Bool.not_eq_true _ ▸ hcontainer)
    rw [deepest, if_neg hcontainer, ih hrest, List.forall_mem_cons, hscalar]
    exact and_congr_right fun hfound => ⟨fun h => ⟨Nat.le_trans hlevel hfound, h⟩, fun h => h.2⟩

theorem depthUpTo_le_iff_of_le (hn : n ≤ limit) : t.depthUpTo limit ≤ n ↔ t.depth ≤ n := by
  rw [depthUpTo, deepest_le_iff hn (by simp)]
  simp

theorem depthUpTo_le_iff : t.depthUpTo limit ≤ limit ↔ t.depth ≤ limit :=
  depthUpTo_le_iff_of_le (Nat.le_refl _)

theorem exceeds_eq_false_iff : t.exceeds limit = false ↔ t.depth ≤ limit := by
  rw [exceeds, decide_eq_false_iff_not, Nat.not_lt, depthUpTo_le_iff]

/-- The walk tells the nesting depth of every tree that is within the limit, and one more than the
limit for every other tree; so it takes a tree for too deep exactly if the tree is. -/
theorem depthUpTo_eq_min (t : Tree) (limit : Nat) :
    t.depthUpTo limit = min (limit + 1) t.depth ∧ (t.exceeds limit = true ↔ limit < t.depth) := by
  constructor
  · have hmost : t.depthUpTo limit ≤ limit + 1 := deepest_le (Nat.zero_le _)
    rcases Nat.lt_or_ge limit t.depth with hdeep | hwithin
    · have hpast : ¬t.depthUpTo limit ≤ limit :=
        mt depthUpTo_le_iff.mp (Nat.not_le.mpr hdeep)
      omega
    · have hle := (depthUpTo_le_iff_of_le hwithin).mpr (Nat.le_refl t.depth)
      have hge := (depthUpTo_le_iff_of_le (Nat.le_trans hle hwithin)).mp (Nat.le_refl _)
      omega
  · rw [← Bool.not_eq_false, exceeds_eq_false_iff, Nat.not_le]

example : (list [.null, .map [("a", .list [.null])]]).depthUpTo 10 = 3 := by decide +kernel

example : (list [.null, .map [("a", .list [.null])]]).depthUpTo 1 = 2 := by decide +kernel

mutual
theorem depth_strip_le (t : Tree) : t.strip.depth ≤ t.depth := by
  match t with
  | .list items =>
    rw [strip, depth, depth]
    exact Nat.succ_le_succ (depthList_strip_le items)
  | .map entries =>
    rw [strip, depth, depth]
    exact Nat.succ_le_succ (depthEntries_strip_le entries)
  | .null | .bool _ | .number _ | .string _ => simp [strip]
theorem depthList_strip_le (ts : List Tree) : depthList (stripList ts) ≤ depthList ts := by
  match ts with
  | [] => simp [stripList]
  | t :: rest =>
    have ht := depth_strip_le t
    have hrest := depthList_strip_le rest
    rw [stripList, depthList, depthList]
    omega
theorem depthEntries_strip_le (d : List (String × Tree)) :
    depthEntries (stripEntries d) ≤ depthEntries d := by
  match d with
  | [] => simp [stripEntries]
  | (key, t) :: rest =>
    have ht := depth_strip_le t
    have hrest := depthEntries_strip_le rest
    rw [stripEntries, depthEntries]
    split
    · omega
    · rw [depthEntries]
      omega
end

end AgentGraph.Tree
