import AgentGraph.Tree.Basic
/-!
# Nesting depth

Each list or mapping adds one level. `Tree.depth` is the depth of a tree; `Tree.depthUpTo` finds it
with a worklist and stops as soon as a limit is passed, so that a hostile input is never walked in
full.
-/
namespace AgentGraph.Tree

mutual
/-- The nesting depth: 0 for scalars, one more than the deepest child for a list or mapping. -/
def depth : Tree → Nat
  | .list items => depthList items + 1
  | .map entries => depthEntries entries + 1
  | _ => 0
/-- The greatest depth in a list of trees. -/
def depthList : List Tree → Nat
  | [] => 0
  | t :: rest => max (depth t) (depthList rest)
/-- The greatest depth among the values of a mapping. -/
def depthEntries : List (String × Tree) → Nat
  | [] => 0
  | (_, t) :: rest => max (depth t) (depthEntries rest)
end

/-- Whether the tree is a list or a mapping. -/
def isContainer : Tree → Bool
  | .list _ | .map _ => true
  | _ => false

/-- The number of nodes on a worklist. -/
def pendingSize (stack : List (Tree × Nat)) : Nat := sizeList (stack.map (·.1))

/-- Walks the trees of a worklist, each paired with the level it stands at, and keeps the deepest
level met. -/
def deepest (limit : Nat) (stack : List (Tree × Nat)) (found : Nat) : Nat :=
  match stack with
  | [] => found
  | (t, level) :: rest =>
    if t.isContainer then
      if level + 1 > limit then limit + 1
      else deepest limit ((t.children.map (·, level + 1)).reverse ++ rest) (max found (level + 1))
    else deepest limit rest found
termination_by pendingSize stack
decreasing_by
  · have h := sizeList_children_lt t
    have hr : sizeList (t.children.reverse) = sizeList t.children := by
      induction t.children with
      | nil => rfl
      | cons x xs ih => simp [sizeList_append, sizeList, ih]; omega
    simp only [pendingSize, List.map_append, List.map_cons, sizeList_append, sizeList,
      List.map_reverse, List.map_map, Function.comp_def, List.map_id']
    omega
  · simp only [pendingSize, List.map_cons, sizeList]
    have : 0 < t.size := by cases t <;> simp [size]
    omega

/-- The nesting depth, or one more than the limit if the tree nests deeper. -/
def depthUpTo (t : Tree) (limit : Nat) : Nat := deepest limit [(t, 0)] 0

/-- Whether the tree nests deeper than the limit. -/
def exceeds (t : Tree) (limit : Nat) : Bool := t.depthUpTo limit > limit

end AgentGraph.Tree
