import AgentGraph.Component.Fields
/-!
# Components reachable from a component

`Component.reachable` walks the graph depth first with a stack and lists each identity once, at
the place where it is first met.
-/
namespace AgentGraph.Component

/-- Takes components off a stack until it is empty. A component whose identity was met before is
skipped; the others are listed and their children go on top of the stack. -/
def visit (stack : List Component) (seen : List String) : List Component :=
  match stack with
  | [] => []
  | c :: rest =>
    if seen.contains c.id then visit rest seen
    else c :: visit (c.children ++ rest) (c.id :: seen)
termination_by weightOfList stack
decreasing_by
  · simp only [weightOfList]
    have := c.weight_pos
    omega
  · simp only [weightOfList, weightOfList_append]
    have := c.weight_children
    omega

/-- Every component reachable from a component, itself first, in depth-first order, each identity
once. -/
def reachable (c : Component) : List Component := visit [c] []

end AgentGraph.Component
