import AgentGraph.Save.Placement
/-!
# What goes to the sidecar

Components may be forced into the sidecar, under their own id or an alias. A component that is
shared between the inside and the outside of a forced one goes along, so that the sidecar refers to
nothing outside of it.
-/
namespace AgentGraph

/-- The ids in the sidecar and the ids that references to them use, in order. -/
abbrev Aliases := Dict String

namespace Survey

/-- The ids that a worklist of ids leads to. Every id is met once, so the number of components bounds
the steps. -/
def reach (s : Survey) : Nat → List String → List String → List String
  | 0, _, seen => seen
  | _, [], seen => seen
  | fuel + 1, id :: rest, seen =>
    let children := (heldComponents ((s.fields? id).getD [])).map (·.id)
    let fresh := children.eraseDups.filter (!seen.contains ·)
    s.reach fuel (fresh ++ rest) (fresh ++ seen)

/-- The ids of all components below the component of an id. -/
def below (s : Survey) (id : String) : List String := s.reach (s.found.length + 1) [id] []

/-- Whether an entry of the table of the root is shared between the inside and the outside of a
component of the sidecar. -/
def isPulledAlong (id : String) (below : List String) (entry : String × Placement) : Bool :=
  match entry.2 with
  | .referenced anchor => below.contains entry.1 && anchor != id && !below.contains anchor
  | .inline _ => false

/-- Adds what goes along with a component of the sidecar. -/
def pullAlong (s : Survey) (table : PlacementTable) (aliases : Aliases) (id : String) : Aliases :=
  let below := s.below id
  table.foldl (fun aliases entry =>
    if isPulledAlong id below entry && !Dict.has aliases entry.1 then
      Dict.put aliases entry.1 entry.1
    else aliases) aliases

/-- Notes the components that are forced into the sidecar; all must be known and none the root. -/
def force (s : Survey) (root : String) : List (String × Option String) → Aliases →
    Except SaveError Aliases
  | [], aliases => .ok aliases
  | (id, alias?) :: rest, aliases =>
    if id == root then .error (.cannotDisaggregateRoot root)
    else if (s.component? id).isNone then .error (.unknownDisaggregated id)
    else s.force root rest (Dict.put aliases id (alias?.getD id))

/-- The components of the sidecar. -/
def aliases (s : Survey) (root : String) (disaggregated : List (String × Option String)) :
    Except SaveError Aliases := do
  let forced ← s.force root disaggregated []
  return (Dict.keys forced).foldl (s.pullAlong (s.table root)) forced

end Survey
end AgentGraph
