import AgentGraph.Component.Equality
import AgentGraph.Policy
import AgentGraph.Registry
/-!
# Where records go

A component that has one user is written inside the record of that user. One that has several is
written once, in the record of its anchor: the deepest component through which all its users are
reached. The placement table of a component says this for everything below it. It is built from the
tables of its children: an entry on which two of them disagree gets this component as its anchor.
-/
namespace AgentGraph

/-- How graphs are saved. -/
structure SaveOptions where
  release : Release
  naming : NamingMode
  /-- Components that are always written to the sidecar, some under another id. -/
  disaggregated : List (String × Option String)
  /-- Whether the sidecar is wanted as a second document. -/
  exportSidecar : Bool
  maxDepth : Nat

def SaveOptions.default : SaveOptions :=
  { release := .current, naming := .default, disaggregated := [], exportSidecar := false,
    maxDepth := 64 }

/-- Where the record of a component is written. -/
inductive Placement where
  /-- In the record of its only user. -/
  | inline (user : String)
  /-- Once with its anchor; all users refer to it. -/
  | referenced (anchor : String)
  deriving DecidableEq

/-- The places of components by id, in the order in which they were met. -/
abbrev PlacementTable := Dict Placement

/-- What decides how components are written. -/
structure Writer where
  registry : Registry
  policy : Policy
  target : SaveTarget
  maxDepth : Nat

namespace Writer

/-- The fields of a component that are written: those its plugin gives without the gated and the
sensitive ones. A kind that is gated as a whole has none. -/
def visibleFields (w : Writer) (c : Component) : Except SaveError (Dict Value) := do
  let type := c.componentType
  match w.registry.owner? type with
  | none => throw (.unknownComponentType type)
  | some owner =>
    if w.policy.kindAllowed type w.target.release then
      let fields ← owner.plugin.write w.target c
      return fields.filter fun pair =>
        w.policy.fieldAllowed type pair.1 w.target.release && !w.policy.isSensitive type pair.1
    else return []

end Writer

/-- What is known of a graph after looking through it. -/
structure Survey where
  /-- The components by id with their visible fields, as first met. -/
  found : Dict (Component × Dict Value)
  tables : Dict PlacementTable

namespace Survey

def empty : Survey := ⟨[], []⟩

def component? (s : Survey) (id : String) : Option Component := (s.found.get? id).map (·.1)

def fields? (s : Survey) (id : String) : Option (Dict Value) := (s.found.get? id).map (·.2)

/-- The placement table of an id; empty if there is none. -/
def table (s : Survey) (id : String) : PlacementTable := (s.tables.get? id).getD []

end Survey

namespace PlacementTable

/-- Places the children of a component: a child is inlined on first sight and referenced if it
occurs again. -/
def ofChildren (here : String) (children : List Component) : PlacementTable :=
  children.foldl (fun table child =>
    Dict.put table child.id
      (if Dict.has table child.id then .referenced here else .inline here)) []

/-- Adds one entry of the table of a child. -/
def mergeEntry (here : String) (table : PlacementTable) (entry : String × Placement) :
    PlacementTable :=
  match Dict.get? table entry.1 with
  | none => Dict.put table entry.1 entry.2
  | some existing =>
    if existing = entry.2 then table else Dict.put table entry.1 (.referenced here)

def mergeChild (here : String) (table child : PlacementTable) : PlacementTable :=
  child.foldl (mergeEntry here) table

end PlacementTable

/-- The first component of each id, in order. -/
def firstOfEachId : List String → List Component → List Component
  | _, [] => []
  | seen, c :: rest =>
    if seen.contains c.id then firstOfEachId seen rest
    else c :: firstOfEachId (c.id :: seen) rest

/-- Looking through a graph, with what is known so far as state. -/
abbrev SurveyM := StateT Survey (Except SaveError)

namespace Writer

/-- Refuses a component whose id belongs to another component that is not equal to it. -/
def checkIdentity (c : Component) : SurveyM Unit := do
  match (← get).component? c.id with
  | some seen =>
    if !seen.isSameObject c && !seen.same c then throw (.conflictingId c.id)
  | none => return ()

/-- The visible fields of a component, looked up by its id if that was met before. -/
def noteFields (w : Writer) (c : Component) : SurveyM (Dict Value) := do
  match (← get).fields? c.id with
  | some fields => return fields
  | none =>
    let fields ← w.visibleFields c
    modify fun s => { s with found := s.found.put c.id (c, fields) }
    return fields

/-- Adds the tables of children to a table, each computed in turn. -/
def mergeChildren (here : String) (tableOf : Component → SurveyM PlacementTable) :
    List Component → PlacementTable → SurveyM PlacementTable
  | [], table => return table
  | child :: rest, table => do
    let below ← tableOf child
    mergeChildren here tableOf rest (PlacementTable.mergeChild here table below)

/-- The placement table of a component below which `room - 1` levels may follow. -/
def survey (w : Writer) : Nat → Component → SurveyM PlacementTable
  | 0, _ => throw (.depthExceeded w.maxDepth)
  | room + 1, c => do
    checkIdentity c
    match (← get).tables.get? c.id with
    | some table => return table
    | none =>
      let fields ← w.noteFields c
      let children := heldComponents fields
      let table ← mergeChildren c.id (w.survey room) (firstOfEachId [] children)
        (PlacementTable.ofChildren c.id children)
      modify fun s => { s with tables := s.tables.put c.id table }
      return table

end Writer
end AgentGraph
