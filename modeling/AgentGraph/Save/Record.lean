import AgentGraph.Save.Sidecar
import AgentGraph.Tree.Depth
import AgentGraph.Tree.ReservedKeys
/-!
# Writing records

Every component has one record, built once. Where a component is used stands its record, or a
reference if it lives in a sidecar. Opaque data is written as it is, without reserved keys. Nothing
is written deeper than the limit: a budget of levels is handed down, one level for each list or
mapping that is opened.
-/
namespace AgentGraph

/-- Where each component of a graph is written. -/
structure Layout where
  survey : Survey
  table : PlacementTable
  aliases : Aliases

namespace Layout

/-- Whether an id is referred to inside of the document. -/
def isReferenced (l : Layout) (id : String) : Bool :=
  !Dict.has l.aliases id &&
    match Dict.get? l.table id with
    | some (.referenced _) => true
    | _ => false

/-- The ids whose records an anchor carries, in the order of the table. -/
def hosted (l : Layout) (anchor : String) : List String :=
  (l.table.filter fun entry =>
    entry.2 == .referenced anchor && !Dict.has l.aliases entry.1).map (·.1)

/-- The id by which users refer to a component, if they do. -/
def reference? (l : Layout) (id : String) : Option String :=
  match Dict.get? l.aliases id with
  | some target => some target
  | none => if l.isReferenced id then some id else none

end Layout

/-- Writing, with the records built so far as state. -/
abbrev RecordM := StateT (Dict (Dict Tree)) (Except SaveError)

namespace Writer

/-- Opaque data without reserved keys, if it nests no deeper than the budget. -/
def dumpData (w : Writer) (budget : Nat) (t : Tree) : Except SaveError Tree :=
  if t.depthUpTo budget > budget then .error (.depthExceeded w.maxDepth) else .ok t.strip

def referenceTo (w : Writer) (id : String) : Tree :=
  .map [(w.target.naming.protocol.componentRef, .string id)]

/-- What stands where a component is used. -/
def useOf (w : Writer) (l : Layout) (id : String) (record : Dict Tree) : Tree :=
  match l.reference? id with
  | some target => w.referenceTo target
  | none => .map record

/-- The first entries of a record: the discriminator, and the plugin unless it is the builtin
one. -/
def header (w : Writer) (type : String) : Dict Tree :=
  let protocol := w.target.naming.protocol
  let record := [(protocol.componentType, Tree.string type)]
  match w.registry.owner? type with
  | some ⟨plugin, false⟩ =>
    Dict.put (Dict.put record protocol.pluginName (.string plugin.name)) protocol.pluginVersion
      (.string plugin.version)
  | _ => record

/-- The entries of a record that do not depend on the kind. -/
def baseEntries (w : Writer) (c : Component) (room : Nat) (record : Dict Tree) :
    Except SaveError (Dict Tree) := do
  let record := Dict.put (Dict.put record "id" (.string c.id)) "name" (.string c.name)
  let record := match c.description with
    | some text => Dict.put record "description" (.string text)
    | none => record
  if c.metadata.isEmpty then return record
  else return Dict.put record "metadata" (← w.dumpData (room - 1) (.map c.metadata))

def fieldsOf (w : Writer) (l : Layout) (c : Component) : Except SaveError (Dict Value) :=
  match l.survey.fields? c.id with
  | some fields => .ok fields
  | none => w.visibleFields c

/-- Builds the record of a component unless it was built before. -/
def remembered (id : String) (build : RecordM (Dict Tree)) : RecordM (Dict Tree) := do
  match (← get).get? id with
  | some record => return record
  | none =>
    let record ← build
    modify fun records => records.put id record
    return record

def dumpFields (w : Writer) (dump : Value → RecordM Tree) :
    List (String × Value) → Dict Tree → RecordM (Dict Tree)
  | [], record => return record
  | (name, v) :: rest, record => do
    let t ← dump v
    w.dumpFields dump rest (Dict.put record (w.target.naming.toDocument name) t)

def dumpEntries (l : Layout) (recordOf : Component → RecordM (Dict Tree)) :
    List String → Dict Tree → RecordM (Dict Tree)
  | [], entries => return entries
  | id :: rest, entries =>
    match l.survey.component? id with
    | none => dumpEntries l recordOf rest entries
    | some c => do
      let r ← recordOf c
      dumpEntries l recordOf rest (Dict.put entries id (.map r))

/-- Adds the records that a component carries for others. -/
def dumpHosted (w : Writer) (l : Layout) (recordOf : Component → RecordM (Dict Tree))
    (anchor : String) (record : Dict Tree) : RecordM (Dict Tree) := do
  match l.hosted anchor with
  | [] => return record
  | ids =>
    let entries ← dumpEntries l recordOf ids []
    return Dict.put record w.target.naming.protocol.referencedComponents (.map entries)

def dumpItems (dump : Value → RecordM Tree) : List Value → RecordM (List Tree)
  | [] => return []
  | v :: rest => do
    let t ← dump v
    return t :: (← dumpItems dump rest)

/-- The entries of a mapping without reserved keys. -/
def dumpMapping (dump : Value → RecordM Tree) : List (String × Value) → RecordM (Dict Tree)
  | [] => return []
  | (key, v) :: rest =>
    if isReservedKey key then dumpMapping dump rest
    else do
      let t ← dump v
      return (key, t) :: (← dumpMapping dump rest)

/-- The record of a component, given how the values and records one level below are written and
how many levels may follow. -/
def buildRecord (w : Writer) (l : Layout) (room : Nat) (dump : Value → RecordM Tree)
    (recordOf : Component → RecordM (Dict Tree)) (c : Component) : RecordM (Dict Tree) := do
  let fields ← w.fieldsOf l c
  let type := c.componentType
  if w.policy.kindAllowed type w.target.release then
    let record ← w.baseEntries c room (w.header type)
    let record ← w.dumpFields dump fields record
    w.dumpHosted l recordOf c.id record
  else return w.header type

mutual
/-- The record of a component, looked up by its id if it was built before; building it takes one of
the levels that there is room for. -/
def record (w : Writer) (l : Layout) : Nat → Component → RecordM (Dict Tree)
  | 0, c => remembered c.id (throw (.depthExceeded w.maxDepth))
  | room + 1, c =>
    remembered c.id (w.buildRecord l room (w.dumpValue l room) (w.record l room) c)
/-- A field value, within the levels that there is room for. -/
def dumpValue (w : Writer) (l : Layout) : Nat → Value → RecordM Tree
  | 0, _ => throw (.depthExceeded w.maxDepth)
  | room + 1, v =>
    match v with
    | .data t => w.dumpData room t
    | .component c => do
      let r ← remembered c.id (w.buildRecord l room (w.dumpValue l room) (w.record l room) c)
      return w.useOf l c.id r
    | .property p => return p.toTree
    | .list items => return .list (← dumpItems (w.dumpValue l room) items)
    | .map entries => return .map (← dumpMapping (w.dumpValue l room) entries)
end

/-- A component as a value is written as its record or as a reference. -/
theorem dumpValue_component (w : Writer) (l : Layout) (room : Nat) (c : Component) :
    w.dumpValue l (room + 1) (.component c) = do
      let r ← w.record l (room + 1) c
      return w.useOf l c.id r := rfl

end Writer
end AgentGraph
