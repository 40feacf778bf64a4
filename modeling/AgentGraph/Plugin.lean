import AgentGraph.Load.Reader
import AgentGraph.Save.Error
/-!
# Plugins

A plugin turns components of the types it claims into fields by internal name, and reads their
kinds back from records. Spelling, gates and places are no concern of a plugin. `Plugin.generic`
serves kinds that are kept as a bag of fields.
-/
namespace AgentGraph

/-- What saves and loads components of certain types. -/
structure Plugin where
  name : String
  version : String
  types : List String
  write : SaveTarget → Component → Except SaveError (Dict Value)
  read : Reader → Record → LoadM Kind

namespace Plugin

/-- The fields of an extension; other kinds are refused. -/
def writeBag (c : Component) : Except SaveError (Dict Value) :=
  match c.kind with
  | .extension _ fields => .ok fields
  | _ => .error (.unknownComponentType c.componentType)

/-- A plugin that keeps its kinds as bags of fields. The declared field names are read back exactly
as given. -/
def generic (name version : String) (types declared : List String) : Plugin where
  name := name
  version := version
  types := types
  write := fun _ c => writeBag c
  read := fun reader record => do
    return .extension record.componentType (← reader.bag record declared)

end Plugin
end AgentGraph
