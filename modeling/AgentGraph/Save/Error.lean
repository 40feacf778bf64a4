import AgentGraph.Naming
import AgentGraph.Release
/-!
# Failures of saving
-/
namespace AgentGraph

/-- Causes for which a graph cannot be saved. -/
inductive SaveError where
  | unknownComponentType (type : String)
  | depthExceeded (maxDepth : Nat)
  | cannotDisaggregateRoot (id : String)
  | unknownDisaggregated (id : String)
  | conflictingId (id : String)
  deriving DecidableEq

def SaveError.message : SaveError → String
  | unknownComponentType type => "no plugin handles component type " ++ type
  | depthExceeded maxDepth =>
    "document nests deeper than the maximum depth of " ++ toString maxDepth
  | cannotDisaggregateRoot id => "root component " ++ id ++ " cannot be disaggregated"
  | unknownDisaggregated id =>
    "disaggregated component " ++ id ++ " is not reachable from the root"
  | conflictingId id => "two different components share id " ++ id

/-- The release and the spelling that a document is written for. -/
structure SaveTarget where
  release : Release
  naming : NamingMode

end AgentGraph
