import AgentGraph.Component.Build
import AgentGraph.Format
/-!
# Failures of loading
-/
namespace AgentGraph

/-- Causes for which a document cannot be loaded. -/
inductive LoadError where
  | inputTooLarge (size limit : Nat)
  | tooDeep (limit : Nat)
  | notAMapping (found : String)
  | missingComponentType (key : String)
  | invalidComponentType (key : String)
  | unknownComponentType (type : String)
  | unknownVersion (version : String)
  | malformedReference (reason : String)
  | malformedSidecar (reason : String)
  | duplicateEntry (id : String)
  | missingReferences (ids : List String)
  | circularReference (id : String)
  | missingField (type field : String)
  | invalidField (type field reason : String)
  | sidecarOnly
  | component (cause : ComponentError)
  | property (cause : PropertyError)
  | codec (cause : CodecError)
  deriving DecidableEq

def LoadError.message : LoadError → String
  | inputTooLarge size limit =>
    "input is " ++ toString size ++ " bytes, over the limit of " ++ toString limit
  | tooDeep limit => "input nests deeper than the limit of " ++ toString limit
  | notAMapping found => "expected a mapping, got " ++ found
  | missingComponentType key => "record has no " ++ key ++ " field"
  | invalidComponentType key => key ++ " must be a string"
  | unknownComponentType type => "no plugin handles component type " ++ type
  | unknownVersion version => "unknown agentspec version " ++ version
  | malformedReference reason => "malformed reference: " ++ reason
  | malformedSidecar reason => "malformed referenced components: " ++ reason
  | duplicateEntry id => "component " ++ id ++ " is defined more than once"
  | missingReferences ids => "unresolved component references: " ++ ", ".intercalate ids
  | circularReference id => "circular reference through component " ++ id
  | missingField type field => type ++ " is missing required field " ++ field
  | invalidField type field reason => type ++ "." ++ field ++ ": " ++ reason
  | sidecarOnly =>
    "document only holds referenced components; load it as disaggregated components"
  | component cause => cause.message
  | property cause => cause.message
  | codec cause => cause.message

end AgentGraph
