import AgentGraph.Schema.Basic
/-!
# Writing schemas as trees

The keywords come in a fixed order: title, description, default, type or union, the parts of the
type, and then the keywords that were carried along.
-/
namespace AgentGraph.Schema

/-- An entry that is there only if its value is. -/
def optionalEntry (key : String) : Option Tree → Dict Tree
  | none => []
  | some t => [(key, t)]

mutual
def toTree : Schema → Tree
  | mk title description fallback type extra =>
    .map (Dict.merge
      (optionalEntry "title" (title.map .string) ++
        optionalEntry "description" (description.map .string) ++
        optionalEntry "default" fallback ++ typeEntries type)
      extra)
def typeEntries : SchemaType → Dict Tree
  | .any => []
  | .null => [("type", .string "null")]
  | .boolean => [("type", .string "boolean")]
  | .integer => [("type", .string "integer")]
  | .number => [("type", .string "number")]
  | .string => [("type", .string "string")]
  | .array none => [("type", .string "array")]
  | .array (some items) => [("type", .string "array"), ("items", toTree items)]
  | .object properties additional =>
    [("type", .string "object")] ++
      (if properties.isEmpty then [] else [("properties", .map (propertyEntries properties))]) ++
      additionalEntries additional
  | .anyOf alternatives => [("anyOf", .list (toTrees alternatives))]
/-- The entry that says what holds of other keys. -/
def additionalEntries : Additional → Dict Tree
  | .unspecified => []
  | .allowed b => [("additionalProperties", .bool b)]
  | .following s => [("additionalProperties", toTree s)]
/-- The trees of a list of schemas. -/
def toTrees : List Schema → List Tree
  | [] => []
  | s :: rest => toTree s :: toTrees rest
def propertyEntries : List (String × Schema) → List (String × Tree)
  | [] => []
  | (key, s) :: rest => (key, toTree s) :: propertyEntries rest
end

end AgentGraph.Schema
