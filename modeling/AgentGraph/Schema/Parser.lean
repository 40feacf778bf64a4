import AgentGraph.Schema.Basic
import AgentGraph.Json.Printer
/-!
# Reading schemas from trees

`allOf` and `oneOf` are refused wherever a schema stands, every title is checked, and reserved
keys are dropped. A list of type names is read as a union. The checks of a node come in a fixed
order: combinators, title, description, type.
-/
namespace AgentGraph.Schema

/-- The keywords that are read; all others are carried along. -/
def knownKeywords : List String :=
  ["title", "description", "default", "type", "anyOf", "items", "properties",
    "additionalProperties"]

/-- The keywords that are refused. -/
def refusedCombinators : List String := ["allOf", "oneOf"]

def readTitle (entries : Dict Tree) : Except PropertyError (Option String) :=
  match entries.get? "title" with
  | none | some .null => .ok none
  | some (.string title) => do
    checkTitle title
    return some title
  | some other => .error (.invalidSchema ("title must be a string, got " ++ Json.compact other))

def readDescription (entries : Dict Tree) : Except PropertyError (Option String) :=
  match entries.get? "description" with
  | none | some .null => .ok none
  | some (.string text) => .ok (some text)
  | some other =>
    .error (.invalidSchema ("description must be a string, got " ++ Json.compact other))

/-- The keywords carried along, reserved keys dropped at every depth. -/
def readExtra (entries : Dict Tree) : Dict Tree :=
  Tree.stripEntries (entries.filter fun pair => !knownKeywords.contains pair.1)

/-- The schemas found below a node, each read only when its type asks for it. -/
structure Parts where
  items : Option (Except PropertyError Schema)
  properties : Option (Except PropertyError (Dict Schema))
  additional : Except PropertyError Additional

/-- The type that a type name stands for. -/
def ofTypeName (parts : Parts) (name : String) : Except PropertyError SchemaType :=
  match name with
  | "null" => .ok .null
  | "boolean" => .ok .boolean
  | "integer" => .ok .integer
  | "number" => .ok .number
  | "string" => .ok .string
  | "array" =>
    match parts.items with
    | none => .ok (.array none)
    | some items => do return .array (some (← items))
  | "object" => do
    let properties ← match parts.properties with
      | none => pure []
      | some properties => properties
    return .object properties (← parts.additional)
  | other => .error (.invalidSchema ("unknown type " ++ Text.quote other))

/-- The alternatives of a list of type names. -/
def ofTypeNames (parts : Parts) : List Tree → Except PropertyError (List Schema)
  | [] => .ok []
  | .string name :: rest => do
    let type ← ofTypeName parts name
    return ofType type :: (← ofTypeNames parts rest)
  | other :: _ =>
    .error (.invalidSchema ("type entries must be strings, got " ++ Json.compact other))

/-- The type that the `type` keyword asks for. -/
def readNamedType (parts : Parts) : Option Tree → Except PropertyError SchemaType
  | none => .ok .any
  | some (.string name) => ofTypeName parts name
  | some (.list names) => do return .anyOf (← ofTypeNames parts names)
  | some other =>
    .error (.invalidSchema ("type must be a string or a list, got " ++ Json.compact other))

mutual
def ofTree : Tree → Except PropertyError Schema
  | .map entries => do
    match refusedCombinators.find? (Dict.has entries) with
    | some name => throw (.unsupportedCombinator name)
    | none => pure ()
    let title ← readTitle entries
    let description ← readDescription entries
    let fallback := (Dict.get? entries "default").map Tree.strip
    let type ← match alternatives? entries with
      | some alternatives => do pure (.anyOf (← alternatives))
      | none =>
        readNamedType
          { items := items? entries
            properties := properties? entries
            additional := additionalOf entries }
          (Dict.get? entries "type")
    return mk title description fallback type (readExtra entries)
  | other =>
    .error (.invalidSchema ("expected a mapping, got " ++ Json.compact other))
/-- The alternatives under `anyOf`, if the keyword is there. -/
def alternatives? : List (String × Tree) → Option (Except PropertyError (List Schema))
  | [] => none
  | (key, t) :: rest =>
    if key = "anyOf" then
      match t with
      | .list items => some (ofTrees items)
      | _ => some (.error (.invalidSchema "anyOf must be a list"))
    else alternatives? rest
/-- The schema under `items`, if the keyword is there. -/
def items? : List (String × Tree) → Option (Except PropertyError Schema)
  | [] => none
  | (key, t) :: rest => if key = "items" then some (ofTree t) else items? rest
/-- The named schemas under `properties`, if the keyword is there. -/
def properties? : List (String × Tree) → Option (Except PropertyError (Dict Schema))
  | [] => none
  | (key, t) :: rest =>
    if key = "properties" then
      match t with
      | .map entries => some (ofEntries entries)
      | _ => some (.error (.invalidSchema "properties must be a mapping"))
    else properties? rest
def additionalOf : List (String × Tree) → Except PropertyError Additional
  | [] => .ok .unspecified
  | (key, t) :: rest =>
    if key = "additionalProperties" then
      match t with
      | .bool b => .ok (.allowed b)
      | t => do return .following (← ofTree t)
    else additionalOf rest
/-- Reads a list of schemas in order. -/
def ofTrees : List Tree → Except PropertyError (List Schema)
  | [] => .ok []
  | t :: rest => do
    let s ← ofTree t
    return s :: (← ofTrees rest)
/-- Reads named schemas in order, reserved names left out. -/
def ofEntries : List (String × Tree) → Except PropertyError (Dict Schema)
  | [] => .ok []
  | (key, t) :: rest =>
    if isReservedKey key then ofEntries rest
    else do
      let s ← ofTree t
      return (key, s) :: (← ofEntries rest)
end

end AgentGraph.Schema
