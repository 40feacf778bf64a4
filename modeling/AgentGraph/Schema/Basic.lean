import AgentGraph.Tree.ReservedKeys
import AgentGraph.Text.Quoted
/-!
# Schemas

A schema describes the values of one slot: a type, an optional title, description and default, and
the keywords that are carried along without being read. A property is a schema that has a title.
-/
namespace AgentGraph

mutual
/-- One node of a schema tree. -/
inductive Schema where
  | mk (title : Option String) (description : Option String) (fallback : Option Tree)
      (type : SchemaType) (extra : List (String × Tree))
/-- The type part of a schema. -/
inductive SchemaType where
  | any
  | null
  | boolean
  | integer
  | number
  | string
  | array (items : Option Schema)
  | object (properties : List (String × Schema)) (additional : Additional)
  | anyOf (alternatives : List Schema)
/-- What an object schema says of keys it does not name. -/
inductive Additional where
  | unspecified
  | allowed (value : Bool)
  | following (schema : Schema)
end

instance : Inhabited Schema := ⟨.mk none none none .any []⟩

/-- Causes of a refused schema or property. -/
inductive PropertyError where
  | unsupportedCombinator (name : String)
  | invalidTitle (title : String)
  | missingTitle
  | duplicateTitle (title list : String)
  | invalidSchema (reason : String)
  deriving DecidableEq

def PropertyError.message : PropertyError → String
  | unsupportedCombinator name => "unsupported schema combinator: " ++ name
  | invalidTitle title =>
    "invalid property title " ++ Text.quote title ++
      ": titles must be non-empty and contain none of . , \x7b \x7d ' \" space or newline"
  | missingTitle => "property schema is missing a title"
  | duplicateTitle title list =>
    "duplicate property title " ++ Text.quote title ++ " in " ++ list
  | invalidSchema reason => "invalid property schema: " ++ reason

namespace Schema

def title : Schema → Option String
  | mk title _ _ _ _ => title

def description : Schema → Option String
  | mk _ description _ _ _ => description

/-- The default value of a schema. -/
def fallback : Schema → Option Tree
  | mk _ _ fallback _ _ => fallback

def type : Schema → SchemaType
  | mk _ _ _ type _ => type

/-- The keywords that are carried along. -/
def extra : Schema → Dict Tree
  | mk _ _ _ _ extra => extra

def ofType (type : SchemaType) : Schema := mk none none none type []

/-- The schema that accepts every value. -/
def any : Schema := ofType .any

def withTitle (s : Schema) (title : String) : Schema :=
  mk (some title) s.description s.fallback s.type s.extra

def withDescription (s : Schema) (description : String) : Schema :=
  mk s.title (some description) s.fallback s.type s.extra

/-- The same schema with another default, reserved keys dropped. -/
def withDefault (s : Schema) (value : Tree) : Schema :=
  mk s.title s.description (some value.strip) s.type s.extra

end Schema

/-- Characters that no title may hold, since a title is also the name of a placeholder. -/
def forbiddenTitleChars : List Char := ['.', ',', '\x7b', '\x7d', '\'', '"', ' ', '\n']

/-- Whether a text may be a title. -/
def isTitle (title : String) : Bool :=
  !title.isEmpty && title.toList.all fun c => !forbiddenTitleChars.contains c

/-- Refuses titles that are empty or hold a forbidden character. -/
def checkTitle (title : String) : Except PropertyError Unit :=
  if isTitle title then .ok () else .error (.invalidTitle title)

/-- Refuses a title that is present and not allowed. -/
def checkOptionalTitle : Option String → Except PropertyError Unit
  | some title => checkTitle title
  | none => .ok ()

namespace Schema

mutual
/-- Checks the titles below a schema, its own title not included. -/
def checkNested : Schema → Except PropertyError Unit
  | mk _ _ _ type _ => checkNestedType type
def checkNestedType : SchemaType → Except PropertyError Unit
  | .array (some items) => checkNode items
  | .anyOf alternatives => checkNodes alternatives
  | .object properties additional => do
    checkProperties properties
    match additional with
    | .following s => checkNode s
    | _ => .ok ()
  | _ => .ok ()
/-- Checks the title of a schema and those below it. -/
def checkNode : Schema → Except PropertyError Unit
  | mk title _ _ type _ => do
    checkOptionalTitle title
    checkNestedType type
/-- Checks a list of schemas in order. -/
def checkNodes : List Schema → Except PropertyError Unit
  | [] => .ok ()
  | s :: rest => do
    checkNode s
    checkNodes rest
/-- Checks the schemas of named properties in order. -/
def checkProperties : List (String × Schema) → Except PropertyError Unit
  | [] => .ok ()
  | (_, s) :: rest => do
    checkNode s
    checkProperties rest
end

mutual
/-- Equality of schemas, mappings compared without regard to the order of their keys. -/
def same : Schema → Schema → Bool
  | mk title description fallback type extra, other =>
    title == other.title && description == other.description &&
      (match fallback, other.fallback with
        | none, none => true
        | some a, some b => a.same b
        | _, _ => false) &&
      sameTypePart type other.type && Tree.sameDict extra other.extra
/-- Equality of the type parts. -/
def sameTypePart : SchemaType → SchemaType → Bool
  | .any, .any => true
  | .null, .null => true
  | .boolean, .boolean => true
  | .integer, .integer => true
  | .number, .number => true
  | .string, .string => true
  | .array none, .array none => true
  | .array (some a), .array (some b) => same a b
  | .object ps a, .object qs b =>
    ps.length == qs.length && sameProperties ps qs && sameAdditional a b
  | .anyOf xs, .anyOf ys => sameList xs ys
  | _, _ => false
/-- Equality of what is said of other keys. -/
def sameAdditional : Additional → Additional → Bool
  | .unspecified, .unspecified => true
  | .allowed a, .allowed b => a == b
  | .following a, .following b => same a b
  | _, _ => false
def sameList : List Schema → List Schema → Bool
  | [], [] => true
  | x :: xs, y :: ys => same x y && sameList xs ys
  | _, _ => false
/-- Whether each named property is in the other mapping. -/
def sameProperties : List (String × Schema) → Dict Schema → Bool
  | [], _ => true
  | (key, s) :: rest, other =>
    (match other.get? key with
      | some t => same s t
      | none => false) && sameProperties rest other
end

end Schema
end AgentGraph
