import AgentGraph.Load.Error
import AgentGraph.Naming
/-!
# Records

A record is the mapping that stands for one component in a document. Its fields are looked up by
internal names, spelled as the document spells them; a null counts as absent.
-/
namespace AgentGraph

/-- A component record. -/
structure Record where
  fields : Dict Tree
  naming : NamingMode
  componentType : String

namespace Record

/-- The fields that every record has, whatever its kind. -/
def baseFields : List String := ["id", "name", "description", "metadata"]

/-- The value of a field that is present and not null. -/
def get? (r : Record) (field : String) : Option Tree :=
  (Dict.get? r.fields (r.naming.toDocument field)).filter (!·.isNull)

/-- The error of an absent field. -/
def missing (r : Record) (field : String) : LoadError := .missingField r.componentType field

/-- The error of a field that is not what it should be. -/
def invalid (r : Record) (field reason : String) : LoadError :=
  .invalidField r.componentType field reason

/-- The error of a field that is of another kind than expected. -/
def mismatch (r : Record) (field expected : String) (found : Tree) : LoadError :=
  r.invalid field ("expected " ++ expected ++ ", got " ++ found.kindName)

/-- A text that may be absent. -/
def optionalText (r : Record) (field : String) : Except LoadError (Option String) :=
  match r.get? field with
  | none => .ok none
  | some (.string s) => .ok (some s)
  | some other => .error (r.mismatch field "a string" other)

/-- A text that must be present. -/
def requiredText (r : Record) (field : String) : Except LoadError String := do
  match ← r.optionalText field with
  | some s => return s
  | none => throw (r.missing field)

/-- A truth value that may be absent. -/
def optionalBool (r : Record) (field : String) : Except LoadError (Option Bool) :=
  match r.get? field with
  | none => .ok none
  | some (.bool b) => .ok (some b)
  | some other => .error (r.mismatch field "a boolean" other)

/-- Opaque data whose keys are kept as written. -/
def mapping? (r : Record) (field : String) : Except LoadError (Option (Dict Tree)) :=
  match r.get? field with
  | none => .ok none
  | some (.map entries) => .ok (some entries)
  | some other => .error (r.mismatch field "a mapping" other)

/-- Opaque data; absent means empty. -/
def mapping (r : Record) (field : String) : Except LoadError (Dict Tree) :=
  return (← r.mapping? field).getD []

/-- Reads the values of a mapping that must all be texts. -/
def texts (r : Record) (field : String) : Dict Tree → Except LoadError (Dict String)
  | [] => .ok []
  | (key, t) :: rest =>
    match t with
    | .string s => return (key, s) :: (← r.texts field rest)
    | other =>
      .error (r.invalid field
        ("value for " ++ key ++ " must be a string, got " ++ other.kindName))

/-- A mapping of texts; absent means empty. -/
def textMapping (r : Record) (field : String) : Except LoadError (Dict String) := do
  r.texts field (← r.mapping field)

/-- A list of titled schemas; absent means empty. -/
def properties (r : Record) (field : String) : Except LoadError (List Property) :=
  match r.get? field with
  | none => .ok []
  | some (.list items) => (Property.ofTrees items).mapError .property
  | some other => .error (r.mismatch field "a list" other)

def slots (r : Record) : Except LoadError Slots := do
  let inputs ← r.properties "inputs"
  let outputs ← r.properties "outputs"
  (Slots.of inputs outputs).mapError .property

/-- Whether a key belongs to the kind: it is no base field and no protocol name. -/
def isOwnKey (r : Record) (key : String) : Bool :=
  !r.naming.isProtocol key && !baseFields.contains key

/-- The internal name of a key. A key that is the spelling of a declared name stands for that
name. -/
def internalName (r : Record) (declared : List String) (key : String) : String :=
  (declared.find? (r.naming.toDocument · == key)).getD (r.naming.fromDocument key)

/-- The fields of the kind by internal name, in document order. -/
def ownFields (r : Record) (declared : List String) : List (String × Tree) :=
  (r.fields.filter fun pair => r.isOwnKey pair.1).map fun pair =>
    (r.internalName declared pair.1, pair.2)

end Record
end AgentGraph
