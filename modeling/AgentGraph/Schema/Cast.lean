import AgentGraph.Schema.Basic
/-!
# Comparing schemas by type

`sameType` compares the type parts of two schemas: titles, descriptions, defaults and carried
keywords do not count, and unions compare as sets. `castable` says whether a value that one schema
describes may stand where another is expected; it goes one way only. An array without items holds
values of any type, and an object that says nothing of other keys allows them.
-/
namespace AgentGraph

def SchemaType.isAny : SchemaType → Bool
  | .any => true
  | _ => false

/-- Whether the type is the string type. -/
def SchemaType.isString : SchemaType → Bool
  | .string => true
  | _ => false

/-- Whether the type is one of the scalars that stand for each other. -/
def SchemaType.isNumeric : SchemaType → Bool
  | .number | .integer | .boolean => true
  | _ => false

namespace Schema

/-- The schema of the items of an array. -/
def itemsOrAny : Option Schema → Schema
  | some items => items
  | none => any

mutual
/-- Whether two schemas have the same type. -/
def sameType : Schema → Schema → Bool
  | mk _ _ _ type _, other => sameTypeOf type other.type
def sameTypeOf : SchemaType → SchemaType → Bool
  | .any, .any => true
  | .null, .null => true
  | .boolean, .boolean => true
  | .integer, .integer => true
  | .number, .number => true
  | .string, .string => true
  | .array none, .array b => (itemsOrAny b).type.isAny
  | .array (some a), .array b => sameType a (itemsOrAny b)
  | .object ps a, .object qs b =>
    ps.length == qs.length && allSame ps qs && sameTypeAdditional a b
  | .anyOf xs, .anyOf ys =>
    allFound xs ys && ys.all fun y => anyFinds xs y
  | _, _ => false
/-- Whether both say the same of other keys. -/
def sameTypeAdditional : Additional → Additional → Bool
  | .following a, .following b => sameType a b
  | .following _, _ => false
  | _, .following _ => false
  | .allowed a, .allowed b => a == b
  | .allowed a, .unspecified => a
  | .unspecified, .allowed b => b
  | .unspecified, .unspecified => true
/-- Whether each named property has the same type in the other mapping. -/
def allSame : List (String × Schema) → Dict Schema → Bool
  | [], _ => true
  | (key, s) :: rest, other =>
    (match other.get? key with
      | some t => sameType s t
      | none => false) && allSame rest other
/-- Whether each schema of the first list has its type among the second. -/
def allFound : List Schema → List Schema → Bool
  | [], _ => true
  | x :: rest, ys => (ys.any fun y => sameType x y) && allFound rest ys
/-- Whether some schema of the list has the type of the second. -/
def anyFinds : List Schema → Schema → Bool
  | [], _ => false
  | x :: rest, y => sameType x y || anyFinds rest y
end

mutual
/-- Whether a test holds of a schema or of some schema among its alternatives, at any depth of
unions. -/
def someTarget (test : Schema → Bool) : Schema → Bool
  | mk title description fallback type extra =>
    test (mk title description fallback type extra) || someAlternative test type
/-- Whether a test holds of a target among the alternatives of a union. -/
def someAlternative (test : Schema → Bool) : SchemaType → Bool
  | .anyOf alternatives => someOf test alternatives
  | _ => false
/-- Whether a test holds of a target among the schemas of a list. -/
def someOf (test : Schema → Bool) : List Schema → Bool
  | [] => false
  | s :: rest => someTarget test s || someOf test rest
end

/-- Whether every value may stand where the schema is expected, unions not looked into. -/
def takesAll (s : Schema) : Bool := s.type.isAny || s.type.isString

/-- Whether a value of any type may stand where the schema is expected. -/
def acceptsAny (s : Schema) : Bool := someTarget takesAll s

mutual
/-- Whether a value that the first schema describes may stand where the second is expected. -/
def castable : Schema → Schema → Bool
  | mk _ _ _ type _, target => castableType type target
/-- Whether a value of a type may stand where a schema is expected. A union needs all of its
alternatives to fit; a union as the target needs one that fits. -/
def castableType : SchemaType → Schema → Bool
  | .anyOf xs, target =>
    sameTypeOf (.anyOf xs) target.type || takesAll target || allCastable xs target
  | .array items, target =>
    target.someTarget fun s =>
      sameTypeOf (.array items) s.type || takesAll s ||
        match s.type with
        | .array other => castableItems items other
        | _ => false
  | .object properties additional, target =>
    target.someTarget fun s =>
      sameTypeOf (.object properties additional) s.type || takesAll s ||
        match s.type with
        | .object wanted other =>
          (wanted.all fun pair => castableProperty properties pair.1 pair.2) &&
            castableAdditional additional other
        | _ => false
  | type, target =>
    target.someTarget fun s =>
      sameTypeOf type s.type || takesAll s || (type.isNumeric && s.type.isNumeric)
/-- Whether all schemas of a list may stand where the target is expected. -/
def allCastable : List Schema → Schema → Bool
  | [], _ => true
  | x :: rest, target => castable x target && allCastable rest target
/-- Whether the items of one array may stand where those of another are expected. -/
def castableItems : Option Schema → Option Schema → Bool
  | _, none => true
  | none, some b => acceptsAny b
  | some a, some b => castable a b
/-- Whether the property of a name is there and may stand where the schema is expected. -/
def castableProperty : List (String × Schema) → String → Schema → Bool
  | [], _, _ => false
  | (k, s) :: rest, key, target =>
    if k = key then castable s target else castableProperty rest key target
/-- Whether what one object says of other keys fits what another says. A source that allows no
other keys has none to check, and one that allows all needs a target for values of any type. -/
def castableAdditional : Additional → Additional → Bool
  | .following a, .following b => castable a b
  | .following _, .allowed isOpen => isOpen
  | .following _, .unspecified => true
  | .allowed false, .following _ => true
  | .allowed true, .following b => acceptsAny b
  | .unspecified, .following b => acceptsAny b
  | .allowed a, .allowed b => a == b
  | .allowed a, .unspecified => a
  | .unspecified, .allowed b => b
  | .unspecified, .unspecified => true
end

end Schema
end AgentGraph
