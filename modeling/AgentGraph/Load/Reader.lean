import AgentGraph.Load.Record
import AgentGraph.Release
/-!
# Reading component-valued fields

While a document is loaded, every reference id and every record id that was met is resolved to one
object. A plugin reads the fields of a record through a `Reader`, which knows how to load a nested
record and how to follow a reference.
-/
namespace AgentGraph

/-- What an id stands for while a document is loaded. -/
inductive Resolution where
  | inProgress
  | resolved (component : Component)

/-- Where new objects and new ids come from. -/
structure Supply where
  nextHandle : Nat
  nextId : Nat

namespace Supply

/-- The id of a number: 26 characters, as long as every made-up id. -/
def idOf (n : Nat) : String :=
  let digits := toString n
  "01K" ++ "".pushn '0' (23 - digits.length) ++ digits

def freshId (s : Supply) : String × Supply := (idOf s.nextId, { s with nextId := s.nextId + 1 })

def freshHandle (s : Supply) : Nat × Supply :=
  (s.nextHandle, { s with nextHandle := s.nextHandle + 1 })

end Supply

/-- What is known while a document is loaded. -/
structure LoadState where
  resolution : Dict Resolution
  supply : Supply

/-- A step of loading. -/
abbrev LoadM := StateT LoadState (Except LoadError)

/-- What an id was resolved to. -/
def LoadState.resolved? (s : LoadState) (id : String) : Option Component :=
  match s.resolution.get? id with
  | some (.resolved c) => some c
  | _ => none

theorem LoadState.resolved?_eq_some {s : LoadState} {id : String} {c : Component} :
    s.resolved? id = some c ↔ s.resolution.get? id = some (.resolved c) := by
  unfold LoadState.resolved?
  split <;> simp_all

/-- Notes what an id stands for. -/
def setResolution (id : String) (r : Resolution) : LoadM Unit :=
  modify fun s => { s with resolution := s.resolution.put id r }

def freshId : LoadM String := do
  let s ← get
  let (id, supply) := s.supply.freshId
  set { s with supply }
  return id

def freshHandle : LoadM Nat := do
  let s ← get
  let (handle, supply) := s.supply.freshHandle
  set { s with supply }
  return handle

/-- What a plugin may ask while it reads a record. -/
structure Reader where
  /-- The release that the document declares. -/
  release : Release
  naming : NamingMode
  /-- Loads a nested record. -/
  nested : Dict Tree → LoadM Component
  /-- Follows a reference. -/
  referenced : String → LoadM Component

namespace Reader

/-- The component that a value stands for: a record, or a mapping that holds a reference and nothing
else. -/
def componentOf (r : Reader) (record : Record) (field : String) (value : Tree) :
    LoadM Component := do
  let refKey := r.naming.protocol.componentRef
  match value with
  | .map entries =>
    match Dict.get? entries refKey with
    | none => r.nested entries
    | some target =>
      if entries.length > 1 then
        throw (.malformedReference ("a " ++ refKey ++ " record holds no other fields, got " ++
          ", ".intercalate (Dict.keys entries)))
      else
        match target with
        | .string id => r.referenced id
        | other => throw (.malformedReference (Json.compact other))
  | other => throw (record.mismatch field "a component" other)

/-- A component that must be present. -/
def component (r : Reader) (record : Record) (field : String) : LoadM Component :=
  match record.get? field with
  | some value => r.componentOf record field value
  | none => throw (record.missing field)

/-- A component that may be absent. -/
def optionalComponent (r : Reader) (record : Record) (field : String) :
    LoadM (Option Component) :=
  match record.get? field with
  | some value => return some (← r.componentOf record field value)
  | none => return none

/-- The components of a list of values, in order. -/
def componentsOf (r : Reader) (record : Record) (field : String) : List Tree →
    LoadM (List Component)
  | [] => return []
  | value :: rest => do
    let c ← r.componentOf record field value
    return c :: (← r.componentsOf record field rest)

/-- A list of components; absent means empty. -/
def componentList (r : Reader) (record : Record) (field : String) : LoadM (List Component) :=
  match record.get? field with
  | none => return []
  | some (.list items) => r.componentsOf record field items
  | some other => throw (record.mismatch field "a list" other)

/-- The pairs of components of a list of values, in order. -/
def pairsOf (r : Reader) (record : Record) (field : String) : List Tree →
    LoadM (List (Component × Component))
  | [] => return []
  | value :: rest =>
    match value with
    | .list [first, second] => do
      let a ← r.componentOf record field first
      let b ← r.componentOf record field second
      return (a, b) :: (← r.pairsOf record field rest)
    | _ => throw (record.invalid field "expected a pair of components")

/-- A list of pairs of components; absent means empty. -/
def componentPairs (r : Reader) (record : Record) (field : String) :
    LoadM (List (Component × Component)) :=
  match record.get? field with
  | none => return []
  | some (.list items) => r.pairsOf record field items
  | some other => throw (record.mismatch field "a list" other)

/-- Whether a mapping looks like a component: it has a discriminator or a reference. -/
def looksLikeComponent (naming : NamingMode) (entries : Dict Tree) : Bool :=
  Dict.has entries naming.protocol.componentType || Dict.has entries naming.protocol.componentRef

mutual
/-- Whether something that looks like a component stands anywhere in a tree. -/
def holdsComponent (naming : NamingMode) : Tree → Bool
  | .map entries => looksLikeComponent naming entries || entriesHoldComponent naming entries
  | .list items => itemsHoldComponent naming items
  | _ => false
/-- Whether one of the items holds a component. -/
def itemsHoldComponent (naming : NamingMode) : List Tree → Bool
  | [] => false
  | t :: rest => holdsComponent naming t || itemsHoldComponent naming rest
/-- Whether one of the entries holds a component. -/
def entriesHoldComponent (naming : NamingMode) : List (String × Tree) → Bool
  | [] => false
  | (_, t) :: rest => holdsComponent naming t || entriesHoldComponent naming rest
end

mutual
/-- The value of a field of a kind that is not known further: what looks like a component becomes
one, lists and mappings that hold one are read through, and everything else stays data. -/
def valueOf (r : Reader) (record : Record) (field : String) : Tree → LoadM Value
  | .map entries => do
    if looksLikeComponent r.naming entries then
      return .component (← r.componentOf record field (.map entries))
    else if entriesHoldComponent r.naming entries then
      return .map (← r.entriesOf record field entries)
    else return .data (.map entries)
  | .list items => do
    if itemsHoldComponent r.naming items then return .list (← r.itemsOf record field items)
    else return .data (.list items)
  | t => return .data t
/-- The values of the items of a list. -/
def itemsOf (r : Reader) (record : Record) (field : String) : List Tree → LoadM (List Value)
  | [] => return []
  | t :: rest => do
    let v ← r.valueOf record field t
    return v :: (← r.itemsOf record field rest)
/-- The values of the entries of a mapping. -/
def entriesOf (r : Reader) (record : Record) (field : String) : List (String × Tree) →
    LoadM (List (String × Value))
  | [] => return []
  | (key, t) :: rest => do
    let v ← r.valueOf record field t
    return (key, v) :: (← r.entriesOf record field rest)
end

/-- Reads fields into a bag; of two fields with one internal name the later value stays. -/
def bagOf (r : Reader) (record : Record) : List (String × Tree) → Dict Value → LoadM (Dict Value)
  | [], bag => return bag
  | (name, t) :: rest, bag => do
    let v ← r.valueOf record name t
    r.bagOf record rest (bag.put name v)

/-- All fields of the kind of a record as a bag of values. -/
def bag (r : Reader) (record : Record) (declared : List String) : LoadM (Dict Value) :=
  r.bagOf record (record.ownFields declared) []

end Reader
end AgentGraph
