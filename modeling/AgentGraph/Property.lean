import AgentGraph.Schema.Parser
import AgentGraph.Schema.Printer
import AgentGraph.Schema.Cast
/-!
# Properties

A property is one input or output slot of a component: a schema whose root carries the title of
the slot. Titles are unique in a list of inputs or outputs.
-/
namespace AgentGraph

/-- A titled schema. -/
structure Property where
  schema : Schema

namespace Property

def title (p : Property) : String := p.schema.title.getD ""

/-- A property of a schema that has a title; the title and those below it are checked. -/
def ofSchema (schema : Schema) : Except PropertyError Property := do
  match schema.title with
  | none => throw .missingTitle
  | some title => checkTitle title
  schema.checkNested
  return ⟨schema⟩

def ofType (title : String) (type : SchemaType) : Except PropertyError Property :=
  ofSchema ((Schema.ofType type).withTitle title)

/-- Reads a property from the tree of its schema. -/
def ofTree (t : Tree) : Except PropertyError Property := do
  ofSchema (← Schema.ofTree t)

/-- Reads a list of properties in order. -/
def ofTrees : List Tree → Except PropertyError (List Property)
  | [] => .ok []
  | t :: rest => do
    let p ← ofTree t
    return p :: (← ofTrees rest)

def toTree (p : Property) : Tree := p.schema.toTree

/-- Equality of properties, mappings compared without regard to the order of their keys. -/
def same (p q : Property) : Bool := p.schema.same q.schema

/-- Whether two properties have the same type. -/
def sameType (p q : Property) : Bool := p.schema.sameType q.schema

/-- Whether a value of the first property may be handed to the second. -/
def castable (p q : Property) : Bool := p.schema.castable q.schema

def sameList : List Property → List Property → Bool
  | [], [] => true
  | p :: ps, q :: qs => same p q && sameList ps qs
  | _, _ => false

/-- Checks that no title occurs twice in a list, given the titles already seen. -/
def checkTitlesFrom (list : String) : List String → List Property → Except PropertyError Unit
  | _, [] => .ok ()
  | seen, p :: rest =>
    if seen.contains p.title then .error (.duplicateTitle p.title list)
    else checkTitlesFrom list (p.title :: seen) rest

/-- Checks that no title occurs twice in a list. -/
def checkTitles (list : String) (properties : List Property) : Except PropertyError Unit :=
  checkTitlesFrom list [] properties

end Property

/-- The inputs and outputs of a component. -/
structure Slots where
  inputs : List Property
  outputs : List Property

namespace Slots

def empty : Slots := ⟨[], []⟩

/-- Inputs and outputs with unique titles in each list. -/
def of (inputs outputs : List Property) : Except PropertyError Slots := do
  Property.checkTitles "inputs" inputs
  Property.checkTitles "outputs" outputs
  return ⟨inputs, outputs⟩

def input? (s : Slots) (title : String) : Option Property := s.inputs.find? (·.title == title)

def output? (s : Slots) (title : String) : Option Property := s.outputs.find? (·.title == title)

def same (s t : Slots) : Bool :=
  Property.sameList s.inputs t.inputs && Property.sameList s.outputs t.outputs

end Slots
end AgentGraph
