import AgentGraph.Tree.Basic
import AgentGraph.Yaml.Node
import AgentGraph.Yaml.Scalar.Meaning
import AgentGraph.Yaml.Token.Lexer
/-!
# Reading YAML

The tree that a document stands for. Aliases are replaced by what they refer to; keys are the text
of scalars; a repeated key keeps its first position and its last value. Standard tags of scalars
are obeyed, tags of one's own are refused. Nesting and the number of aliases followed are limited.
-/
namespace AgentGraph.Yaml

def maxNesting : Nat := 128

/-- How many aliases may be followed for each part of a document. -/
def aliasesPerPart : Nat := 100

def standardTag (name : String) : Octets := ("tag:yaml.org,2002:" ++ name).toUTF8.toList

/-- Whether a tag is one's own: it starts with an exclamation mark and is proper text. -/
def isCustomTag : Octets → Bool
  | 0x21 :: rest => (String.fromUTF8? ⟨rest.toArray⟩).isSome
  | _ => false

/-- The tree for a meaning of a scalar with the given text. -/
def Meaning.tree? (text : String) : Meaning → Option Tree
  | .null => some .null
  | .bool b => some (.bool b)
  | .int n => some (.number (.int n))
  | .hugeInt => none
  | .float bits => some (.number (.float bits))
  | .notFinite => some .null
  | .text => some (.string text)

def scalarTree? (tag : Option Octets) (text : String) (plain : Bool) : Option Tree :=
  match tag with
  | none => if plain then (Meaning.ofPlain text).tree? text else some (.string text)
  | some tag =>
    if isCustomTag tag then none
    else if tag == standardTag "bool" then (Meaning.boolWord? text).map .bool
    else if tag == standardTag "int" then Meaning.int? text.toList >>= Meaning.tree? text
    else if tag == standardTag "float" then Meaning.float? text >>= Meaning.tree? text
    else if tag == standardTag "null" then if Meaning.isNullWord text then some .null else none
    else if tag.head? == some 0x21 && plain then (Meaning.ofPlain text).tree? text
    else some (.string text)

namespace Node

/-- Whether the tag of a list or mapping is accepted. -/
def acceptsTag (tag : Option Octets) : Bool := !tag.any isCustomTag

/-- Follows an alias; the state counts the aliases followed so far. -/
def follow (doc : Document) (limit : Nat) : Node → StateT Nat Option Node
  | .alias number => do
    let count ← get
    if count ≥ limit then failure
    else
      set (count + 1)
      match doc.anchors.node? number with
      | some target => return target
      | none => failure
  | n => return n

def keyText (doc : Document) (limit : Nat) (n : Node) : StateT Nat Option String := do
  match ← follow doc limit n with
  | .scalar _ text _ => return text
  | _ => failure

/-- The tree of a node inside which `room` more levels may open. -/
def tree (doc : Document) (limit : Nat) : Nat → Node → StateT Nat Option Tree
  | room, n => do
    match room, ← follow doc limit n with
    | _, .scalar tag text plain => (scalarTree? tag text plain : Option Tree)
    | room + 1, .list tag items =>
      if acceptsTag tag then return .list (← items.mapM (tree doc limit room)) else failure
    | room + 1, .map tag entries =>
      if acceptsTag tag then
        let pairs ← entries.mapM fun (k, v) => do
          let key ← keyText doc limit k
          return (key, ← tree doc limit room v)
        return .map (Dict.ofPairs pairs)
      else failure
    | _, _ => failure

end Node

/-- Reads a text that holds one document. -/
def parse? (text : String) : Option Tree := do
  let doc ← Node.ofTokens? (← Token.ofText? text)
  let limit := aliasesPerPart * doc.root.parts
  let (t, _) ← (Node.tree doc limit maxNesting doc.root).run 0
  return t

end AgentGraph.Yaml
