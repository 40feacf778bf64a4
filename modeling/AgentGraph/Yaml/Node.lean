import AgentGraph.Yaml.Token
/-!
# Nodes of a YAML document

A document is one node: a scalar, a list, a mapping, or an alias of a node that carries an anchor.
An anchor is numbered by how many different names were in use before it, and an alias refers to
the number; of several anchors with one number the one that starts last is meant.
-/
namespace AgentGraph.Yaml

/-- A node. A tag is given by its octets. -/
inductive Node where
  | scalar (tag : Option Octets) (text : String) (plain : Bool)
  | list (tag : Option Octets) (items : List Node)
  | map (tag : Option Octets) (entries : List (Node × Node))
  | alias (number : Nat)

instance : Inhabited Node := ⟨.alias 0⟩

namespace Node

/-- A node that is not written at all. -/
def missing : Node := .scalar none "" true

mutual
/-- How many parts a node has: one for a scalar or alias, two for the ends of a collection. -/
def parts : Node → Nat
  | .list _ items => partsList items + 2
  | .map _ entries => partsEntries entries + 2
  | _ => 1
/-- The parts of a list of nodes. -/
def partsList : List Node → Nat
  | [] => 0
  | n :: rest => parts n + partsList rest
def partsEntries : List (Node × Node) → Nat
  | [] => 0
  | (k, v) :: rest => parts k + parts v + partsEntries rest
end

/-- The anchors met so far. -/
structure Anchors where
  /-- The number that each name stands for. -/
  numbers : List (List Char × Nat)
  /-- Each number with the serial of its node, the latest in front. -/
  serials : List (Nat × Nat)
  /-- The nodes by serial, as far as they are complete. -/
  nodes : List (Nat × Node)

/-- Gives a name to the node that starts here; the result is the serial of the node. -/
def Anchors.define (a : Anchors) (name : List Char) : Nat × Anchors :=
  let number := a.numbers.length
  let numbers :=
    if a.numbers.any (·.1 == name) then
      a.numbers.map fun pair => if pair.1 == name then (name, number) else pair
    else (name, number) :: a.numbers
  let serial := a.serials.length
  (serial, { a with numbers, serials := (number, serial) :: a.serials })

/-- The node that a number stands for. -/
def Anchors.node? (a : Anchors) (number : Nat) : Option Node := do
  a.nodes.lookup (← a.serials.lookup number)

/-- A whole document. -/
structure Document where
  root : Node
  anchors : Anchors

/-- The tokens that are left, the meanings of tag handles and the anchors so far. -/
structure Source where
  tokens : List Token
  handles : List (List Char × Octets)
  anchors : Anchors

/-- Reading nodes from tokens; none if they do not form a document. -/
abbrev Reading := StateT Source Option

def peek? : Reading (Option Token) := return (← get).tokens.head?

def skip : Reading Unit := modify fun s => { s with tokens := s.tokens.drop 1 }

/-- Drops the next token if it is the given one. -/
def skipIf (t : Token) : Reading Bool := do
  if (← peek?) == some t then
    skip
    return true
  else return false

/-- Drops the comma that must stand before every part but the first. -/
def separate (first : Bool) : Reading Bool := if first then return true else skipIf .comma

/-- Whether the next token is one of the given ones. -/
def seesOneOf (ts : List Token) : Reading Bool := return (← peek?).any ts.contains

def refuse {α : Type} : Reading α := fun _ => none

/-- Reads an anchor if one is next. -/
def anchor? : Reading (Option (List Char)) := do
  match ← peek? with
  | some (.anchor name) =>
    skip
    return some name
  | _ => return none

/-- Reads a tag if one is next and gives its octets. -/
def tag? : Reading (Option Octets) := do
  match ← peek? with
  | some (.tag handle suffix) =>
    skip
    if handle.isEmpty then return some suffix
    else
      match (← get).handles.lookup handle with
      | some meaning => return some (meaning ++ suffix)
      | none => refuse
  | _ => return none

/-- Reads anchor and tag of a node, in either order. -/
def properties : Reading (Option (List Char) × Option Octets) := do
  match ← anchor? with
  | some name => return (some name, ← tag?)
  | none =>
    let tag ← tag?
    if tag.isSome then return (← anchor?, tag) else return (none, none)

/-- Notes the start of a node with an anchor. -/
def define (name : Option (List Char)) : Reading (Option Nat) := do
  match name with
  | none => return none
  | some name =>
    let s ← get
    let (serial, anchors) := s.anchors.define name
    set { s with anchors }
    return some serial

/-- Notes that a node with an anchor is complete. -/
def complete (serial : Option Nat) (n : Node) : Reading Node := do
  match serial with
  | none => return n
  | some serial =>
    modify fun s =>
      { s with anchors := { s.anchors with nodes := (serial, n) :: s.anchors.nodes } }
    return n

/-- The tag of a scalar: an exclamation mark alone is none. -/
def scalarTag (tag : Option Octets) : Option Octets := if tag == some [0x21] then none else tag

mutual
/-- Reads a node. Block lists and block mappings may stand outside of brackets only; a list without
indentation of its own only as part of a block mapping. -/
def node (inBlock inMap : Bool) : Nat → Reading Node
  | 0 => refuse
  | fuel + 1 => do
    match ← peek? with
    | some (.alias name) =>
      skip
      match (← get).anchors.numbers.lookup name with
      | some number => return .alias number
      | none => refuse
    | _ =>
      let (name, tag) ← properties
      let serial ← define name
      match ← peek? with
      | some .entry =>
        if inMap then complete serial (.list tag (← bareItems fuel []))
        else if name.isSome || tag.isSome then complete serial (.scalar tag "" true)
        else refuse
      | some (.scalar text plain) =>
        skip
        complete serial (.scalar (scalarTag tag) text plain)
      | some .flowListStart =>
        skip
        complete serial (.list tag (← flowItems fuel true []))
      | some .flowMapStart =>
        skip
        complete serial (.map tag (← flowEntries fuel true []))
      | next =>
        if inBlock && next == some .blockListStart then
          skip
          complete serial (.list tag (← blockItems fuel []))
        else if inBlock && next == some .blockMapStart then
          skip
          complete serial (.map tag (← blockEntries fuel []))
        else if name.isSome || tag.isSome then complete serial (.scalar tag "" true)
        else refuse
/-- Reads the items of a block list. -/
def blockItems : Nat → List Node → Reading (List Node)
  | 0, _ => refuse
  | fuel + 1, done => do
    if ← skipIf .entry then
      let item ← if ← seesOneOf [.entry, .blockEnd] then pure missing else node true false fuel
      blockItems fuel (item :: done)
    else if ← skipIf .blockEnd then return done.reverse
    else refuse
/-- Reads the items of a list without indentation of its own. -/
def bareItems : Nat → List Node → Reading (List Node)
  | 0, _ => refuse
  | fuel + 1, done => do
    if ← skipIf .entry then
      let item ←
        if ← seesOneOf [.entry, .key, .value, .blockEnd] then pure missing
        else node true false fuel
      bareItems fuel (item :: done)
    else return done.reverse
/-- Reads the entries of a block mapping. -/
def blockEntries : Nat → List (Node × Node) → Reading (List (Node × Node))
  | 0, _ => refuse
  | fuel + 1, done => do
    if ← skipIf .key then
      let key ←
        if ← seesOneOf [.key, .value, .blockEnd] then pure missing else node true true fuel
      let value ←
        if ← skipIf .value then
          if ← seesOneOf [.key, .value, .blockEnd] then pure missing else node true true fuel
        else pure missing
      blockEntries fuel ((key, value) :: done)
    else if ← skipIf .blockEnd then return done.reverse
    else refuse
/-- Reads the items of a list in brackets. An item may be a mapping of one entry. -/
def flowItems : Nat → Bool → List Node → Reading (List Node)
  | 0, _, _ => refuse
  | fuel + 1, first, done => do
    if ← skipIf .flowListEnd then return done.reverse
    else if !(← separate first) then refuse
    else if ← skipIf .flowListEnd then return done.reverse
    else if ← skipIf .key then
      let key ←
        if ← seesOneOf [.value, .comma, .flowListEnd] then
          skip
          pure missing
        else node false false fuel
      let value ←
        if ← skipIf .value then
          if ← seesOneOf [.comma, .flowListEnd] then pure missing else node false false fuel
        else pure missing
      flowItems fuel false (.map none [(key, value)] :: done)
    else
      let item ← node false false fuel
      flowItems fuel false (item :: done)
/-- Reads the entries of a mapping in braces. -/
def flowEntries : Nat → Bool → List (Node × Node) → Reading (List (Node × Node))
  | 0, _, _ => refuse
  | fuel + 1, first, done => do
    if ← skipIf .flowMapEnd then return done.reverse
    else if !(← separate first) then refuse
    else if ← skipIf .flowMapEnd then return done.reverse
    else if ← skipIf .key then
      let key ←
        if ← seesOneOf [.value, .comma, .flowMapEnd] then pure missing
        else node false false fuel
      let value ←
        if ← skipIf .value then
          if ← seesOneOf [.comma, .flowMapEnd] then pure missing else node false false fuel
        else pure missing
      flowEntries fuel false ((key, value) :: done)
    else
      let key ← node false false fuel
      flowEntries fuel false ((key, missing) :: done)
end

/-- The handles that every document knows. -/
def standardHandles : List (List Char × Octets) :=
  [(['!'], [0x21]), (['!', '!'], "tag:yaml.org,2002:".toUTF8.toList)]

/-- Reads the directives of a document: at most one version, and each handle at most once. -/
def directives : List Token → Bool → List (List Char × Octets) →
    Option (List Token × List (List Char × Octets))
  | .versionDirective major minor :: rest, versioned, handles =>
    if versioned || major ≠ 1 || (minor ≠ 1 && minor ≠ 2) then none
    else directives rest true handles
  | .tagDirective handle meaning :: rest, versioned, handles =>
    if handles.any (·.1 == handle) then none
    else directives rest versioned (handles ++ [(handle, meaning)])
  | rest, _, handles => some (rest, handles ++ standardHandles)

/-- Whether a document starts with directives or with its start mark. -/
def startsExplicitly : List Token → Bool
  | .versionDirective _ _ :: _ | .tagDirective _ _ :: _ | .documentStart :: _ => true
  | _ => false

/-- Whether a document has no content before the given tokens. -/
def endsDocument : List Token → Bool
  | [] | .documentEnd :: _ => true
  | ts => startsExplicitly ts

/-- Reads the root of a document from the given tokens. -/
def rootOf (tokens : List Token) (handles : List (List Char × Octets)) :
    Option (Node × Source) :=
  (node true false (4 * tokens.length + 8)).run ⟨tokens, handles, ⟨[], [], []⟩⟩

/-- The document that tokens stand for. There must be one document at most; a text without any is
a document that is not written at all. -/
def ofTokens? (tokens : List Token) : Option Document := do
  let empty : Node × Source := (missing, ⟨[], [], ⟨[], [], []⟩⟩)
  let (root, source) ←
    if tokens.isEmpty then some empty
    else if startsExplicitly tokens then do
      let (rest, handles) ← directives tokens false []
      match rest with
      | .documentStart :: rest =>
        if endsDocument rest then some (missing, { empty.2 with tokens := rest })
        else rootOf rest handles
      | _ => none
    else rootOf tokens standardHandles
  if (source.tokens.dropWhile (· == .documentEnd)).isEmpty then
    return ⟨root, source.anchors⟩
  else none

end Node
end AgentGraph.Yaml
