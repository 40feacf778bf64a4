import AgentGraph.Yaml.Tag
import AgentGraph.Yaml.Scalar.Block
import AgentGraph.Yaml.Scalar.Plain
import AgentGraph.Yaml.Scalar.Quoted
/-!
# The tokens of a text

A text is cut into tokens from left to right. That a node was a key is known only when its colon
is met: until then its place is remembered, and the key token is put there afterwards. Such a
place is forgotten when the line ends or 1024 characters have passed. Columns of nodes open and
close block lists and mappings.
-/
namespace AgentGraph.Yaml

/-- The place of a node that may turn out to be a key. -/
structure KeyPlace where
  /-- The number of tokens before the node. -/
  position : Nat
  index : Nat
  line : Nat
  column : Nat
  /-- Whether the node can be nothing but a key. -/
  required : Bool

/-- What is known while a text is cut into tokens. -/
structure Lexer where
  cursor : Cursor
  /-- The tokens so far, the latest in front. -/
  tokens : List Token
  count : Nat
  /-- The column of the innermost open block, none outside of all. -/
  indent : Option Nat
  outer : List (Option Nat)
  /-- Whether a key may start here. -/
  keyAllowed : Bool
  /-- The place of a possible key outside of all brackets. -/
  place : Option KeyPlace
  /-- Inside brackets: the places of possible keys around the innermost ones. -/
  places : List (Option KeyPlace)

namespace Lexer

def start (cs : List Char) : Lexer :=
  { cursor := .start cs, tokens := [], count := 0, indent := none, outer := [], keyAllowed := true,
    place := none, places := [] }

/-- Whether the place of reading is inside brackets. -/
def inFlow (l : Lexer) : Bool := !l.places.isEmpty

def add (l : Lexer) (t : Token) : Lexer := { l with tokens := t :: l.tokens, count := l.count + 1 }

/-- Adds a token at an earlier position. -/
def insert (l : Lexer) (position : Nat) (t : Token) : Lexer :=
  { l with tokens := l.tokens.insertIdx (l.count - position) t, count := l.count + 1 }

/-- Adds a token and moves on. -/
def addTo (l : Lexer) (t : Token) (c : Cursor) : Lexer := { l.add t with cursor := c }

/-- Whether a possible key is too far behind. -/
def isStale (l : Lexer) (k : KeyPlace) : Bool :=
  k.line < l.cursor.line || k.index + 1024 < l.cursor.index

/-- Forgets a place that is too far behind; a required key must not be forgotten. -/
def refresh (l : Lexer) (place : Option KeyPlace) : Option (Option KeyPlace) :=
  match place with
  | some k => if l.isStale k then if k.required then none else some none else some (some k)
  | none => some none

/-- Forgets all places that are too far behind. -/
def dropStale (l : Lexer) : Option Lexer := do
  let place ← l.refresh l.place
  let places ← l.places.mapM l.refresh
  return { l with place, places }

/-- Forgets the innermost possible key, which must not be required. -/
def dropKey (l : Lexer) : Option Lexer :=
  if l.place.any (·.required) then none else some { l with place := none }

/-- Remembers that the next node may be a key. -/
def saveKey (l : Lexer) : Option Lexer :=
  if l.keyAllowed then do
    let l ← l.dropKey
    let required := !l.inFlow && l.indent == some l.cursor.column
    return { l with
      place := some ⟨l.count, l.cursor.index, l.cursor.line, l.cursor.column, required⟩ }
  else some l

/-- Whether the innermost block is left of a column. -/
def isLeftOf (indent : Option Nat) (column : Nat) : Bool :=
  match indent with
  | none => true
  | some n => n < column

/-- Opens a block at a column unless one is open there. -/
def openBlock (l : Lexer) (column : Nat) (position : Nat) (t : Token) : Lexer :=
  if !l.inFlow && isLeftOf l.indent column then
    { l.insert position t with indent := some column, outer := l.indent :: l.outer }
  else l

/-- Closes the blocks right of a column, given the blocks around the innermost one. -/
def closeBlocks (column : Option Nat) : List (Option Nat) → Lexer → Lexer
  | [], l => l
  | around :: rest, l =>
    let closes := match l.indent, column with
      | none, _ => false
      | some _, none => true
      | some n, some column => column < n
    if closes then closeBlocks column rest { l.add .blockEnd with indent := around, outer := rest }
    else l

/-- Closes the blocks right of a column; none stands for the column left of all. -/
def unroll (l : Lexer) (column : Option Nat) : Lexer :=
  if l.inFlow then l else closeBlocks column l.outer l

/-- Moves over gaps, comments and line breaks to the next token. Tabs are gaps except where a key
may start outside of brackets. -/
def skipToToken : Nat → Lexer → Lexer
  | 0, l => l
  | fuel + 1, l =>
    let c := l.cursor
    let c := if c.index == 0 && c.sees '\ufeff' then c.advance 1 else c
    let tabs := l.inFlow || !l.keyAllowed
    let c := (c.skipWhile fun x => x == ' ' || (tabs && x == '\t')).skipComment
    match c.lineBreak? with
    | some (_, c) =>
      skipToToken fuel { l with cursor := c, keyAllowed := l.keyAllowed || !l.inFlow }
    | none => { l with cursor := c }

/-- A line between documents, or a directive: all blocks end here. -/
def topLevel (l : Lexer) : Option Lexer := do
  let l ← (l.unroll none).dropKey
  return { l with keyAllowed := false }

def openFlow (l : Lexer) (t : Token) : Option Lexer := do
  let l ← l.saveKey
  return { l.addTo t (l.cursor.advance 1) with
    places := l.place :: l.places, place := none, keyAllowed := true }

def closeFlow (l : Lexer) (t : Token) : Option Lexer := do
  let l ← l.dropKey
  let l := match l.places with
    | [] => l
    | place :: places => { l with place, places }
  return { l.addTo t (l.cursor.advance 1) with keyAllowed := false }

def comma (l : Lexer) : Option Lexer := do
  let l ← l.dropKey
  return { l.addTo .comma (l.cursor.advance 1) with keyAllowed := true }

def entry (l : Lexer) : Option Lexer := do
  if !l.inFlow && !l.keyAllowed then none
  else
    let l := l.openBlock l.cursor.column l.count .blockListStart
    let l ← l.dropKey
    return { l.addTo .entry (l.cursor.advance 1) with keyAllowed := true }

def key (l : Lexer) : Option Lexer := do
  if !l.inFlow && !l.keyAllowed then none
  else
    let l := l.openBlock l.cursor.column l.count .blockMapStart
    let l ← l.dropKey
    return { l.addTo .key (l.cursor.advance 1) with keyAllowed := !l.inFlow }

def value (l : Lexer) : Option Lexer :=
  match l.place with
  | some k =>
    let l := (l.insert k.position .key).openBlock k.column k.position .blockMapStart
    some { l.addTo .value (l.cursor.advance 1) with place := none, keyAllowed := false }
  | none =>
    if !l.inFlow && !l.keyAllowed then none
    else
      let l := l.openBlock l.cursor.column l.count .blockMapStart
      some { l.addTo .value (l.cursor.advance 1) with keyAllowed := !l.inFlow }

/-- A node that may be a key and is one token: an alias, an anchor, a tag or a scalar. -/
def node (l : Lexer) (read : Cursor → Option (Token × Cursor)) : Option Lexer := do
  let l ← l.saveKey
  let (t, c) ← read l.cursor
  return { l.addTo t c with keyAllowed := false }

def block (l : Lexer) (literal : Bool) : Option Lexer := do
  let l ← l.dropKey
  let (text, c) ← BlockScalar.read literal l.indent l.cursor
  return { l.addTo (.scalar text false) c with keyAllowed := true }

def quoted (l : Lexer) (quote : QuotedScalar.Quote) : Option Lexer :=
  l.node fun c => (QuotedScalar.read quote c).map fun (text, c) => (.scalar text false, c)

/-- A plain scalar. After one that ended a line, a key may start. -/
def plain (l : Lexer) : Option Lexer := do
  let l ← l.saveKey
  let indent := match l.indent with
    | none => 0
    | some n => n + 1
  let (text, ended, c) ← PlainScalar.read l.inFlow indent l.cursor
  return { l.addTo (.scalar text true) c with keyAllowed := ended }

/-- Characters that no plain scalar starts with. -/
def isMark (x : Char) : Bool :=
  ['-', '?', ':', ',', '[', ']', '\x7b', '\x7d', '#', '&', '*', '!', '|', '>', '\'', '"', '%', '@',
    '\x60'].contains x

/-- Whether a plain scalar starts here. -/
def startsPlain (l : Lexer) (x : Char) (rest : List Char) : Bool :=
  !(isGapOrBreak x || isMark x) || (x == '-' && !rest.head?.any isGap) ||
    (!l.inFlow && (x == '?' || x == ':') && !endsWord rest)

/-- Reads the next token, which starts with the given character. -/
def next (l : Lexer) (x : Char) (rest : List Char) : Option Lexer :=
  let c := l.cursor
  let divider (t : Token) : Option Lexer := do
    let l ← l.topLevel
    return l.addTo t (c.advance 3)
  if c.column == 0 && x == '%' then do
    let l ← l.topLevel
    let (t, c) ← readDirective c
    return l.addTo t c
  else if c.seesDivider '-' then divider .documentStart
  else if c.seesDivider '.' then divider .documentEnd
  else if x == '[' then l.openFlow .flowListStart
  else if x == '\x7b' then l.openFlow .flowMapStart
  else if x == ']' then l.closeFlow .flowListEnd
  else if x == '\x7d' then l.closeFlow .flowMapEnd
  else if x == ',' then l.comma
  else if x == '-' && endsWord rest then l.entry
  else if x == '?' && (l.inFlow || endsWord rest) then l.key
  else if x == ':' && (l.inFlow || endsWord rest) then l.value
  else if x == '*' then
    l.node fun c => (readAnchorName (c.advance 1)).map fun (name, c) => (.alias name, c)
  else if x == '&' then
    l.node fun c => (readAnchorName (c.advance 1)).map fun (name, c) => (.anchor name, c)
  else if x == '!' then l.node (readTag l.inFlow)
  else if x == '|' && !l.inFlow then l.block true
  else if x == '>' && !l.inFlow then l.block false
  else if x == '\'' then l.quoted .single
  else if x == '"' then l.quoted .double
  else if l.startsPlain x rest then l.plain
  else none

/-- Closes everything at the end of the text. -/
def finish (l : Lexer) : Option (List Token) := do
  let l ← (l.unroll none).dropKey
  return l.tokens.reverse

/-- Reads tokens to the end of the text. -/
def run : Nat → Lexer → Option (List Token)
  | 0, _ => none
  | fuel + 1, l => do
    let l ← (skipToToken (l.cursor.rest.length + 1) l).dropStale
    match l.cursor.rest with
    | [] => l.finish
    | x :: rest =>
      match (l.unroll (some l.cursor.column)).next x rest with
      | some l => run fuel l
      | none => none

end Lexer

/-- The tokens of a text, none if it is malformed. -/
def Token.ofText? (text : String) : Option (List Token) :=
  let cs := text.toList
  if cs.all isAllowed then Lexer.run (cs.length + 1) (.start cs) else none

end AgentGraph.Yaml
