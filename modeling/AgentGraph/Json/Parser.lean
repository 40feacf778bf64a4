import AgentGraph.Json.Number
/-!
# Reading JSON

A strict reader: no comments, no trailing commas, no control characters inside strings, paired
surrogate escapes only. Lists and mappings may nest up to a given limit. A repeated key keeps its
first position and its last value.
-/
namespace AgentGraph.Json

def maxNesting : Nat := 127

/-- Whether the character is white space between tokens. -/
def isSpace (c : Char) : Bool := c == ' ' || c == '\n' || c == '\t' || c == '\r'

def skipSpace (cs : List Char) : List Char := cs.dropWhile isSpace

def hexDigit? (c : Char) : Option Nat :=
  if c.isDigit then some (c.toNat - 48)
  else if 'a' ≤ c ∧ c ≤ 'f' then some (c.toNat - 87)
  else if 'A' ≤ c ∧ c ≤ 'F' then some (c.toNat - 55)
  else none

def readUnit : List Char → Option (Nat × List Char)
  | a :: b :: c :: d :: rest => do
    let a ← hexDigit? a
    let b ← hexDigit? b
    let c ← hexDigit? c
    let d ← hexDigit? d
    return (((a * 16 + b) * 16 + c) * 16 + d, rest)
  | _ => none

/-- Reads the character of a `\u` escape; a high surrogate needs its low partner. -/
def readEscapedChar (cs : List Char) : Option (Char × List Char) := do
  let (unit, rest) ← readUnit cs
  if 0xDC00 ≤ unit ∧ unit ≤ 0xDFFF then none
  else if 0xD800 ≤ unit ∧ unit ≤ 0xDBFF then
    match rest with
    | '\\' :: 'u' :: rest => do
      let (low, rest) ← readUnit rest
      if 0xDC00 ≤ low ∧ low ≤ 0xDFFF then
        return (Char.ofNat (0x10000 + (unit - 0xD800) * 0x400 + (low - 0xDC00)), rest)
      else none
    | _ => none
  else return (Char.ofNat unit, rest)

/-- Reads a string after its opening quote. -/
def readString : Nat → List Char → List Char → Option (String × List Char)
  | 0, _, _ => none
  | fuel + 1, done, cs =>
    match cs with
    | [] => none
    | '"' :: rest => some (String.ofList done.reverse, rest)
    | '\\' :: 'u' :: rest => do
      let (c, rest) ← readEscapedChar rest
      readString fuel (c :: done) rest
    | '\\' :: c :: rest => do
      let escaped ← match c with
        | '"' => some '"'
        | '\\' => some '\\'
        | '/' => some '/'
        | 'b' => some '\x08'
        | 'f' => some '\x0c'
        | 'n' => some '\n'
        | 'r' => some '\r'
        | 't' => some '\t'
        | _ => none
      readString fuel (escaped :: done) rest
    | c :: rest => if c.toNat < 0x20 then none else readString fuel (c :: done) rest

def expectWord : List Char → List Char → Option (List Char)
  | [], cs => some cs
  | w :: word, c :: cs => if w = c then expectWord word cs else none
  | _ :: _, [] => none

mutual
/-- Reads a value; `room` is how many more levels of lists and mappings may open. -/
def readValue : Nat → Nat → List Char → Option (Tree × List Char)
  | 0, _, _ => none
  | fuel + 1, room, cs =>
    match skipSpace cs with
    | 'n' :: rest => (expectWord ['u', 'l', 'l'] rest).map (.null, ·)
    | 't' :: rest => (expectWord ['r', 'u', 'e'] rest).map (.bool true, ·)
    | 'f' :: rest => (expectWord ['a', 'l', 's', 'e'] rest).map (.bool false, ·)
    | '"' :: rest => (readString fuel [] rest).map fun (s, rest) => (.string s, rest)
    | '[' :: rest =>
      if room = 0 then none
      else
        match skipSpace rest with
        | ']' :: rest => some (.list [], rest)
        | rest => (readItems fuel (room - 1) [] rest).map fun (items, rest) => (.list items, rest)
    | '\x7b' :: rest =>
      if room = 0 then none
      else
        match skipSpace rest with
        | '\x7d' :: rest => some (.map [], rest)
        | rest =>
          (readEntries fuel (room - 1) [] rest).map fun (entries, rest) => (.map entries, rest)
    | cs => (readNumber cs).map fun (n, rest) => (.number n, rest)
/-- Reads the items of a list up to its closing bracket. -/
def readItems : Nat → Nat → List Tree → List Char → Option (List Tree × List Char)
  | 0, _, _, _ => none
  | fuel + 1, room, done, cs => do
    let (t, rest) ← readValue fuel room cs
    match skipSpace rest with
    | ',' :: rest => readItems fuel room (t :: done) rest
    | ']' :: rest => some ((t :: done).reverse, rest)
    | _ => none
/-- Reads the entries of a mapping up to its closing brace. -/
def readEntries : Nat → Nat → List (String × Tree) → List Char →
    Option (Dict Tree × List Char)
  | 0, _, _, _ => none
  | fuel + 1, room, done, cs =>
    match skipSpace cs with
    | '"' :: rest => do
      let (key, rest) ← readString fuel [] rest
      match skipSpace rest with
      | ':' :: rest => do
        let (t, rest) ← readValue fuel room rest
        match skipSpace rest with
        | ',' :: rest => readEntries fuel room ((key, t) :: done) rest
        | '\x7d' :: rest => some (Dict.ofPairs ((key, t) :: done).reverse, rest)
        | _ => none
      | _ => none
    | _ => none
end

/-- Reads a text that holds one value, nested no deeper than the limit. -/
def parse? (nesting : Nat) (text : String) : Option Tree :=
  let cs := text.toList
  match readValue (2 * cs.length + 2) nesting cs with
  | some (t, rest) => if (skipSpace rest).isEmpty then some t else none
  | none => none

end AgentGraph.Json
