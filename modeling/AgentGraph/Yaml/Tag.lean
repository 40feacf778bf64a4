import AgentGraph.Yaml.Cursor
import AgentGraph.Yaml.Token
/-!
# Anchors, tags and directives

The tokens whose text is a name: anchors and aliases, tags in their short and their full form, and
the two directives. The text of a tag may hold escaped octets.
-/
namespace AgentGraph.Yaml

/-- The octets of characters. -/
def octets (cs : List Char) : Octets := (String.ofList cs).toUTF8.toList

/-- Reads the name of an anchor or alias after its sign. -/
def readAnchorName (c : Cursor) : Option (List Char × Cursor) :=
  let (name, c) := c.span isNameChar
  let ends := endsWord c.rest || c.seesAny ['?', ':', ',', ']', '\x7d', '%', '@', '\x60'].contains
  if name.isEmpty || !ends then none else some (name, c)

def readOctet (c : Cursor) : Option (UInt8 × Cursor) :=
  match c.rest with
  | '%' :: a :: b :: _ =>
    match hexDigit? a, hexDigit? b with
    | some a, some b => some (UInt8.ofNat (a * 16 + b), c.advance 3)
    | _, _ => none
  | _ => none

/-- How many octets a character has whose first octet is given. -/
def octetCount? (first : UInt8) : Option Nat :=
  if first &&& 0x80 == 0 then some 1
  else if first &&& 0xE0 == 0xC0 then some 2
  else if first &&& 0xF0 == 0xE0 then some 3
  else if first &&& 0xF8 == 0xF0 then some 4
  else none

/-- Reads the octets of a character that follow its first one. -/
def readFollowing : Nat → Cursor → Option (Octets × Cursor)
  | 0, c => some ([], c)
  | n + 1, c => do
    let (octet, c) ← readOctet c
    if octet &&& 0xC0 != 0x80 then none
    else
      let (others, c) ← readFollowing n c
      return (octet :: others, c)

/-- Reads one escaped character. -/
def readEscapedOctets (c : Cursor) : Option (Octets × Cursor) := do
  let (first, c) ← readOctet c
  let count ← octetCount? first
  let (others, c) ← readFollowing (count - 1) c
  return (first :: others, c)

def isTagChar (full : Bool) (x : Char) : Bool :=
  isNameChar x ||
    [';', '/', '?', ':', '@', '&', '=', '+', '$', '.', '%', '!', '~', '*', '\'', '(', ')'].contains x ||
    (full && (x == ',' || x == '[' || x == ']'))

/-- Reads the characters of a tag. A tag in full form may hold more characters than a short one. -/
def readTagText (full : Bool) : Nat → Octets → Cursor → Option (Octets × Cursor)
  | 0, _, _ => none
  | fuel + 1, text, c =>
    match c.peek? with
    | none => some (text, c)
    | some x =>
      if !isTagChar full x then some (text, c)
      else if x == '%' then
        match readEscapedOctets c with
        | some (more, c) => readTagText full fuel (text ++ more) c
        | none => none
      else readTagText full fuel (text ++ octets [x]) (c.advance 1)

/-- Reads the text of a tag, which must not be empty. -/
def readNonemptyTagText (full : Bool) (c : Cursor) : Option (Octets × Cursor) :=
  match readTagText full (c.rest.length + 1) [] c with
  | some (text, rest) => if rest.index = c.index then none else some (text, rest)
  | none => none

/-- Reads a handle: an exclamation mark, a name, and a second exclamation mark if there is one. -/
def readHandle (c : Cursor) : Option (List Char × Cursor) :=
  if !c.sees '!' then none
  else
    let (name, c) := (c.advance 1).span isNameChar
    if c.sees '!' then some ('!' :: name ++ ['!'], c.advance 1) else some ('!' :: name, c)

/-- Whether a handle has both of its exclamation marks. -/
def isWholeHandle (handle : List Char) : Bool :=
  handle.length > 1 && handle.getLast? == some '!'

/-- Reads a tag in the form `!<…>` after its first two characters. -/
def readFullTag (c : Cursor) : Option (Token × Cursor) := do
  let (text, c) ← readNonemptyTagText true c
  if c.sees '>' then return (.tag [] text, c.advance 1) else none

/-- Reads a tag in one of its short forms. A lone exclamation mark is a tag of its own. -/
def readShortTag (c : Cursor) : Option (Token × Cursor) := do
  let (handle, c) ← readHandle c
  if isWholeHandle handle then
    let (suffix, c) ← readNonemptyTagText false c
    return (.tag handle suffix, c)
  else
    let (suffix, c) ← readTagText false (c.rest.length + 1) (octets (handle.drop 1)) c
    if suffix.isEmpty then return (.tag [] (octets ['!']), c)
    else return (.tag ['!'] suffix, c)

def readTag (inFlow : Bool) (c : Cursor) : Option (Token × Cursor) := do
  let (token, c) ← if (c.advance 1).sees '<' then readFullTag (c.advance 2) else readShortTag c
  if endsWord c.rest || (inFlow && c.sees ',') then return (token, c) else none

/-- Reads a number of a version: one to nine digits. -/
def readVersionNumber (c : Cursor) : Option (Nat × Cursor) :=
  let (digits, c) := c.span Char.isDigit
  if digits.isEmpty || digits.length > 9 then none
  else some (digits.foldl (fun n x => n * 10 + (x.toNat - 48)) 0, c)

/-- Reads the value of a version directive. -/
def readVersion (c : Cursor) : Option (Token × Cursor) := do
  let (major, c) ← readVersionNumber (c.skipWhile isGap)
  if !c.sees '.' then none
  else
    let (minor, c) ← readVersionNumber (c.advance 1)
    return (.versionDirective major minor, c)

/-- Reads the value of a tag directive. -/
def readTagMeaning (c : Cursor) : Option (Token × Cursor) := do
  let (handle, c) ← readHandle (c.skipWhile isGap)
  if !(isWholeHandle handle || handle == ['!']) || !c.seesAny isGap then none
  else
    let (meaning, c) ← readNonemptyTagText true (c.skipWhile isGap)
    if endsWord c.rest then return (.tagDirective handle meaning, c) else none

/-- Reads a directive, up to the end of its line. -/
def readDirective (c : Cursor) : Option (Token × Cursor) := do
  let (name, c) := (c.advance 1).span isNameChar
  if !endsWord c.rest then none
  else
    let (token, c) ←
      if name == ['Y', 'A', 'M', 'L'] then readVersion c
      else if name == ['T', 'A', 'G'] then readTagMeaning c
      else none
    return (token, ← c.finishLine?)

end AgentGraph.Yaml
