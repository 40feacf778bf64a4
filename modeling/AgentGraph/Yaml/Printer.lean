import AgentGraph.Tree.Basic
import AgentGraph.Decimal.Text
import AgentGraph.Yaml.Page
import AgentGraph.Yaml.Scalar.Style
/-!
# Writing YAML

Block style, two spaces for each level. The items of a list that is the value of a key stand below
the key without further indentation. Empty lists and mappings are written in brackets. Lines are
never folded.
-/
namespace AgentGraph.Yaml

/-- Positive exponents carry no sign. -/
def exponentStyle : Decimal.ExponentStyle := ⟨false⟩

def step : Nat := 2

/-- The longest key, in bytes, that stands on one line with its value. -/
def maxKeySize : Nat := 128

/-- The number of hexadecimal digits, in capitals, of a code point. -/
def capitalHex (width n : Nat) : List Char :=
  let digits := (Nat.toDigits 16 n).map Char.toUpper
  List.replicate (width - digits.length) '0' ++ digits

/-- The escape of a character inside double quotes. -/
def escape (c : Char) : List Char :=
  match c with
  | '\x00' => ['0']
  | '\x07' => ['a']
  | '\x08' => ['b']
  | '\t' => ['t']
  | '\n' => ['n']
  | '\x0b' => ['v']
  | '\x0c' => ['f']
  | '\r' => ['r']
  | '\x1b' => ['e']
  | '"' => ['"']
  | '\\' => ['\\']
  | '\u0085' => ['N']
  | '\u2028' => ['L']
  | '\u2029' => ['P']
  | c =>
    let n := c.toNat
    if n ≤ 0xFF then 'x' :: capitalHex 2 n
    else if n ≤ 0xFFFF then 'u' :: capitalHex 4 n
    else 'U' :: capitalHex 8 n

/-- A character as it stands inside double quotes. -/
def doubleQuotedChar (c : Char) : List Char :=
  if isPrintable c && !isBreak c && c != '"' && c != '\\' then [c] else '\\' :: escape c

def writeDoubleQuoted (p : Page) (cs : List Char) : Page :=
  ((p.mark ['"'] true false).puts (cs.flatMap doubleQuotedChar)).put '"' |>.solid

/-- Writes the characters of a text in single quotes; the flag says that a line was just ended. -/
def writeSingleQuotedChars (indent : Nat) : Page → Bool → List Char → Page
  | p, ended, [] => if ended then p.indentTo indent else p
  | p, ended, c :: rest =>
    if isBreak c then writeSingleQuotedChars indent { p.endLine c with fresh := true } true rest
    else if c == ' ' then writeSingleQuotedChars indent (p.put c) ended rest
    else
      let p := if ended then p.indentTo indent else p
      let p := if c == '\'' then p.put '\'' else p
      writeSingleQuotedChars indent { p.put c with fresh := false } false rest

def writeSingleQuoted (indent : Nat) (p : Page) (cs : List Char) : Page :=
  (writeSingleQuotedChars indent (p.mark ['\''] true false) false cs).put '\'' |>.solid

/-- What follows the bar of a literal block: a digit if the text starts with a space or a line
break, and a sign that says what happens to the line breaks at its end. -/
def literalHints (cs : List Char) : List Char :=
  let digit := if cs.head?.any (fun c => c == ' ' || isBreak c) then ['2'] else []
  let chomp := match cs.reverse with
    | [] => ['-']
    | [c] => if isBreak c then ['+'] else ['-']
    | c :: d :: _ => if !isBreak c then ['-'] else if isBreak d then ['+'] else []
  digit ++ chomp

/-- Writes the lines of a literal block; the flag says that a line was just ended. -/
def writeLiteralChars (indent : Nat) : Page → Bool → List Char → Page
  | p, _, [] => p
  | p, ended, c :: rest =>
    if isBreak c then writeLiteralChars indent { p.endLine c with fresh := true } true rest
    else
      let p := if ended then p.indentTo indent else p
      writeLiteralChars indent { p.put c with fresh := false } false rest

/-- Writes a text as a literal block. -/
def writeLiteral (indent : Nat) (p : Page) (cs : List Char) : Page :=
  let p := ((p.mark ['|'] true false).puts (literalHints cs)).endLine '\n'
  writeLiteralChars indent { p with fresh := true, spaced := true } true cs

def writePlain (p : Page) (cs : List Char) : Page := (p.mark cs true false).solid

/-- Writes a string whose lines, should it have more than one, go to an indentation. -/
def writeString (indent : Nat) (p : Page) (s : String) : Page :=
  match ScalarStyle.ofString s with
  | .plain => writePlain p s.toList
  | .singleQuoted => writeSingleQuoted indent p s.toList
  | .doubleQuoted => writeDoubleQuoted p s.toList
  | .literal => writeLiteral indent p s.toList

/-- Whether a key stands on one line with its value. -/
def isSimpleKey (key : String) : Bool :=
  !key.toList.any isBreak && key.utf8ByteSize ≤ maxKeySize

/-- Writes a key of a mapping at an indentation, up to its colon. -/
def writeKey (indent : Nat) (p : Page) (key : String) : Page :=
  let p := p.indentTo indent
  if isSimpleKey key then (writeString (indent + step) p key).mark [':'] false false
  else
    let p := writeString (indent + step) (p.mark ['?'] true true) key
    (p.indentTo indent).mark [':'] true true

/-- The indentation inside a list or mapping: `outer` is the indentation around it, none for the
whole document. -/
def inside : Option Nat → Nat
  | none => 0
  | some outer => outer + step

/-- The indentation of the further lines of a scalar. -/
def hanging : Option Nat → Nat
  | none => step
  | some outer => outer + step

/-- The indentation of the items of a list: a value of a key on the line of the key is not
indented further. -/
def listIndent (outer : Option Nat) (asValue : Bool) (p : Page) : Nat :=
  match outer with
  | none => 0
  | some n => if asValue && !p.fresh then n else n + step

mutual
/-- Writes a tree inside an indentation; `asValue` says that it is the value of a key. -/
def writeTree (outer : Option Nat) (asValue : Bool) (p : Page) : Tree → Page
  | .null => writePlain p ['n', 'u', 'l', 'l']
  | .bool b => writePlain p (if b then ['t', 'r', 'u', 'e'] else ['f', 'a', 'l', 's', 'e'])
  | .number (.int n) => writePlain p (toString n).toList
  | .number (.float bits) => writePlain p (Decimal.render exponentStyle bits).toList
  | .string s => writeString (hanging outer) p s
  | .list [] => p.mark ['[', ']'] true false
  | .list (t :: rest) => writeItems (listIndent outer asValue p) p (t :: rest)
  | .map [] => p.mark ['\x7b', '\x7d'] true false
  | .map (pair :: rest) => writeEntries (inside outer) p (pair :: rest)
def writeItems (indent : Nat) (p : Page) : List Tree → Page
  | [] => p
  | t :: rest =>
    writeItems indent (writeTree (some indent) false ((p.indentTo indent).mark ['-'] true true) t)
      rest
def writeEntries (indent : Nat) (p : Page) : List (String × Tree) → Page
  | [] => p
  | (key, t) :: rest =>
    writeEntries indent (writeTree (some indent) true (writeKey indent p key) t) rest
end

def text (t : Tree) : String := ((writeTree none false Page.empty t).indentTo 0).text

end AgentGraph.Yaml
