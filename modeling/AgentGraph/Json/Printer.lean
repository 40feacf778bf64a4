import AgentGraph.Tree.Basic
import AgentGraph.Decimal.Text
import AgentGraph.Text.Quoted
/-!
# Writing JSON

`compact` writes a tree without any white space, `pretty` with two spaces for each level and one
entry a line. Keys come in the order of the mapping. Only quotes, backslashes and control
characters are escaped.
-/
namespace AgentGraph.Json

/-- Positive exponents carry a plus sign. -/
def exponentStyle : Decimal.ExponentStyle := ⟨true⟩

def number : Number → String
  | .int n => toString n
  | .float bits => Decimal.render exponentStyle bits

/-- One character as it stands inside a string. -/
def escapeChar (c : Char) : String :=
  match c with
  | '"' => "\\\""
  | '\\' => "\\\\"
  | '\x08' => "\\b"
  | '\x0c' => "\\f"
  | '\n' => "\\n"
  | '\r' => "\\r"
  | '\t' => "\\t"
  | c =>
    if c.toNat < 0x10 then "\\u000" ++ Text.hex c.toNat
    else if c.toNat < 0x20 then "\\u00" ++ Text.hex c.toNat
    else c.toString

/-- The text of a string, quotes included. -/
def string (s : String) : String := "\"" ++ String.join (s.toList.map escapeChar) ++ "\""

def bool (b : Bool) : String := if b then "true" else "false"

mutual
/-- The shortest JSON text of a tree. -/
def compact : Tree → String
  | .null => "null"
  | .bool b => bool b
  | .number n => number n
  | .string s => string s
  | .list items => "[" ++ ",".intercalate (compactList items) ++ "]"
  | .map entries => "\x7b" ++ ",".intercalate (compactEntries entries) ++ "\x7d"
/-- The texts of the items of a list. -/
def compactList : List Tree → List String
  | [] => []
  | t :: rest => compact t :: compactList rest
/-- The texts of the entries of a mapping. -/
def compactEntries : List (String × Tree) → List String
  | [] => []
  | (key, t) :: rest => (string key ++ ":" ++ compact t) :: compactEntries rest
end

/-- A line break and the indentation of a level. -/
def newline (level : Nat) : String := "\n" ++ "".pushn ' ' (2 * level)

/-- Puts items on lines of their own between two brackets. -/
def block (opening closing : String) (level : Nat) (items : List String) : String :=
  opening ++ newline (level + 1) ++ ("," ++ newline (level + 1)).intercalate items ++
    newline level ++ closing

mutual
/-- The indented JSON text of a tree that stands at a level. -/
def prettyAt (level : Nat) : Tree → String
  | .null => "null"
  | .bool b => bool b
  | .number n => number n
  | .string s => string s
  | .list [] => "[]"
  | .list (t :: rest) => block "[" "]" level (prettyAt (level + 1) t :: prettyList (level + 1) rest)
  | .map [] => "\x7b\x7d"
  | .map ((key, t) :: rest) =>
    block "\x7b" "\x7d" level
      ((string key ++ ": " ++ prettyAt (level + 1) t) :: prettyEntries (level + 1) rest)
/-- The texts of the items of a list. -/
def prettyList (level : Nat) : List Tree → List String
  | [] => []
  | t :: rest => prettyAt level t :: prettyList level rest
/-- The texts of the entries of a mapping. -/
def prettyEntries (level : Nat) : List (String × Tree) → List String
  | [] => []
  | (key, t) :: rest => (string key ++ ": " ++ prettyAt level t) :: prettyEntries level rest
end

/-- The indented JSON text of a tree, without a final line break. -/
def pretty (t : Tree) : String := prettyAt 0 t

/-- The number of bytes of the compact text. -/
def encodedSize (t : Tree) : Nat := (compact t).utf8ByteSize

end AgentGraph.Json
