import AgentGraph.Text.Visible
/-!
# Quoted text

The form in which messages show a text: between double quotes, with a backslash before a quote or
a backslash, short escapes for the usual control characters, and the code point in braces for
every other character that does not show by itself.
-/
namespace AgentGraph.Text

/-- The lowercase hexadecimal digits of a number. -/
def hex (n : Nat) : String := String.ofList (Nat.toDigits 16 n)

/-- One character as it stands inside a quoted text. -/
def quoteChar (c : Char) : String :=
  match c with
  | '"' => "\\\""
  | '\\' => "\\\\"
  | '\n' => "\\n"
  | '\r' => "\\r"
  | '\t' => "\\t"
  | '\x00' => "\\0"
  | c => if isVisible c then c.toString else "\\u\x7b" ++ hex c.toNat ++ "\x7d"

def quote (s : String) : String := "\"" ++ String.join (s.toList.map quoteChar) ++ "\""

end AgentGraph.Text
