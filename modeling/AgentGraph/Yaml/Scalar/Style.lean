import AgentGraph.Yaml.Scalar.Meaning
/-!
# How a string is written

A string is written plain when it reads back as itself that way, in single quotes when it would
mean something else or be malformed, in double quotes when it needs escapes, and as a literal
block when it holds line feeds.
-/
namespace AgentGraph.Yaml

/-- The ways to write a scalar. -/
inductive ScalarStyle where
  | plain
  | singleQuoted
  | doubleQuoted
  | literal
  deriving DecidableEq

namespace ScalarStyle

/-- Characters that no plain scalar starts with. -/
def indicators : List Char :=
  ['#', ',', '[', ']', '\x7b', '\x7d', '&', '*', '!', '|', '>', '\'', '"', '%', '@', '\x60']

/-- Whether a text starts like a line between documents. -/
def startsLikeDivider : List Char → Bool
  | '-' :: '-' :: '-' :: _ => true
  | '.' :: '.' :: '.' :: _ => true
  | _ => false

/-- Whether the start of a text keeps it from being plain. -/
def startsWithIndicator : List Char → Bool
  | [] => false
  | c :: rest => indicators.contains c || ((c == '?' || c == '-') && endsWord rest)

/-- Whether a colon before a gap or a hash after one makes the text look like something else. -/
def looksLikeEntry : List Char → Bool
  | [] => false
  | c :: rest =>
    (c == ':' && endsWord rest) || (isGapOrBreak c && rest.head? == some '#') ||
      looksLikeEntry rest

/-- Whether two neighbours stand anywhere in a text. -/
def hasPair (first second : Char → Bool) (cs : List Char) : Bool :=
  (cs.zip (cs.drop 1)).any fun pair => first pair.1 && second pair.2

def isSpace (c : Char) : Bool := c == ' '

/-- Whether the first or the last character is of a class. -/
def hasAtEnd (p : Char → Bool) (cs : List Char) : Bool := cs.head?.any p || cs.getLast?.any p

/-- Whether a text needs escapes: it holds a character that cannot stand as it is, or a space
before a line break. -/
def needsEscapes (cs : List Char) : Bool :=
  cs.any (!isPrintable ·) || hasPair isSpace isBreak cs

def allowsPlain (cs : List Char) : Bool :=
  !(startsLikeDivider cs || startsWithIndicator cs || looksLikeEntry cs || hasAtEnd isSpace cs ||
    cs.any isBreak || needsEscapes cs)

/-- Whether a text can stand in single quotes. -/
def allowsSingleQuotes (cs : List Char) : Bool := !(needsEscapes cs || hasPair isBreak isSpace cs)

/-- Whether a text can be a literal block. -/
def allowsLiteral (cs : List Char) : Bool := !(needsEscapes cs || cs.getLast?.any isSpace)

/-- Whether a text means itself when it is plain. -/
def meansItself (s : String) : Bool :=
  Meaning.ofPlain s == .text && !Meaning.hasNeedlessZero s.toList

def ofString (s : String) : ScalarStyle :=
  let cs := s.toList
  if cs.contains '\n' then if allowsLiteral cs then .literal else .doubleQuoted
  else if meansItself s && allowsPlain cs then .plain
  else if allowsSingleQuotes cs then .singleQuoted
  else .doubleQuoted

end ScalarStyle
end AgentGraph.Yaml
