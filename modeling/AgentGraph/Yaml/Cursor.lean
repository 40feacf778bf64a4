import AgentGraph.Yaml.Chars
/-!
# A place in a text

What is still to be read, and where it starts. Line breaks come in five forms; reading one gives a
line feed, or the separator itself where it is one of the two Unicode separators.
-/
namespace AgentGraph.Yaml

/-- A place in a text. -/
structure Cursor where
  rest : List Char
  /-- The number of characters before the place. -/
  index : Nat
  line : Nat
  column : Nat

namespace Cursor

def start (cs : List Char) : Cursor := ⟨cs, 0, 0, 0⟩

def peek? (c : Cursor) : Option Char := c.rest.head?

/-- Whether the next character is the given one. -/
def sees (c : Cursor) (x : Char) : Bool := c.rest.head? == some x

/-- Whether the next character is of a class. -/
def seesAny (c : Cursor) (p : Char → Bool) : Bool := c.rest.head?.any p

/-- Whether the text is at its end. -/
def atEnd (c : Cursor) : Bool := c.rest.isEmpty

/-- Moves over characters of one line. -/
def advance (c : Cursor) (n : Nat) : Cursor :=
  ⟨c.rest.drop n, c.index + n, c.line, c.column + n⟩

/-- Moves over characters of a class, none of them a line break. -/
def span (c : Cursor) (p : Char → Bool) : List Char × Cursor :=
  let taken := c.rest.takeWhile p
  (taken, ⟨c.rest.dropWhile p, c.index + taken.length, c.line, c.column + taken.length⟩)

/-- Moves over characters of a class and forgets them. -/
def skipWhile (c : Cursor) (p : Char → Bool) : Cursor := (c.span p).2

/-- Moves over a line break of the given length. -/
def nextLine (c : Cursor) (rest : List Char) (length : Nat) : Cursor :=
  ⟨rest, c.index + length, c.line + 1, 0⟩

/-- Reads a line break, if one stands here. -/
def lineBreak? (c : Cursor) : Option (Char × Cursor) :=
  match c.rest with
  | '\r' :: '\n' :: rest => some ('\n', c.nextLine rest 2)
  | x :: rest =>
    if x == '\n' || x == '\r' || x == '\u0085' then some ('\n', c.nextLine rest 1)
    else if isBreak x then some (x, c.nextLine rest 1)
    else none
  | [] => none

/-- Moves over a line break, if one stands here. -/
def skipBreak (c : Cursor) : Cursor :=
  match c.lineBreak? with
  | some (_, c) => c
  | none => c

/-- Moves over a comment, if one starts here. -/
def skipComment (c : Cursor) : Cursor :=
  if c.sees '#' then c.skipWhile (!isBreak ·) else c

/-- Moves over gaps and a comment to the next line, which must follow. -/
def finishLine? (c : Cursor) : Option Cursor :=
  let c := (c.skipWhile isGap).skipComment
  if endsLine c.rest then some c.skipBreak else none

/-- Whether the text starts with a mark followed by a gap, a line break or the end. -/
def seesDivider (c : Cursor) (x : Char) : Bool :=
  c.column == 0 &&
    match c.rest with
    | a :: b :: d :: rest => a == x && b == x && d == x && endsWord rest
    | _ => false

/-- Whether a line between documents stands here. -/
def atDivider (c : Cursor) : Bool := c.seesDivider '-' || c.seesDivider '.'

end Cursor

/-- The line breaks met between two parts of a scalar: the first one, and those after it, the
latest in front. -/
structure Fold where
  first : Option Char
  later : List Char

namespace Fold

def none : Fold := ⟨Option.none, []⟩

/-- The text that stands for the line breaks where lines are joined: one line feed counts as a
space, more than one as one less. -/
def joined (f : Fold) : List Char :=
  match f.first with
  | some '\n' => if f.later.isEmpty then [' '] else f.later.reverse
  | some c => c :: f.later.reverse
  | Option.none => f.later.reverse

/-- The text of the line breaks themselves. -/
def kept (f : Fold) : List Char := f.first.toList ++ f.later.reverse

end Fold
end AgentGraph.Yaml
