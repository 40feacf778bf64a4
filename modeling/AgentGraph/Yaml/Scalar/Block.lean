import AgentGraph.Yaml.Cursor
/-!
# Block scalars

A block scalar starts with a bar or an angle bracket and goes on for as long as its lines are
indented. Its header may give the indentation and say what happens to the line breaks at its end.
After an angle bracket, lines are joined unless one of them starts with a gap.
-/
namespace AgentGraph.Yaml.BlockScalar

/-- What happens to the line breaks at the end: all dropped, one kept, or all kept. -/
inductive Chomping where
  | strip
  | clip
  | keep
  deriving DecidableEq

/-- A chomping sign, if one stands here. -/
def chomping? (c : Cursor) : Option Chomping :=
  if c.sees '+' then some .keep else if c.sees '-' then some .strip else none

/-- The header of a block scalar: chomping, and indentation if given. -/
structure Header where
  chomping : Chomping
  increment : Option Nat

/-- Reads an indentation digit, if one stands here; zero is refused. -/
def increment (c : Cursor) : Option (Option Nat × Cursor) :=
  match c.peek? with
  | some x =>
    if x.isDigit then if x == '0' then none else some (some (x.toNat - 48), c.advance 1)
    else some (none, c)
  | none => some (none, c)

/-- Reads the header after the bar or angle bracket. The two signs come in either order. -/
def header (c : Cursor) : Option (Header × Cursor) :=
  match chomping? c with
  | some chomping => do
    let (inc, c) ← increment (c.advance 1)
    return (⟨chomping, inc⟩, c)
  | none => do
    let (inc, c) ← increment c
    match inc, chomping? c with
    | some n, some chomping => return (⟨chomping, some n⟩, c.advance 1)
    | _, _ => return (⟨.clip, inc⟩, c)

/-- Moves over the indentation of a line. -/
def skipIndent (limit : Option Nat) (c : Cursor) : Cursor :=
  match limit with
  | none => c.skipWhile (· == ' ')
  | some n =>
    let spaces := (c.span (· == ' ')).1.length
    c.advance (min spaces (n - c.column))

/-- Moves over empty lines: gives their line breaks, the latest in front, and the largest
indentation met. A tab where indentation is expected is refused. -/
def emptyLines (limit : Option Nat) : Nat → List Char → Nat → Cursor →
    Option (List Char × Nat × Cursor)
  | 0, _, _, _ => none
  | fuel + 1, breaks, widest, c =>
    let c := skipIndent limit c
    let widest := max widest c.column
    let indenting := match limit with
      | none => true
      | some n => c.column < n
    if indenting && c.sees '\t' then none
    else
      match c.lineBreak? with
      | some (x, c) => emptyLines limit fuel (x :: breaks) widest c
      | none => some (breaks, widest, c)

/-- What was read of the content: the text in reverse, the line breaks since, and whether the last
line started with a gap. -/
structure Content where
  text : List Char
  breaks : Fold
  gapped : Bool

/-- The line breaks before the next line, folded unless lines are kept. -/
def joint (literal : Bool) (content : Content) (gapped : Bool) : List Char :=
  if !literal && content.breaks.first == some '\n' && !content.gapped && !gapped then
    if content.breaks.later.isEmpty then [' '] else content.breaks.later.reverse
  else content.breaks.kept

/-- Reads the lines that are indented as far as the block. -/
def lines (literal : Bool) (indent : Nat) : Nat → Content → Cursor → Option (Content × Cursor)
  | 0, _, _ => none
  | fuel + 1, content, c =>
    if c.column != indent || c.atEnd then some (content, c)
    else
      let gapped := c.seesAny isGap
      let text := (joint literal content gapped).reverse ++ content.text
      let (line, c) := c.span (!isBreak ·)
      let (first, c) := match c.lineBreak? with
        | some (x, c) => (some x, c)
        | none => (none, c)
      match emptyLines (some indent) (c.rest.length + 1) [] 0 c with
      | none => none
      | some (later, _, c) =>
        lines literal indent fuel ⟨line.reverse ++ text, ⟨first, later⟩, gapped⟩ c

/-- The text of a block scalar after chomping. -/
def chomp (chomping : Chomping) (content : Content) : List Char :=
  let first := if chomping = .strip then [] else content.breaks.first.toList
  let later := if chomping = .keep then content.breaks.later.reverse else []
  content.text.reverse ++ first ++ later

/-- Reads a block scalar. `outer` is the indentation around it, none outside of everything. -/
def read (literal : Bool) (outer : Option Nat) (c : Cursor) : Option (String × Cursor) := do
  let (head, c) ← header (c.advance 1)
  let c ← c.finishLine?
  let fuel := c.rest.length + 1
  let given := head.increment.map (outer.getD 0 + ·)
  let (later, widest, c) ← emptyLines given fuel [] 0 c
  let least := max 1 (match outer with
    | some n => n + 1
    | none => 0)
  let indent := given.getD (max widest least)
  let (content, c) ← lines literal indent fuel ⟨[], ⟨none, later⟩, false⟩ c
  return (String.ofList (chomp head.chomping content), c)

end AgentGraph.Yaml.BlockScalar
