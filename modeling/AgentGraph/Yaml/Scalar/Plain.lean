import AgentGraph.Yaml.Cursor
/-!
# Plain scalars

A plain scalar has no quotes. It ends at a colon before a gap, at a hash after one, and inside
brackets also at the characters that structure lists and mappings. It may go on over several
lines that are indented further than the node it stands in.
-/
namespace AgentGraph.Yaml.PlainScalar

/-- Characters that structure lists and mappings in brackets. -/
def isFlowMark (x : Char) : Bool :=
  x == ',' || x == '[' || x == ']' || x == '\x7b' || x == '\x7d'

/-- What the next character does. -/
inductive Next where
  | goesOn
  | stops
  | refused
  deriving DecidableEq

/-- Looks at the next character of a word. -/
def next (inFlow : Bool) : List Char → Next
  | [] => .stops
  | x :: rest =>
    if isGapOrBreak x then .stops
    else if inFlow && x == ':' && rest.head?.any (fun y => isFlowMark y || y == '?') then .refused
    else if x == ':' && endsWord rest then .stops
    else if inFlow && isFlowMark x then .stops
    else .goesOn

/-- Reads a word, the latest character in front. -/
def word (inFlow : Bool) : Nat → List Char → Cursor → Option (List Char × Cursor)
  | 0, _, _ => none
  | fuel + 1, text, c =>
    match next inFlow c.rest with
    | .stops => some (text, c)
    | .refused => none
    | .goesOn => word inFlow fuel (c.rest.take 1 ++ text) (c.advance 1)

/-- The gaps and line breaks between two words. -/
structure Interval where
  /-- Gaps before any line break, the latest in front. -/
  gaps : List Char
  breaks : Fold
  ended : Bool

def Interval.text (state : Interval) : List Char :=
  if state.ended then state.breaks.joined else state.gaps.reverse

/-- Reads gaps and line breaks. A tab in the indentation of a further line is refused. -/
def interval (indent : Nat) : Nat → Interval → Cursor → Option (Interval × Cursor)
  | 0, _, _ => none
  | fuel + 1, state, c =>
    match c.peek? with
    | none => some (state, c)
    | some x =>
      if isGap x then
        if state.ended && c.column < indent && x == '\t' then none
        else
          interval indent fuel
            (if state.ended then state else { state with gaps := x :: state.gaps }) (c.advance 1)
      else
        match c.lineBreak? with
        | none => some (state, c)
        | some (x, c) =>
          interval indent fuel
            (if state.ended then
              { state with breaks := { state.breaks with later := x :: state.breaks.later } }
            else ⟨[], ⟨some x, []⟩, true⟩) c

/-- Reads words and what is between them. `before` is what stands between the text so far and the
place of reading. -/
def words (inFlow : Bool) (indent : Nat) : Nat → List Char → Interval → Cursor →
    Option (List Char × Interval × Cursor)
  | 0, _, _, _ => none
  | fuel + 1, text, before, c =>
    if c.atDivider || c.sees '#' then some (text, before, c)
    else
      match word inFlow (c.rest.length + 1) [] c with
      | none => none
      | some (added, c) =>
        let (text, before) : List Char × Interval :=
          if added.isEmpty then (text, before)
          else (added ++ before.text.reverse ++ text, ⟨[], .none, false⟩)
        if !c.seesAny isGapOrBreak then some (text, before, c)
        else
          match interval indent (c.rest.length + 1) before c with
          | none => none
          | some (before, c) =>
            if !inFlow && c.column < indent then some (text, before, c)
            else words inFlow indent fuel text before c

/-- Reads a plain scalar. Also says whether a line was ended after its last word. -/
def read (inFlow : Bool) (indent : Nat) (c : Cursor) : Option (String × Bool × Cursor) := do
  let (text, after, c) ← words inFlow indent (c.rest.length + 1) [] ⟨[], .none, false⟩ c
  return (String.ofList text.reverse, after.ended, c)

end AgentGraph.Yaml.PlainScalar
