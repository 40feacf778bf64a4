import AgentGraph.Yaml.Cursor
/-!
# Quoted scalars

Between single quotes a quote is written twice; between double quotes a backslash starts an
escape. Line breaks inside are folded, and the gaps around them dropped. A line between documents
inside quotes is refused.
-/
namespace AgentGraph.Yaml.QuotedScalar

/-- The two kinds of quotes. -/
inductive Quote where
  | single
  | double
  deriving DecidableEq

def Quote.char : Quote → Char
  | .single => '\''
  | .double => '"'

/-- What a letter after a backslash stands for: a character, or how many hexadecimal digits
follow. -/
def escaped? (x : Char) : Option (Char ⊕ Nat) :=
  match x with
  | '0' => some (.inl '\x00')
  | 'a' => some (.inl '\x07')
  | 'b' => some (.inl '\x08')
  | 't' | '\t' => some (.inl '\t')
  | 'n' => some (.inl '\n')
  | 'v' => some (.inl '\x0b')
  | 'f' => some (.inl '\x0c')
  | 'r' => some (.inl '\r')
  | 'e' => some (.inl '\x1b')
  | ' ' => some (.inl ' ')
  | '"' => some (.inl '"')
  | '/' => some (.inl '/')
  | '\\' => some (.inl '\\')
  | 'N' => some (.inl '\u0085')
  | '_' => some (.inl '\u00a0')
  | 'L' => some (.inl '\u2028')
  | 'P' => some (.inl '\u2029')
  | 'x' => some (.inr 2)
  | 'u' => some (.inr 4)
  | 'U' => some (.inr 8)
  | _ => none

/-- The character of a code point written in hexadecimal digits. -/
def ofHex? (digits : List Char) : Option Char := do
  let n ← digits.foldlM (fun n x => (hexDigit? x).map (n * 16 + ·)) 0
  if (0xD800 ≤ n ∧ n ≤ 0xDFFF) ∨ n > 0x10FFFF then none else return Char.ofNat n

def escape (c : Cursor) : Option (Char × Cursor) := do
  let x ← (c.advance 1).peek?
  match ← escaped? x with
  | .inl value => return (value, c.advance 2)
  | .inr width =>
    let digits := (c.advance 2).rest.take width
    if digits.length < width then none
    else return (← ofHex? digits, c.advance (2 + width))

/-- Reads characters up to a gap, a line break, the closing quote or the end. Gives the text, the
latest character in front, and whether it ended at an escaped line break, which is skipped. -/
def word (quote : Quote) : Nat → List Char → Cursor → Option (List Char × Bool × Cursor)
  | 0, _, _ => none
  | fuel + 1, text, c =>
    match c.rest with
    | [] => some (text, false, c)
    | x :: rest =>
      if isGapOrBreak x then some (text, false, c)
      else if quote = .single && x == '\'' && rest.head? == some '\'' then
        word quote fuel ('\'' :: text) (c.advance 2)
      else if x == quote.char then some (text, false, c)
      else if quote = .double && x == '\\' then
        if rest.head?.any isBreak then some (text, true, (c.advance 1).skipBreak)
        else
          match escape c with
          | some (value, c) => word quote fuel (value :: text) c
          | none => none
      else word quote fuel (x :: text) (c.advance 1)

/-- The gaps and line breaks between two words. -/
structure Interval where
  /-- Gaps before any line break, the latest in front. -/
  gaps : List Char
  breaks : Fold
  /-- Whether a line was ended, be it by an escaped line break. -/
  ended : Bool

def interval : Nat → Interval → Cursor → Interval × Cursor
  | 0, state, c => (state, c)
  | fuel + 1, state, c =>
    match c.peek? with
    | none => (state, c)
    | some x =>
      if isGap x then
        interval fuel (if state.ended then state else { state with gaps := x :: state.gaps })
          (c.advance 1)
      else
        match c.lineBreak? with
        | none => (state, c)
        | some (x, c) =>
          interval fuel
            (if state.ended then
              { state with breaks := { state.breaks with later := x :: state.breaks.later } }
            else ⟨[], ⟨some x, []⟩, true⟩) c

def Interval.text (state : Interval) : List Char :=
  if state.ended then state.breaks.joined else state.gaps.reverse

/-- Reads words and what is between them up to the closing quote. -/
def words (quote : Quote) : Nat → List Char → Cursor → Option (List Char × Cursor)
  | 0, _, _ => none
  | fuel + 1, text, c =>
    if c.atDivider || c.atEnd then none
    else
      match word quote (c.rest.length + 1) text c with
      | none => none
      | some (text, ended, c) =>
        if c.sees quote.char then some (text, c.advance 1)
        else
          let (state, c) := interval (c.rest.length + 1) ⟨[], .none, ended⟩ c
          words quote fuel (state.text.reverse ++ text) c

def read (quote : Quote) (c : Cursor) : Option (String × Cursor) := do
  let (text, c) ← words quote (c.rest.length + 1) [] (c.advance 1)
  return (String.ofList text.reverse, c)

end AgentGraph.Yaml.QuotedScalar
