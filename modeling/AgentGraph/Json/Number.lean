import AgentGraph.Tree.Basic
/-!
# Reading JSON numbers

An integer literal from `-2^63` to `2^64 - 1` is an integer, except that `-0` is a double. Every
other literal is a double: its digits are collected into a significand of 64 bits, digits that no
longer fit are dropped, and the significand, rounded to a double, is multiplied or divided by a
power of ten in double arithmetic. A result that is too large is refused.
-/
namespace AgentGraph.Json

def maxSignificand : Nat := Nat.pow 2 64 - 1

def digit? (c : Char) : Option Nat := if c.isDigit then some (c.toNat - 48) else none

/-- The digits at the front of a text, and what follows them. -/
def spanDigits (cs : List Char) : List Nat × List Char :=
  ((cs.takeWhile Char.isDigit).map (·.toNat - 48), cs.dropWhile Char.isDigit)

/-- Collects digits while the significand holds them; gives the significand, how many digits were
taken, and how many were left. -/
def collect : Nat → Nat → List Nat → Nat × Nat × Nat
  | significand, taken, [] => (significand, taken, 0)
  | significand, taken, d :: rest =>
    if significand * 10 + d > maxSignificand then (significand, taken, rest.length + 1)
    else collect (significand * 10 + d) (taken + 1) rest

/-- Scales a double by a power of ten. Exponents beyond the table of powers are reached in steps of
308; a scale downwards ends at zero. -/
def scale : Nat → Nat → Int → Option Nat
  | 0, _, _ => some 0
  | fuel + 1, code, exponent =>
    if exponent.natAbs ≤ 308 then do
      let power ← Double.ofDecimal 1 exponent.natAbs
      if exponent ≥ 0 then Double.mul code power else Double.div code power
    else if code = 0 then some 0
    else if exponent ≥ 0 then none
    else do
      let power ← Double.ofDecimal 1 308
      scale fuel (← Double.div code power) (exponent + 308)

def signed (negative : Bool) (code : Nat) : Number := .float (Double.toBits negative code)

/-- The double `significand * 10 ^ exponent` with a sign. -/
def ofParts (negative : Bool) (significand : Nat) (exponent : Int) : Option Number := do
  let code ← Double.nearest significand 1
  let code ← scale 8 code exponent
  return signed negative code

/-- The largest exponent that is read as it stands. -/
def maxExponent : Nat := Nat.pow 2 31 - 1

/-- Reads the digits of an exponent and scales. An exponent that is too long gives zero, or is
refused if the number would be large. -/
def readExponent (negative : Bool) (significand : Nat) (start : Int) (cs : List Char) :
    Option (Number × List Char) := do
  let (down, cs) := match cs with
    | '+' :: rest => (false, rest)
    | '-' :: rest => (true, rest)
    | _ => (false, cs)
  let (digits, rest) := spanDigits cs
  if digits.isEmpty then none
  else
    let value := digits.foldl (fun n d => n * 10 + d) 0
    if value > maxExponent then
      if significand ≠ 0 ∧ !down then none else return (signed negative 0, rest)
    else
      let exponent := if down then start - value else start + value
      return (← ofParts negative significand exponent, rest)

/-- Reads what follows the integer digits of a number that is a double. -/
def readRest (negative : Bool) (significand : Nat) (start : Int) (cs : List Char) :
    Option (Number × List Char) :=
  match cs with
  | '.' :: rest => do
    let (digits, rest) := spanDigits rest
    if digits.isEmpty then none
    else
      let (significand, taken, _) := collect significand 0 digits
      let exponent := start - taken
      match rest with
      | 'e' :: rest | 'E' :: rest => readExponent negative significand exponent rest
      | _ => return (← ofParts negative significand exponent, rest)
  | 'e' :: rest | 'E' :: rest => readExponent negative significand start rest
  | _ => do return (← ofParts negative significand start, cs)

/-- Reads the digits of a number after its sign. -/
def readDigits (negative : Bool) (cs : List Char) : Option (Number × List Char) :=
  let (digits, rest) := spanDigits cs
  match digits with
  | [] => none
  | first :: others =>
    if first = 0 ∧ !others.isEmpty then none
    else
      let (significand, _, left) := collect 0 0 digits
      if left > 0 then readRest negative significand left rest
      else
        match rest with
        | '.' :: _ | 'e' :: _ | 'E' :: _ => readRest negative significand 0 rest
        | _ =>
          if !negative then some (.int significand, rest)
          else if significand = 0 ∨ significand > Nat.pow 2 63 then
            (Double.nearest significand 1).map fun code => (signed true code, rest)
          else some (.int (-significand), rest)

def readNumber (cs : List Char) : Option (Number × List Char) :=
  match cs with
  | '-' :: rest => readDigits true rest
  | _ => readDigits false cs

end AgentGraph.Json
