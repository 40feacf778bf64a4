import AgentGraph.Decimal.Double
import AgentGraph.Yaml.Chars
/-!
# What a plain scalar means

A scalar without quotes stands for null, a boolean, an integer, a double, or for its own text. A
decimal number with needless leading zeros is text. Doubles are read exactly; one that is too
large for a finite double is text, while the words for infinity and for no number have a meaning
of their own.
-/
namespace AgentGraph.Yaml

/-- The meaning of a plain scalar. -/
inductive Meaning where
  | null
  | bool (value : Bool)
  | int (value : Int)
  /-- An integer beyond 64 bits. -/
  | hugeInt
  /-- A finite double, given by its bits. -/
  | float (bits : UInt64)
  /-- Infinity, or no number. -/
  | notFinite
  | text
  deriving DecidableEq

namespace Meaning

/-- The words for null. -/
def isNullWord (s : String) : Bool := s == "null" || s == "Null" || s == "NULL" || s == "~"

/-- The words for booleans. -/
def boolWord? (s : String) : Option Bool :=
  if s == "true" || s == "True" || s == "TRUE" then some true
  else if s == "false" || s == "False" || s == "FALSE" then some false
  else none

/-- The value of one digit in a base. -/
def digit? (base : Nat) (c : Char) : Option Nat :=
  match hexDigit? c with
  | some d => if d < base then some d else none
  | none => none

/-- The value of a row of digits, at least one. -/
def digits? (base : Nat) (cs : List Char) : Option Nat :=
  if cs.isEmpty then none
  else cs.foldlM (fun n c => (digit? base c).map (n * base + ·)) 0

/-- Whether a sign stands here. -/
def startsWithSign : List Char → Bool
  | '+' :: _ | '-' :: _ => true
  | _ => false

/-- Whether the text is decimal digits, after at most one sign, with a needless leading zero. -/
def hasNeedlessZero (cs : List Char) : Bool :=
  let body := if startsWithSign cs then cs.drop 1 else cs
  match body with
  | '0' :: d :: rest => (d :: rest).all Char.isDigit
  | _ => false

/-- The base that a mark after a zero stands for. -/
def base? : Char → Option Nat
  | 'x' => some 16
  | 'o' => some 8
  | 'b' => some 2
  | _ => none

/-- The digits after a base mark. -/
def based? : List Char → Option Nat
  | '0' :: mark :: rest => base? mark >>= fun base => digits? base rest
  | _ => none

/-- The magnitude of an integer without a minus sign. -/
def unsigned? (cs : List Char) : Option Nat :=
  let body := match cs with
    | '+' :: rest => rest
    | _ => cs
  match based? body with
  | some n => some n
  | none => if hasNeedlessZero cs then none else digits? 10 body

/-- The magnitude of an integer with a minus sign. -/
def negated? (cs : List Char) : Option Nat :=
  match cs with
  | '-' :: body =>
    match based? body with
    | some n => some n
    | none => if hasNeedlessZero cs then none else digits? 10 body
  | _ => none

/-- The meaning of an integer; integers beyond 128 bits are none. -/
def int? (cs : List Char) : Option Meaning :=
  match unsigned? cs, negated? cs with
  | some n, _ =>
    if n < Nat.pow 2 64 then some (.int n) else if n < Nat.pow 2 128 then some .hugeInt else none
  | none, some n =>
    if n ≤ Nat.pow 2 63 then some (.int (-(n : Int)))
    else if n ≤ Nat.pow 2 127 then some .hugeInt
    else none
  | none, none => none

/-- The value of a row of digits that may be empty. -/
def natOf (digits : List Char) : Nat := digits.foldl (fun n c => n * 10 + (c.toNat - 48)) 0

/-- The exponent at the end of a decimal number. -/
def exponent? : List Char → Option Int
  | [] => some 0
  | mark :: rest =>
    if mark == 'e' || mark == 'E' then
      let (sign, digits) := match rest with
        | '+' :: digits => ((1 : Int), digits)
        | '-' :: digits => (-1, digits)
        | _ => (1, rest)
      if digits.isEmpty || !digits.all Char.isDigit then none else some (sign * natOf digits)
    else none

/-- The code of the double nearest to a decimal number without a sign. -/
def magnitude? (cs : List Char) : Option Nat := do
  let whole := cs.takeWhile Char.isDigit
  let rest := cs.dropWhile Char.isDigit
  let (fraction, rest) := match rest with
    | '.' :: rest => (rest.takeWhile Char.isDigit, rest.dropWhile Char.isDigit)
    | _ => ([], rest)
  if whole.isEmpty && fraction.isEmpty then none
  else
    let exponent ← exponent? rest
    Double.ofDecimal (natOf (whole ++ fraction)) (exponent - fraction.length)

/-- The meaning of a number with a point or an exponent, and of the words for numbers that are not
finite. -/
def float? (s : String) : Option Meaning :=
  let cs := s.toList
  let body := match cs with
    | '+' :: rest => rest
    | _ => cs
  if cs.head? == some '+' && startsWithSign body then none
  else
    let word := String.ofList (if body.head? == some '-' then body.drop 1 else body)
    if word == ".inf" || word == ".Inf" || word == ".INF" then some .notFinite
    else if s == ".nan" || s == ".NaN" || s == ".NAN" then some .notFinite
    else
      match body with
      | '-' :: rest => (magnitude? rest).map fun code => .float (Double.toBits true code)
      | _ => (magnitude? body).map fun code => .float (Double.toBits false code)

def ofPlain (s : String) : Meaning :=
  if s.isEmpty || isNullWord s then .null
  else
    match boolWord? s with
    | some b => .bool b
    | none =>
      match int? s.toList with
      | some m => m
      | none => if hasNeedlessZero s.toList then .text else (float? s).getD .text

end Meaning
end AgentGraph.Yaml
