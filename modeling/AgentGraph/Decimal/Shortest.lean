import AgentGraph.Decimal.Double
/-!
# The fewest digits that read back

The reals that round to a double form an interval around it, ends included when its significand
is even. `shortest` finds the decimal with the fewest digits inside that interval, and of several
the one nearest to the double. All comparisons are exact, on natural numbers.
-/
namespace AgentGraph.Decimal
open Double

/-- Compares `a * 10 ^ g` with `b * 2 ^ s`. -/
def compareScaled (a : Nat) (g : Int) (b : Nat) (s : Int) : Ordering :=
  compare (a * (powTen g).1 * (powTwo s).2) (b * (powTwo s).1 * (powTen g).2)

/-- Whether the decimal `c * 10 ^ g` rounds to the double of the code. -/
def readsBack (code c : Nat) (g : Int) : Bool :=
  let (m, q) := decode code
  let below := if m = Nat.pow 2 52 ∧ q > -1074 then 1 else 2
  let low := compareScaled c g (4 * m - below) (q - 2)
  let high := compareScaled c g (4 * m + 2) (q - 2)
  if m % 2 = 0 then low != .lt && high != .gt else low == .gt && high == .lt

/-- The least `k` with `m * 2 ^ q < 10 ^ k`, for positive `m`. -/
def decimalSize (m : Nat) (q : Int) : Int :=
  let guess : Int := ((m.log2 : Int) + q) * 30103 / 100000 - 1
  let reaches (k : Int) : Bool := compareScaled 1 k m q != .gt
  let rec climb : Nat → Int → Int
    | 0, k => k
    | n + 1, k => if reaches k then climb n (k + 1) else k
  climb 4 guess

/-- The better of the two neighbours of `m * 2 ^ q` on the grid `10 ^ g`, if one reads back. -/
def onGrid? (code : Nat) (g : Int) : Option Nat :=
  let (m, q) := decode code
  let top := m * (powTwo q).1 * (powTen g).2
  let bottom := (powTwo q).2 * (powTen g).1
  let a := top / bottom
  match readsBack code a g && a != 0, readsBack code (a + 1) g with
  | true, true =>
    match compare (2 * (top % bottom)) bottom with
    | .lt => some a
    | .gt => some (a + 1)
    | .eq => some (if a % 2 = 0 then a else a + 1)
  | true, false => some a
  | false, true => some (a + 1)
  | false, false => none

/-- Moves trailing zeros of the digits into the exponent. -/
def stripZeros : Nat → Nat → Int → Nat × Int
  | 0, c, g => (c, g)
  | n + 1, c, g => if c ≠ 0 ∧ c % 10 = 0 then stripZeros n (c / 10) (g + 1) else (c, g)

/-- Digits and exponent of the shortest decimal that reads back as the positive double of the
code. -/
def shortest (code : Nat) : Nat × Int :=
  let (m, q) := decode code
  let size := decimalSize m q
  let rec search : Nat → Nat → Nat × Int
    | 0, _ => (m * (powTwo q).1, 0)
    | left + 1, n =>
      let g := size - n
      match onGrid? code g with
      | some c => stripZeros 20 c g
      | none => search left (n + 1)
  search 17 1

end AgentGraph.Decimal
