/-!
# Double-precision numbers as bits

A finite double is a sign and a magnitude `m * 2 ^ q`. The magnitude is coded by a natural number
below `infinity`, in the order of the values: code 0 is zero, the next code is the next larger
double. Everything here is exact arithmetic on natural numbers: `nearest` rounds a quotient to
the nearest code, ties to the even one, and the operations round the exact result.
-/
namespace AgentGraph.Double

/-- The code above every finite magnitude. -/
def infinity : Nat := 2047 * Nat.pow 2 52

/-- The magnitude `m * 2 ^ q` of a code. -/
def decode (code : Nat) : Nat × Int :=
  let field : Nat := code / Nat.pow 2 52
  let fraction : Nat := code % Nat.pow 2 52
  if field = 0 then (fraction, -1074) else (fraction + Nat.pow 2 52, (field : Int) - 1075)

/-- A positive power of two as a fraction: `2 ^ q = fst / snd`. -/
def powTwo (q : Int) : Nat × Nat := (Nat.pow 2 q.toNat, Nat.pow 2 (-q).toNat)

/-- A power of ten as a fraction. -/
def powTen (k : Int) : Nat × Nat := (Nat.pow 10 k.toNat, Nat.pow 10 (-k).toNat)

/-- The exponent of the last place of the double nearest to `num / den`: the quotient by
`2 ^ place` has 53 binary digits, or the place is the smallest there is. -/
def place (num den : Nat) : Int :=
  let guess : Int := (num.log2 : Int) - (den.log2 : Int) - 53
  let reaches (e : Int) : Bool :=
    num * (powTwo e).2 ≥ Nat.pow 2 53 * den * (powTwo e).1
  max (if reaches guess then guess + 1 else guess) (-1074)

/-- The code nearest to `num / den`, ties to the even code; `none` if it is not finite. -/
def nearest (num den : Nat) : Option Nat :=
  if num = 0 then some 0
  else
    let e := place num den
    let top := num * (powTwo e).2
    let bottom := den * (powTwo e).1
    let q := top / bottom
    let r := top % bottom
    let q := if 2 * r > bottom ∨ (2 * r = bottom ∧ q % 2 = 1) then q + 1 else q
    let code := (e + 1074).toNat * Nat.pow 2 52 + q
    if code < infinity then some code else none

/-- The code nearest to `digits * 10 ^ exponent`. Exponents far outside the range of doubles are
answered without computing the power. -/
def ofDecimal (digits : Nat) (exponent : Int) : Option Nat :=
  if digits = 0 then some 0
  else if exponent > 400 then none
  else if exponent + digits.log2 + 1 < -400 then some 0
  else nearest (digits * (powTen exponent).1) (powTen exponent).2

def mul (a b : Nat) : Option Nat :=
  let (m, p) := decode a
  let (n, q) := decode b
  nearest (m * n * (powTwo (p + q)).1) (powTwo (p + q)).2

def div (a b : Nat) : Option Nat :=
  let (m, p) := decode a
  let (n, q) := decode b
  nearest (m * (powTwo (p - q)).1) (n * (powTwo (p - q)).2)

/-- The bits of a signed finite double. -/
def toBits (negative : Bool) (code : Nat) : UInt64 :=
  UInt64.ofNat (if negative then Nat.pow 2 63 + code else code)

/-- The sign of a double given by its bits. -/
def isNegative (bits : UInt64) : Bool := bits.toNat ≥ Nat.pow 2 63

/-- The code of the magnitude of a double given by its bits. -/
def magnitude (bits : UInt64) : Nat := bits.toNat % Nat.pow 2 63

/-- Equality of values: equal bits, or two zeros of either sign. -/
def same (a b : UInt64) : Bool := a == b || (magnitude a == 0 && magnitude b == 0)

end AgentGraph.Double
