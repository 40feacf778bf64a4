import AgentGraph.Decimal.Shortest
/-!
# The text of a double

A finite double is written with the fewest digits that identify it: positionally from `1e-5` up to
below `1e16`, with a point and at least one digit after it, and otherwise with an exponent. The
two text formats differ only in the sign of a positive exponent.
-/
namespace AgentGraph.Decimal

/-- How an exponent is written. -/
structure ExponentStyle where
  /-- Whether a positive exponent carries a plus sign. -/
  plus : Bool

/-- The text of the magnitude `digits * 10 ^ exponent`. -/
def layout (style : ExponentStyle) (digits : Nat) (exponent : Int) : String :=
  let text := toString digits
  let leading : Int := exponent + text.length - 1
  if leading < -5 ∨ leading ≥ 16 then
    let fraction := text.drop 1
    let body := if text.length = 1 then text else (text.take 1).toString ++ "." ++ fraction.toString
    let sign := if leading < 0 then "-" else if style.plus then "+" else ""
    body ++ "e" ++ sign ++ toString leading.natAbs
  else if exponent ≥ 0 then text ++ "".pushn '0' exponent.toNat ++ ".0"
  else if leading ≥ 0 then
    (text.take (leading.toNat + 1)).toString ++ "." ++ (text.drop (leading.toNat + 1)).toString
  else "0." ++ "".pushn '0' (-leading - 1).toNat ++ text

/-- The text of a finite double given by its bits. -/
def render (style : ExponentStyle) (bits : UInt64) : String :=
  let code := Double.magnitude bits
  let sign := if Double.isNegative bits then "-" else ""
  if code = 0 then sign ++ "0.0"
  else
    let (digits, exponent) := shortest code
    sign ++ layout style digits exponent

end AgentGraph.Decimal
