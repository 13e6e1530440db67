import HybridAutomata.Decimal
import HybridAutomata.Scalar
/-!
# Double precision numbers

The number domain that models run on. A double is written as the shortest decimal that reads back to
it, in positional notation; the sign of zero is kept and that of an undefined value is not.
-/

namespace HybridAutomata.Double

/-- Writes a double. -/
def text (x : Float) : String :=
  if x.isNaN then "NaN"
  else
    let bits := x.toBits
    let magnitude :=
      if x.isInf then "inf"
      -- both zeros: all bits but the sign are clear
      else if bits <<< 1 == 0 then "0"
      else (Binary.ofBits bits).shortest.positional
    if bits >>> 63 == 1 then "-" ++ magnitude else magnitude

/-- The double nearest to a decimal. Magnitudes far outside the range are settled by their number of
digits, so that no power of ten grows with the exponent that was written. -/
def ofDecimal (d : Decimal) : Float :=
  let magnitude := d.exponent + digitCount d.digits
  if d.digits = 0 ∨ magnitude < -400 then 0
  else if 400 < magnitude then 1 / 0
  else Float.ofScientific d.digits (d.exponent < 0) d.exponent.natAbs

/-- The double that a numeral denotes. -/
def ofNumeral : Numeral → Float
  | .finite negative magnitude =>
    let value := ofDecimal magnitude
    if negative then -value else value
  | .infinite negative => if negative then -1 / 0 else 1 / 0
  | .undefined => 0 / 0

/-- Reads a double. -/
def read? (chars : List Char) : Option Float :=
  (Numeral.read? chars).map ofNumeral

/-- Doubles with the usual arithmetic. Intervals narrower than `1e-10` are points. -/
instance : Scalar Float where
  add x y := x + y
  sub x y := x - y
  mul x y := x * y
  div x y := x / y
  pow x y := x ^ y
  neg x := -x
  abs x := x.abs
  sin x := x.sin
  cos x := x.cos
  tan x := x.tan
  exp x := x.exp
  sqrt x := x.sqrt
  ln x := x.log
  eq x y := x == y
  lt x y := x < y
  le x y := x ≤ y
  zero := 0
  tolerance := 1e-10
  ofDecimal := ofDecimal
  text := text
  read? := read?

end HybridAutomata.Double
