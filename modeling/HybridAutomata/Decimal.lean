/-!
# Decimals

How numbers are written and read. A finite binary value stands for every real that rounds to it.
Among the decimals in that interval `Binary.shortest` chooses one with the fewest digits, and of
those the nearest to the value; of two equally near the larger.

All tests are exact comparisons of natural numbers: `Binary.readsBack` says whether a decimal lies
in the interval, and the search tries grids of one, two, … seventeen digits.
-/

namespace HybridAutomata

/-- The number `digits · 10 ^ exponent`. -/
structure Decimal where
  digits : Nat
  exponent : Int
deriving DecidableEq, Repr

/-- The number `mantissa · 2 ^ exponent`, together with the shape of the interval of reals that
round to it: the gap to the value below is half the gap to the value above, or equal to it. -/
structure Binary where
  mantissa : Nat
  exponent : Int
  narrowBelow : Bool
deriving DecidableEq, Repr

/-- A power whose exponent counts as far as it is positive; else one. -/
def power (base : Nat) (exponent : Int) : Nat :=
  Nat.pow base exponent.toNat

/-- How many digits a natural number is written with. -/
def digitCount (n : Nat) : Nat :=
  (Nat.toDigits 10 n).length

namespace Decimal

/-- Moves trailing zeros of the digits into the exponent. -/
def normalize (digits : Nat) (exponent : Int) : Decimal :=
  if digits ≠ 0 ∧ digits % 10 = 0 then normalize (digits / 10) (exponent + 1)
  else ⟨digits, exponent⟩
termination_by digits
decreasing_by omega

end Decimal

namespace Binary

/-- Decodes the bits of a finite double. The sign is left out. -/
def ofBits (bits : UInt64) : Binary :=
  let exponent := ((bits >>> 52) &&& 0x7FF).toNat
  let fraction := (bits &&& 0xFFFFFFFFFFFFF).toNat
  -- without exponent bits there is no hidden leading bit
  if exponent = 0 then ⟨fraction, -1074, false⟩
  else ⟨0x10000000000000 + fraction, (exponent : Int) - 1075, fraction == 0 && exponent > 1⟩

/-- Compares `a · 10 ^ i` with `b · 2 ^ j`. -/
def compareScaled (a : Nat) (i : Int) (b : Nat) (j : Int) : Ordering :=
  compare (a * power 10 i * power 2 (-j)) (b * power 2 j * power 10 (-i))

/-- Whether the decimal is among the reals that round to `x`. The ends of the interval belong to it
exactly when the mantissa is even. -/
def readsBack (x : Binary) (d : Decimal) : Bool :=
  -- the ends of the interval, counted in quarters of the last place of the mantissa
  let low := if x.narrowBelow then 4 * x.mantissa - 1 else 4 * x.mantissa - 2
  let high := 4 * x.mantissa + 2
  let closed := x.mantissa % 2 == 0
  let fromLow := compareScaled d.digits d.exponent low (x.exponent - 2)
  let fromHigh := compareScaled d.digits d.exponent high (x.exponent - 2)
  (fromLow == .gt || (closed && fromLow == .eq)) && (fromHigh == .lt || (closed && fromHigh == .eq))

/-- The least `k` with `x < 10 ^ k`, for positive `x`. -/
def magnitude (x : Binary) : Int :=
  let above := x.mantissa * power 2 x.exponent
  let below := power 2 (-x.exponent)
  if below ≤ above then digitCount (above / below)
  else 1 - (digitCount (below / above) : Int)

/-- The largest `n` with `n · 10 ^ e ≤ x`. -/
def floorOn (x : Binary) (e : Int) : Nat :=
  x.mantissa * power 2 x.exponent * power 10 (-e) / (power 2 (-x.exponent) * power 10 e)

/-- The multiple of `10 ^ e` to write for `x`, if one of the two next to `x` reads back. -/
def nearestOn? (x : Binary) (e : Int) : Option Decimal :=
  let low := x.floorOn e
  let below : Decimal := ⟨low, e⟩
  let above : Decimal := ⟨low + 1, e⟩
  match x.readsBack below, x.readsBack above with
  | true, true =>
    -- both read back: compare the value with the middle between them
    some (if compareScaled (2 * low + 1) e (2 * x.mantissa) x.exponent == .gt then below else above)
  | true, false => some below
  | false, true => some above
  | false, false => none

/-- The value itself as a decimal. -/
def toDecimal (x : Binary) : Decimal :=
  ⟨x.mantissa * power 2 x.exponent * power 5 (-x.exponent), min x.exponent 0⟩

/-- The shortest decimal that rounds to the positive value `x`, without trailing zeros. -/
def shortest (x : Binary) : Decimal :=
  -- seventeen digits always suffice, so the value itself is never needed
  let found := (List.range 17).findSome? fun n => x.nearestOn? (x.magnitude - (n + 1 : Nat))
  let chosen := found.getD x.toDecimal
  Decimal.normalize chosen.digits chosen.exponent

end Binary

/-! ## Positional notation

Decimals are written without an exponent, however large or small: `1000000000000000000000`,
`0.0000001`. Whole numbers have no point.
-/

namespace Decimal

/-- The digits of a decimal in positional notation. -/
def positionalChars (d : Decimal) : List Char :=
  let digits := Nat.toDigits 10 d.digits
  if 0 ≤ d.exponent then digits ++ List.replicate d.exponent.toNat '0'
  else
    let places := (-d.exponent).toNat
    if places < digits.length then
      digits.take (digits.length - places) ++ '.' :: digits.drop (digits.length - places)
    else '0' :: '.' :: (List.replicate (places - digits.length) '0' ++ digits)

/-- Writes a decimal in positional notation. -/
def positional (d : Decimal) : String :=
  String.ofList d.positionalChars

end Decimal

/-! ## Numerals

A numeral is an optional sign followed by one of the words `inf`, `infinity`, `nan` in any case, or
by ASCII digits with an optional point and an optional exponent. At least one digit stands beside
the point, and an exponent has at least one digit. Nothing may surround a numeral, not even blanks.
-/

/-- What a numeral denotes. -/
inductive Numeral where
  /-- A decimal, possibly negative; zero keeps its sign. -/
  | finite (negative : Bool) (magnitude : Decimal)
  /-- One of the two infinities. -/
  | infinite (negative : Bool)
  /-- No number. -/
  | undefined
deriving DecidableEq, Repr

namespace Numeral

/-- The value of a list of digits. -/
def digitsValue (digits : List Char) : Nat :=
  digits.foldl (fun value c => 10 * value + (c.toNat - '0'.toNat)) 0

/-- Splits off an optional sign; `true` stands for minus. -/
def readSign : List Char → Bool × List Char
  | '-' :: rest => (true, rest)
  | '+' :: rest => (false, rest)
  | rest => (false, rest)

/-- Reads what may follow the digits of a decimal: nothing, or an exponent. -/
def readExponent? : List Char → Option Int
  | [] => some 0
  | c :: rest =>
    if c = 'e' ∨ c = 'E' then
      let (negative, digits) := readSign rest
      if digits ≠ [] ∧ digits.all Char.isDigit then
        some (if negative then -(digitsValue digits : Int) else digitsValue digits)
      else none
    else none

/-- Reads a decimal without sign. -/
def readDecimal? (text : List Char) : Option Decimal :=
  let whole := text.takeWhile Char.isDigit
  let rest := text.dropWhile Char.isDigit
  let (places, rest) := match rest with
    | '.' :: rest => (rest.takeWhile Char.isDigit, rest.dropWhile Char.isDigit)
    | rest => ([], rest)
  -- a point alone is no numeral
  if whole = [] ∧ places = [] then none
  else (readExponent? rest).map fun exponent =>
    ⟨digitsValue (whole ++ places), exponent - places.length⟩

/-- Reads a numeral. -/
def read? (text : List Char) : Option Numeral :=
  let (negative, rest) := readSign text
  let word := String.ofList (rest.map Char.toLower)
  if word = "inf" ∨ word = "infinity" then some (.infinite negative)
  else if word = "nan" then some .undefined
  else (readDecimal? rest).map (.finite negative)

end Numeral
end HybridAutomata
