import HybridAutomata.Proofs.Expr.Evaluation
/-!
# Integers

A number domain whose equality is identity, so that conditions without division can be decided by
computation. Transcendental functions have no meaning here and yield zero.
-/

namespace HybridAutomata

/-- Integers with their arithmetic. Only an interval with equal bounds is a point. -/
instance : Scalar Int where
  add x y := x + y
  sub x y := x - y
  mul x y := x * y
  div x y := x / y
  pow x y := x.pow y.toNat
  neg x := -x
  abs x := x.natAbs
  sin _ := 0
  cos _ := 0
  tan _ := 0
  exp _ := 0
  sqrt _ := 0
  ln _ := 0
  eq x y := x = y
  lt x y := x < y
  le x y := x ≤ y
  zero := 0
  tolerance := 1
  ofDecimal d := if d.exponent < 0 then d.digits / Int.pow 10 d.exponent.natAbs
    else d.digits * Int.pow 10 d.exponent.natAbs
  text x := toString x
  read? chars := (String.ofList chars).toInt?

/-- Integers are a `Lawful` number domain: their equality is identity. -/
theorem lawful_int : Scalar.Lawful Int where
  eq_iff _ _ := decide_eq_true_iff
  le_refl x := decide_eq_true (Int.le_refl x)
  lt_irrefl x := decide_eq_false (Int.lt_irrefl x)

end HybridAutomata
