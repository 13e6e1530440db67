import HybridAutomata.Scalar
/-!
# Intervals

Closed intervals of numbers, the values of constants. An interval is stored with the bounds it is
given; `ofBounds?` is the constructor that refuses bounds out of order. An interval narrower than
the domain's tolerance counts as a single point, its lower bound.
-/

namespace HybridAutomata

/-- A closed interval. -/
structure Interval (κ : Type) where
  lower : κ
  upper : κ

/-- Two bounds that are out of order, or that cannot be ordered at all. -/
structure UnorderedBounds (κ : Type) where
  lower : κ
  upper : κ

namespace UnorderedBounds

variable {κ : Type} [Scalar κ]

/-- The complaint about two bounds. -/
def message (bounds : UnorderedBounds κ) : String :=
  "invalid interval [" ++ Scalar.text bounds.lower ++ ", " ++ Scalar.text bounds.upper ++ "]"

end UnorderedBounds

namespace Interval

variable {κ : Type}

/-- The interval that holds one number. -/
def point (value : κ) : Interval κ :=
  ⟨value, value⟩

variable [Scalar κ]

/-- The interval between two bounds, if they are in order. -/
def ofBounds? (lower upper : κ) : Option (Interval κ) :=
  if Scalar.le lower upper then some ⟨lower, upper⟩ else none

/-- The interval between two bounds, or the bounds themselves as the error. -/
def ofBounds (lower upper : κ) : Except (UnorderedBounds κ) (Interval κ) :=
  match ofBounds? lower upper with
  | some interval => .ok interval
  | none => .error ⟨lower, upper⟩

/-- Equality of the bounds in the number domain. -/
def beq (left right : Interval κ) : Bool :=
  Scalar.eq left.lower right.lower && Scalar.eq left.upper right.upper

instance : BEq (Interval κ) := ⟨beq⟩

/-- Whether an interval counts as a single point. -/
def isPoint (interval : Interval κ) : Bool :=
  Scalar.lt (Scalar.abs (Scalar.sub interval.upper interval.lower)) Scalar.tolerance

/-- The value of an interval that is a point. -/
def value? (interval : Interval κ) : Option κ :=
  if interval.isPoint then some interval.lower else none

/-- Whether a number lies between the bounds. -/
def contains (interval : Interval κ) (value : κ) : Bool :=
  Scalar.le interval.lower value && Scalar.le value interval.upper

/-- The written form: a point as its value, else the two bounds. -/
def text (interval : Interval κ) : String :=
  if interval.isPoint then Scalar.text interval.lower
  else "[" ++ Scalar.text interval.lower ++ ", " ++ Scalar.text interval.upper ++ "]"

end Interval
end HybridAutomata
