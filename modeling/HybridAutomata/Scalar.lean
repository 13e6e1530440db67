import HybridAutomata.Decimal
/-!
# Number domains

Expressions, intervals and whole models are built over an arbitrary domain of numbers. This module
says what such a domain has to offer: arithmetic for folding constants, comparisons, the width
below which an interval counts as a single point, and a written form that can be read again.

Nothing is assumed about the operations. A statement that needs more (that equality is reflexive,
that the order is total) says so, so every definition also runs on a domain in which one element
differs from itself.
-/

namespace HybridAutomata

/-- A domain of numbers with the arithmetic, the comparisons and the written form that models use.
-/
class Scalar (κ : Type) where
  /-- Sum. -/
  add : κ → κ → κ
  /-- Difference. -/
  sub : κ → κ → κ
  /-- Product. -/
  mul : κ → κ → κ
  /-- Quotient. -/
  div : κ → κ → κ
  /-- Power, the base first. -/
  pow : κ → κ → κ
  /-- Opposite number. -/
  neg : κ → κ
  /-- Absolute value. -/
  abs : κ → κ
  /-- Sine. -/
  sin : κ → κ
  /-- Cosine. -/
  cos : κ → κ
  /-- Tangent. -/
  tan : κ → κ
  /-- Exponential function. -/
  exp : κ → κ
  /-- Square root. -/
  sqrt : κ → κ
  /-- Natural logarithm. -/
  ln : κ → κ
  /-- Equality of numbers; a domain may hold an element that differs from itself. -/
  eq : κ → κ → Bool
  /-- Strict order. -/
  lt : κ → κ → Bool
  /-- Order. -/
  le : κ → κ → Bool
  /-- The number zero. -/
  zero : κ
  /-- An interval narrower than this is a single point. -/
  tolerance : κ
  /-- The number nearest to a decimal. -/
  ofDecimal : Decimal → κ
  /-- The written form of a number. -/
  text : κ → String
  /-- Reads a number. -/
  read? : List Char → Option κ

end HybridAutomata
