/-!
# Operators

The operators of conditions and assignments, how many operands each one takes, how it is written and
how tightly it binds.
-/

namespace HybridAutomata

/-- An operator. The first thirteen take two operands, the others one. -/
inductive Operator where
  | add
  | subtract
  | multiply
  | divide
  | pow
  | and
  | or
  | equal
  | notEqual
  | less
  | lessEqual
  | greater
  | greaterEqual
  | negative
  | not
  | sin
  | cos
  | tan
  | exp
  | sqrt
  | ln
deriving DecidableEq, Repr

namespace Operator

/-- All operators. -/
def all : List Operator :=
  [add, subtract, multiply, divide, pow, and, or, equal, notEqual, less, lessEqual, greater,
    greaterEqual, negative, not, sin, cos, tan, exp, sqrt, ln]

/-- How many operands an operator takes. -/
def arity : Operator → Nat
  | negative | not | sin | cos | tan | exp | sqrt | ln => 1
  | _ => 2

/-- Whether an operator compares two numbers. -/
def isComparison : Operator → Bool
  | equal | notEqual | less | lessEqual | greater | greaterEqual => true
  | _ => false

/-- Whether a comparison holds between an operand and itself. -/
def isReflexive : Operator → Bool
  | equal | lessEqual | greaterEqual => true
  | _ => false

/-- How tightly an operator binds. -/
def priority : Operator → Nat
  | or => 0
  | and => 1
  | equal | notEqual | less | lessEqual | greater | greaterEqual => 2
  | add | subtract => 3
  | multiply | divide => 4
  | pow => 5
  | negative | not => 6
  | sin | cos | tan | exp | sqrt | ln => 7

/-- How an operator is written. -/
def symbol : Operator → String
  | add => "+"
  | subtract => "-"
  | multiply => "*"
  | divide => "/"
  | pow => "^"
  | and => "&"
  | or => "|"
  | equal => "=="
  | notEqual => "!="
  | less => "<"
  | lessEqual => "<="
  | greater => ">"
  | greaterEqual => ">="
  | negative => "-"
  | not => "!"
  | sin => "sin"
  | cos => "cos"
  | tan => "tan"
  | exp => "exp"
  | sqrt => "sqrt"
  | ln => "ln"

theorem mem_all (op : Operator) : op ∈ all := by
  cases op <;> decide

end Operator
end HybridAutomata
