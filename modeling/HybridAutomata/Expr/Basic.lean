import HybridAutomata.Scalar
import HybridAutomata.Expr.Operator
/-!
# Expressions

Conditions and assignment terms over a number domain. An operation may carry any number of operands;
the constructors `conj` and `disj` build conjunctions and disjunctions that drop literal operands.

Two equalities live side by side: `=` is equality of trees, and `==` compares the constants with the
equality of the number domain.
-/

namespace HybridAutomata

/-- A condition or an assignment term. -/
inductive Expr (κ : Type) where
  /-- A truth value. -/
  | bool (value : Bool)
  /-- A number. -/
  | const (value : κ)
  /-- A variable or a named constant. -/
  | var (name : String)
  /-- An operator with its operands. -/
  | apply (op : Operator) (operands : List (Expr κ))

namespace Expr

variable {κ : Type}

instance : Inhabited (Expr κ) := ⟨bool true⟩

/-- The operands of an operation; other expressions have none. -/
def operands : Expr κ → List (Expr κ)
  | apply _ operands => operands
  | _ => []

/-- Whether an expression is the literal `true`. -/
def isTrue : Expr κ → Bool
  | bool value => value
  | _ => false

/-- Whether an expression is the literal `false`. -/
def isFalse : Expr κ → Bool
  | bool value => !value
  | _ => false

/-- An operation on one operand. -/
def unary (op : Operator) (a : Expr κ) : Expr κ :=
  apply op [a]

/-- An operation on two operands. -/
def binary (op : Operator) (a b : Expr κ) : Expr κ :=
  apply op [a, b]

/-- Conjunction; literal operands are absorbed. -/
def conj (a b : Expr κ) : Expr κ :=
  if a.isFalse || b.isFalse then bool false
  else if a.isTrue then b
  else if b.isTrue then a
  else binary .and a b

/-- Disjunction; literal operands are absorbed. -/
def disj (a b : Expr κ) : Expr κ :=
  if a.isTrue || b.isTrue then bool true
  else if a.isFalse then b
  else if b.isFalse then a
  else binary .or a b

mutual
/-- Equality of expressions, with the domain's equality on numbers. -/
def beq [Scalar κ] : Expr κ → Expr κ → Bool
  | bool a, bool b => a == b
  -- the only place where this is not equality of trees
  | const a, const b => Scalar.eq a b
  | var a, var b => a == b
  | apply f as, apply g bs => f == g && beqAll as bs
  | _, _ => false

/-- Equality of operand lists. -/
def beqAll [Scalar κ] : List (Expr κ) → List (Expr κ) → Bool
  | [], [] => true
  | a :: as, b :: bs => beq a b && beqAll as bs
  | _, _ => false
end

instance [Scalar κ] : BEq (Expr κ) := ⟨beq⟩

mutual
/-- The number of nodes of an expression. -/
def nodeCount : Expr κ → Nat
  | apply _ operands => 1 + nodeCountAll operands
  | _ => 1

/-- The number of nodes of a list of expressions. -/
def nodeCountAll : List (Expr κ) → Nat
  | [] => 0
  | e :: rest => nodeCount e + nodeCountAll rest
end

/-- Every expression has a node, so visiting one leaves fewer. -/
theorem nodeCount_pos (e : Expr κ) : 0 < e.nodeCount := by
  cases e <;> simp only [nodeCount] <;> omega

/-- `nodeCount` counts the root and the nodes of the `operands`. -/
theorem nodeCount_eq (e : Expr κ) : e.nodeCount = 1 + nodeCountAll e.operands := by
  cases e <;> simp [nodeCount, operands, nodeCountAll]

/-- The nodes of two lists of operands add up. -/
theorem nodeCountAll_append (left right : List (Expr κ)) :
    nodeCountAll (left ++ right) = nodeCountAll left + nodeCountAll right := by
  induction left with
  | nil => simp [nodeCountAll]
  | cons e rest ih => simp [nodeCountAll, ih, Nat.add_assoc]

end Expr
end HybridAutomata
