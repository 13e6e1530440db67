import HybridAutomata.Expr.Traversal
/-!
# Folding constants

`simplify` folds arithmetic, comparisons and connectives bottom up. A quotient by zero stays as it
is, and so does every operation whose number of operands does not fit its operator. A comparison of
an expression with itself is decided without knowing its value.

The folding rules use the operations of the number domain, by name: `evalUnary?`, `evalBinary?` and
`evalComparison?`.
-/

namespace HybridAutomata.Expr

variable {κ : Type} [Scalar κ]

/-- The value of an operation on one number. -/
def evalUnary? (op : Operator) (x : κ) : Option κ :=
  match op with
  | .negative => some (Scalar.neg x)
  | .sin => some (Scalar.sin x)
  | .cos => some (Scalar.cos x)
  | .tan => some (Scalar.tan x)
  | .exp => some (Scalar.exp x)
  | .sqrt => some (Scalar.sqrt x)
  | .ln => some (Scalar.ln x)
  | _ => none

/-- The value of an arithmetic operation on two numbers; a quotient by zero has none. -/
def evalBinary? (op : Operator) (x y : κ) : Option κ :=
  match op with
  | .add => some (Scalar.add x y)
  | .subtract => some (Scalar.sub x y)
  | .multiply => some (Scalar.mul x y)
  | .divide => if Scalar.eq y Scalar.zero then none else some (Scalar.div x y)
  | .pow => some (Scalar.pow x y)
  | _ => none

/-- The outcome of a comparison of two numbers. -/
def evalComparison? (op : Operator) (x y : κ) : Option Bool :=
  match op with
  | .equal => some (Scalar.eq x y)
  | .notEqual => some (!Scalar.eq x y)
  | .less => some (Scalar.lt x y)
  | .lessEqual => some (Scalar.le x y)
  | .greater => some (Scalar.lt y x)
  | .greaterEqual => some (Scalar.le y x)
  | _ => none

/-- Folds an operation on one operand. -/
def foldUnary (op : Operator) (a : Expr κ) : Expr κ :=
  match op, a with
  | .not, bool value => bool !value
  | op, const x =>
    match evalUnary? op x with
    | some value => const value
    | none => unary op (const x)
  | op, a => unary op a

/-- Folds an operation on two operands that is no connective. -/
def foldBinary (op : Operator) (a b : Expr κ) : Expr κ :=
  match a, b with
  | const x, const y =>
    match evalComparison? op x y, evalBinary? op x y with
    | some holds, _ => bool holds
    | none, some value => const value
    | none, none => binary op (const x) (const y)
  | a, b =>
    -- two equal operands compare the same whatever their value is
    if op.isComparison && a == b then bool op.isReflexive
    else binary op a b

/-- Folds a node whose operands are folded already. -/
def simplifyNode : Expr κ → Expr κ
  | apply op [a] => foldUnary op a
  | apply op [a, b] =>
    match op with
    -- a literal operand of a connective decides it or drops out
    | .and => conj a b
    | .or => disj a b
    | op => foldBinary op a b
  | e => e

/-- Folds constants everywhere in an expression. -/
def simplify (e : Expr κ) : Expr κ :=
  e.transform simplifyNode

end HybridAutomata.Expr
