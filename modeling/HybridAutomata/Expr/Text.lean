import HybridAutomata.Expr.Basic
/-!
# The written form of expressions

Operations on two operands are written between them, in parentheses where the surrounding operator
binds tighter. The right operand is written as if its surroundings bound one step tighter, so that
`a - (b - c)` keeps its parentheses. `-` and `!` stand before their operand; all else is written
like a function call.
-/

namespace HybridAutomata.Expr

variable {κ : Type} [Scalar κ]

/-- Whether an operator on one operand is written without parentheses. -/
def isSign (op : Operator) : Bool :=
  op == .negative || op == .not

mutual
/-- Writes an expression inside an operator of the given priority. -/
def chars (outer : Nat) : Expr κ → List Char
  | bool true => ['t', 'r', 'u', 'e']
  | bool false => ['f', 'a', 'l', 's', 'e']
  | const value => (Scalar.text value).toList
  | var name => name.toList
  | apply op [a, b] =>
    let inner :=
      chars op.priority a ++ ' ' :: (op.symbol.toList ++ ' ' :: chars (op.priority + 1) b)
    -- an operator that binds less tightly than its surroundings is set apart
    if op.priority < outer then '(' :: (inner ++ [')']) else inner
  | apply op [a] =>
    if isSign op then op.symbol.toList ++ chars op.priority a
    else op.symbol.toList ++ '(' :: (chars 0 a ++ [')'])
  | apply op operands => op.symbol.toList ++ '(' :: (charsAll operands ++ [')'])

/-- Writes operands with commas between them. -/
def charsAll : List (Expr κ) → List Char
  | [] => []
  | [e] => chars 0 e
  | e :: rest => chars 0 e ++ ',' :: ' ' :: charsAll rest
end

/-- The written form of an expression. -/
def text (e : Expr κ) : String :=
  String.ofList (e.chars 0)

end HybridAutomata.Expr
