import HybridAutomata.Expr.Basic
import HybridAutomata.NameMap
/-!
# Walking through expressions

The nodes of an expression are visited with a list of pending subexpressions: the first one is
visited and its operands are put in front of the others. `visit_eq_preorderAll` says that this is
the preorder of the trees, operands from left to right.

What an expression mentions is read off its nodes: `vars` in order of first occurrence,
`mentions` and `uses` for a single name or operator.

An expression is transformed bottom up: a rule sees every node after its operands were transformed.
Substitution and renaming replace variables only, so what is put in is not looked at again.
-/

namespace HybridAutomata.Expr

variable {κ : Type}

/-- Visits pending expressions, the first one first and its operands before the others. -/
def visit : List (Expr κ) → List (Expr κ)
  | [] => []
  | e :: pending => e :: visit (e.operands ++ pending)
termination_by pending => nodeCountAll pending
decreasing_by
  simp only [nodeCountAll_append, nodeCountAll, nodeCount_eq e]
  omega

/-- The nodes of an expression in the order of a visit. -/
def nodes (e : Expr κ) : List (Expr κ) :=
  visit [e]

/-- The name, if an expression is a variable. -/
def name? : Expr κ → Option String
  | var name => some name
  | _ => none

/-- Whether an expression applies an operator. -/
def applies (op : Operator) : Expr κ → Bool
  | apply f _ => f == op
  | _ => false

/-- The names that occur in an expression, in order of first occurrence. -/
def vars (e : Expr κ) : List String :=
  firstOccurrences (e.nodes.filterMap name?)

/-- Whether a name occurs in an expression. -/
def mentions (e : Expr κ) (name : String) : Bool :=
  e.nodes.any fun node => node.name? == some name

/-- Whether an operator occurs in an expression. -/
def uses (e : Expr κ) (op : Operator) : Bool :=
  e.nodes.any (applies op)

/-! ## The order of a visit -/

mutual
/-- The nodes of an expression: the root, then the nodes of its operands from left to right. -/
def preorder : Expr κ → List (Expr κ)
  | apply op operands => apply op operands :: preorderAll operands
  | e => [e]

/-- The nodes of a list of expressions, one after the other. -/
def preorderAll : List (Expr κ) → List (Expr κ)
  | [] => []
  | e :: rest => preorder e ++ preorderAll rest
end

/-- `preorder` of any expression, with an operation or not, by its `operands`. -/
theorem preorder_eq (e : Expr κ) : e.preorder = e :: preorderAll e.operands := by
  cases e <;> simp [preorder, operands, preorderAll]

/-- `preorderAll` of two lists of pending expressions, one behind the other. -/
theorem preorderAll_append (left right : List (Expr κ)) :
    preorderAll (left ++ right) = preorderAll left ++ preorderAll right := by
  induction left with
  | nil => simp [preorderAll]
  | cons e rest ih => simp [preorderAll, ih]

/-- A visit goes through the pending expressions in preorder. -/
theorem visit_eq_preorderAll (pending : List (Expr κ)) : visit pending = preorderAll pending := by
  fun_induction visit pending with
  | case1 => simp [preorderAll]
  | case2 e pending ih => rw [ih, preorderAll_append, preorderAll, preorder_eq, List.cons_append]

/-! ## Transformations -/

mutual
/-- Applies a rule to every node, the operands before the node. -/
def transform (rule : Expr κ → Expr κ) : Expr κ → Expr κ
  | apply op operands => rule (apply op (transformAll rule operands))
  | e => rule e

/-- Applies a rule to every node of a list of operands. -/
def transformAll (rule : Expr κ → Expr κ) : List (Expr κ) → List (Expr κ)
  | [] => []
  | e :: rest => transform rule e :: transformAll rule rest
end

/-- Replaces a variable that has a value, and leaves other nodes alone. -/
def replace (values : NameMap (Expr κ)) : Expr κ → Expr κ
  | var name => (values.get? name).getD (var name)
  | e => e

/-- Replaces variables by expressions. -/
def substitute (e : Expr κ) (values : NameMap (Expr κ)) : Expr κ :=
  e.transform (replace values)

/-- The new name of a name: itself unless the map gives one. -/
def newName (names : NameMap String) (name : String) : String :=
  (names.get? name).getD name

/-- Renames a variable, and leaves other nodes alone. -/
def renameNode (names : NameMap String) : Expr κ → Expr κ
  | var name => var (newName names name)
  | e => e

/-- Renames all variables at once, so that names can be swapped. -/
def rename (e : Expr κ) (names : NameMap String) : Expr κ :=
  e.transform (renameNode names)

end HybridAutomata.Expr
