import HybridAutomata.Proofs.Expr.Variables
/-!
# The value of an expression

An evaluator for expressions over any number domain. It is strict: an operation has a value only if
all its operands have one and fit the operator, and a quotient by zero has none. Arithmetic and
comparisons are those that folding uses, so folding changes no value that there is, provided that
equality of numbers is identity and the order fits it.

* `eval_substitute`   the value of a substitution
* `eval_simplify`     folding keeps the value of an expression that has one
-/

namespace HybridAutomata

/-- A number domain whose equality is identity and whose order fits it. -/
structure Scalar.Lawful (κ : Type) [Scalar κ] : Prop where
  eq_iff : ∀ x y : κ, Scalar.eq x y = true ↔ x = y
  le_refl : ∀ x : κ, Scalar.le x x = true
  lt_irrefl : ∀ x : κ, Scalar.lt x x = false

/-- What an expression may stand for. -/
inductive Value (κ : Type) where
  | bool (value : Bool)
  | number (value : κ)
deriving DecidableEq, Repr

namespace Expr

variable {κ : Type} [Scalar κ]

/-- The value of an operation on values. -/
def evalOp (op : Operator) : List (Value κ) → Option (Value κ)
  | [.bool a] => if op = .not then some (.bool !a) else none
  | [.number x] => (evalUnary? op x).map .number
  | [.bool a, .bool b] =>
    match op with
    | .and => some (.bool (a && b))
    | .or => some (.bool (a || b))
    | _ => none
  | [.number x, .number y] =>
    match evalComparison? op x y with
    | some holds => some (.bool holds)
    | none => (evalBinary? op x y).map .number
  | _ => none

mutual
/-- The value of an expression, given the values of variables. -/
def eval (env : String → Option (Value κ)) : Expr κ → Option (Value κ)
  | bool value => some (.bool value)
  | const value => some (.number value)
  | var name => env name
  | apply op operands => (evalAll env operands).bind (evalOp op)

/-- The values of operands, if all of them have one. -/
def evalAll (env : String → Option (Value κ)) : List (Expr κ) → Option (List (Value κ))
  | [] => some []
  | e :: rest => (eval env e).bind fun value => (evalAll env rest).map (value :: ·)
end

variable {env env' : String → Option (Value κ)}

/-! ## Substitution -/

/-- `evalAll` of operands that have the same values under two changes. -/
theorem evalAll_map_congr {f g : Expr κ → Expr κ} {operands : List (Expr κ)}
    (h : ∀ e ∈ operands, eval env (f e) = eval env' (g e)) :
    evalAll env (operands.map f) = evalAll env' (operands.map g) := by
  -- induction on the operands, whose values are computed from left to right
  induction operands with
  | nil => rfl
  | cons e rest ih =>
    rw [List.map_cons, List.map_cons, evalAll, evalAll, h e List.mem_cons_self,
      ih fun other ho => h other (List.mem_cons_of_mem _ ho)]

/-- `evalAll` is kept by a change that keeps the value of every operand that has one. -/
theorem evalAll_map_of_eval {f : Expr κ → Expr κ} {operands : List (Expr κ)}
    {values : List (Value κ)}
    (hf : ∀ e ∈ operands, ∀ value, eval env e = some value → eval env (f e) = some value)
    (h : evalAll env operands = some values) : evalAll env (operands.map f) = some values := by
  -- all operands have values, since the list of them is known
  induction operands generalizing values with
  | nil => exact h
  | cons e rest ih =>
    rw [evalAll] at h
    obtain ⟨first, he, h⟩ := Option.bind_eq_some_iff.1 h
    obtain ⟨others, hr, rfl⟩ := Option.map_eq_some_iff.1 h
    rw [List.map_cons, evalAll, hf e List.mem_cons_self first he,
      ih (fun other ho => hf other (List.mem_cons_of_mem _ ho)) hr]
    rfl

/-- `eval` of a substitution is `eval` of the expression in which every name is read as what is put
in for it. -/
theorem eval_substitute {e : Expr κ} {values : NameMap (Expr κ)}
    (h : ∀ name ∈ e.vars, env name = eval env' ((values.get? name).getD (var name))) :
    eval env' (e.substitute values) = eval env e := by
  rw [substitute]
  -- induction on the expression; names are the only nodes that are replaced
  induction e using induct with
  | bool value => rfl
  | const value => rfl
  | var name => exact (h name (mem_vars_var.2 rfl)).symm
  | apply op operands ih =>
    have hall : evalAll env' (operands.map (transform (replace values))) =
        evalAll env (operands.map id) :=
      evalAll_map_congr fun e he => ih e he fun name hn => h name (mem_vars_apply.2 ⟨e, he, hn⟩)
    rw [transform_apply, replace, eval, hall, List.map_id, eval]
    -- an operation is not replaced, so the hypothesis of `replace` on names is void
    intro _ h
    cases h

/-! ## Folding -/

section Folding

/-- `eval` of a unary operation takes the value of the operand first. -/
theorem eval_unary (op : Operator) (a : Expr κ) :
    eval env (unary op a) = (eval env a).bind fun value => evalOp op [value] := by
  -- without a value of the operand neither side has one
  simp only [unary, eval, evalAll, Option.map_some]
  cases eval env a <;> rfl

/-- `eval` of a binary operation takes the values of both operands first. -/
theorem eval_binary (op : Operator) (a b : Expr κ) :
    eval env (binary op a b) =
      (eval env a).bind fun left => (eval env b).bind fun right => evalOp op [left, right] := by
  simp only [binary, eval, evalAll, Option.map_some]
  cases eval env a <;> cases eval env b <;> rfl

/-- `evalOp` of a conjunction takes two truth values. -/
theorem evalOp_and {left right value : Value κ} (h : evalOp .and [left, right] = some value) :
    ∃ a b, left = .bool a ∧ right = .bool b ∧ value = .bool (a && b) := by
  -- four forms of operands, and numbers have no conjunction
  cases left <;> cases right <;>
    simp_all [evalOp, evalComparison?, evalBinary?, @eq_comm _ value]

/-- `evalOp` of a disjunction takes two truth values. -/
theorem evalOp_or {left right value : Value κ} (h : evalOp .or [left, right] = some value) :
    ∃ a b, left = .bool a ∧ right = .bool b ∧ value = .bool (a || b) := by
  cases left <;> cases right <;>
    simp_all [evalOp, evalComparison?, evalBinary?, @eq_comm _ value]

/-- `conj` keeps the value of a conjunction that has one, though it absorbs literal operands. -/
theorem eval_conj {a b : Expr κ} {value : Value κ} (h : eval env (binary .and a b) = some value) :
    eval env (conj a b) = some value := by
  rw [eval_binary] at h
  obtain ⟨left, ha, h⟩ := Option.bind_eq_some_iff.1 h
  obtain ⟨right, hb, h⟩ := Option.bind_eq_some_iff.1 h
  -- a conjunction has a value only if both sides are truth values
  obtain ⟨p, q, rfl, rfl, rfl⟩ := evalOp_and h
  rw [conj]
  -- the shortcuts in the order in which they are tried: false, true on the left, true on the right
  split
  · next hf =>
    rw [Bool.or_eq_true, isFalse_iff, isFalse_iff] at hf
    rcases hf with rfl | rfl
    · simp_all [eval]
    · simp_all [eval]
  split
  · next ht =>
    rw [isTrue_iff] at ht
    subst ht
    simp_all [eval]
  split
  · next ht =>
    rw [isTrue_iff] at ht
    subst ht
    simp_all [eval]
  · rw [eval_binary, ha, hb]
    rfl

/-- `disj` keeps the value of a disjunction that has one, though it absorbs literal operands. -/
theorem eval_disj {a b : Expr κ} {value : Value κ} (h : eval env (binary .or a b) = some value) :
    eval env (disj a b) = some value := by
  rw [eval_binary] at h
  obtain ⟨left, ha, h⟩ := Option.bind_eq_some_iff.1 h
  obtain ⟨right, hb, h⟩ := Option.bind_eq_some_iff.1 h
  -- a disjunction has a value only if both sides are truth values
  obtain ⟨p, q, rfl, rfl, rfl⟩ := evalOp_or h
  rw [disj]
  -- the shortcuts in the order in which they are tried: true, false on the left, false on the right
  split
  · next ht =>
    rw [Bool.or_eq_true, isTrue_iff, isTrue_iff] at ht
    rcases ht with rfl | rfl
    · simp_all [eval]
    · simp_all [eval]
  split
  · next hf =>
    rw [isFalse_iff] at hf
    subst hf
    simp_all [eval]
  split
  · next hf =>
    rw [isFalse_iff] at hf
    subst hf
    simp_all [eval]
  · rw [eval_binary, ha, hb]
    rfl

/-- `foldUnary` keeps the value of an operation that has one. -/
theorem eval_foldUnary {op : Operator} {a : Expr κ} {value : Value κ}
    (h : eval env (unary op a) = some value) : eval env (foldUnary op a) = some value := by
  rw [foldUnary.eq_def]
  -- a negated literal, a function of a number, or the operation as it was
  split
  · rw [eval_unary] at h
    simpa [eval, evalOp] using h
  · next x _ =>
    rw [eval_unary, eval, Option.bind_some, evalOp] at h
    obtain ⟨result, hr, rfl⟩ := Option.map_eq_some_iff.1 h
    rw [hr]
    rfl
  · exact h

/-- `beqAll` accepts identical lists only, if `beq` does so on their members. -/
theorem eq_of_beqAll {as bs : List (Expr κ)}
    (ih : ∀ a ∈ as, ∀ b, beq a b = true → a = b) (h : beqAll as bs = true) : as = bs := by
  -- induction on the operands, of which there are equally many
  induction as generalizing bs with
  | nil => cases bs <;> simp [beqAll] at h ⊢
  | cons a as iha =>
    cases bs with
    | nil => simp [beqAll] at h
    | cons b bs =>
      rw [beqAll, Bool.and_eq_true] at h
      rw [ih a List.mem_cons_self b h.1,
        iha (fun other ho => ih other (List.mem_cons_of_mem _ ho)) h.2]

/-- `==` is identity of expressions where equality of numbers is identity. -/
theorem eq_of_beq (hlawful : Scalar.Lawful κ) {a b : Expr κ} (h : (a == b) = true) : a = b := by
  replace h : beq a b = true := h
  -- induction on the left expression; the right one must have the same form
  induction a using induct generalizing b with
  | bool value =>
    cases b <;> simp [beq] at h
    rw [h]
  | const value =>
    cases b <;> simp [beq] at h
    rw [(hlawful.eq_iff _ _).1 h]
  | var name =>
    cases b <;> simp [beq] at h
    rw [h]
  | apply op operands ih =>
    cases b with
    | apply op' bs =>
      rw [beq, Bool.and_eq_true] at h
      rw [LawfulBEq.eq_of_beq h.1, eq_of_beqAll (fun e he _ hb => ih e he hb) h.2]
    | bool => simp [beq] at h
    | const => simp [beq] at h
    | var => simp [beq] at h

/-- `evalComparison?` of a number with itself does not depend on the number. -/
theorem evalComparison?_self (hlawful : Scalar.Lawful κ) {op : Operator}
    (hop : op.isComparison = true) (x : κ) : evalComparison? op x x = some op.isReflexive := by
  have heq : Scalar.eq x x = true := (hlawful.eq_iff x x).2 rfl
  -- one case for each operator, most of which are no comparisons
  cases op <;>
    simp_all [Operator.isComparison, Operator.isReflexive, evalComparison?, hlawful.le_refl,
      hlawful.lt_irrefl]

/-- `evalOp` of a comparison with itself tells whether the operator is reflexive; there is no value
for truth values. -/
theorem evalOp_comparison_self (hlawful : Scalar.Lawful κ) {op : Operator}
    (hop : op.isComparison = true) {operand value : Value κ}
    (h : evalOp op [operand, operand] = some value) : value = .bool op.isReflexive := by
  cases operand with
  | bool a => cases op <;> simp_all [evalOp, Operator.isComparison]
  | number x =>
    rw [evalOp, evalComparison?_self hlawful hop] at h
    exact (Option.some.inj h).symm

/-- `foldBinary` keeps the value of an operation that has one. -/
theorem eval_foldBinary (hlawful : Scalar.Lawful κ) {op : Operator} {a b : Expr κ}
    {value : Value κ} (h : eval env (binary op a b) = some value) :
    eval env (foldBinary op a b) = some value := by
  rw [foldBinary.eq_def]
  -- two numbers are computed with, and a comparison of an expression with itself is decided
  split
  · next x y =>
    rw [eval_binary, eval, eval, Option.bind_some, Option.bind_some, evalOp] at h
    -- a comparison gives a truth value, arithmetic a number
    cases hc : evalComparison? op x y with
    | some holds =>
      rw [hc] at h
      exact h
    | none =>
      rw [hc] at h
      obtain ⟨result, hr, rfl⟩ := Option.map_eq_some_iff.1 h
      rw [hr]
      rfl
  · split
    · next hs =>
      rw [Bool.and_eq_true] at hs
      -- the expression has one value, whatever it is
      obtain rfl := eq_of_beq hlawful hs.2
      rw [eval_binary] at h
      obtain ⟨left, ha, h⟩ := Option.bind_eq_some_iff.1 h
      rw [ha, Option.bind_some] at h
      rw [evalOp_comparison_self hlawful hs.1 h]
      rfl
    · exact h

/-- `simplifyNode` keeps the value of a node that has one, whichever rule applies. -/
theorem eval_simplifyNode (hlawful : Scalar.Lawful κ) {e : Expr κ} {value : Value κ}
    (h : eval env e = some value) : eval env e.simplifyNode = some value := by
  rw [simplifyNode.eq_def]
  split
  · exact eval_foldUnary h
  · split
    · exact eval_conj h
    · exact eval_disj h
    · exact eval_foldBinary hlawful h
  · exact h

/-- `simplify` keeps the value of every expression that has one. -/
theorem eval_simplify (hlawful : Scalar.Lawful κ) {e : Expr κ} {value : Value κ}
    (h : eval env e = some value) : eval env e.simplify = some value := by
  rw [simplify]
  -- induction on the expression, with the rules for one node at the root
  induction e using induct generalizing value with
  | bool b => exact h
  | const x => exact h
  | var name => exact h
  | apply op operands ih =>
    -- the operands are folded first, which keeps their values
    rw [transform_apply]
    apply eval_simplifyNode hlawful
    rw [eval] at h ⊢
    obtain ⟨values, hv, h⟩ := Option.bind_eq_some_iff.1 h
    rw [evalAll_map_of_eval (fun e he _ hv => ih e he hv) hv]
    exact h

end Folding

end Expr
end HybridAutomata
