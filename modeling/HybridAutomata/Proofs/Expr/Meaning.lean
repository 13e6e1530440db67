import HybridAutomata.Proofs.Scalar.Integer
import Mathlib.Data.List.Forall2
/-!
# The meaning of an expression

What the value of an expression is, said as a relation with one rule for every operator. An operator
takes numbers or truth values, as many as it has places for, and a quotient by zero has no value.
The evaluator computes this relation, so folding an expression keeps its meaning.

* `yields_iff`                         the rules of the operators are what the evaluator computes
* `evaluates_iff`                      so is the meaning of an expression
* `simplification_preserves_meaning`   folding and the absorbing connectives keep it
-/

namespace HybridAutomata

variable {κ : Type} [Scalar κ]

/-- What an operator makes of the values of its operands. -/
inductive Operator.Yields : Operator → List (Value κ) → Value κ → Prop where
  | add (x y : κ) : Yields .add [.number x, .number y] (.number (Scalar.add x y))
  | subtract (x y : κ) : Yields .subtract [.number x, .number y] (.number (Scalar.sub x y))
  | multiply (x y : κ) : Yields .multiply [.number x, .number y] (.number (Scalar.mul x y))
  | divide (x y : κ) (hy : y ≠ Scalar.zero) :
    Yields .divide [.number x, .number y] (.number (Scalar.div x y))
  | pow (x y : κ) : Yields .pow [.number x, .number y] (.number (Scalar.pow x y))
  | and (p q : Bool) : Yields .and [.bool p, .bool q] (.bool (p && q))
  | or (p q : Bool) : Yields .or [.bool p, .bool q] (.bool (p || q))
  | equal (x y : κ) (holds : Bool) (h : holds = true ↔ x = y) :
    Yields .equal [.number x, .number y] (.bool holds)
  | notEqual (x y : κ) (holds : Bool) (h : holds = true ↔ x ≠ y) :
    Yields .notEqual [.number x, .number y] (.bool holds)
  | less (x y : κ) : Yields .less [.number x, .number y] (.bool (Scalar.lt x y))
  | lessEqual (x y : κ) : Yields .lessEqual [.number x, .number y] (.bool (Scalar.le x y))
  | greater (x y : κ) : Yields .greater [.number x, .number y] (.bool (Scalar.lt y x))
  | greaterEqual (x y : κ) : Yields .greaterEqual [.number x, .number y] (.bool (Scalar.le y x))
  | negative (x : κ) : Yields .negative [.number x] (.number (Scalar.neg x))
  | not (p : Bool) : Yields .not [.bool p] (.bool !p)
  | sin (x : κ) : Yields .sin [.number x] (.number (Scalar.sin x))
  | cos (x : κ) : Yields .cos [.number x] (.number (Scalar.cos x))
  | tan (x : κ) : Yields .tan [.number x] (.number (Scalar.tan x))
  | exp (x : κ) : Yields .exp [.number x] (.number (Scalar.exp x))
  | sqrt (x : κ) : Yields .sqrt [.number x] (.number (Scalar.sqrt x))
  | ln (x : κ) : Yields .ln [.number x] (.number (Scalar.ln x))

namespace Expr

/-- What an expression stands for, given what its variables stand for. -/
inductive Evaluates (env : String → Option (Value κ)) : Expr κ → Value κ → Prop where
  | bool (value : Bool) : Evaluates env (bool value) (.bool value)
  | const (value : κ) : Evaluates env (const value) (.number value)
  | var {name : String} {value : Value κ} (h : env name = some value) :
    Evaluates env (var name) value
  | apply {op : Operator} {operands : List (Expr κ)} {values : List (Value κ)} {value : Value κ}
    (hvalues : List.Forall₂ (Evaluates env) operands values) (h : op.Yields values value) :
    Evaluates env (apply op operands) value

/-! ## Operators -/

/-- `evalOp` computes what the rules of `Yields` say. -/
theorem evalOp_of_yields (hlawful : Scalar.Lawful κ) {op : Operator} {values : List (Value κ)}
    {value : Value κ} (h : op.Yields values value) : evalOp op values = some value := by
  -- a rule with a condition is a test of the domain, the other rules are computed alike
  cases h
  case divide x y hy =>
    have hzero : Scalar.eq y Scalar.zero = false := by
      rwa [← Bool.not_eq_true, hlawful.eq_iff]
    simp only [evalOp, evalComparison?, evalBinary?, hzero, Bool.false_eq_true, if_false,
      Option.map_some]
  case equal x y holds h =>
    have hequal : Scalar.eq x y = holds := Bool.eq_iff_iff.2 ((hlawful.eq_iff x y).trans h.symm)
    simp only [evalOp, evalComparison?, hequal]
  case notEqual x y holds h =>
    have hdiffer : (!Scalar.eq x y) = holds := by
      rw [Bool.eq_iff_iff, h, Bool.not_eq_true', ← Bool.not_eq_true, hlawful.eq_iff]
    simp only [evalOp, evalComparison?, hdiffer]
  all_goals rfl

/-- `evalComparison?` follows the rules of `Yields`. -/
theorem yields_of_evalComparison? (hlawful : Scalar.Lawful κ) {op : Operator} {x y : κ}
    {holds : Bool} (h : evalComparison? op x y = some holds) :
    op.Yields [.number x, .number y] (.bool holds) := by
  -- one case for each operator; only equality and its negation have a condition
  cases op <;> rw [evalComparison?] at h <;> cases h
  case equal => exact .equal x y _ (hlawful.eq_iff x y)
  case notEqual =>
    refine .notEqual x y _ ?_
    rw [Bool.not_eq_true', ← Bool.not_eq_true, hlawful.eq_iff]
  all_goals constructor

/-- `evalBinary?` follows the rules of `Yields`. -/
theorem yields_of_evalBinary? (hlawful : Scalar.Lawful κ) {op : Operator} {x y result : κ}
    (h : evalBinary? op x y = some result) :
    op.Yields [.number x, .number y] (.number result) := by
  cases op <;> rw [evalBinary?] at h
  -- division is the only operator that is not defined everywhere
  case divide =>
    rw [Option.ite_none_left_eq_some, hlawful.eq_iff] at h
    obtain ⟨hy, h⟩ := h
    exact Option.some.inj h ▸ .divide x y hy
  all_goals cases h
  all_goals constructor

/-- `evalUnary?` follows the rules of `Yields`. -/
theorem yields_of_evalUnary? {op : Operator} {x result : κ} (h : evalUnary? op x = some result) :
    op.Yields [.number x] (.number result) := by
  cases op <;> rw [evalUnary?] at h <;> cases h <;> constructor

/-- `Yields` relates values just as `evalOp` computes them. -/
theorem yields_iff (hlawful : Scalar.Lawful κ) {op : Operator} {values : List (Value κ)}
    {value : Value κ} : op.Yields values value ↔ evalOp op values = some value := by
  refine ⟨evalOp_of_yields hlawful, fun h => ?_⟩
  -- the shape of the operands comes first
  rw [evalOp.eq_def] at h
  split at h
  · rw [Option.ite_none_right_eq_some] at h
    obtain ⟨rfl, h⟩ := h
    exact Option.some.inj h ▸ .not _
  · obtain ⟨result, hr, rfl⟩ := Option.map_eq_some_iff.1 h
    exact yields_of_evalUnary? hr
  · split at h
    · exact Option.some.inj h ▸ .and _ _
    · exact Option.some.inj h ▸ .or _ _
    · cases h
  -- two numbers are compared or computed with, and the evaluator asks for comparisons first
  · split at h
    · next holds hc => exact Option.some.inj h ▸ yields_of_evalComparison? hlawful hc
    · obtain ⟨result, hr, rfl⟩ := Option.map_eq_some_iff.1 h
      exact yields_of_evalBinary? hlawful hr
  · cases h

/-! ## Expressions -/

/-- `evalAll` computes what the operands stand for if `eval` does so for each of them. -/
theorem evaluatesAll_iff {env : String → Option (Value κ)} {operands : List (Expr κ)}
    (h : ∀ e ∈ operands, ∀ value, e.Evaluates env value ↔ eval env e = some value)
    {values : List (Value κ)} :
    List.Forall₂ (Evaluates env) operands values ↔ evalAll env operands = some values := by
  -- induction on the operands; on both sides the first one comes off
  induction operands generalizing values with
  | nil =>
    rw [List.forall₂_nil_left_iff, evalAll, Option.some.injEq]
    exact eq_comm
  | cons e rest ih =>
    rw [List.forall_mem_cons] at h
    rw [List.forall₂_cons_left_iff, evalAll]
    simp only [Option.bind_eq_some_iff, Option.map_eq_some_iff, h.1, ih h.2]
    constructor
    · rintro ⟨value, others, he, hr, rfl⟩
      exact ⟨value, he, others, hr, rfl⟩
    · rintro ⟨value, he, others, hr, rfl⟩
      exact ⟨value, others, he, hr, rfl⟩

/-- `eval` computes what an expression stands for by the rules of `Evaluates`. -/
theorem evaluates_iff (hlawful : Scalar.Lawful κ) {env : String → Option (Value κ)} {e : Expr κ}
    {value : Value κ} : e.Evaluates env value ↔ eval env e = some value := by
  -- induction on the expression; each rule of the relation is about one form
  induction e using induct generalizing value with
  | bool b =>
    rw [eval]
    constructor
    · rintro ⟨⟩
      rfl
    · rintro ⟨⟩
      exact .bool b
  | const x =>
    rw [eval]
    constructor
    · rintro ⟨⟩
      rfl
    · rintro ⟨⟩
      exact .const x
  | var name =>
    rw [eval]
    constructor
    · rintro ⟨⟩
      assumption
    · exact .var
  | apply op operands ih =>
    -- the operands come first, by the induction hypothesis, then the operator
    have hall {values : List (Value κ)} :
        List.Forall₂ (Evaluates env) operands values ↔ evalAll env operands = some values :=
      evaluatesAll_iff fun e he _ => ih e he
    rw [eval, Option.bind_eq_some_iff]
    constructor
    · rintro (_ | _ | _ | ⟨hvalues, h⟩)
      exact ⟨_, hall.1 hvalues, (yields_iff hlawful).1 h⟩
    · rintro ⟨values, hvalues, h⟩
      exact .apply (hall.2 hvalues) ((yields_iff hlawful).2 h)

/-! ## Folding -/

section Folding

variable {env : String → Option (Value κ)} {a b : Expr κ} {p q : Bool}

/-- `conj` of truth values stands for their conjunction. -/
theorem evaluates_conj (hlawful : Scalar.Lawful κ) (ha : a.Evaluates env (.bool p))
    (hb : b.Evaluates env (.bool q)) : (conj a b).Evaluates env (.bool (p && q)) := by
  rw [evaluates_iff hlawful] at ha hb ⊢
  apply eval_conj
  rw [eval_binary, ha, hb]
  rfl

/-- `disj` of truth values stands for their disjunction. -/
theorem evaluates_disj (hlawful : Scalar.Lawful κ) (ha : a.Evaluates env (.bool p))
    (hb : b.Evaluates env (.bool q)) : (disj a b).Evaluates env (.bool (p || q)) := by
  rw [evaluates_iff hlawful] at ha hb ⊢
  apply eval_disj
  rw [eval_binary, ha, hb]
  rfl

end Folding

/-- Where equality of numbers is identity and the order fits it, folding keeps what an expression
stands for, and the absorbing connectives stand for conjunction and disjunction. -/
theorem simplification_preserves_meaning (hlawful : Scalar.Lawful κ)
    (env : String → Option (Value κ)) :
    (∀ (e : Expr κ) (value : Value κ), e.Evaluates env value → e.simplify.Evaluates env value) ∧
      ∀ (a b : Expr κ) (p q : Bool), a.Evaluates env (.bool p) → b.Evaluates env (.bool q) →
        (conj a b).Evaluates env (.bool (p && q)) ∧ (disj a b).Evaluates env (.bool (p || q)) := by
  refine ⟨fun e value h => ?_, fun a b p q ha hb => ?_⟩
  -- both statements are moved to the evaluator, where folding has been followed through
  · rw [evaluates_iff hlawful] at h ⊢
    exact eval_simplify hlawful h
  · exact ⟨evaluates_conj hlawful ha hb, evaluates_disj hlawful ha hb⟩

/-- A guard of which one side is decided before anything is known about `x`. -/
def decidedGuard : Expr Int :=
  .binary .and (.binary .equal (.binary .add (.const 2) (.const 3)) (.const 5))
    (.binary .less (.var "x") (.const 1))

/-- The guard holds at zero, and what is left of it after folding holds as well. -/
theorem decidedGuard_keeps_its_meaning :
    Scalar.Lawful Int ∧
      decidedGuard.Evaluates (fun _ => some (.number 0)) (.bool true) ∧
      decidedGuard.simplify.Evaluates (fun _ => some (.number 0)) (.bool true) ∧
      (conj decidedGuard decidedGuard).Evaluates (fun _ => some (.number 0)) (.bool true) := by
  have hholds : decidedGuard.Evaluates (fun _ => some (.number 0)) (.bool true) :=
    (evaluates_iff lawful_int).2 (by decide)
  obtain ⟨hsimplify, hconnect⟩ :=
    simplification_preserves_meaning lawful_int fun _ => some (.number 0)
  exact ⟨lawful_int, hholds, hsimplify _ _ hholds, (hconnect _ _ _ _ hholds hholds).1⟩

example : decidedGuard.simplify = .binary .less (.var "x") (.const 1) := rfl

end Expr
end HybridAutomata
