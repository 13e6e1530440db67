import HybridAutomata.Proofs.Expr.Folding
import HybridAutomata.Proofs.Scalar.Integer
/-!
# The normal form of folding

There is nothing left to fold in an expression if no node of it is a redex: a connective with a
truth value on one side, a negated truth value, an operation on numbers that has a value, or a
comparison of equal expressions. The redexes are listed without the order in which the folding rules
are tried, and they turn out to be the nodes that the rules change. Folding goes through an
expression once and leaves no redex.

* `not_isRedex_iff`               the redexes are the nodes that are changed
* `nodeCount_simplify_le`         folding makes no expression larger
* `simplify_eq_self_iff`          folding leaves alone what has no redex
* `folding_reaches_normal_form`   folding leaves no redex
-/

namespace HybridAutomata

/-- Whether an operator makes a number of two numbers. -/
def Operator.isArithmetic : Operator → Bool
  | add | subtract | multiply | divide | pow => true
  | _ => false

namespace Expr

variable {κ : Type}

/-! ## Sizes -/

/-- A member of a list has no more nodes than all members together. -/
theorem nodeCount_le_of_mem {es : List (Expr κ)} {e : Expr κ} (he : e ∈ es) :
    e.nodeCount ≤ nodeCountAll es := by
  induction es with
  | nil => cases he
  | cons first rest ih =>
    rw [nodeCountAll]
    rcases List.mem_cons.1 he with rfl | he
    · exact Nat.le_add_right _ _
    · exact Nat.le_add_left_of_le (ih he)

/-- `nodeCountAll` does not grow if no member of the list does. -/
theorem nodeCountAll_map_le {f : Expr κ → Expr κ} {es : List (Expr κ)}
    (h : ∀ e ∈ es, (f e).nodeCount ≤ e.nodeCount) :
    nodeCountAll (es.map f) ≤ nodeCountAll es := by
  induction es with
  | nil => exact Nat.le_refl _
  | cons first rest ih =>
    rw [List.forall_mem_cons] at h
    rw [List.map_cons, nodeCountAll, nodeCountAll]
    exact Nat.add_le_add h.1 (ih h.2)

/-- `nodeCount` of an operand is smaller than that of the operation. -/
theorem nodeCount_lt_of_mem {op : Operator} {operands : List (Expr κ)} {e : Expr κ}
    (he : e ∈ operands) : e.nodeCount < (apply op operands).nodeCount := by
  have hle := nodeCount_le_of_mem he
  rw [nodeCount]
  omega

/-- An operand is not the operation, because it has fewer nodes. -/
theorem ne_of_mem_operands {op : Operator} {operands : List (Expr κ)} {e : Expr κ}
    (he : e ∈ operands) : e ≠ apply op operands := by
  intro heq
  have hlt : e.nodeCount < (apply op operands).nodeCount := nodeCount_lt_of_mem he
  rw [← heq] at hlt
  exact Nat.lt_irrefl _ hlt

/-! ## Connectives -/

/-- A truth value is no binary operation. -/
theorem bool_ne_binary (value : Bool) {op : Operator} {a b : Expr κ} :
    bool value ≠ binary op a b := by
  intro h
  cases h

/-- `conj` leaves a conjunction just if neither side is a truth value. -/
theorem conj_eq_binary_iff {a b : Expr κ} :
    conj a b = binary .and a b ↔ ∀ value, a ≠ bool value ∧ b ≠ bool value := by
  -- each shortcut gives a truth value or one of the sides, and neither is the conjunction itself
  have hleft : a ≠ binary .and a b := ne_of_mem_operands List.mem_cons_self
  have hright : b ≠ binary .and a b :=
    ne_of_mem_operands (List.mem_cons_of_mem _ List.mem_cons_self)
  rw [conj]
  split
  · next hf =>
    rw [Bool.or_eq_true, isFalse_iff, isFalse_iff] at hf
    exact iff_of_false (bool_ne_binary false) fun h => hf.elim (h false).1 (h false).2
  split
  · next ht => exact iff_of_false hright fun h => (h true).1 (isTrue_iff.1 ht)
  split
  · next ht => exact iff_of_false hleft fun h => (h true).2 (isTrue_iff.1 ht)
  · next hf hta htb =>
    rw [Bool.or_eq_true, isFalse_iff, isFalse_iff, not_or] at hf
    rw [isTrue_iff] at hta htb
    refine iff_of_true rfl fun value => ?_
    cases value with
    | false => exact hf
    | true => exact ⟨hta, htb⟩

/-- `disj` leaves a disjunction just if neither side is a truth value. -/
theorem disj_eq_binary_iff {a b : Expr κ} :
    disj a b = binary .or a b ↔ ∀ value, a ≠ bool value ∧ b ≠ bool value := by
  -- as for conjunctions, no shortcut gives the disjunction itself
  have hleft : a ≠ binary .or a b := ne_of_mem_operands List.mem_cons_self
  have hright : b ≠ binary .or a b :=
    ne_of_mem_operands (List.mem_cons_of_mem _ List.mem_cons_self)
  rw [disj]
  split
  · next ht =>
    rw [Bool.or_eq_true, isTrue_iff, isTrue_iff] at ht
    exact iff_of_false (bool_ne_binary true) fun h => ht.elim (h true).1 (h true).2
  split
  · next hf => exact iff_of_false hright fun h => (h false).1 (isFalse_iff.1 hf)
  split
  · next hf => exact iff_of_false hleft fun h => (h false).2 (isFalse_iff.1 hf)
  · next ht hfa hfb =>
    rw [Bool.or_eq_true, isTrue_iff, isTrue_iff, not_or] at ht
    rw [isFalse_iff] at hfa hfb
    refine iff_of_true rfl fun value => ?_
    cases value with
    | false => exact ⟨hfa, hfb⟩
    | true => exact ht

variable [Scalar κ]

/-- Something can be folded at a node. -/
inductive IsRedex : Expr κ → Prop where
  | connectiveLeft {op : Operator} (value : Bool) (b : Expr κ) (hop : op = .and ∨ op = .or) :
    IsRedex (binary op (bool value) b)
  | connectiveRight {op : Operator} (a : Expr κ) (value : Bool) (hop : op = .and ∨ op = .or) :
    IsRedex (binary op a (bool value))
  | not (value : Bool) : IsRedex (unary .not (bool value))
  | number {op : Operator} (x : κ) (harity : op.arity = 1) (hop : op ≠ .not) :
    IsRedex (unary op (const x))
  /-- A quotient by zero is no redex. -/
  | arithmetic {op : Operator} (x y : κ) (hop : op.isArithmetic = true)
    (hdefined : op = .divide → Scalar.eq y Scalar.zero = false) :
    IsRedex (binary op (const x) (const y))
  | comparison {op : Operator} (x y : κ) (hop : op.isComparison = true) :
    IsRedex (binary op (const x) (const y))
  | reflexive {op : Operator} {a b : Expr κ} (hop : op.isComparison = true)
    (ha : ∀ x, a ≠ const x) (hb : ∀ x, b ≠ const x) (heq : (a == b) = true) :
    IsRedex (binary op a b)

/-! ## What the rules change -/

/-- `evalUnary?` has no value for operators of other arity and for negation. -/
theorem evalUnary?_eq_none_iff {op : Operator} {x : κ} :
    evalUnary? op x = none ↔ op.arity ≠ 1 ∨ op = .not := by
  cases op <;> simp [evalUnary?, Operator.arity]

/-- `evalBinary?` has no value for operators that are not arithmetic and for a quotient by zero. -/
theorem evalBinary?_eq_none_iff {op : Operator} {x y : κ} :
    evalBinary? op x y = none ↔
      op.isArithmetic = false ∨ op = .divide ∧ Scalar.eq y Scalar.zero = true := by
  cases op <;> simp [evalBinary?, Operator.isArithmetic]

/-- `evalComparison?` has a value for comparisons and for nothing else. -/
theorem evalComparison?_eq_none_iff {op : Operator} {x y : κ} :
    evalComparison? op x y = none ↔ op.isComparison = false := by
  cases op <;> simp [evalComparison?, Operator.isComparison]

/-- `simplifyNode` uses `foldBinary` for all operators that are no connectives. -/
theorem simplifyNode_binary {op : Operator} (hop : op.isArithmetic = true ∨ op.isComparison = true)
    (a b : Expr κ) : simplifyNode (binary op a b) = foldBinary op a b := by
  cases op with
  | and | or => simp [Operator.isArithmetic, Operator.isComparison] at hop
  | _ => rfl

/-- `==` accepts a number against numbers only. -/
theorem exists_const_of_const_beq {x : κ} {b : Expr κ} (h : (const x == b) = true) :
    ∃ y, b = const y := by
  cases b with
  | const y => exact ⟨y, rfl⟩
  | bool | var | apply => cases h

/-- `==` accepts numbers only against a number. -/
theorem exists_const_of_beq_const {a : Expr κ} {y : κ} (h : (a == const y) = true) :
    ∃ x, a = const x := by
  cases a with
  | const x => exact ⟨x, rfl⟩
  | bool | var | apply => cases h

/-- `foldBinary` leaves two numbers alone just if neither a comparison nor arithmetic has a value
for them. -/
theorem foldBinary_const_eq_binary_iff {op : Operator} {x y : κ} :
    foldBinary op (const x) (const y) = binary op (const x) (const y) ↔
      evalComparison? op x y = none ∧ evalBinary? op x y = none := by
  rw [foldBinary]
  cases evalComparison? op x y with
  | some holds => simp [binary]
  | none => cases evalBinary? op x y <;> simp [binary]

/-- `simplifyNode` changes every redex. -/
theorem IsRedex.simplifyNode_ne {e : Expr κ} (h : e.IsRedex) : e.simplifyNode ≠ e := by
  -- one case for each kind of redex, with the rule that applies to it
  cases h with
  | connectiveLeft value b hop =>
    rcases hop with rfl | rfl
    · exact fun h => (conj_eq_binary_iff.1 h value).1 rfl
    · exact fun h => (disj_eq_binary_iff.1 h value).1 rfl
  | connectiveRight a value hop =>
    rcases hop with rfl | rfl
    · exact fun h => (conj_eq_binary_iff.1 h value).2 rfl
    · exact fun h => (disj_eq_binary_iff.1 h value).2 rfl
  | not value =>
    intro h
    cases h
  -- the operator has a value for the number, so a number comes out
  | @number op x harity hop =>
    have hvalue : evalUnary? op x ≠ none := by
      rw [Ne, evalUnary?_eq_none_iff]
      exact fun h => h.elim (· harity) hop
    obtain ⟨value, hvalue⟩ := Option.ne_none_iff_exists'.1 hvalue
    simp [simplifyNode, unary, foldUnary, hvalue]
  -- a quotient by zero is excluded, so arithmetic has a value
  | @arithmetic op x y hop hdefined =>
    have hvalue : evalBinary? op x y ≠ none := by
      rw [Ne, evalBinary?_eq_none_iff]
      rintro (h | ⟨rfl, h⟩)
      · cases hop.symm.trans h
      · cases (hdefined rfl).symm.trans h
    rw [simplifyNode_binary (.inl hop), Ne, foldBinary_const_eq_binary_iff]
    exact fun h => hvalue h.2
  | @comparison op x y hop =>
    have hvalue : evalComparison? op x y ≠ none := by
      simp [evalComparison?_eq_none_iff, hop]
    rw [simplifyNode_binary (.inr hop), Ne, foldBinary_const_eq_binary_iff]
    exact fun h => hvalue h.1
  | @reflexive op a b hop ha hb heq =>
    rw [simplifyNode_binary (.inr hop), foldBinary.eq_def]
    split
    · next x y => exact absurd rfl (ha x)
    · -- the operands are not both numbers, so they are compared as they stand
      rw [hop, heq]
      exact bool_ne_binary _

/-- `foldUnary` changes redexes only: a negated truth value is `IsRedex.not`, and a number for which
there is a value is `IsRedex.number`. -/
theorem foldUnary_of_not_isRedex {op : Operator} {a : Expr κ} (h : ¬ (unary op a).IsRedex) :
    foldUnary op a = unary op a := by
  rw [foldUnary.eq_def]
  split
  · exact absurd (.not _) h
  · next x =>
    -- a value for the number would make the node a redex
    cases hvalue : evalUnary? op x with
    | none => rfl
    | some value =>
      have hop : ¬ (op.arity ≠ 1 ∨ op = .not) := by
        rw [← evalUnary?_eq_none_iff (x := x), hvalue]
        exact Option.some_ne_none value
      rw [not_or, Decidable.not_not] at hop
      exact absurd (.number x hop.1 hop.2) h
  · rfl

/-- `foldBinary` changes redexes only: numbers for which there is a value are `IsRedex.comparison`
or `IsRedex.arithmetic`, and other operands that compare as equal are `IsRedex.reflexive`. -/
theorem foldBinary_of_not_isRedex {op : Operator} {a b : Expr κ} (h : ¬ (binary op a b).IsRedex) :
    foldBinary op a b = binary op a b := by
  rw [foldBinary.eq_def]
  split
  · next x y =>
    -- two numbers are left alone because neither kind of value exists
    refine foldBinary_const_eq_binary_iff.2 ⟨?_, ?_⟩
    · rw [evalComparison?_eq_none_iff, ← Bool.not_eq_true]
      exact fun hop => h (.comparison x y hop)
    · rw [evalBinary?_eq_none_iff, or_iff_not_imp_left, Bool.not_eq_false]
      intro hop
      by_contra hdefined
      rw [not_and, Bool.not_eq_true] at hdefined
      exact h (.arithmetic x y hop hdefined)
  · next hnumbers =>
    -- two equal operands of which one is a number are both numbers
    cases hsame : op.isComparison && a == b with
    | false => rfl
    | true =>
      rw [Bool.and_eq_true] at hsame
      obtain ⟨hop, heq⟩ := hsame
      refine absurd (.reflexive hop ?_ ?_ heq) h
      · rintro x rfl
        obtain ⟨y, rfl⟩ := exists_const_of_const_beq heq
        exact hnumbers x y rfl rfl
      · rintro y rfl
        obtain ⟨x, rfl⟩ := exists_const_of_beq_const heq
        exact hnumbers x y rfl rfl

/-- A connective that is no redex has no truth value on either side, or else
`IsRedex.connectiveLeft` or `IsRedex.connectiveRight` would apply. -/
theorem ne_bool_of_not_isRedex {op : Operator} {a b : Expr κ} (h : ¬ (binary op a b).IsRedex)
    (hop : op = .and ∨ op = .or) (value : Bool) : a ≠ bool value ∧ b ≠ bool value := by
  constructor
  · intro ha
    rw [ha] at h
    exact h (.connectiveLeft value b hop)
  · intro hb
    rw [hb] at h
    exact h (.connectiveRight a value hop)

/-- `simplifyNode` changes nothing but redexes. -/
theorem simplifyNode_of_not_isRedex {e : Expr κ} (h : ¬ e.IsRedex) : e.simplifyNode = e := by
  rw [simplifyNode.eq_def]
  -- one case for each rule
  split
  · exact foldUnary_of_not_isRedex h
  · next op a b =>
    split
    · exact conj_eq_binary_iff.2 (ne_bool_of_not_isRedex h (.inl rfl))
    · exact disj_eq_binary_iff.2 (ne_bool_of_not_isRedex h (.inr rfl))
    · exact foldBinary_of_not_isRedex h
  · rfl

/-- `IsRedex` holds just of the nodes that `simplifyNode` changes. -/
theorem not_isRedex_iff {e : Expr κ} : ¬ e.IsRedex ↔ e.simplifyNode = e :=
  ⟨simplifyNode_of_not_isRedex, fun h hredex => hredex.simplifyNode_ne h⟩

/-- `simplify` makes no expression larger, in the number of its nodes. -/
theorem nodeCount_simplify_le (e : Expr κ) : e.simplify.nodeCount ≤ e.nodeCount := by
  -- induction on the expression, since folding starts with the operands
  induction e using induct with
  | bool value => exact Nat.le_refl _
  | const value => exact Nat.le_refl _
  | var name => exact Nat.le_refl _
  | apply op operands ih =>
    have hall : nodeCountAll (operands.map simplify) ≤ nodeCountAll operands :=
      nodeCountAll_map_le ih
    -- what comes of the node has no operands, is one of its operands, or is the node
    rw [simplify_apply]
    have hcases := simplifyNode_cases op (operands.map simplify)
    generalize simplifyNode (apply op (operands.map simplify)) = folded at hcases
    cases hcases with
    | bool value => exact nodeCount_pos _
    | const value => exact nodeCount_pos _
    | operand _ hm =>
      obtain ⟨e, he, rfl⟩ := List.mem_map.1 hm
      exact Nat.le_trans (ih e he) (Nat.le_of_lt (nodeCount_lt_of_mem he))
    | node =>
      rw [nodeCount, nodeCount]
      exact Nat.add_le_add_left hall 1

/-- `simplify` leaves an operation alone just if it leaves the operands alone and then
`simplifyNode` the node. -/
theorem simplify_apply_eq_self_iff {op : Operator} {operands : List (Expr κ)} :
    (apply op operands).simplify = apply op operands ↔
      (∀ e ∈ operands, e.simplify = e) ∧ simplifyNode (apply op operands) = apply op operands := by
  have hmap : operands.map simplify = operands ↔ ∀ e ∈ operands, e.simplify = e := by
    rw [← List.map_inj_left, List.map_id']
  rw [simplify_apply]
  constructor
  · intro h
    have hcases := simplifyNode_cases op (operands.map simplify)
    generalize hfolded : simplifyNode (apply op (operands.map simplify)) = folded at h hcases
    -- the outcome is the operation itself, which rules out all ways but one to get it
    cases hcases with
    | bool => cases h
    | const => cases h
    | operand _ hm =>
      -- an operand does not grow to the size of the operation
      obtain ⟨e, he, rfl⟩ := List.mem_map.1 hm
      have hle := nodeCount_simplify_le e
      rw [h] at hle
      exact absurd (nodeCount_lt_of_mem he) (Nat.not_lt_of_le hle)
    | node =>
      have hoperands : operands.map simplify = operands := (apply.inj h).2
      rw [hoperands] at hfolded
      exact ⟨hmap.1 hoperands, hfolded⟩
  · rintro ⟨hoperands, hnode⟩
    rw [hmap.2 hoperands, hnode]

/-- `simplify` leaves alone what has no redex, and nothing else. -/
theorem simplify_eq_self_iff {e : Expr κ} :
    e.simplify = e ↔ ∀ node ∈ e.preorder, ¬ node.IsRedex := by
  -- induction on the expression; the redexes below a node are those in its operands
  induction e using induct with
  | bool value => simp [preorder, not_isRedex_iff, simplifyNode, simplify, transform]
  | const value => simp [preorder, not_isRedex_iff, simplifyNode, simplify, transform]
  | var name => simp [preorder, not_isRedex_iff, simplifyNode, simplify, transform]
  | apply op operands ih =>
    rw [simplify_apply_eq_self_iff, preorder, preorderAll_eq_flatMap, List.forall_mem_cons,
      List.forall_mem_flatMap, not_isRedex_iff, and_comm]
    exact and_congr_right' (forall₂_congr ih)

/-- A redex has as many operands as the `arity` of its operator. -/
theorem IsRedex.length_eq {op : Operator} {operands : List (Expr κ)}
    (h : (apply op operands).IsRedex) : operands.length = op.arity := by
  -- all comparisons take two operands
  have hcomparison {op : Operator} (hop : op.isComparison = true) : 2 = op.arity := by
    cases op <;> simp [Operator.isComparison, Operator.arity] at hop ⊢
  cases h with
  | connectiveLeft value b hop => rcases hop with rfl | rfl <;> rfl
  | connectiveRight a value hop => rcases hop with rfl | rfl <;> rfl
  | not value => rfl
  | number x harity hop => exact harity.symm
  | arithmetic x y hop hdefined =>
    cases op <;> simp [Operator.isArithmetic, Operator.arity] at hop ⊢
  | comparison x y hop => exact hcomparison hop
  | reflexive hop ha hb heq => exact hcomparison hop

/-- `simplify` leaves an operation with too few or too many operands, and folds the operands. -/
theorem simplify_apply_of_length_ne {op : Operator} {operands : List (Expr κ)}
    (h : operands.length ≠ op.arity) :
    (apply op operands).simplify = apply op (operands.map simplify) := by
  rw [simplify_apply, ← not_isRedex_iff]
  intro hredex
  rw [← hredex.length_eq, List.length_map] at h
  exact h rfl

/-- Folding an expression once leaves no redex, so folding it again changes nothing, as it changes
nothing of any expression without redexes. An operation with too few or too many operands stays,
with its operands folded, and no name and no operator comes in. -/
theorem folding_reaches_normal_form (e : Expr κ) :
    e.simplify.simplify = e.simplify ∧
      (∀ node ∈ e.simplify.preorder, ¬ node.IsRedex) ∧
      ((∀ node ∈ e.preorder, ¬ node.IsRedex) → e.simplify = e) ∧
      (∀ op operands, operands.length ≠ op.arity →
        (apply op operands : Expr κ).simplify = apply op (operands.map simplify)) ∧
      (∀ name ∈ e.simplify.vars, name ∈ e.vars) ∧
      ∀ op, e.simplify.uses op = true → e.uses op = true :=
  ⟨simplify_simplify e, simplify_eq_self_iff.1 (simplify_simplify e), simplify_eq_self_iff.2,
    fun _ _ => simplify_apply_of_length_ne, fun _ => mem_vars_of_simplify,
    fun _ => uses_of_simplify⟩

/-- A guard with a side that always holds and a quotient by zero in the other one. -/
def quotientGuard : Expr Int :=
  .binary .and (.binary .equal (.var "x") (.var "x"))
    (.binary .less (.binary .divide (.const 1) (.const 0))
      (.binary .add (.var "y") (.binary .add (.const 2) (.const 3))))

/-- The quotient stays in the folded guard, and so does a sum of three numbers. -/
theorem quotientGuard_reaches_normal_form :
    quotientGuard.simplify.simplify = quotientGuard.simplify ∧
      (¬ (binary .divide (const 1) (const 0) : Expr Int).IsRedex) ∧
      (apply .add [const 1, const 2, const 3] : Expr Int).simplify =
        apply .add [const 1, const 2, const 3] ∧
      "y" ∈ quotientGuard.vars ∧ quotientGuard.uses .divide = true := by
  -- the quotient by zero stays, the sum with zero goes
  obtain ⟨hagain, hnormal, -, hmisfit, hvars, huses⟩ := folding_reaches_normal_form quotientGuard
  have hfolded : quotientGuard.simplify =
      .binary .less (.binary .divide (.const 1) (.const 0))
        (.binary .add (.var "y") (.const 5)) := rfl
  rw [hfolded] at hnormal hvars huses
  refine ⟨hagain, hnormal _ ?_, hmisfit .add _ (by decide), hvars "y" ?_, huses .divide ?_⟩
  · simp [binary, preorder, preorderAll]
  · simp [binary]
  · simp [binary, uses_apply_iff]

end Expr
end HybridAutomata
