import HybridAutomata.Proofs.Expr.Variables
/-!
# What folding leaves

Folding a node whose operands are folded gives a literal, one of the operands, or the node as it
was. So there is nothing left to fold after folding once, and folding brings in no operator.

* `simplifyNode_cases`   what becomes of a node
* `simplify_simplify`    folding twice is folding once
* `uses_of_simplify`     folding brings in no operator
-/

namespace HybridAutomata.Expr

variable {κ : Type}

/-! ## Operators that occur -/

/-- `uses` finds an operator if some node of the preorder applies it. -/
theorem uses_iff {e : Expr κ} {op : Operator} :
    e.uses op = true ↔ ∃ operands, apply op operands ∈ e.preorder := by
  rw [uses, nodes_eq, List.any_eq_true]
  constructor
  -- only an application uses an operator
  · rintro ⟨node, hn, happ⟩
    cases node with
    | apply other operands =>
      obtain rfl := beq_iff_eq.1 happ
      exact ⟨operands, hn⟩
    | bool => cases happ
    | const => cases happ
    | var => cases happ
  · rintro ⟨operands, hn⟩
    exact ⟨_, hn, beq_self_eq_true op⟩

@[simp] theorem uses_bool (value : Bool) (op : Operator) :
    (bool value : Expr κ).uses op = false := by
  simp [uses, nodes_eq, preorder, applies]

@[simp] theorem uses_const (value : κ) (op : Operator) : (const value).uses op = false := by
  simp [uses, nodes_eq, preorder, applies]

/-- An operation `uses` its own operator and those of its operands. -/
theorem uses_apply_iff {f op : Operator} {operands : List (Expr κ)} :
    (apply f operands).uses op = true ↔ f = op ∨ ∃ e ∈ operands, e.uses op = true := by
  simp only [uses_iff, preorder, preorderAll_eq_flatMap, List.mem_cons, List.mem_flatMap,
    apply.injEq]
  constructor
  -- the node that applies the operator is the root, or it lies in an operand
  · rintro ⟨_, ⟨rfl, -⟩ | ⟨e, he, hn⟩⟩
    · exact .inl rfl
    · exact .inr ⟨e, he, _, hn⟩
  · rintro (rfl | ⟨e, he, below, hn⟩)
    · exact ⟨operands, .inl ⟨rfl, rfl⟩⟩
    · exact ⟨below, .inr ⟨e, he, hn⟩⟩

/-- `substitute` brings in no operator if numbers are put in. -/
theorem uses_of_substitute {e : Expr κ} {values : NameMap (Expr κ)} {op : Operator}
    (hvalues : ∀ name value, values.get? name = some value → ∃ number, value = const number)
    (h : (e.substitute values).uses op = true) : e.uses op = true := by
  rw [substitute] at h
  -- induction on the expression; something new comes in at names only, and it is a number
  induction e using induct with
  | bool value => exact h
  | const value => exact h
  | var name =>
    rw [transform, replace] at h
    · cases hv : values.get? name with
      | none =>
        rw [hv] at h
        exact h
      | some value =>
        obtain ⟨number, rfl⟩ := hvalues name value hv
        rw [hv, Option.getD_some, uses_const] at h
        cases h
    · intro _ _ he
      cases he
  | apply f operands ih =>
    rw [transform_apply, replace] at h
    · rw [uses_apply_iff] at h ⊢
      refine h.imp_right ?_
      rintro ⟨_, hm, hu⟩
      obtain ⟨e, he, rfl⟩ := List.mem_map.1 hm
      exact ⟨e, he, ih e he hu⟩
    · intro _ he
      cases he

/-! ## Substitutions without effect -/

/-- `substitute` without values changes nothing. -/
theorem substitute_empty (e : Expr κ) : e.substitute ∅ = e := by
  rw [substitute]
  induction e using induct with
  | bool value => rfl
  | const value => rfl
  | var name => rfl
  | apply op operands ih =>
    rw [transform_apply, List.map_eq_self ih]
    rfl

/-- `substitute` leaves a name without a value. -/
theorem substitute_var {values : NameMap (Expr κ)} {name : String}
    (h : values.get? name = none) : (var name).substitute values = var name := by
  rw [substitute, transform, replace, h, Option.getD_none]
  -- what is left is the side condition of `replace`, which is not about names
  intro _ _ he
  cases he

/-! ## Folding -/

/-- What becomes of a node: a literal, an operand, or the node itself. -/
inductive Folded (op : Operator) (operands : List (Expr κ)) : Expr κ → Prop where
  | bool (value : Bool) : Folded op operands (bool value)
  | const (value : κ) : Folded op operands (const value)
  | operand (e : Expr κ) (he : e ∈ operands) : Folded op operands e
  | node : Folded op operands (apply op operands)

/-- `conj` gives one of the outcomes of `Folded`. -/
theorem folded_conj (a b : Expr κ) : Folded .and [a, b] (conj a b) := by
  rw [conj]
  split
  · exact .bool _
  split
  · exact .operand b (by simp)
  split
  · exact .operand a (by simp)
  · exact .node

/-- `disj` gives one of the outcomes of `Folded`. -/
theorem folded_disj (a b : Expr κ) : Folded .or [a, b] (disj a b) := by
  rw [disj]
  split
  · exact .bool _
  split
  · exact .operand b (by simp)
  split
  · exact .operand a (by simp)
  · exact .node

section

variable [Scalar κ] {op : Operator}

/-- `foldUnary` gives one of the outcomes of `Folded`. -/
theorem folded_foldUnary (op : Operator) (a : Expr κ) : Folded op [a] (foldUnary op a) := by
  rw [foldUnary.eq_def]
  split
  · exact .bool _
  · split
    · exact .const _
    · exact .node
  · exact .node

/-- `foldBinary` gives one of the outcomes of `Folded`. -/
theorem folded_foldBinary (op : Operator) (a b : Expr κ) :
    Folded op [a, b] (foldBinary op a b) := by
  rw [foldBinary.eq_def]
  -- two numbers give a truth value, a number or nothing; other operands are only compared
  split
  · split
    · exact .bool _
    · exact .const _
    · exact .node
  · split
    · exact .bool _
    · exact .node

/-- `simplifyNode` gives one of the outcomes of `Folded`, whatever the number of operands is. -/
theorem simplifyNode_cases (op : Operator) (operands : List (Expr κ)) :
    Folded op operands (simplifyNode (apply op operands)) := by
  rw [simplifyNode.eq_def]
  -- one operand, two operands, or a number that no rule is about
  split
  · next he =>
    cases he
    exact folded_foldUnary _ _
  · next he =>
    cases he
    split
    · exact folded_conj _ _
    · exact folded_disj _ _
    · exact folded_foldBinary _ _ _
  · exact .node

/-- `simplify` goes to the operands first, and then to the node. -/
theorem simplify_apply (op : Operator) (operands : List (Expr κ)) :
    (apply op operands).simplify = simplifyNode (apply op (operands.map simplify)) :=
  transform_apply ..

/-- `simplify` leaves nothing to fold, so folding twice is folding once. -/
theorem simplify_simplify (e : Expr κ) : e.simplify.simplify = e.simplify := by
  induction e using induct with
  | bool value => rfl
  | const value => rfl
  | var name => rfl
  | apply op operands ih =>
    -- the operands are folded, so by induction they stay as they are
    have hfolded : (operands.map simplify).map simplify = operands.map simplify := by
      rw [List.map_map]
      exact List.map_congr_left ih
    rw [simplify_apply]
    cases hnode : simplifyNode (apply op (operands.map simplify)) with
    | bool value => rfl
    | const value => rfl
    | var name => rfl
    | apply f below =>
      -- an operation is left only if an operand has become one or if no rule has applied
      have hcases := simplifyNode_cases op (operands.map simplify)
      rw [hnode] at hcases
      cases hcases with
      | operand _ hm =>
        obtain ⟨e, he, heq⟩ := List.mem_map.1 hm
        rw [← heq]
        exact ih e he
      | node => rw [simplify_apply, hfolded, hnode]

/-- `simplify` brings in no operator. -/
theorem uses_of_simplify {e : Expr κ} (h : e.simplify.uses op = true) : e.uses op = true := by
  induction e using induct with
  | bool value => exact h
  | const value => exact h
  | var name => exact h
  | apply f operands ih =>
    -- what is used in a folded operand is used in the operand, by induction
    have hoperand {e : Expr κ} (hm : e ∈ operands.map simplify) (hu : e.uses op = true) :
        (apply f operands).uses op = true := by
      obtain ⟨old, ho, rfl⟩ := List.mem_map.1 hm
      exact uses_apply_iff.2 (.inr ⟨old, ho, ih old ho hu⟩)
    rw [simplify_apply] at h
    have hcases := simplifyNode_cases f (operands.map simplify)
    -- only the outcome of the node matters
    generalize simplifyNode (apply f (operands.map simplify)) = folded at h hcases
    cases hcases with
    | bool value => simp at h
    | const value => simp at h
    | operand _ hm => exact hoperand hm h
    | node =>
      rcases uses_apply_iff.1 h with rfl | ⟨e, hm, hu⟩
      · exact uses_apply_iff.2 (.inl rfl)
      · exact hoperand hm hu

end

end HybridAutomata.Expr
