import HybridAutomata.Proofs.Expr.Written
import HybridAutomata.Proofs.Scalar.Integer
/-!
# Reading expressions back

No two expressions look alike. A text is read from the right. Whatever its last expression is, what
stands in front of that expression can be told, since an infix operator that goes without
parentheses binds less tightly than all that is behind it.

* `ReadsAt.of_binary`            infix operators without parentheses
* `ReadsAt.of_sign`              signs
* `ReadsAt.of_enclosed`          calls and parentheses
* `text_determines_expression`   the written form determines the expression
-/

namespace HybridAutomata
namespace Expr

variable {κ : Type} [Scalar κ]

/-! ## Reading from the right -/

/-- In a text that ends in one of two expressions, written for the level, what stands in front can
be told, and so can the expression together with its signs. -/
def ReadsAt (level : Nat) (e e' : Expr κ) : Prop :=
  ∀ ⦃front front' signs signs'⦄, Leads level front signs → Leads level front' signs' →
    front ++ signChars signs ++ e.chars level = front' ++ signChars signs' ++ e'.chars level →
    front = front' ∧ signed signs e = signed signs' e'

/-- `ReadsAt` treats its two expressions alike. -/
theorem ReadsAt.symm {level : Nat} {e e' : Expr κ} (h : ReadsAt level e e') :
    ReadsAt level e' e := by
  intro front front' signs signs' hlead hlead' heq
  obtain ⟨hfront, hsigned⟩ := h hlead' hlead heq.symm
  exact ⟨hfront.symm, hsigned.symm⟩

/-- `ReadsAt` without signs in front tells the expressions themselves. -/
theorem ReadsAt.eq {level : Nat} {e e' : Expr κ} (h : ReadsAt level e e') {front front' : List Char}
    (hle : level ≤ 6) (ho : Opens level front) (ho' : Opens level front')
    (heq : front ++ e.chars level = front' ++ e'.chars level) : front = front' ∧ e = e' := by
  -- no signs in front are a special case of some signs in front
  refine h (.of_opens ho hle) (.of_opens ho' hle) ?_
  simpa [signChars] using heq

/-- `ReadsAt` below the level of signs is about the expressions themselves, since no signs may stand
in front. -/
theorem ReadsAt.of_eq {level : Nat} {e e' : Expr κ} (hlt : level < 6)
    (h : ∀ front front', Opens level front → Opens level front' →
      front ++ e.chars level = front' ++ e'.chars level → front = front' ∧ e = e') :
    ReadsAt level e e' := by
  -- the level excludes signs, so they are empty lists on both sides
  intro front front' signs signs' hlead hlead' heq
  obtain rfl := hlead.signs_eq_nil hlt
  obtain rfl := hlead'.signs_eq_nil hlt
  rw [signChars_nil, List.append_nil, List.append_nil] at heq
  exact h front front' hlead.opens hlead'.opens heq

/-! ### Infix operators -/

/-- An infix operation that needs no parentheses is written operand, `between`, operand. -/
theorem chars_binary {op : Operator} {a b : Expr κ} {level : Nat} (hle : level ≤ op.priority) :
    (apply op [a, b]).chars level =
      a.chars op.priority ++ between op ++ b.chars (op.priority + 1) := by
  rw [chars, if_neg (Nat.not_lt.2 hle)]
  simp [between]

/-- Infix operators bind less tightly than signs. -/
theorem priority_lt {op : Operator} (harity : op.arity = 2) : op.priority < 6 := by
  revert harity
  cases op <;> decide

/-- `ReadsAt` tells an infix operation that goes without parentheses from an expression that would
be written in the same way as its right operand. -/
theorem ReadsAt.of_binary_left {op : Operator} {a b e' : Expr κ} {level : Nat}
    (harity : op.arity = 2)
    (ih : ReadsAt (op.priority + 1) b e') (hle : level ≤ op.priority)
    (hchars : e'.chars level = e'.chars (op.priority + 1)) :
    ReadsAt level (apply op [a, b]) e' := by
  refine .of_eq (Nat.lt_of_le_of_lt hle (priority_lt harity)) fun front front' _ hopens' heq => ?_
  rw [chars_binary hle, hchars, ← List.append_assoc, ← List.append_assoc] at heq
  -- the right operand would be the whole of the other expression, so the operator would stand in
  -- front of it
  obtain ⟨rfl, -⟩ := ih.eq (priority_lt harity) (.operator _ harity (Nat.lt_succ_self _))
    (hopens'.mono (Nat.le_succ_of_le hle)) heq
  exact absurd (hopens'.lt_of_between harity) (Nat.not_lt.2 hle)

/-- `ReadsAt` tells two infix operations from each other that go without parentheses. -/
theorem ReadsAt.of_binary {op op' : Operator} {a b a' b' : Expr κ} {level : Nat}
    (harity : op.arity = 2) (harity' : op'.arity = 2)
    (ihl : ReadsAt op.priority a a') (ihr : ReadsAt (op.priority + 1) b b')
    (ih : ReadsAt (op.priority + 1) b (apply op' [a', b']))
    (ih' : ReadsAt (op'.priority + 1) b' (apply op [a, b]))
    (hle : level ≤ op.priority) (hle' : level ≤ op'.priority) :
    ReadsAt level (apply op [a, b]) (apply op' [a', b']) := by
  have hchars {op : Operator} {a b : Expr κ} {level' : Nat} (hle : level ≤ op.priority)
      (hle' : level' ≤ op.priority) :
      (apply op [a, b]).chars level = (apply op [a, b]).chars level' := by
    rw [chars_binary hle, chars_binary hle']
  -- the operator that binds less tightly cannot be inside the right operand of the other one
  rcases Nat.lt_trichotomy op.priority op'.priority with hlt | hpriority | hlt
  · exact .of_binary_left harity ih hle (hchars hle' hlt)
  · refine .of_eq (Nat.lt_of_le_of_lt hle (priority_lt harity))
      fun front front' hopens hopens' heq => ?_
    rw [chars_binary hle, chars_binary hle', ← hpriority] at heq
    simp only [← List.append_assoc] at heq
    -- the right operands come off, then the operators, then the left operands
    obtain ⟨hfronts, rfl⟩ := ihr.eq (priority_lt harity)
      (.operator _ harity (Nat.lt_succ_self _))
        (.operator _ harity' (hpriority ▸ Nat.lt_succ_self _)) heq
    obtain ⟨hlefts, rfl⟩ := between_inj (harity.trans harity'.symm) hfronts
    obtain ⟨rfl, rfl⟩ := ihl.eq (Nat.le_of_lt (priority_lt harity)) (hopens.mono hle)
      (hopens'.mono hle) hlefts
    exact ⟨rfl, rfl⟩
  · exact (ReadsAt.of_binary_left harity' ih' hle' (hchars hle hlt)).symm

/-! ### Signs and words -/

/-- `ReadsAt` takes a sign off the expression and adds it to the signs in front. -/
theorem ReadsAt.of_sign {op : Operator} {a e' : Expr κ} {level : Nat} (hop : isSign op = true)
    (ih : ReadsAt 6 a e') (hchars : e'.chars level = e'.chars 6) :
    ReadsAt level (apply op [a]) e' := by
  intro front front' signs signs' hlead hlead' heq
  have hpriority : op.priority = 6 := by
    revert hop
    cases op <;> decide
  rw [chars, if_pos hop, hpriority, hchars] at heq
  rw [← signed_concat]
  -- behind one more sign the rest has to bind as tightly as signs do
  refine ih (hlead.concat hop) hlead'.six ?_
  rw [← heq, signChars_concat]
  simp only [List.append_assoc]

/-- `ReadsAt` tells words from each other, because nothing that stands in front of a word goes on
inside it. -/
theorem ReadsAt.of_words (hinj : Scalar.NumeralsDiffer κ)
    {e e' : Expr κ} {level : Nat} (he : e.Legible) (he' : e'.Legible) (hword : e.isWord = true)
    (hword' : e'.isWord = true) : ReadsAt level e e' := by
  intro front front' signs signs' hlead hlead' heq
  obtain ⟨hfront, rfl, hwords⟩ := hlead.inj_word hlead' (he.isWordChar hword).2
    (he'.isWordChar hword').2 heq
  exact ⟨hfront, by rw [he.eq_of_isWord hinj he' hword hword' hwords]⟩

/-! ### Parentheses -/

/-- Between parentheses an expression is told, and so is what stands in front of the opening one. -/
def ReadsInside (e e' : Expr κ) : Prop :=
  ∀ ⦃front front'⦄, front ++ ['('] ++ e.chars 0 = front' ++ ['('] ++ e'.chars 0 →
    front = front' ∧ e = e'

/-- `ReadsAt` at level 0 is enough between parentheses. -/
theorem ReadsAt.inside {e e' : Expr κ} (h : ReadsAt 0 e e') : ReadsInside e e' := by
  intro front front' heq
  obtain ⟨hfronts, he⟩ := h.eq (by decide) (.parenthesis front) (.parenthesis front') heq
  exact ⟨List.append_cancel_right hfronts, he⟩

/-- The expressions that are written with a closing parenthesis, the word in front of the
parentheses and what stands between them. -/
inductive Enclosed (level : Nat) : Expr κ → List Char → Expr κ → Prop where
  | call {op : Operator} (a : Expr κ) (hop : isSign op = false) (harity : op.arity = 1) :
      Enclosed level (apply op [a]) op.symbol.toList a
  | parentheses {e : Expr κ} (h : e.tightness < level) : Enclosed level e [] e

/-- An expression that is `Enclosed` is written as its word and what is enclosed, between
parentheses. -/
theorem Enclosed.chars_eq {e inner : Expr κ} {word : List Char} {level : Nat}
    (h : Enclosed level e word inner) (hle : level ≤ 6) :
    e.chars level = word ++ '(' :: (inner.chars 0 ++ [')']) := by
  cases h with
  | call a hop => rw [chars, if_neg (Bool.not_eq_true _ ▸ hop)]
  | parentheses h => exact chars_of_lt h hle

/-- The symbol of a prefix operator that is no sign is a word. -/
theorem isWordChar_symbol {op : Operator} (hop : isSign op = false) (harity : op.arity = 1) :
    op.symbol.toList ≠ [] ∧ ∀ c ∈ op.symbol.toList, isWordChar c = true := by
  rw [← List.all_eq_true]
  revert hop harity
  cases op <;> decide

omit [Scalar κ] in
/-- The word in front of the parentheses is a word, or there is none. -/
theorem Enclosed.isWordChar {e inner : Expr κ} {word : List Char} {level : Nat}
    (h : Enclosed level e word inner) : ∀ c ∈ word, Expr.isWordChar c = true := by
  cases h with
  | call a hop harity => exact (isWordChar_symbol hop harity).2
  | parentheses => simp

omit [Scalar κ] in
/-- `Enclosed` determines the expression: the word and what stands behind it are all there is. -/
theorem Enclosed.inj {e e' inner : Expr κ} {word word' : List Char} {level : Nat}
    (h : Enclosed level e word inner) (h' : Enclosed level e' word' inner) (hword : word = word') :
    e = e' := by
  -- a call has a word in front of its parentheses, other expressions have none
  cases h with
  | call a hop harity =>
    cases h' with
    | call a hop' harity' => rw [symbol_inj_of_arity (harity.trans harity'.symm) hword]
    | parentheses => exact absurd hword (isWordChar_symbol hop harity).1
  | parentheses =>
    cases h' with
    | call a hop harity => exact absurd hword.symm (isWordChar_symbol hop harity).1
    | parentheses => rfl

/-- `ReadsAt` tells a word from an expression with a closing parenthesis, by the last character. -/
theorem ReadsAt.of_word_of_enclosed {e e' inner : Expr κ} {word : List Char} {level : Nat}
    (hle : level ≤ 6) (he : e.Legible) (hword : e.isWord = true)
    (he' : Enclosed level e' word inner) : ReadsAt level e e' := by
  intro front front' signs signs' hlead hlead' heq
  -- the last character of the word would be the parenthesis
  obtain ⟨hne, hchars⟩ : e.chars level ≠ [] ∧ _ := he.isWordChar hword
  obtain ⟨start, last, hlast⟩ := List.eq_nil_or_concat _ |>.resolve_left hne
  have hclosing := congrArg List.getLast? heq
  rw [he'.chars_eq hle, hlast] at hclosing
  obtain rfl : last = ')' := by
    simpa [List.getLast?_append, List.getLast?_cons] using hclosing
  exact absurd (hchars ')' (by rw [hlast]; simp)) (by decide)

/-- `ReadsAt` tells two expressions with closing parentheses from each other if it tells what they
enclose. -/
theorem ReadsAt.of_enclosed {e e' inner inner' : Expr κ} {word word' : List Char} {level : Nat}
    (hle : level ≤ 6) (he : Enclosed level e word inner) (he' : Enclosed level e' word' inner')
    (ih : ReadsInside inner inner') : ReadsAt level e e' := by
  intro front front' signs signs' hlead hlead' heq
  rw [he.chars_eq hle, he'.chars_eq hle] at heq
  -- the closing parentheses come off, then what they enclose, then the words
  obtain ⟨hfronts, rfl⟩ := @ih (front ++ signChars signs ++ word)
    (front' ++ signChars signs' ++ word')
    (List.append_cancel_right (by simpa using heq))
  obtain ⟨hfront, rfl, hword⟩ := hlead.inj_word hlead' he.isWordChar he'.isWordChar hfronts
  exact ⟨hfront, by rw [he.inj he' hword]⟩

/-! ## All expressions -/

/-- `chars` of what is no bare infix operation are the same wherever it has to bind more tightly. -/
theorem chars_of_closed {e : Expr κ} {level level' : Nat}
    (h : ¬ (level ≤ e.tightness ∧ e.tightness < 6)) (hle : level ≤ level') (hle' : level' ≤ 6) :
    e.chars level = e.chars level' := by
  -- it stands in parentheses at both levels, or at neither
  rcases Nat.lt_or_ge e.tightness level with hlt | hge
  · rw [chars_of_lt hlt (Nat.le_trans hle hle'), chars_of_lt (Nat.lt_of_lt_of_le hlt hle) hle']
  · rw [chars_of_le hge, chars_of_le (show level' ≤ e.tightness by omega)]

/-- `Legible` expressions other than bare infix operations start with a sign, are words or end in a
parenthesis. -/
theorem Legible.closed_cases {e : Expr κ} {level : Nat} (h : e.Legible) (hle : level ≤ 6)
    (hclosed : ¬ (level ≤ e.tightness ∧ e.tightness < 6)) :
    (∃ op a, e = .apply op [a] ∧ isSign op = true ∧ Legible a) ∨ e.isWord = true ∨
      ∃ word inner, Enclosed level e word inner ∧ inner.Legible ∧
        (inner.nodeCount < e.nodeCount ∨ inner = e ∧ e.tightness < 6) := by
  rcases Nat.lt_or_ge e.tightness level with hlt | hge
  · exact .inr (.inr ⟨[], e, .parentheses hlt, h, .inr ⟨rfl, Nat.lt_of_lt_of_le hlt hle⟩⟩)
  -- operations are told apart by the number of their operands, which is the arity
  cases h with
  | @apply op operands harity hoperands =>
    match operands with
    | [a] =>
      have ha := hoperands a List.mem_cons_self
      cases hop : isSign op with
      | true => exact .inl ⟨op, a, rfl, hop, ha⟩
      | false =>
        have hcount : a.nodeCount < (Expr.apply op [a]).nodeCount := by
          simp only [nodeCount, nodeCountAll]
          omega
        exact .inr (.inr ⟨_, a, .call a hop harity.symm, ha, .inl hcount⟩)
    | [a, b] => exact (hclosed ⟨hge, priority_lt harity.symm⟩).elim
    -- no operator takes no operand or more than two
    | [] | _ :: _ :: _ :: _ =>
      revert harity
      cases op <;> simp [Operator.arity]
  | _ => exact .inr (.inl rfl)

omit [Scalar κ] in
/-- `nodeCount` of an infix operation. -/
theorem nodeCount_binary (op : Operator) (a b : Expr κ) :
    (apply op [a, b]).nodeCount = a.nodeCount + b.nodeCount + 1 := by
  simp only [nodeCount, nodeCountAll]
  omega

omit [Scalar κ] in
/-- `nodeCount` of a prefix operation. -/
theorem nodeCount_unary (op : Operator) (a : Expr κ) :
    (apply op [a]).nodeCount = a.nodeCount + 1 := by
  simp only [nodeCount, nodeCountAll]
  omega

/-- All pairs of expressions below a size can be told from each other. -/
def ReadsBelow (size : Nat) : Prop :=
  ∀ ⦃e e' : Expr κ⦄ ⦃level : Nat⦄, Legible e → Legible e' → level ≤ 6 →
    e.nodeCount + e'.nodeCount < size → ReadsAt level e e'

/-- `ReadsAt` tells two bare infix operations from each other if it does so for all smaller pairs.
-/
theorem ReadsAt.of_bare {e e' : Expr κ} {level : Nat}
    (ih : ReadsBelow (κ := κ) (e.nodeCount + e'.nodeCount)) (he : e.Legible) (he' : e'.Legible)
    (hbare : level ≤ e.tightness ∧ e.tightness < 6)
    (hbare' : level ≤ e'.tightness ∧ e'.tightness < 6) : ReadsAt level e e' := by
  -- both expressions are binary, so the operators and the operands can be compared
  obtain ⟨op, a, b, rfl, harity, ha, hb⟩ := he.exists_of_tightness hbare.2
  obtain ⟨op', a', b', rfl, harity', ha', hb'⟩ := he'.exists_of_tightness hbare'.2
  have hlt := priority_lt harity
  have hlt' := priority_lt harity'
  have hsize := nodeCount_binary op a b
  have hsize' := nodeCount_binary op' a' b'
  exact .of_binary harity harity' (ih ha ha' (by omega) (by omega)) (ih hb hb' hlt (by omega))
    (ih hb he' hlt (by omega)) (ih hb' he hlt' (by omega)) hbare.1 hbare'.1

/-- `ReadsAt` tells a bare infix operation from what is none if it does so for all smaller pairs. -/
theorem ReadsAt.of_bare_of_closed {e e' : Expr κ} {level : Nat}
    (ih : ReadsBelow (κ := κ) (e.nodeCount + e'.nodeCount)) (he : e.Legible) (he' : e'.Legible)
    (hbare : level ≤ e.tightness ∧ e.tightness < 6)
    (hclosed' : ¬ (level ≤ e'.tightness ∧ e'.tightness < 6)) : ReadsAt level e e' := by
  obtain ⟨op, a, b, rfl, harity, ha, hb⟩ := he.exists_of_tightness hbare.2
  -- the right operand is compared with the whole of the other expression
  have hlt := priority_lt harity
  have hsize := nodeCount_binary op a b
  exact .of_binary_left harity (ih hb he' hlt (by omega)) hbare.1
    (chars_of_closed hclosed' (Nat.le_succ_of_le hbare.1) hlt)

/-- `ReadsAt` tells a sign from what is no bare infix operation if it does so for all smaller pairs.
-/
theorem ReadsAt.of_sign_of_closed {op : Operator} {a e' : Expr κ} {level : Nat} (hle : level ≤ 6)
    (ih : ReadsBelow (κ := κ) ((apply op [a]).nodeCount + e'.nodeCount)) (hop : isSign op = true)
    (ha : a.Legible) (he' : e'.Legible)
    (hclosed' : ¬ (level ≤ e'.tightness ∧ e'.tightness < 6)) : ReadsAt level (apply op [a]) e' := by
  have hsize := nodeCount_unary op a
  exact .of_sign hop (ih ha he' (Nat.le_refl 6) (by omega))
    (chars_of_closed hclosed' hle (Nat.le_refl 6))

/-- `ReadsAt` tells two expressions that are no bare infix operations from each other if it does so
for all smaller pairs. -/
theorem ReadsAt.of_closed (hinj : Scalar.NumeralsDiffer κ)
    {e e' : Expr κ} {level : Nat} (hle : level ≤ 6)
    (ih : ReadsBelow (κ := κ) (e.nodeCount + e'.nodeCount)) (he : e.Legible) (he' : e'.Legible)
    (hclosed : ¬ (level ≤ e.tightness ∧ e.tightness < 6))
    (hclosed' : ¬ (level ≤ e'.tightness ∧ e'.tightness < 6)) : ReadsAt level e e' := by
  have ih' : ReadsBelow (κ := κ) (e'.nodeCount + e.nodeCount) := Nat.add_comm _ _ ▸ ih
  -- three kinds of expressions on either side: signs, words and what ends in a parenthesis
  rcases he.closed_cases hle hclosed with ⟨op, a, rfl, hop, ha⟩ | hword |
    ⟨word, inner, hin, hinner, hsize⟩
  · exact .of_sign_of_closed hle ih hop ha he' hclosed'
  · rcases he'.closed_cases hle hclosed' with ⟨op, a, rfl, hop, ha⟩ | hword' |
      ⟨word', inner', hin', -⟩
    · exact (ReadsAt.of_sign_of_closed hle ih' hop ha he hclosed).symm
    · exact .of_words hinj he he' hword hword'
    · exact .of_word_of_enclosed hle he hword hin'
  · rcases he'.closed_cases hle hclosed' with ⟨op, a, rfl, hop, ha⟩ | hword' |
      ⟨word', inner', hin', hinner', hsize'⟩
    · exact (ReadsAt.of_sign_of_closed hle ih' hop ha he hclosed).symm
    · exact (ReadsAt.of_word_of_enclosed hle he' hword' hin).symm
    · refine .of_enclosed hle hin hin' (ReadsAt.inside ?_)
      -- only between two pairs of parentheses the size stays
      rcases hsize with hsize | ⟨rfl, htight⟩ <;> rcases hsize' with hsize' | ⟨rfl, htight'⟩
      · exact ih hinner hinner' (Nat.zero_le 6) (by omega)
      · exact ih hinner hinner' (Nat.zero_le 6) (by omega)
      · exact ih hinner hinner' (Nat.zero_le 6) (by omega)
      · exact .of_bare ih hinner hinner' ⟨Nat.zero_le _, htight⟩ ⟨Nat.zero_le _, htight'⟩

/-- `ReadsAt` tells any two legible expressions from each other, by induction on the number of their
nodes. -/
theorem readsBelow (hinj : Scalar.NumeralsDiffer κ)
    (size : Nat) : ReadsBelow (κ := κ) size := by
  -- each step looks into one of the two expressions at least
  induction size with
  | zero => exact fun e e' level he he' hle hlt => absurd hlt (Nat.not_lt_zero _)
  | succ size ih =>
    intro e e' level he he' hle hlt
    have ih : ReadsBelow (κ := κ) (e.nodeCount + e'.nodeCount) :=
      fun d d' level hd hd' hle hsmaller => ih hd hd' hle (by omega)
    have ih' : ReadsBelow (κ := κ) (e'.nodeCount + e.nodeCount) := Nat.add_comm _ _ ▸ ih
    -- at this level each of the two is a bare infix operation or not
    by_cases hbare : level ≤ e.tightness ∧ e.tightness < 6 <;>
      by_cases hbare' : level ≤ e'.tightness ∧ e'.tightness < 6
    · exact .of_bare ih he he' hbare hbare'
    · exact .of_bare_of_closed ih he he' hbare hbare'
    · exact (ReadsAt.of_bare_of_closed ih' he' he hbare' hbare).symm
    · exact .of_closed hinj hle ih he he' hbare hbare'

/-- The written form determines the expression: priorities and parentheses never let two expressions
look alike, as long as no two numbers that are written as plain numerals do. -/
theorem text_determines_expression (hinj : Scalar.NumeralsDiffer κ)
    {e e' : Expr κ} (he : e.Legible) (he' : e'.Legible) (h : e.text = e'.text) : e = e' := by
  have hchars : e.chars 0 = e'.chars 0 := String.ofList_injective h
  exact ((readsBelow hinj _ he he' (Nat.zero_le 6) (Nat.lt_succ_self _)).eq (Nat.zero_le 6) .start
    .start hchars).2

/-- `Int` has numerals that differ: a natural number is told by its digits, and others have a minus
sign. -/
theorem numeralsDiffer_int : Scalar.NumeralsDiffer Int := by
  have hdigits {x : Int} (hx : Text.IsNumeral (Scalar.text x)) :
      ∃ n : Nat, x = n ∧ (Scalar.text x).toList = Nat.toDigits 10 n := by
    cases x with
    | ofNat n =>
      refine ⟨n, rfl, ?_⟩
      rw [show Scalar.text (Int.ofNat n) = Nat.repr n from rfl, Nat.repr_eq_ofList_toDigits,
        String.toList_ofList]
    | negSucc n =>
      -- a minus sign is no digit
      obtain ⟨digit, rest, htext, hdigit, -⟩ := hx.exists_digit
      have hminus : (Scalar.text (Int.negSucc n)).toList = '-' :: (Nat.repr (n + 1)).toList := by
        rw [show Scalar.text (Int.negSucc n) = "-" ++ Nat.repr (n + 1) from rfl,
          String.toList_append]
        rfl
      obtain rfl : '-' = digit := (List.cons.inj (hminus.symm.trans htext)).1
      cases hdigit
  -- both numbers are natural, so their digits tell them
  intro x y hx hy h
  obtain ⟨m, rfl, hm⟩ := hdigits hx
  obtain ⟨n, rfl, hn⟩ := hdigits hy
  rw [Text.toDigits_inj (hm.symm.trans ((congrArg String.toList h).trans hn))]

/-- A difference whose right operand is a difference, with a sign under a power. -/
def nestedDifference : Expr Int :=
  .binary .subtract (.var "a")
    (.binary .subtract (.var "b") (.binary .pow (.unary .negative (.var "c")) (.const 2)))

/-- A difference that was built in another way is known by its text. -/
theorem nestedDifference_is_known_by_its_text :
    nestedDifference.Legible ∧ (disj (.bool false) nestedDifference).Legible ∧
      nestedDifference.text = "a - (b - -c ^ 2)" ∧
      (disj (.bool false) nestedDifference).text = "a - (b - -c ^ 2)" ∧
      disj (.bool false) nestedDifference = nestedDifference := by
  -- identifiers, numerals and operators of the expression, one by one
  have hvar {name : String} (h : Text.isIdentifier name = true) (htrue : name ≠ "true")
      (hfalse : name ≠ "false") : (Expr.var name : Expr Int).Legible := .var h htrue hfalse
  have hbinary {op : Operator} {a b : Expr Int} (harity : op.arity = 2) (ha : a.Legible)
      (hb : b.Legible) : (Expr.binary op a b).Legible :=
    .apply harity.symm (by simpa using ⟨ha, hb⟩)
  have hnegative : (Expr.unary .negative (.var "c") : Expr Int).Legible :=
    .apply rfl (by simpa using hvar (by decide) (by decide) (by decide))
  have htwo : (Expr.const 2 : Expr Int).Legible :=
    .const ⟨['2'], [], by decide, List.all_eq_true.1 (by decide), .inl (by decide)⟩
  have h : nestedDifference.Legible :=
    hbinary rfl (hvar (by decide) (by decide) (by decide))
      (hbinary rfl (hvar (by decide) (by decide) (by decide)) (hbinary rfl hnegative htwo))
  exact ⟨h, h, by decide, by decide, text_determines_expression numeralsDiffer_int h h rfl⟩

/-- From the left no parentheses are needed. -/
example : (binary .subtract (binary .subtract (.var "a") (.var "b")) (.const (2 : Int))).text =
    "a - b - 2" := by decide

end Expr
end HybridAutomata
