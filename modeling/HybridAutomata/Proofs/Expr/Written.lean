import HybridAutomata.Expr.Text
import HybridAutomata.Proofs.ForStd.List
import HybridAutomata.Proofs.Text.Dotted
/-!
# What written expressions consist of

A written expression ends in a word or in a closing parenthesis. What stands in front of it can be
told from it: in front of an operand there is a blank or an opening parenthesis, then possibly a row
of signs, and neither goes on inside a word.

* `Legible`                  the expressions whose written form says what they are
* `Legible.eq_of_isWord`     a word stands for one expression
* `Opens.lt_of_between`      which operators stand in front of an operand
* `Leads.inj_word`           a word is told from what stands in front of it
* `chars_of_le`, `chars_of_lt`   where parentheses are written
-/

namespace HybridAutomata

/-- A text is a plain decimal numeral: digits, and possibly a point with digits behind it. -/
def Text.IsNumeral (text : String) : Prop :=
  ∃ whole fraction : List Char, whole ≠ [] ∧ (∀ c ∈ whole ++ fraction, c.isDigit = true) ∧
    (text.toList = whole ∨ fraction ≠ [] ∧ text.toList = whole ++ '.' :: fraction)

/-- `IsNumeral` texts start with a digit and go on with digits and points. -/
theorem Text.IsNumeral.exists_digit {text : String} (h : IsNumeral text) :
    ∃ digit rest, text.toList = digit :: rest ∧ digit.isDigit = true ∧
      ∀ c ∈ rest, c.isDigit = true ∨ c = '.' := by
  obtain ⟨whole, fraction, hne, hdigits, htext⟩ := h
  obtain ⟨digit, tail, rfl⟩ := List.exists_cons_of_ne_nil hne
  have hdigit {c : Char} (hc : c ∈ (digit :: tail) ++ fraction) := hdigits c hc
  -- with or without a fraction, what stands behind the first digit is collected
  rcases htext with htext | ⟨-, htext⟩
  · exact ⟨digit, tail, htext, hdigit (by simp), fun c hc => .inl (hdigit (by simp [hc]))⟩
  · refine ⟨digit, tail ++ '.' :: fraction, htext, hdigit (by simp), fun c hc => ?_⟩
    simp only [List.mem_append, List.mem_cons] at hc
    rcases hc with hc | rfl | hc
    · exact .inl (hdigit (by simp [hc]))
    · exact .inr rfl
    · exact .inl (hdigit (by simp [hc]))

/-- No two numbers are written as the same numeral. -/
def Scalar.NumeralsDiffer (κ : Type) [Scalar κ] : Prop :=
  ∀ x y : κ, Text.IsNumeral (Scalar.text x) → Text.IsNumeral (Scalar.text y) →
    Scalar.text x = Scalar.text y → x = y

namespace Expr

variable {κ : Type} [Scalar κ]

/-- Every operator has its operands, names are identifiers other than the literals, and numbers are
written as plain numerals. -/
inductive Legible : Expr κ → Prop where
  | bool (value : Bool) : Legible (bool value)
  | const {value : κ} (h : Text.IsNumeral (Scalar.text value)) : Legible (const value)
  | var {name : String} (h : Text.isIdentifier name = true) (htrue : name ≠ "true")
    (hfalse : name ≠ "false") : Legible (var name)
  | apply {op : Operator} {operands : List (Expr κ)} (harity : operands.length = op.arity)
    (h : ∀ e ∈ operands, Legible e) : Legible (apply op operands)

/-! ## Words -/

/-- Whether a character may stand in a name or a numeral. -/
def isWordChar (c : Char) : Bool :=
  Text.isInner c || c == '.'

/-- Whether an expression is written as one word. -/
def isWord : Expr κ → Bool
  | apply _ _ => false
  | _ => true

theorem isWordChar_of_isDigit {c : Char} (h : c.isDigit = true) : isWordChar c = true := by
  simp [isWordChar, Text.isInner, Char.isAlphanum, h]

/-- `chars` of a literal, a numeral or a name are a word, at every level. -/
theorem Legible.isWordChar {e : Expr κ} (h : e.Legible) (hword : e.isWord = true) {level : Nat} :
    e.chars level ≠ [] ∧ ∀ c ∈ e.chars level, Expr.isWordChar c = true := by
  cases h with
  -- the two literals are known texts
  | bool value => cases value <;> exact ⟨by simp [chars], by simp [chars]; decide⟩
  | const hnumeral =>
    obtain ⟨digit, rest, htext, hdigit, hrest⟩ := hnumeral.exists_digit
    rw [chars, htext]
    refine ⟨List.cons_ne_nil _ _, List.forall_mem_cons.2
      ⟨isWordChar_of_isDigit hdigit, fun c hc => ?_⟩⟩
    rcases hrest c hc with hc | rfl
    · exact isWordChar_of_isDigit hc
    · rfl
  | var hname =>
    rw [chars]
    refine ⟨fun he => ?_, fun c hc => ?_⟩
    · exact Text.ne_empty_of_isIdentifier hname (String.toList_eq_nil_iff.1 he)
    · rw [Expr.isWordChar, Text.isInner_of_isIdentifier hname hc]
      rfl
  | apply => cases hword

/-- The literal or the name that a word is, if it is no numeral. -/
def ofWord (word : List Char) : Expr κ :=
  if word = "true".toList then bool true
  else if word = "false".toList then bool false
  else var (String.ofList word)

/-- `ofWord` recovers an expression from its word unless the word is a numeral, which starts with a
digit. -/
theorem Legible.word_cases {e : Expr κ} (h : e.Legible) (hword : e.isWord = true) (level : Nat) :
    (∃ value, e = .const value ∧ Text.IsNumeral (Scalar.text value)) ∨
      e = ofWord (e.chars level) ∧ ∀ c ∈ (e.chars level).head?, ¬ c.isDigit = true := by
  -- literals and names are told apart because no legible name is a literal
  cases h with
  | bool value =>
    refine .inr ?_
    cases value <;> rw [chars] <;> refine ⟨rfl, fun c hc => ?_⟩ <;>
      obtain rfl := Option.some.inj hc <;> decide
  | const hnumeral => exact .inl ⟨_, rfl, hnumeral⟩
  | @var name hname htrue hfalse =>
    refine .inr ⟨?_, fun c hc hdigit => ?_⟩
    · rw [chars, ofWord, if_neg (String.toList_inj.not.2 htrue),
        if_neg (String.toList_inj.not.2 hfalse), String.ofList_toList]
    · obtain ⟨first, rest, hchars, hfirst, -⟩ := Text.isIdentifier_iff.1 hname
      rw [chars, hchars, List.head?_cons, Option.mem_some_iff] at hc
      exact Text.not_isInitial_of_isDigit hdigit (hc ▸ hfirst)
  | apply => cases hword

/-- `Legible` words stand for one expression each. -/
theorem Legible.eq_of_isWord (hinj : Scalar.NumeralsDiffer κ)
    {e e' : Expr κ} (h : e.Legible) (h' : e'.Legible) (hword : e.isWord = true)
    (hword' : e'.isWord = true) {level : Nat} (heq : e.chars level = e'.chars level) : e = e' := by
  -- a numeral starts with a digit
  have hnumeral {value : κ} {other : Expr κ} (hvalue : Text.IsNumeral (Scalar.text value))
      (heq : (Expr.const value).chars level = other.chars level)
      (hfirst : ∀ c ∈ (other.chars level).head?, ¬ c.isDigit = true) : False := by
    obtain ⟨digit, rest, htext, hdigit, -⟩ := hvalue.exists_digit
    rw [← heq, chars, htext] at hfirst
    exact hfirst digit rfl hdigit
  -- a numeral on one side only is ruled out by the first character
  rcases h.word_cases hword level with ⟨x, rfl, hx⟩ | ⟨he, hfirst⟩ <;>
    rcases h'.word_cases hword' level with ⟨y, rfl, hy⟩ | ⟨he', hfirst'⟩
  · rw [chars, chars, String.toList_inj] at heq
    rw [hinj x y hx hy heq]
  · exact (hnumeral hx heq hfirst').elim
  · exact (hnumeral hy heq.symm hfirst).elim
  · rw [he, he', heq]

/-! ## What stands in front -/

/-- An operator between its operands. -/
def between (op : Operator) : List Char :=
  ' ' :: (op.symbol.toList ++ [' '])

/-- What may stand in front of an operand that has to bind as tightly as the level: nothing, an
opening parenthesis, or an operator that binds less tightly. -/
inductive Opens (level : Nat) : List Char → Prop where
  | start : Opens level []
  | parenthesis (front : List Char) : Opens level (front ++ ['('])
  | operator (front : List Char) {op : Operator} (harity : op.arity = 2)
    (hop : op.priority < level) : Opens level (front ++ between op)

/-- `Opens` a level also opens the levels above it. -/
theorem Opens.mono {level level' : Nat} {front : List Char} (h : Opens level front)
    (hle : level ≤ level') : Opens level' front := by
  cases h with
  | start => exact .start
  | parenthesis front => exact .parenthesis front
  | operator front harity hop => exact .operator front harity (Nat.lt_of_lt_of_le hop hle)

/-- `Opens` ends with a blank or a parenthesis, if it is not empty. -/
theorem Opens.getLast? {level : Nat} {front : List Char} (h : Opens level front) :
    ∀ c ∈ front.getLast?, c = ' ' ∨ c = '(' := by
  cases h with
  | start => simp
  | parenthesis front => simp
  | operator front => simp [between, List.getLast?_append, List.getLast?_cons]

/-- `symbol` has no blank, so it is told from what stands around it. -/
theorem not_mem_symbol (op : Operator) : ' ' ∉ op.symbol.toList := by
  cases op <;> decide

/-- `symbol` determines the operator among those of one arity. -/
theorem symbol_inj_of_arity {op op' : Operator} (harity : op.arity = op'.arity)
    (h : op.symbol.toList = op'.symbol.toList) : op = op' := by
  revert harity h
  cases op <;> cases op' <;> decide

/-- `between` tells the operator, and what stands in front of it. -/
theorem between_inj {front front' : List Char} {op op' : Operator} (harity : op.arity = op'.arity)
    (h : front ++ between op = front' ++ between op') : front = front' ∧ op = op' := by
  have hbetween (front : List Char) (op : Operator) :
      front ++ between op = (front ++ [' '] ++ op.symbol.toList) ++ [' '] := by simp [between]
  rw [hbetween, hbetween] at h
  -- the symbol reaches back to the last blank in front of it
  have hsymbol (op : Operator) : ∀ c ∈ op.symbol.toList, c ≠ ' ' := fun c hc he =>
    not_mem_symbol op (he ▸ hc)
  obtain ⟨hfront, hsymbols⟩ := List.append_inj_of_getLast? (p := (· ≠ ' ')) (by simp) (by simp)
    (hsymbol op) (hsymbol op') (List.append_cancel_right h)
  exact ⟨List.append_cancel_right hfront, symbol_inj_of_arity harity hsymbols⟩

/-- `Opens` with an operator at the end tells that the operator binds less tightly than the level.
-/
theorem Opens.lt_of_between {level : Nat} {front : List Char} {op : Operator}
    (h : Opens level (front ++ between op)) (harity : op.arity = 2) : op.priority < level := by
  generalize he : front ++ between op = text at h
  -- the three ways to open a level end differently
  cases h with
  | start => simp [between] at he
  | parenthesis other =>
    -- the last characters differ
    have hlast := congrArg List.getLast? he
    simp [between, List.getLast?_append, List.getLast?_cons] at hlast
  | operator other harity' hop =>
    obtain ⟨-, rfl⟩ := between_inj (harity.trans harity'.symm) he
    exact hop

/-! ## Signs -/

/-- Signs, one behind the other. -/
def signChars (signs : List Operator) : List Char :=
  signs.flatMap fun op => op.symbol.toList

/-- An expression behind signs. -/
def signed (signs : List Operator) (e : Expr κ) : Expr κ :=
  signs.foldr (fun op a => apply op [a]) e

/-- Whether a character is a sign. -/
def isSignChar (c : Char) : Bool :=
  c == '-' || c == '!'

/-- `isSign` operators take one operand and have a single character as their symbol. -/
theorem exists_sign {op : Operator} (h : isSign op = true) :
    op.arity = 1 ∧ ∃ c, op.symbol.toList = [c] ∧ isSignChar c = true := by
  rw [isSign, Bool.or_eq_true, beq_iff_eq, beq_iff_eq] at h
  rcases h with rfl | rfl <;> exact ⟨rfl, _, rfl, rfl⟩

/-- `signChars` consist of signs. -/
theorem isSignChar_of_mem {signs : List Operator} (h : ∀ op ∈ signs, isSign op = true) :
    ∀ c ∈ signChars signs, isSignChar c = true := by
  intro c hc
  obtain ⟨op, hop, hc⟩ := List.mem_flatMap.1 hc
  obtain ⟨-, c', hsymbol, hsign⟩ := exists_sign (h op hop)
  rw [hsymbol, List.mem_singleton] at hc
  exact hc ▸ hsign

/-- `signChars` determine the signs. -/
theorem signChars_inj {signs signs' : List Operator} (h : ∀ op ∈ signs, isSign op = true)
    (h' : ∀ op ∈ signs', isSign op = true) (heq : signChars signs = signChars signs') :
    signs = signs' := by
  -- one sign after the other comes off
  induction signs generalizing signs' with
  | nil =>
    cases signs' with
    | nil => rfl
    | cons op rest =>
      obtain ⟨-, c, hsymbol, -⟩ := exists_sign (h' op List.mem_cons_self)
      simp [signChars, hsymbol] at heq
  | cons op rest ih =>
    rw [List.forall_mem_cons] at h
    obtain ⟨harity, c, hsymbol, -⟩ := exists_sign h.1
    cases signs' with
    | nil => simp [signChars, hsymbol] at heq
    | cons op' rest' =>
      rw [List.forall_mem_cons] at h'
      obtain ⟨harity', c', hsymbol', -⟩ := exists_sign h'.1
      rw [signChars, List.flatMap_cons, signChars, List.flatMap_cons, hsymbol, hsymbol'] at heq
      obtain ⟨rfl, hrest⟩ := List.cons.inj heq
      rw [symbol_inj_of_arity (harity.trans harity'.symm) (hsymbol.trans hsymbol'.symm),
        ih h.2 h'.2 hrest]

theorem signChars_nil : signChars [] = [] := rfl

/-- The last of some signs is written last. -/
theorem signChars_concat (signs : List Operator) (op : Operator) :
    signChars (signs ++ [op]) = signChars signs ++ op.symbol.toList := by
  simp [signChars]

omit [Scalar κ] in
/-- The last of some signs stands next to the expression. -/
theorem signed_concat (signs : List Operator) (op : Operator) (a : Expr κ) :
    signed (signs ++ [op]) a = signed signs (apply op [a]) := by
  simp [signed]

/-- What stands in front of an operand, followed by the signs of the operand. Only an operand that
binds as tightly as a sign does may have signs in front of it. -/
structure Leads (level : Nat) (front : List Char) (signs : List Operator) : Prop where
  opens : Opens level front
  level_le : level ≤ 6
  areSigns : ∀ op ∈ signs, isSign op = true
  level_eq : signs ≠ [] → level = 6

namespace Leads

variable {level level' : Nat} {front front' : List Char} {signs signs' : List Operator}

/-- `Leads` does not end with a character of a word, so no word reaches into what stands in front of
it. -/
theorem getLast? (h : Leads level front signs) :
    ∀ c ∈ (front ++ signChars signs).getLast?, ¬ isWordChar c = true := by
  intro c hc
  -- the last character belongs to the last sign, or to what opens the operand
  have hcases : (c = ' ' ∨ c = '(') ∨ isSignChar c = true := by
    rw [List.getLast?_append, Option.mem_def, Option.or_eq_some_iff] at hc
    rcases hc with hc | ⟨-, hc⟩
    · exact .inr (isSignChar_of_mem h.areSigns c (List.mem_of_getLast? hc))
    · exact .inl (h.opens.getLast? c hc)
  rw [isSignChar, Bool.or_eq_true, beq_iff_eq, beq_iff_eq] at hcases
  rcases hcases with (rfl | rfl) | rfl | rfl <;> decide

/-- `Leads` tells what opens the operand from the signs behind it. -/
theorem inj (h : Leads level front signs) (h' : Leads level' front' signs')
    (heq : front ++ signChars signs = front' ++ signChars signs') :
    front = front' ∧ signs = signs' := by
  have hfront {level : Nat} {front : List Char} (ho : Opens level front) :
      ∀ c ∈ front.getLast?, ¬ isSignChar c = true := by
    intro c hc
    rcases ho.getLast? c hc with rfl | rfl <;> decide
  -- the signs are the longest run of sign characters at the end
  obtain ⟨hf, hs⟩ := List.append_inj_of_getLast? (hfront h.opens) (hfront h'.opens)
    (isSignChar_of_mem h.areSigns) (isSignChar_of_mem h'.areSigns) heq
  exact ⟨hf, signChars_inj h.areSigns h'.areSigns hs⟩

/-- `Leads` tells a word from what stands in front of it, and the signs from what opens the operand.
-/
theorem inj_word (h : Leads level front signs) (h' : Leads level' front' signs')
    {word word' : List Char} (hword : ∀ c ∈ word, isWordChar c = true)
    (hword' : ∀ c ∈ word', isWordChar c = true)
    (heq : front ++ signChars signs ++ word = front' ++ signChars signs' ++ word') :
    front = front' ∧ signs = signs' ∧ word = word' := by
  -- the word is the longest run of word characters at the end
  obtain ⟨hlead, hwords⟩ := List.append_inj_of_getLast? h.getLast? h'.getLast? hword hword' heq
  obtain ⟨hfront, hsigns⟩ := h.inj h' hlead
  exact ⟨hfront, hsigns, hwords⟩

/-- `Leads` without signs is `Opens`, for an operand of any level up to that of a sign. -/
theorem of_opens (h : Opens level front) (hle : level ≤ 6) : Leads level front [] where
  opens := h
  level_le := hle
  areSigns := by simp
  level_eq := by simp

/-- `Leads` with one more sign leads an operand that binds as tightly as a sign. -/
theorem concat (h : Leads level front signs) {op : Operator} (hop : isSign op = true) :
    Leads 6 front (signs ++ [op]) where
  opens := h.opens.mono h.level_le
  level_le := Nat.le_refl 6
  areSigns := by
    simp only [List.mem_append, List.mem_singleton]
    rintro other (hother | rfl)
    · exact h.areSigns other hother
    · exact hop
  level_eq := fun _ => rfl

/-- `Leads` a level also leads the level of signs. -/
theorem six (h : Leads level front signs) : Leads 6 front signs where
  opens := h.opens.mono h.level_le
  level_le := Nat.le_refl 6
  areSigns := h.areSigns
  level_eq := fun _ => rfl

/-- `Leads` a level below that of signs has no signs. -/
theorem signs_eq_nil (h : Leads level front signs) (hlt : level < 6) : signs = [] := by
  refine Classical.byContradiction fun hne => ?_
  exact Nat.ne_of_lt hlt (h.level_eq hne)

end Leads

/-! ## Parentheses -/

/-- How tightly an expression binds as a whole. -/
def tightness : Expr κ → Nat
  | apply op [_, _] => op.priority
  | _ => 7

/-- `chars` of what binds tightly enough are the same as at the lowest level. -/
theorem chars_of_le {e : Expr κ} {level : Nat} (h : level ≤ e.tightness) :
    e.chars level = e.chars 0 := by
  unfold tightness at h
  -- only infix operations look at the level
  split at h
  · rw [chars, chars, if_neg (Nat.not_lt.2 h), if_neg (Nat.not_lt_zero _)]
  · next hother =>
    unfold chars
    split <;> first | rfl | exact absurd rfl (hother _ _ _)

/-- `chars` of what binds less tightly than it has to are put in parentheses. -/
theorem chars_of_lt {e : Expr κ} {level : Nat} (h : e.tightness < level) (hle : level ≤ 6) :
    e.chars level = '(' :: (e.chars 0 ++ [')']) := by
  unfold tightness at h
  split at h
  · rw [chars, chars, if_pos h, if_neg (Nat.not_lt_zero _)]
  · omega

/-- `tightness` below that of signs belongs to infix operations only. -/
theorem Legible.exists_of_tightness {e : Expr κ} (h : e.Legible) (hlt : e.tightness < 6) :
    ∃ op a b, e = .apply op [a, b] ∧ op.arity = 2 ∧ Legible a ∧ Legible b := by
  -- only a binary operator is looser than an operand in parentheses
  cases h with
  | @apply op operands harity hoperands =>
    unfold tightness at hlt
    split at hlt
    · next he =>
      cases he
      exact ⟨_, _, _, rfl, harity.symm, hoperands _ List.mem_cons_self,
        hoperands _ (List.mem_cons_of_mem _ List.mem_cons_self)⟩
    · omega
  | _ => simp [tightness] at hlt

end Expr
end HybridAutomata
