import HybridAutomata.Text.Names
/-!
# Dotted names

Joining and cutting are inverse to each other as long as no piece holds the separator, and
identifiers never hold a dot. So a dotted name stands for one list of identifiers only.

* `pieces_joinWith`, `join_inj` a joined list can be taken apart again
* `joinWith_pieces`             pieces can be put together again
* `cut?_eq_some_iff`            a cut is at the first dot
* `cut?_join`                   the first piece comes off a joined list
* `not_mem_of_isIdentifier`     identifiers have no dots
-/

namespace HybridAutomata.Text

/-! ## Lists of characters -/

/-- `piecesChars` of a list without the separator is the list as a whole. -/
theorem piecesChars_of_not_mem {c : Char} {chars : List Char} (h : c ∉ chars) :
    piecesChars c chars = [chars] := by
  -- induction on the characters, none of which is the separator
  induction chars with
  | nil => rfl
  | cons d rest ih =>
    rw [List.mem_cons, not_or] at h
    rw [piecesChars, if_neg (Ne.symm h.1), ih h.2]

/-- `piecesChars` takes a piece without the separator off at the separator behind it. -/
theorem piecesChars_append {c : Char} {piece : List Char} (h : c ∉ piece) (rest : List Char) :
    piecesChars c (piece ++ c :: rest) = piece :: piecesChars c rest := by
  induction piece with
  | nil => simp [piecesChars]
  | cons d tail ih =>
    rw [List.mem_cons, not_or] at h
    rw [List.cons_append, piecesChars, if_neg (Ne.symm h.1), ih h.2]

/-- `piecesChars` never gives no pieces at all. -/
theorem piecesChars_ne_nil (c : Char) (chars : List Char) : piecesChars c chars ≠ [] := by
  unfold piecesChars
  split
  · exact List.cons_ne_nil _ _
  · split
    · exact List.cons_ne_nil _ _
    · split <;> exact List.cons_ne_nil _ _

/-- `cutChars?` finds no separator where there is none. -/
theorem cutChars?_of_not_mem {c : Char} {chars : List Char} (h : c ∉ chars) :
    cutChars? c chars = none := by
  induction chars with
  | nil => rfl
  | cons d rest ih =>
    rw [List.mem_cons, not_or] at h
    rw [cutChars?, if_neg (Ne.symm h.1), ih h.2]
    rfl

/-- `cutChars?` cuts at the first separator. -/
theorem cutChars?_append {c : Char} {piece : List Char} (h : c ∉ piece) (rest : List Char) :
    cutChars? c (piece ++ c :: rest) = some (piece, rest) := by
  induction piece with
  | nil => simp [cutChars?]
  | cons d tail ih =>
    rw [List.mem_cons, not_or] at h
    rw [List.cons_append, cutChars?, if_neg (Ne.symm h.1), ih h.2]
    rfl

/-! ## Texts -/

theorem toList_dot : ".".toList = ['.'] := rfl

/-- Two texts with a dot between them hold a dot. -/
theorem mem_toList_dotted (before after : String) : '.' ∈ (before ++ "." ++ after).toList := by
  rw [String.toList_append, String.toList_append, toList_dot]
  simp

/-- `join` puts a separator behind the first text, if there is another one. -/
theorem join_cons {separator text : String} {rest : List String} (h : rest ≠ []) :
    join separator (text :: rest) = text ++ separator ++ join separator rest := by
  cases rest with
  | nil => exact absurd rfl h
  | cons next others => rfl

/-- The characters of a list that `join` has put together, with a separator of one character. -/
theorem toList_joinWith_cons {separator text : String} {c : Char} {rest : List String}
    (hc : separator.toList = [c]) (h : rest ≠ []) :
    (join separator (text :: rest)).toList = text.toList ++ c :: (join separator rest).toList := by
  rw [join_cons h, String.toList_append, String.toList_append, hc, List.append_assoc,
    List.singleton_append]

/-- The characters of a list that `join` has put together with dots. -/
theorem toList_join_cons {text : String} {rest : List String} (h : rest ≠ []) :
    (join "." (text :: rest)).toList = text.toList ++ '.' :: (join "." rest).toList :=
  toList_joinWith_cons toList_dot h

/-- `join` puts a dot before the last name. -/
theorem join_concat {names : List String} (h : names ≠ []) (name : String) :
    join "." (names ++ [name]) = join "." names ++ "." ++ name := by
  -- induction on the names; what is behind the first one is joined in the same way
  induction names with
  | nil => exact absurd rfl h
  | cons first rest ih =>
    cases rest with
    | nil => rfl
    | cons next others =>
      have hne : next :: others ≠ [] := List.cons_ne_nil _ _
      rw [List.cons_append, join_cons (by simp), ih hne, join_cons hne]
      simp only [String.append_assoc]

/-- `join` may put the second part of a list together first. -/
theorem join_append {left right : List String} (h : right ≠ []) :
    join "." (left ++ right) = join "." (left ++ [join "." right]) := by
  induction left with
  | nil => rfl
  | cons name rest ih =>
    rw [List.cons_append, List.cons_append, join_cons (by simp [h]), join_cons (by simp), ih]

/-- `join` gives no empty text if the first name is not empty. -/
theorem join_ne_empty {name : String} {rest : List String} (h : name ≠ "") :
    join "." (name :: rest) ≠ "" := by
  by_cases hr : rest = []
  · subst hr
    exact h
  · intro he
    have hlist := congrArg String.toList he
    rw [toList_join_cons hr] at hlist
    simp at hlist

/-- `pieces` takes apart what `join` has put together, if no name holds the separator. -/
theorem pieces_joinWith {separator : String} {c : Char} (hc : separator.toList = [c])
    {names : List String} (hne : names ≠ []) (h : ∀ name ∈ names, c ∉ name.toList) :
    pieces c (join separator names) = names := by
  -- induction on the names, which come off one by one
  induction names with
  | nil => exact absurd rfl hne
  | cons name rest ih =>
    have hname := h name List.mem_cons_self
    by_cases hr : rest = []
    · subst hr
      rw [pieces, join, piecesChars_of_not_mem hname, List.map_singleton, String.ofList_toList]
    · have hrest := ih hr fun other ho => h other (List.mem_cons_of_mem _ ho)
      rw [pieces] at hrest
      -- the first name ends at the first separator
      rw [pieces, toList_joinWith_cons hc hr, piecesChars_append hname, List.map_cons, hrest,
        String.ofList_toList]

/-- `pieces` takes apart what `join` has put together with dots, if no name holds a dot. -/
theorem pieces_join {names : List String} (hne : names ≠ [])
    (h : ∀ name ∈ names, '.' ∉ name.toList) :
    pieces '.' (join "." names) = names :=
  pieces_joinWith toList_dot hne h

/-- `join` puts the `pieces` of a text together again. -/
theorem joinWith_pieces {separator : String} {c : Char} (hc : separator.toList = [c])
    (text : String) :
    join separator (pieces c text) = text := by
  apply String.toList_inj.1
  rw [pieces]
  -- induction on the characters of the text
  induction text.toList with
  | nil => rfl
  | cons d rest ih =>
    have hne : (piecesChars c rest).map String.ofList ≠ [] := by simp [piecesChars_ne_nil]
    rw [piecesChars]
    by_cases hd : d = c
    · rw [if_pos hd, List.map_cons, toList_joinWith_cons hc hne, ih, hd]
      rfl
    · rw [if_neg hd]
      cases hp : piecesChars c rest with
      | nil => exact absurd hp (piecesChars_ne_nil c rest)
      | cons piece others =>
        -- the character belongs to the first piece
        rw [hp] at ih
        cases others with
        | nil => simpa [join] using ih
        | cons next more =>
          rw [List.map_cons, toList_joinWith_cons hc (by simp), String.toList_ofList] at ih
          rw [← ih]
          show (join separator (String.ofList (d :: piece) :: _)).toList = _
          rw [toList_joinWith_cons hc (by simp), String.toList_ofList, List.cons_append]

theorem join_pieces (text : String) : join "." (pieces '.' text) = text :=
  joinWith_pieces toList_dot text

/-- `join` is injective on lists of texts without dots. -/
theorem join_inj {names names' : List String} (hne : names ≠ []) (hne' : names' ≠ [])
    (h : ∀ name ∈ names, '.' ∉ name.toList) (h' : ∀ name ∈ names', '.' ∉ name.toList)
    (heq : join "." names = join "." names') : names = names' := by
  rw [← pieces_join hne h, ← pieces_join hne' h', heq]

/-- `cut?` finds no dot where there is none. -/
theorem cut?_of_not_mem {text : String} (h : '.' ∉ text.toList) : cut? '.' text = none := by
  rw [cut?, cutChars?_of_not_mem h]
  rfl

/-- `cut?` fails just if there is no dot. -/
theorem cut?_eq_none_iff {text : String} : cut? '.' text = none ↔ '.' ∉ text.toList := by
  refine ⟨fun h hm => ?_, cut?_of_not_mem⟩
  obtain ⟨front, back, he, hf⟩ := List.eq_append_cons_of_mem hm
  rw [cut?, he, cutChars?_append hf] at h
  cases h

/-- `cut?` cuts at the first dot. -/
theorem cut?_eq_some_iff {text head tail : String} :
    cut? '.' text = some (head, tail) ↔ '.' ∉ head.toList ∧ text = head ++ "." ++ tail := by
  constructor
  · intro h
    have hm : '.' ∈ text.toList := by
      refine Decidable.byContradiction fun hm => ?_
      rw [cut?_of_not_mem hm] at h
      cases h
    -- the text before the first dot has no dot
    obtain ⟨front, back, he, hf⟩ := List.eq_append_cons_of_mem hm
    rw [cut?, he, cutChars?_append hf] at h
    obtain ⟨rfl, rfl⟩ := Prod.mk.inj (Option.some.inj h)
    rw [String.toList_ofList]
    refine ⟨hf, String.toList_inj.1 ?_⟩
    rw [he, String.toList_append, String.toList_append, toList_dot, String.toList_ofList,
      String.toList_ofList, List.append_assoc, List.singleton_append]
  · rintro ⟨hd, rfl⟩
    rw [cut?, String.toList_append, String.toList_append, toList_dot, List.append_assoc,
      List.singleton_append, cutChars?_append hd]
    simp only [Option.map_some, String.ofList_toList]

/-- `cut?` takes the first piece off a joined list. -/
theorem cut?_join {name : String} {rest : List String} (hr : rest ≠ []) (h : '.' ∉ name.toList) :
    cut? '.' (join "." (name :: rest)) = some (name, join "." rest) := by
  rw [cut?, toList_join_cons hr, cutChars?_append h]
  simp only [Option.map_some, String.ofList_toList]

/-- `join` of two or more names holds a dot. -/
theorem mem_toList_join_of_ne_nil {name : String} {rest : List String} (hr : rest ≠ []) :
    '.' ∈ (join "." (name :: rest)).toList := by
  rw [toList_join_cons hr]
  exact List.mem_append_right _ List.mem_cons_self

/-- `join` brings no characters in but dots. -/
theorem mem_toList_join_iff {c : Char} (hc : c ≠ '.') {names : List String} :
    c ∈ (join "." names).toList ↔ ∃ name ∈ names, c ∈ name.toList := by
  induction names with
  | nil => simp [join]
  | cons name rest ih =>
    by_cases hr : rest = []
    · subst hr
      simp [join]
    · rw [toList_join_cons hr, List.mem_append, List.mem_cons, or_iff_right hc, ih]
      simp

/-! ## Identifiers -/

/-- `isIdentifier` asks for a first character that is initial and for inner ones behind it. -/
theorem isIdentifier_iff {name : String} :
    isIdentifier name = true ↔
      ∃ first rest, name.toList = first :: rest ∧ isInitial first = true ∧
        ∀ c ∈ rest, isInner c = true := by
  rw [isIdentifier]
  -- an identifier is not empty
  cases name.toList with
  | nil => simp
  | cons first rest =>
    rw [Bool.and_eq_true, List.all_eq_true]
    constructor
    · exact fun h => ⟨first, rest, rfl, h⟩
    · rintro ⟨_, _, he, h⟩
      cases he
      exact h

/-- `isInitial` characters may stand inside a name as well. -/
theorem isInner_of_isInitial {c : Char} (h : isInitial c = true) : isInner c = true := by
  rw [isInitial, Bool.or_eq_true] at h
  rw [isInner, Bool.or_eq_true, Char.isAlphanum, Bool.or_eq_true]
  rcases h with h | h
  · exact .inl (.inl h)
  · exact .inr h

/-- `isInitial` does not hold of digits. -/
theorem not_isInitial_of_isDigit {c : Char} (h : c.isDigit = true) : ¬ isInitial c = true := by
  have hunderscore : c = '_' → ¬ c.isDigit = true := by
    rintro rfl
    decide
  rw [isInitial, Bool.or_eq_true, beq_iff_eq]
  rintro (ha | hu)
  · unfold Char.isDigit at h
    unfold Char.isAlpha Char.isUpper Char.isLower at ha
    simp only [Bool.or_eq_true, Bool.and_eq_true, decide_eq_true_eq, ge_iff_le,
      UInt32.le_iff_toNat_le] at h ha
    -- the digits come before all letters
    have hbounds : '9'.val.toNat < 'A'.val.toNat ∧ '9'.val.toNat < 'a'.val.toNat := by decide
    omega
  · exact hunderscore hu h

/-- All characters of a text that `isIdentifier` are inner ones. -/
theorem isInner_of_isIdentifier {name : String} (h : isIdentifier name = true) {c : Char}
    (hc : c ∈ name.toList) : isInner c = true := by
  obtain ⟨first, rest, hn, hf, hr⟩ := isIdentifier_iff.1 h
  rw [hn] at hc
  rcases List.mem_cons.1 hc with rfl | hc
  · exact isInner_of_isInitial hf
  · exact hr c hc

/-- A text that `isIdentifier` has no dots. -/
theorem not_mem_of_isIdentifier {name : String} (h : isIdentifier name = true) :
    '.' ∉ name.toList := by
  intro hc
  cases isInner_of_isIdentifier h hc

/-- A text that `isIdentifier` is not empty. -/
theorem ne_empty_of_isIdentifier {name : String} (h : isIdentifier name = true) : name ≠ "" := by
  rintro rfl
  cases h

/-- A text that `isIdentifier` can be continued with inner characters. -/
theorem isIdentifier_append {start rest : String} (h : isIdentifier start = true)
    (hr : ∀ c ∈ rest.toList, isInner c = true) : isIdentifier (start ++ rest) = true := by
  obtain ⟨first, tail, hn, hf, ht⟩ := isIdentifier_iff.1 h
  refine isIdentifier_iff.2 ⟨first, tail ++ rest.toList, ?_, hf, fun c hc => ?_⟩
  · rw [String.toList_append, hn, List.cons_append]
  · rcases List.mem_append.1 hc with hc | hc
    · exact ht c hc
    · exact hr c hc

/-! ## Numbers in names -/

/-- `toDigits` tells numbers apart. -/
theorem toDigits_inj {m n : Nat} (h : Nat.toDigits 10 m = Nat.toDigits 10 n) : m = n := by
  rw [← Nat.ofDigitChars_ten_toDigits (n := m), h, Nat.ofDigitChars_ten_toDigits]

/-- A text that `isIdentifier` can be continued with a number. -/
theorem isIdentifier_append_digits {start : String} (h : isIdentifier start = true) (number : Nat) :
    isIdentifier (start ++ String.ofList (Nat.toDigits 10 number)) = true := by
  refine isIdentifier_append h fun c hc => ?_
  rw [String.toList_ofList] at hc
  have hdigit : c.isDigit = true := Nat.isDigit_of_mem_toDigits (by decide) (by decide) hc
  simp [isInner, Char.isAlphanum, hdigit]

end HybridAutomata.Text
