import Mathlib.Data.List.Forall2
import Mathlib.Data.String.Basic
import HybridAutomata.Pass.Options
/-!
# Where the tokens stand in the text

The tokens of a parameter text are slices of it. `spans` is the same scan as `split` with byte
offsets in place of characters: a token begins at the offset of its first character and ends at the
offset of the character that finishes it. Both offsets lie between two characters, whatever the
characters take in bytes, and the slices follow one another without overlapping.
-/

namespace HybridAutomata.Arguments

open String (utf8Len)

/-- The span from the start of the token at hand, if there is one. -/
def close : (start : Option Nat) → (stop : Nat) → List (Nat × Nat)
  | none, _ => []
  | some start, stop => [(start, stop)]

/-- The spans of the tokens in the rest of a text, which begins at `offset`. `start` is the offset
of the token at hand. -/
def scanSpans (quoted : Bool) (start : Option Nat) (offset : Nat) : List Char → List (Nat × Nat)
  | [] => close start offset
  | c :: rest =>
    if c = '"' then
      if quoted then
        -- an empty token between two quotes stands at the closing quote
        close (some (start.getD offset)) offset ++ scanSpans false none (offset + c.utf8Size) rest
      else close start offset ++ scanSpans true none (offset + c.utf8Size) rest
    else if isSeparator c && !quoted then
      close start offset ++ scanSpans quoted none (offset + c.utf8Size) rest
    else scanSpans quoted (some (start.getD offset)) (offset + c.utf8Size) rest

/-- The byte offsets between which the tokens of a text stand. -/
def spans (params : String) : List (Nat × Nat) :=
  scanSpans false none 0 params.toList

/-- The characters of the token at hand, in the order of the text. -/
def pending (token : Option (List Char)) : List Char :=
  (token.getD []).reverse

/-- Without a token at hand there are no characters. -/
@[simp]
theorem pending_none : pending none = [] := rfl

/-- A token without characters has none, as if it were not there. -/
@[simp]
theorem pending_getD (token : Option (List Char)) :
    pending (some (token.getD [])) = pending token := rfl

/-- `scan` pushes a character to the front of the reversed token, which is the end of the token. -/
@[simp]
theorem pending_push (c : Char) (token : Option (List Char)) :
    pending (some (c :: token.getD [])) = pending token ++ [c] :=
  List.reverse_cons

/-! ## Slices -/

/-- `token` is what stands in the text from the first byte offset up to the second one. Both are
positions of the text, so no character is cut in two. -/
def IsSlice (text : String) (span : Nat × Nat) (token : String) : Prop :=
  ∃ first last : text.Pos, first ≤ last ∧ first.offset.byteIdx = span.1 ∧
    last.offset.byteIdx = span.2 ∧ text.extract first last = token

/-- What stands between two parts of a text is a slice of it. -/
theorem isSlice_append (before token after : String) :
    IsSlice (before ++ token ++ after)
      (before.utf8ByteSize, before.utf8ByteSize + token.utf8ByteSize) token := by
  -- both offsets are boundaries of characters, because the text can be cut there
  have hfirst : String.Pos.Raw.IsValid (before ++ token ++ after) ⟨before.utf8ByteSize⟩ :=
    String.Pos.Raw.isValid_iff_exists_append.2 ⟨before, token ++ after, String.append_assoc, rfl⟩
  have hlast : String.Pos.Raw.IsValid (before ++ token ++ after)
      ⟨before.utf8ByteSize + token.utf8ByteSize⟩ :=
    String.Pos.Raw.isValid_iff_exists_append.2 ⟨before ++ token, after, rfl, by
      rw [String.rawEndPos, String.utf8ByteSize_append]⟩
  refine ⟨⟨_, hfirst⟩, ⟨_, hlast⟩, Nat.le_add_right _ _, rfl, rfl, ?_⟩
  -- the bytes of the middle part, once those of the last part are dropped
  have hsize := ByteArray.size_append (a := before.toByteArray) (b := token.toByteArray)
  rw [← String.toByteArray_inj, String.toByteArray_extract]
  simp only [String.toByteArray_append, ← String.size_toByteArray]
  rw [ByteArray.extract_append, ByteArray.extract_append_eq_right rfl rfl, hsize]
  simp

/-- `isSlice_append` for texts that are given by their characters. -/
theorem isSlice_ofList (before token after : List Char) :
    IsSlice (String.ofList (before ++ token ++ after))
      (utf8Len before, utf8Len (before ++ token)) (String.ofList token) := by
  have h := isSlice_append (String.ofList before) (String.ofList token) (String.ofList after)
  simp only [← String.ofList_append, String.utf8ByteSize_ofList] at h
  rwa [String.utf8Len_append]

/-! ## The scan by offsets -/

/-- `finish` gives the token at hand, and `close` the span at which it is sliced off. -/
theorem forall₂_close {text : String} {before after : List Char} {token : Option (List Char)}
    (htext : text = String.ofList (before ++ pending token ++ after)) :
    List.Forall₂ (IsSlice text)
      (close (token.map fun _ => utf8Len before) (utf8Len (before ++ pending token)))
      (finish token) := by
  cases token with
  | none => exact .nil
  | some reversed =>
    rw [htext]
    exact .cons (isSlice_ofList before reversed.reverse after) .nil

/-- The token at hand starts behind what is before it, also if it has no character yet. -/
theorem getD_start (before : List Char) (token : Option (List Char)) :
    (token.map fun _ => utf8Len before).getD (utf8Len (before ++ pending token)) =
      utf8Len before := by
  cases token with
  | none => simp
  | some reversed => rfl

/-- `scanSpans` and `scan` agree, token by token. `before` is what precedes the token at hand. -/
theorem forall₂_scanSpans {text : String} {quoted : Bool} {before chars : List Char}
    {token : Option (List Char)}
    (htext : text = String.ofList (before ++ pending token ++ chars)) :
    List.Forall₂ (IsSlice text)
      (scanSpans quoted (token.map fun _ => utf8Len before)
        (utf8Len (before ++ pending token)) chars)
      (scan quoted token chars) := by
  -- induction on the characters; `before` stays where it is until the token is finished
  induction chars generalizing quoted before token with
  | nil => exact forall₂_close htext
  | cons c rest ih =>
    -- the next token starts behind `c`
    have hnext (again : Bool) :
        List.Forall₂ (IsSlice text)
          (scanSpans again none (utf8Len (before ++ pending token) + c.utf8Size) rest)
          (scan again none rest) := by
      have h := @ih again (before ++ pending token ++ [c]) none (by simp [htext])
      rw [pending_none, List.append_nil, String.utf8Len_append] at h
      simpa using h
    -- both scans ask the same questions
    unfold scanSpans scan
    split
    · -- a quote finishes the token at hand, if there is one or quotes enclose it
      cases quoted with
      | true =>
        have h := @forall₂_close text before (c :: rest) (some (token.getD [])) htext
        rw [if_pos rfl, if_pos rfl, getD_start]
        exact List.rel_append h (hnext false)
      | false => exact List.rel_append (forall₂_close htext) (hnext true)
    · split
      · exact List.rel_append (forall₂_close htext) (hnext quoted)
      · -- the token at hand goes on with `c`, and starts where it did
        have h := @ih quoted before (some (c :: token.getD [])) (by simp [htext])
        rw [getD_start]
        simpa [Nat.add_assoc] using h

/-- The tokens that `split` gives are the slices at the `spans`. -/
theorem forall₂_spans (params : String) :
    List.Forall₂ (IsSlice params) (spans params) (split params) :=
  @forall₂_scanSpans params false [] params.toList none (by simp)

/-! ## Order -/

/-- The spans come one after another, and none of them begins before `lower`. -/
def InOrder (lower : Nat) (spans : List (Nat × Nat)) : Prop :=
  (∀ span ∈ spans, lower ≤ span.1) ∧ spans.Pairwise fun left right => left.2 ≤ right.1

/-- A token that is finished before the next ones begin. -/
theorem InOrder.close_append {start : Option Nat} {offset next : Nat} {tail : List (Nat × Nat)}
    (htail : InOrder next tail) (hstart : start.getD offset ≤ offset) (hnext : offset ≤ next) :
    InOrder (start.getD offset) (close start offset ++ tail) := by
  have hlater (span : Nat × Nat) (hspan : span ∈ tail) : offset ≤ span.1 :=
    Nat.le_trans hnext (htail.1 span hspan)
  cases start with
  -- nothing is put in front of `tail`
  | none => exact ⟨hlater, htail.2⟩
  | some first =>
    constructor
    · intro span hspan
      obtain rfl | hspan := List.mem_cons.1 hspan
      · exact Nat.le_refl _
      · exact Nat.le_trans hstart (hlater span hspan)
    · exact List.pairwise_cons.2 ⟨hlater, htail.2⟩

/-- The spans that are still to come begin where the token at hand does, or at `offset`. -/
theorem inOrder_scanSpans {quoted : Bool} {start : Option Nat} {offset : Nat} {chars : List Char}
    (hstart : start.getD offset ≤ offset) :
    InOrder (start.getD offset) (scanSpans quoted start offset chars) := by
  -- induction on the characters, with the start of the token at hand as the bound
  induction chars generalizing quoted start offset with
  | nil =>
    have hnone : InOrder offset [] := ⟨fun _ h => absurd h List.not_mem_nil, .nil⟩
    simpa [scanSpans] using hnone.close_append hstart (Nat.le_refl _)
  | cons c rest ih =>
    have hnext : offset ≤ offset + c.utf8Size := Nat.le_add_right _ _
    -- what is finished at `c` ends before anything behind `c` starts
    have htail (again : Bool) := @ih again none (offset + c.utf8Size) (Nat.le_refl _)
    unfold scanSpans
    split
    · cases quoted with
      | true => exact (htail false).close_append hstart hnext
      | false => exact (htail true).close_append hstart hnext
    · split
      · exact (htail quoted).close_append hstart hnext
      · exact ih (Nat.le_trans hstart hnext)

/-- No two tokens overlap, and they stand in the order in which the scan finds them. -/
theorem pairwise_spans (params : String) :
    (spans params).Pairwise fun left right => left.2 ≤ right.1 :=
  (@inOrder_scanSpans false none 0 params.toList (Nat.le_refl _)).2

end HybridAutomata.Arguments
