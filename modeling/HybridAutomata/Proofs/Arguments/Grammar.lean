import HybridAutomata.Proofs.Arguments.Spans
import HybridAutomata.Proofs.Text.Dotted
/-!
# The quoting grammar of parameter texts

Double quotes cut a parameter text into segments that stand outside and inside quotes by turns. A
segment outside quotes holds the words between its separators. A segment inside quotes is one token
as it stands; only a quote that is never closed and has nothing behind it gives none.

* `scan_eq_tokensFrom`  the scan reads this grammar, wherever it stands
* `flatMap_scan`        nothing is lost but quotes and separators outside quotes
* `split_join_inQuotes` texts that are put in quotes are read back
-/

namespace HybridAutomata.Arguments

/-- The longest runs of characters that do not separate tokens. -/
def words (segment : List Char) : List (List Char) :=
  (segment.splitOnP isSeparator).filter (· ≠ [])

/-- The tokens in the segment at a position, of `count` segments in all. Segments at odd positions
stand inside quotes, and the last segment at such a position has no closing quote. -/
def segmentTokens (count position : Nat) (segment : List Char) : List (List Char) :=
  if position % 2 = 0 then words segment
  else if position + 1 = count ∧ segment = [] then []
  else [segment]

/-- The tokens of the segments from a position on. -/
def tokensFrom (position : Nat) (segments : List (List Char)) : List (List Char) :=
  (segments.zipIdx position).flatMap fun (segment, place) =>
    segmentTokens (position + segments.length) place segment

/-- The tokens of a text by the quoting grammar. -/
def tokens (text : List Char) : List (List Char) :=
  tokensFrom 0 (text.splitOn '"')

/-- The characters in the rest of a text that are neither quotes nor separators outside quotes. -/
def content (quoted : Bool) : List Char → List Char
  | [] => []
  | c :: rest =>
    if c = '"' then content (!quoted) rest
    else if isSeparator c && !quoted then content quoted rest
    else c :: content quoted rest

/-- A text between double quotes. -/
def inQuotes (text : String) : String :=
  "\"" ++ text ++ "\""

/-! ## Words -/

/-- There are no words in an empty segment. -/
@[simp]
theorem words_nil : words [] = [] := by
  simp [words]

/-- A separator ends a word, so `words` are those on its left and those on its right. -/
theorem words_append_separator {c : Char} (hc : isSeparator c = true) (left right : List Char) :
    words (left ++ c :: right) = words left ++ words right := by
  -- `splitOnP` cuts at the separator, and the filter works on both parts
  rw [words, List.splitOnP_append_cons left right hc, List.filter_append]
  rfl

/-- A run of characters that do not separate is one of the `words`. -/
theorem words_run {run : List Char} (hne : run ≠ []) (h : ∀ c ∈ run, isSeparator c = false) :
    words run = [run] := by
  rw [words, List.splitOnP_eq_singleton h]
  simp [hne]

/-! ## Segments -/

/-- A segment with nothing behind it is the last of all. -/
theorem tokensFrom_singleton (position : Nat) (segment : List Char) :
    tokensFrom position [segment] = segmentTokens (position + 1) position segment := by
  simp [tokensFrom]

/-- A quote in front closes an empty segment. -/
theorem splitOn_cons_quote (rest : List Char) :
    ('"' :: rest).splitOn '"' = [] :: rest.splitOn '"' := by
  rw [List.splitOn_cons_eq_if_modifyHead, if_pos (beq_self_eq_true _)]

/-- A character that is no quote belongs to the first segment. -/
theorem splitOn_cons_of_ne {c : Char} (h : c ≠ '"') (rest : List Char) :
    (c :: rest).splitOn '"' = (rest.splitOn '"').modifyHead (c :: ·) := by
  rw [List.splitOn_cons_eq_if_modifyHead, if_neg (by simpa using h)]

/-- Putting nothing in front of the first segment changes nothing. -/
theorem modifyHead_nil_append (segments : List (List Char)) :
    segments.modifyHead ([] ++ ·) = segments := by
  cases segments <;> rfl

/-- A segment with more behind it: if it stands inside quotes, its quote is closed. -/
theorem tokensFrom_cons {position : Nat} {segment : List Char} {rest : List (List Char)}
    (hrest : rest ≠ []) :
    tokensFrom position (segment :: rest) =
      (if position % 2 = 0 then words segment else [segment]) ++
        tokensFrom (position + 1) rest := by
  -- seen from the next position, the segments end where they ended
  have hcount : position + (segment :: rest).length = position + 1 + rest.length := by
    rw [List.length_cons]
    omega
  have hlast : position + 1 ≠ position + 1 + rest.length := by
    have := List.length_pos_iff.2 hrest
    omega
  rw [tokensFrom, List.zipIdx_cons, List.flatMap_cons, tokensFrom, hcount]
  simp only [segmentTokens, hlast, false_and, if_false]

/-- Words in front of a segment outside quotes. -/
theorem tokensFrom_modifyHead {position : Nat} (heven : position % 2 = 0)
    {segments : List (List Char)} (hne : segments ≠ []) {extend : List Char → List Char}
    {before : List (List Char)} (h : ∀ segment, words (extend segment) = before ++ words segment) :
    tokensFrom position (segments.modifyHead extend) = before ++ tokensFrom position segments := by
  cases segments with
  | nil => exact absurd rfl hne
  | cons segment rest =>
    rw [List.modifyHead_cons]
    -- whether the first segment is the last one does not depend on what is put in front of it
    cases rest with
    | nil => simp only [tokensFrom_singleton, segmentTokens, if_pos heven, h]
    | cons next others =>
      have hrest : next :: others ≠ [] := List.cons_ne_nil _ _
      rw [tokensFrom_cons hrest, tokensFrom_cons hrest, if_pos heven, if_pos heven, h,
        List.append_assoc]

/-! ## The scan -/

/-- A token at hand has characters, and outside quotes none of them separates. -/
structure IsPending (quoted : Bool) (token : Option (List Char)) : Prop where
  nonempty : token ≠ some []
  run : quoted = false → ∀ c ∈ token.getD [], isSeparator c = false

theorem isPending_none (quoted : Bool) : IsPending quoted none :=
  ⟨by simp, by simp⟩

/-- A character that does not finish the token belongs to it. -/
theorem IsPending.push {quoted : Bool} {token : Option (List Char)} {c : Char}
    (h : IsPending quoted token) (hc : ¬ (isSeparator c && !quoted) = true) :
    IsPending quoted (some (c :: token.getD [])) := by
  constructor
  · simp
  · intro hquoted d hd
    obtain rfl | hd := List.mem_cons.1 hd
    · simpa [hquoted] using hc
    · exact h.run hquoted d hd

/-- A word that ends outside quotes gives `words` of the token at hand, which is what `finish`
gives. -/
theorem IsPending.map_words {token : Option (List Char)} (h : IsPending false token) :
    (words (pending token)).map String.ofList = finish token := by
  cases token with
  | none => simp [finish]
  | some reversed =>
    -- the token at hand holds its characters in reverse
    have hne : reversed.reverse ≠ [] := by simpa using h.nonempty
    rw [pending, Option.getD_some, words_run hne (by simpa using h.run rfl)]
    rfl

/-- At the end of the text `segmentTokens` of the token at hand are what `finish` gives. -/
theorem IsPending.map_segmentTokens {quoted : Bool} {position : Nat} {token : Option (List Char)}
    (h : IsPending quoted token) (hposition : position % 2 = quoted.toNat) :
    (segmentTokens (position + 1) position (pending token)).map String.ofList = finish token := by
  cases quoted with
  | false =>
    have heven : position % 2 = 0 := hposition
    rw [segmentTokens, if_pos heven, h.map_words]
  | true =>
    have hodd : position % 2 = 1 := hposition
    rw [segmentTokens, if_neg (by omega)]
    -- a quote that is not closed gives a token only if something stands behind it
    cases token with
    | none => simp [finish]
    | some reversed =>
      have hne : reversed ≠ [] := by simpa using h.nonempty
      simp [finish, pending, hne]

/-- A quote finishes the segment, and the scan goes on in the next one. -/
theorem IsPending.scan_quote {quoted : Bool} {position : Nat} {token : Option (List Char)}
    (h : IsPending quoted token) (hposition : position % 2 = quoted.toNat) (rest : List Char) :
    scan quoted token ('"' :: rest) =
      (if position % 2 = 0 then words (pending token) else [pending token]).map String.ofList ++
        scan (!quoted) none rest := by
  rw [scan, if_pos rfl]
  -- between two quotes there is a token, also if it is empty
  cases quoted with
  | false =>
    have heven : position % 2 = 0 := hposition
    rw [if_pos heven, h.map_words]
    rfl
  | true =>
    have hodd : ¬ position % 2 = 0 := by
      rw [hposition]
      decide
    rw [if_pos rfl, if_neg hodd]
    rfl

/-- The scan reads the segments from a position on, as `tokensFrom` does. The token at hand is the
beginning of the first of them. -/
theorem scan_eq_tokensFrom {quoted : Bool} {position : Nat} {token : Option (List Char)}
    {chars : List Char} (h : IsPending quoted token) (hposition : position % 2 = quoted.toNat) :
    scan quoted token chars =
      (tokensFrom position
        ((chars.splitOn '"').modifyHead (pending token ++ ·))).map String.ofList := by
  -- induction on the characters; position and token go along, tied together by `IsPending`
  induction chars generalizing quoted position token with
  | nil =>
    rw [List.splitOn_nil, List.modifyHead_cons, List.append_nil, tokensFrom_singleton,
      h.map_segmentTokens hposition, scan]
  | cons c rest ih =>
    have hsegments : rest.splitOn '"' ≠ [] := List.splitOn_ne_nil _ _
    -- where the scan goes on without a token at hand
    have hnext {again : Bool} {place : Nat} (hplace : place % 2 = again.toNat) :
        scan again none rest = (tokensFrom place (rest.splitOn '"')).map String.ofList := by
      have hscan := ih (isPending_none again) hplace
      rwa [pending_none, modifyHead_nil_append] at hscan
    by_cases hquote : c = '"'
    · -- the next segment stands inside quotes just if this one does not
      have hplace : (position + 1) % 2 = (!quoted).toNat := by
        cases quoted <;> simp at hposition ⊢ <;> omega
      rw [hquote, h.scan_quote hposition, splitOn_cons_quote, List.modifyHead_cons,
        List.append_nil, tokensFrom_cons hsegments, List.map_append, hnext hplace]
    · rw [scan, if_neg hquote, splitOn_cons_of_ne hquote, List.modifyHead_modifyHead]
      by_cases hseparator : (isSeparator c && !quoted) = true
      · -- a word ends here, and the segment goes on
        obtain ⟨hc, rfl⟩ : isSeparator c = true ∧ quoted = false := by simpa using hseparator
        have hwords (segment : List Char) :
            words (pending token ++ c :: segment) = words (pending token) ++ words segment :=
          words_append_separator hc _ _
        rw [if_pos hseparator, hnext hposition, ← h.map_words, ← List.map_append,
          ← tokensFrom_modifyHead hposition hsegments hwords]
        rfl
      · -- the token at hand goes on
        have hextend : (pending token ++ [c] ++ ·) = (pending token ++ ·) ∘ (c :: ·) := by
          funext segment
          exact List.append_assoc _ _ _
        rw [if_neg hseparator, ih (h.push hseparator) hposition, pending_push, hextend]

/-- The tokens hold the `content` of a text: nothing is lost on the way, and nothing comes twice. -/
theorem flatMap_scan (quoted : Bool) (token : Option (List Char)) (chars : List Char) :
    (scan quoted token chars).flatMap String.toList =
      pending token ++ content quoted chars := by
  -- the characters at hand come out with the token, whenever it is finished
  have hfinish (token : Option (List Char)) :
      (finish token).flatMap String.toList = pending token := by
    cases token <;> simp [finish, pending]
  -- induction on the characters; each of them goes to the token or is dropped by `content` as well
  induction chars generalizing quoted token with
  | nil => rw [scan, hfinish, content, List.append_nil]
  | cons c rest ih =>
    rw [scan, content]
    split
    · cases quoted <;> simp [hfinish, ih]
    · split <;> simp [hfinish, ih]

/-! ## Texts in quotes -/

/-- Inside quotes everything up to the next quote belongs to the token. -/
theorem scan_inside {text : List Char} (h : '"' ∉ text) (token : Option (List Char))
    (rest : List Char) :
    scan true token (text ++ '"' :: rest) =
      String.ofList (pending token ++ text) :: scan false none rest := by
  -- induction on the text; the token at hand grows, so it varies
  induction text generalizing token with
  | nil => simp [scan, finish, pending]
  | cons c others ih =>
    obtain ⟨hc, hothers⟩ := not_or.1 (mt List.mem_cons.2 h)
    rw [List.cons_append, scan, if_neg (Ne.symm hc), if_neg (by simp), ih hothers]
    simp

/-- A text between quotes is one token, and the scan goes on behind it. -/
theorem scan_inQuotes {text : String} (h : '"' ∉ text.toList) (rest : List Char) :
    scan false none ((inQuotes text).toList ++ rest) = text :: scan false none rest := by
  have htext : (inQuotes text).toList ++ rest = '"' :: (text.toList ++ '"' :: rest) := by
    simp [inQuotes]
  rw [htext, scan, if_pos rfl, if_neg Bool.false_ne_true, scan_inside h]
  simp [finish]

/-- Separators between two tokens do not matter. -/
theorem scan_gap {gap : List Char} (h : ∀ c ∈ gap, isSeparator c = true) (rest : List Char) :
    scan false none (gap ++ rest) = scan false none rest := by
  -- induction on the gap, in which no token ever starts
  induction gap with
  | nil => rfl
  | cons c others ih =>
    have hc : isSeparator c = true := h c List.mem_cons_self
    -- quotes do not separate
    have hquote : c ≠ '"' := by
      intro he
      rw [he] at hc
      exact absurd hc (by decide)
    rw [List.cons_append, scan, if_neg hquote, if_pos (by simp [hc]),
      ih fun d hd => h d (List.mem_cons_of_mem _ hd)]
    rfl

/-- `split` reads texts back that were put in quotes and joined with separators between them, or
with nothing. -/
theorem split_join_inQuotes {gap : String} (hgap : ∀ c ∈ gap.toList, isSeparator c = true)
    {texts : List String} (h : ∀ text ∈ texts, '"' ∉ text.toList) :
    split (Text.join gap (texts.map inQuotes)) = texts := by
  -- induction on the texts; only the last one has no gap behind it
  induction texts with
  | nil => rfl
  | cons text rest ih =>
    have htext := h text List.mem_cons_self
    have hrest := ih fun other hother => h other (List.mem_cons_of_mem _ hother)
    cases rest with
    | nil => simpa [split, Text.join, scan, finish] using scan_inQuotes htext []
    | cons next others =>
      -- the first text comes off, then the gap behind it
      rw [List.map_cons, Text.join_cons (by simp), split, String.toList_append,
        String.toList_append, List.append_assoc, scan_inQuotes htext, scan_gap hgap]
      exact congrArg (text :: ·) hrest

/-! ## The grammar -/

/-- A parameter text is split as its quotes say: the tokens are those of the grammar, they hold
every character but quotes and separators outside quotes once and in order, each is a slice of the
text between two of its positions, and texts in quotes are read back whatever separators stand
between them, if any. -/
theorem split_follows_quoting (params : String) :
    split params = (tokens params.toList).map String.ofList ∧
      (split params).flatMap String.toList = content false params.toList ∧
      List.Forall₂ (IsSlice params) (spans params) (split params) ∧
      ((spans params).Pairwise fun left right => left.2 ≤ right.1) ∧
      ∀ (gap : String) (texts : List String), (∀ c ∈ gap.toList, isSeparator c = true) →
        (∀ text ∈ texts, '"' ∉ text.toList) →
        split (Text.join gap (texts.map inQuotes)) = texts := by
  refine ⟨?_, flatMap_scan false none _, forall₂_spans params, pairwise_spans params,
    fun gap texts hgap htexts => split_join_inQuotes hgap htexts⟩
  -- the scan starts at position 0, outside quotes and without a token at hand
  have h := @scan_eq_tokensFrom false 0 none params.toList (isPending_none false) rfl
  rwa [pending_none, modifyHead_nil_append] at h

/-- Empty, adjacent and unclosed quotes, quotes inside words and characters of several bytes. -/
theorem mixed_quotes_are_split :
    split "-n \"\"\"a b\"x✔\t \"é " = ["-n", "", "a b", "x✔", "é "] ∧
      split (Text.join " " (["", "a b", "✔"].map inQuotes)) = ["", "a b", "✔"] ∧
      split (Text.join "" (["", "a b", "✔"].map inQuotes)) = ["", "a b", "✔"] := by
  have htexts : ∀ text ∈ ["", "a b", "✔"], '"' ∉ text.toList := by simp
  have hspace : ∀ c ∈ " ".toList, isSeparator c = true := by simp [isSeparator]
  refine ⟨(split_follows_quoting _).1.trans (by decide), ?_, ?_⟩
  · exact (split_follows_quoting "").2.2.2.2 " " _ hspace htexts
  · exact (split_follows_quoting "").2.2.2.2 "" _ (by simp) htexts

end HybridAutomata.Arguments
