/-!
# Names

Names in a model are identifiers: an ASCII letter or an underscore, followed by ASCII letters,
digits and underscores. A name that is taken gets a number (`freshName`).

Dotted names and colon separated lists are cut at single characters: at the first occurrence
(`cut?`) or at all of them (`pieces`). The separator is dropped. Text without a separator is one
piece.
-/

namespace HybridAutomata.Text

/-! ## Cutting and joining -/

/-- Cuts a list of characters at the first occurrence of `c`. -/
def cutChars? (c : Char) : List Char → Option (List Char × List Char)
  | [] => none
  | d :: rest =>
    if d = c then some ([], rest)
    else (cutChars? c rest).map fun (head, tail) => (d :: head, tail)

/-- Cuts a text at the first occurrence of `c`, if there is one. -/
def cut? (c : Char) (text : String) : Option (String × String) :=
  (cutChars? c text.toList).map fun (head, tail) => (String.ofList head, String.ofList tail)

/-- Cuts a list of characters at all occurrences of `c`. -/
def piecesChars (c : Char) : List Char → List (List Char)
  | [] => [[]]
  | d :: rest =>
    -- two separators with nothing between them enclose an empty piece
    if d = c then [] :: piecesChars c rest
    else match piecesChars c rest with
      | [] => [[d]]
      | piece :: others => (d :: piece) :: others

/-- Cuts a text at all occurrences of `c`. -/
def pieces (c : Char) (text : String) : List String :=
  (piecesChars c text.toList).map String.ofList

/-- What is left of a text that starts with `c`, without that character. -/
def afterMark? (c : Char) (text : String) : Option String :=
  match text.toList with
  | [] => none
  | d :: rest => if d = c then some (String.ofList rest) else none

/-- Joins texts with a separator between them. -/
def join (separator : String) : List String → String
  | [] => ""
  | [text] => text
  | text :: rest => text ++ separator ++ join separator rest

/-- A cut gives back the text when the separator is put in again. -/
theorem eq_of_cutChars? {c : Char} {text head tail : List Char}
    (h : cutChars? c text = some (head, tail)) : text = head ++ c :: tail := by
  induction text generalizing head tail with
  | nil => simp [cutChars?] at h
  | cons d rest ih =>
    simp only [cutChars?] at h
    split at h
    · next hd =>
      obtain ⟨rfl, rfl⟩ := Prod.mk.inj (Option.some.inj h)
      simp [hd]
    · obtain ⟨⟨head', tail'⟩, hr, he⟩ := Option.map_eq_some_iff.1 h
      obtain ⟨rfl, rfl⟩ := Prod.mk.inj he
      simp [ih hr]

/-- The part after a cut is shorter than the text. -/
theorem length_lt_of_cut? {c : Char} {text head tail : String}
    (h : cut? c text = some (head, tail)) : tail.length < text.length := by
  obtain ⟨⟨head', tail'⟩, hr, he⟩ := Option.map_eq_some_iff.1 h
  obtain ⟨rfl, rfl⟩ := Prod.mk.inj he
  have := congrArg List.length (eq_of_cutChars? hr)
  simp only [List.length_append, List.length_cons, String.length_toList] at this
  simp only [String.length_ofList]
  omega

/-! ## Identifiers -/

/-- Whether a character may start an identifier. -/
def isInitial (c : Char) : Bool :=
  c.isAlpha || c == '_'

/-- Whether a character may stand inside an identifier. -/
def isInner (c : Char) : Bool :=
  c.isAlphanum || c == '_'

/-- Whether a name is an identifier. -/
def isIdentifier (name : String) : Bool :=
  match name.toList with
  | [] => false
  | first :: rest => isInitial first && rest.all isInner

/-! ## Fresh names

A name that is taken is followed by a counter that starts at two. `freshName` tries as many names as
could be taken and one more, so it always finds a free one.
-/

/-- The names to try: the desired one, then the desired one followed by 2, 3, … -/
def candidate (desired : String) : Nat → String
  | 0 => desired
  | n + 1 => desired ++ String.ofList (Nat.toDigits 10 (n + 2))

/-- The first free name among `budget` candidates from the `n`-th on. -/
def probe (desired : String) (taken : String → Bool) : (budget n : Nat) → Option String
  | 0, _ => none
  | budget + 1, n =>
    -- the counters go up, so the first free one is the least
    if taken (candidate desired n) then probe desired taken budget (n + 1)
    else some (candidate desired n)

/-- The desired name, or the desired name followed by the least counter from two on that is free. -/
def freshName (desired : String) (taken : List String) : String :=
  (probe desired taken.contains (taken.length + 1) 0).getD desired

/-! ## Blanks -/

/-- Whether a character has the property White_Space. -/
def isBlank (c : Char) : Bool :=
  let n := c.toNat
  (0x9 ≤ n && n ≤ 0xD) || n == 0x20 || n == 0x85 || n == 0xA0 || n == 0x1680 ||
    (0x2000 ≤ n && n ≤ 0x200A) || n == 0x2028 || n == 0x2029 || n == 0x202F || n == 0x205F ||
    n == 0x3000

/-- Removes blanks from both ends. -/
def trim (text : List Char) : List Char :=
  ((text.dropWhile isBlank).reverse.dropWhile isBlank).reverse

end HybridAutomata.Text
