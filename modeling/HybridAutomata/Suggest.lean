/-!
# Close names

Suggestions for a name that was not found: the candidates that match it, best first. Candidates with
equal scores keep their order.

A query matches a text in which its characters occur in order. Every way to place them has a score:
each placed character counts, a character at the start of a word counts more, runs count like their
first character, and gaps cost. The score of a text is the best score over all placements, found
with two rows of cells, one for the query characters placed so far and one for the next character.

The cells belong to a `Grid` that serves one text after the other. Cells that a text does not set
keep what the previous text left in them, and the score is read from the grid as it is.
-/

namespace HybridAutomata.Suggest

/-! ## Scoring a text -/

/-- The score of an impossible placement. -/
def hopeless : Int := -32768

/-- What is known about placing a part of the query in a part of the text. -/
structure Cell where
  /-- The best score when the last character of the part is placed at its end. -/
  matched : Int
  /-- The best score when the last character of the part is not placed at its end. -/
  passed : Int
  /-- The bonus of the run that ends here. -/
  run : Int

/-- A cell of which nothing is known. -/
def Cell.fresh : Cell := ⟨hopeless, hopeless, 0⟩

/-- Two rows of cells, one behind the other. -/
abbrev Grid := Array Cell

/-- Kinds of characters: where words begin shows in the change from one kind to the next. -/
inductive CharKind where
  /-- There is no character. -/
  | nothing
  /-- Blanks, slashes, bars and brackets. -/
  | hard
  /-- Other ASCII punctuation. -/
  | soft
  /-- ASCII digits. -/
  | number
  /-- ASCII capital letters. -/
  | upper
  /-- All others. -/
  | lower
deriving DecidableEq

/-- The kind of a character. -/
def CharKind.of (c : Char) : CharKind :=
  if c = '\x00' then .nothing
  else if [' ', '/', '\\', '|', '(', ')', '[', ']', '\x7b', '\x7d'].contains c then .hard
  else if ['!', '\x22', '#', '$', '%', '&', '\x27', '*', '+', ',', '-', '.', ':', ';', '<', '=',
      '>', '?', '@', '^', '_', '\x60', '~'].contains c then .soft
  else if c.isDigit then .number
  else if c.isUpper then .upper
  else .lower

/-- What a character earns for the place it stands at. -/
def bonus (before this : CharKind) : Int :=
  match before, this with
  | .nothing, _ => 8
  | .hard, _ => 8
  | .soft, _ => 7
  | .lower, .upper => 6
  | .number, .upper => 6
  | _, _ => 0

/-- The bonus of each character of a text; that of the first one counts twice. -/
def bonuses (text : List Char) : Array Int :=
  let kinds := text.map CharKind.of
  let values := List.zipWith bonus (CharKind.nothing :: kinds) kinds
  ((values.take 1).map (2 * ·) ++ values.drop 1).toArray

/-- Whether a query tells capital letters from small ones. -/
def isCaseSensitive (query : List Char) : Bool :=
  query.any Char.isUpper

/-- Whether a character of a text can stand for a character of the query. -/
def fits (caseSensitive : Bool) (c q : Char) : Bool :=
  if caseSensitive then c == q else c.toLower == q.toLower

/-- The earliest places at which the characters of a query can be found in order. -/
def earliest? (caseSensitive : Bool) : (query text : List Char) → (place : Nat) → Option (List Nat)
  | [], _, _ => some []
  | _ :: _, [], _ => none
  | q :: query, c :: text, place =>
    if fits caseSensitive c q then
      (earliest? caseSensitive query text (place + 1)).map (place :: ·)
    else earliest? caseSensitive (q :: query) text (place + 1)

/-- Cuts or extends a grid to a number of cells. -/
def Grid.resize (grid : Grid) (size : Nat) : Grid :=
  grid.take size ++ Array.replicate (size - grid.size) Cell.fresh

/-- Prepares a grid for a text that is scored in rows of the given width. -/
def Grid.prepare (grid : Grid) (width start : Nat) : Grid :=
  let grid := (grid.resize (2 * width)).setIfInBounds (width + start) Cell.fresh
  (List.range width).foldl (fun grid j => grid.setIfInBounds j ⟨hopeless, -1, 0⟩) grid

/-- Settles the cell behind one character of the text for one character of the query. -/
def Grid.step (caseSensitive : Bool) (q : Char) (row previous : Nat) (values : Array Int)
    (grid : Grid) (entry : Nat × Char) : Grid :=
  let (j, c) := entry
  let last := grid.getD (row + j) Cell.fresh
  let diagonal := grid.getD (previous + j) Cell.fresh
  let here := values.getD j 0
  -- opening a gap costs four, going on with it costs one
  let passed := max (last.matched - 4) (last.passed - 1)
  if fits caseSensitive c q then
    -- a run never earns less than four per character, nor less than where it began
    let run := max last.run (max here 4)
    -- a letter of the other case fits a little worse
    let placed := if !caseSensitive && q != c then 14 else 16
    let cell := grid.getD (row + j + 1) Cell.fresh
    let matched := max (diagonal.matched + run) (diagonal.passed + here) + placed
    (grid.setIfInBounds (row + j) { last with run }).setIfInBounds (row + j + 1)
      { cell with matched, passed }
  else grid.setIfInBounds (row + j + 1) ⟨hopeless, passed, 0⟩

/-- Scores a text, and hands on the grid for the next one. A text that does not match has no score
and leaves the grid alone. -/
def score (query text : List Char) (grid : Grid) : Option Int × Grid :=
  if query = [] then (some 0, grid)
  else
    let caseSensitive := isCaseSensitive query
    match earliest? caseSensitive query text 0 with
    | none => (none, grid)
    | some places =>
      let width := text.length + 1
      let values := bonuses text
      let indexed := (List.range text.length).zip text
      let rows := (List.range query.length).zip (query.zip places)
      let grid := rows.foldl (fun grid (i, q, place) =>
        let row := (i + 1) % 2 * width
        let previous := i % 2 * width
        -- no earlier place can hold this character of the query
        (indexed.drop place).foldl (Grid.step caseSensitive q row previous values) grid)
        (grid.prepare width (places.headD 0))
      let final := query.length % 2 * width
      let results := (List.range width).drop (places.getLastD 0)
      let best := results.foldl
        (fun best j => max best (grid.getD (final + j) Cell.fresh).matched) hopeless
      (some best, grid)

/-! ## Suggestions -/

/-- The candidates that have a score, each with its score, in order. -/
def scored (query : String) (candidates : List String) : List (String × Int) :=
  let step (state : List (String × Int) × Grid) (candidate : String) : List (String × Int) × Grid :=
    match score query.toList candidate.toList state.2 with
    | (some value, grid) => (state.1 ++ [(candidate, value)], grid)
    | (none, grid) => (state.1, grid)
  (candidates.foldl step ([], #[])).1

/-- At most `count` candidates that match the query, the best first. -/
def closest (candidates : List String) (query : String) (count : Nat) : List String :=
  let ranked := (scored query candidates).mergeSort fun left right => right.2 ≤ left.2
  (ranked.map Prod.fst).take count

end HybridAutomata.Suggest
