import HybridAutomata.Expr.Traversal
import HybridAutomata.Pass.Workspace
import HybridAutomata.Text.Names
/-!
# Renaming parameters

Variables, constants and labels of a flat automaton are renamed all at once, wherever they are
declared or mentioned. A new name that is taken, or that was chosen for another name already, gets
a counter.
-/

namespace HybridAutomata

variable {κ : Type}

/-- Renames the names that a mode mentions. -/
def Mode.renameNames (mode : Mode κ) (names : NameMap String) : Mode κ :=
  let mode := mode.mapExprs fun e => e.rename names
  -- the variables that the flows belong to are names as well
  { mode with flows := mode.flows.map fun flows => flows.rekey (Expr.newName names) }

/-- Renames the names that a transition mentions. -/
def Transition.renameNames (transition : Transition κ) (names : NameMap String) : Transition κ :=
  let transition := transition.mapExprs fun e => e.rename names
  { transition with
    resets := transition.resets.rekey (Expr.newName names)
    -- a label is renamed even if the component does not declare it
    label := transition.label.map (Expr.newName names) }

/-- Renames the names that a flat component declares and mentions. -/
def Component.renameNames (component : Component κ) (names : NameMap String) : Component κ :=
  let renamed := component.mapAutomaton fun automaton =>
    ⟨automaton.modes.mapValues fun mode => mode.renameNames names,
      automaton.transitions.map fun transition => transition.renameNames names⟩
  { renamed with
    vars := component.vars.map (Expr.newName names)
    constants := component.constants.rekey (Expr.newName names)
    labels := component.labels.map (Expr.newName names) }

namespace Rename

/-- Why a list of name pairs is refused. -/
inductive PairsError where
  /-- The names do not come in pairs. -/
  | odd (count : Nat)
  /-- The name at a place, counted from one, is empty. -/
  | emptyName (place : Nat)
deriving DecidableEq, Repr

/-- The complaint. -/
def PairsError.message : PairsError → String
  | odd count => s!"expected pairs of names separated by ':', got {count} names"
  | emptyName place => s!"name #{place} is empty"

/-- Takes the names of a list two by two. -/
def pairUp : List String → List (String × String)
  | old :: new :: rest => (old, new) :: pairUp rest
  | _ => []

/-- Reads a list of names with colons between them as pairs of an old and a new name. -/
def readPairs (text : String) : Except PairsError (List (String × String)) :=
  let names := Text.pieces ':' text
  if names.length % 2 ≠ 0 then .error (.odd names.length)
  -- a missing name shows as an empty piece
  else match names.findIdx? String.isEmpty with
    | some place => .error (.emptyName (place + 1))
    | none => .ok (pairUp names)

/-- Chooses a new name beside the names that are declared and those chosen so far. -/
def chooseName (declared : List String) (chosen : NameMap String) (desired : String) : String :=
  Text.freshName desired (declared ++ chosen.values)

/-- Chooses a new name for each pair, one after the other, beside those in `chosen`. -/
def choices (declared : List String) (chosen : NameMap String) :
    List (String × String) → List (String × String)
  | [] => []
  | (old, desired) :: rest =>
    -- an old name that comes again gives up the name chosen for it before
    let new := chooseName declared chosen desired
    (old, new) :: choices declared (chosen.insert old new) rest

/-- Renames the parameters of the root. -/
def run (pairs : List (String × String)) : PassM κ Unit := do
  let root := (← PassM.model).tree.rootComponent
  if root.isNetwork then throw (.unsupported .renamingOfNetwork)
  let chosen := choices root.declaredNames ∅ pairs
  chosen.forM fun (old, new) => PassM.report .info s!"Renaming {old} to {new}"
  -- all at once, so that two names can be swapped
  let names : NameMap String := .ofList chosen
  PassM.modifyModel fun model =>
    let model := model.mapConditions fun e => e.rename names
    { model with
      tree := model.tree.modify model.tree.root fun component => component.renameNames names
      settings := model.settings.renamePlotVariables (Expr.newName names) }

end Rename
end HybridAutomata
