import HybridAutomata.Text.Names
import HybridAutomata.Tree.Basic
/-!
# Naming modes

A mode of an automaton goes by its name. A mode of a network can be spelled in two ways: with one
mode for each automaton below it, in preorder and with dots between them, or with the path of
instances to one automaton followed by one of its modes.
-/

namespace HybridAutomata.Tree

variable {κ : Type}

/-- Takes one mode for each automaton at and below a component off a dotted list of modes. The
result is what is left of the list, if every automaton had the mode that came its way. -/
def takeModes (tree : Tree κ) : (levels : Nat) → Handle → String → Option String
  | 0, _, _ => none
  | levels + 1, c, modes =>
    match (tree.get c).body with
    | .base automaton =>
      -- the last mode of the list has no dot behind it
      let (mode, rest) := (Text.cut? '.' modes).getD (modes, "")
      if automaton.modes.contains mode then some rest else none
    | .network children =>
      children.values.foldlM (fun rest inst => tree.takeModes levels inst.child rest) modes

/-- Whether a dotted path of instances leads to a mode of an automaton. -/
def hasModePath (tree : Tree κ) (c : Handle) (mode : String) : Bool :=
  match (tree.get c).body with
  | .base automaton => automaton.modes.contains mode
  | .network children =>
    match _h : Text.cut? '.' mode with
    | none => false
    | some (name, rest) =>
      match children.get? name with
      | some inst => tree.hasModePath inst.child rest
      | none => false
termination_by mode.length
decreasing_by exact Text.length_lt_of_cut? (by assumption)

/-- Whether a text names a mode of a component, in either spelling. -/
def modeExists (tree : Tree κ) (c : Handle) (mode : String) : Bool :=
  tree.takeModes tree.size c mode == some "" || tree.hasModePath c mode

end HybridAutomata.Tree
