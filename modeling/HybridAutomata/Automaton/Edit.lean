import HybridAutomata.Automaton.Basic
import HybridAutomata.ModelError
/-!
# Building automata

Adding modes and transitions, and renaming modes. Every change is refused that would leave two
modes with one name or a transition without its modes. The name of the enclosing component is asked
for only to name it in an error.
-/

namespace HybridAutomata

/-- A computation that changes an automaton and may be refused; a refusal keeps the changes made so
far. -/
abbrev AutomatonM (κ : Type) := Change (ModelError κ) (Automaton κ)

namespace Automaton

variable {κ : Type}

/-- Adds a mode under its name. -/
def addMode (mode : Mode κ) (component : String) : AutomatonM κ Unit := do
  if (← get).modes.contains mode.name then throw (.duplicateMode mode.name component)
  else modify fun automaton => { automaton with modes := automaton.modes.insert mode.name mode }

/-- Adds a mode with flows. -/
def createMode (name : String) (invariant : Expr κ) (flows : NameMap (Update κ))
    (component : String) : AutomatonM κ Unit :=
  addMode ⟨name, invariant, false, some flows⟩ component

/-- Adds an urgent mode. -/
def createUrgentMode (name : String) (invariant : Expr κ) (component : String) :
    AutomatonM κ Unit :=
  addMode ⟨name, invariant, true, none⟩ component

/-- Makes sure that the automaton has a mode. -/
def expectMode (component mode : String) : AutomatonM κ Unit := do
  if (← get).modes.contains mode then pure () else throw (.unknownMode mode component)

/-- Adds a transition that is always enabled and changes nothing, behind the others. -/
def createTransition (source target component : String) : AutomatonM κ Unit := do
  -- both ends are asked for first, so a refusal adds nothing
  [source, target].forM (expectMode component)
  modify fun automaton =>
    { automaton with
      transitions := automaton.transitions ++ [⟨source, target, none, .bool true, ∅⟩] }

/-- Replaces one name by another. -/
def swapName (old new name : String) : String :=
  if name = old then new else name

/-- Gives a mode another name. The mode keeps its place. -/
def swapMode (old new : String) (automaton : Automaton κ) : Automaton κ :=
  let renamed := automaton.modes.modify old fun mode => { mode with name := new }
  { automaton with modes := renamed.rekey (swapName old new) }

/-- Replaces the name of a mode at the ends of transitions. -/
def swapEnds (old new : String) (automaton : Automaton κ) : Automaton κ :=
  { automaton with
    transitions := automaton.transitions.map fun transition =>
      { transition with
        source := swapName old new transition.source
        target := swapName old new transition.target } }

/-- Renames a mode and the ends of transitions that refer to it. The mode keeps its place. -/
def renameMode (old new component : String) : AutomatonM κ Unit := do
  -- a mode may keep its name even if the automaton does not have it
  if old = new then pure ()
  else if (← get).modes.contains new then throw (.duplicateMode new component)
  else
    -- the new name is asked about before the old one
    expectMode component old
    modify (swapMode old new)
    -- the transitions follow, so that none points to the old name
    modify (swapEnds old new)

end Automaton
end HybridAutomata
