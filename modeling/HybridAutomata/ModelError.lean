import HybridAutomata.Interval
/-!
# Requests that a model cannot meet

The causes for which a query or a change of a model is refused. A component is named by its instance
name.

A query has a result or a cause. A change works on a state, and a refusal does not take back what
was changed before it: `Change.runOn` shows the state that a change leaves behind, whatever its
outcome. So that a refused change has done nothing is a property of the change.
-/

namespace HybridAutomata

/-- Why a query or a change of a model is refused. -/
inductive ModelError (κ : Type) where
  /-- The component declares no such constant. -/
  | unknownConstant (name component : String)
  /-- A constant has a value of its own and is bound in the enclosing network as well. -/
  | doublyBoundConstant (name component : String)
  /-- A constant has no value and is not bound either. -/
  | unassignedConstant (name component : String)
  /-- The network has no such instance. -/
  | unknownInstance (name component : String)
  /-- The network has an instance of that name already. -/
  | duplicateInstance (name component : String)
  /-- Only networks have instances. -/
  | notNetwork (component : String)
  /-- A literal binding does not hold a number. -/
  | malformedLiteral (param literal : String)
  /-- A constant that has to be a point is a proper interval. -/
  | intervalConstant (name : String) (value : Interval κ)
  /-- The automaton has a mode of that name already. -/
  | duplicateMode (mode component : String)
  /-- The automaton has no such mode. -/
  | unknownMode (mode component : String)
  /-- Following the bindings of a name leads round in a circle. -/
  | circularBinding (name component : String)
  /-- A component is nested inside itself. -/
  | circularNesting (component : String)

namespace ModelError

variable {κ : Type} [Scalar κ]

/-- The complaint. -/
def message : ModelError κ → String
  | unknownConstant name component => s!"constant not found: '{name}' in '{component}'"
  | doublyBoundConstant name component =>
    s!"constant was both assigned and mapped in parent: '{name}' in instance '{component}'"
  | unassignedConstant name component =>
    s!"unassigned constant: '{name}' in instance '{component}'"
  | unknownInstance name component => s!"no instance named '{name}' in '{component}'"
  | duplicateInstance name component => s!"instance '{name}' already exists in '{component}'"
  | notNetwork component => s!"'{component}' is not a network component"
  | malformedLiteral param literal =>
    s!"couldn't parse constant in value map of parameter '{param}': {literal}"
  | intervalConstant name value => s!"constant '{name}' has non-constant value " ++ value.text
  | duplicateMode mode component => s!"mode with name '{mode}' already exists in '{component}'"
  | unknownMode mode component => s!"mode '{mode}' not found in '{component}'"
  | circularBinding name component =>
    s!"bindings of '{name}' in '{component}' lead round in a circle"
  | circularNesting component => s!"component '{component}' is nested inside itself"

end ModelError

/-! ## Changes -/

/-- A computation that changes a state and may be refused; a refusal keeps the changes made so far.
-/
abbrev Change (ε σ : Type) := ExceptT ε (StateM σ)

/-- Runs a change on a state: the outcome, and the state that the change leaves behind. -/
def Change.runOn {ε σ α : Type} (change : Change ε σ α) (state : σ) : Except ε α × σ :=
  change.run.run state

end HybridAutomata
