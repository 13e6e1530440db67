import HybridAutomata.Model.Basic
import HybridAutomata.Suggest
import HybridAutomata.Tree.Check
import HybridAutomata.Tree.Modes
/-!
# Checking a model

A model is well-formed if its root has no links, its tree is well-formed, its conditions are given
for existing modes and mention existing names, and its plot variables exist. The first violation
ends the check.
-/

namespace HybridAutomata.Model

variable {κ : Type}

/-- The name to suggest for an unknown one: the first that ends with it, else the closest. -/
def suggestName? (name : String) (known : List String) : Option String :=
  match known.find? fun candidate => name.toList.isSuffixOf candidate.toList with
  | some candidate => some candidate
  | none => (Suggest.closest known name 1).head?

/-- Checks one family of conditions against the modes of the model and the names that conditions may
mention. -/
def checkStates (model : Model κ) (states : StateSet) (known : List String) :
    Except (Violation κ) Unit :=
  -- nothing needs to be forbidden, but a run has to start somewhere
  if states = .initial ∧ model.initial.isEmpty then .error .noInitialStates
  else (model.states states).entries.forM fun (mode, condition) => do
    unless model.tree.modeExists model.tree.root mode do
      throw (.unknownMode states mode)
    match condition.vars.find? fun name => !known.contains name with
    | some name => throw (.unknownVariableInStates states name (suggestName? name known))
    | none => pure ()

/-- Checks that a condition of a network is not given for a mode without a dot. -/
def checkDots (model : Model κ) (states : StateSet) : Except (Violation κ) Unit :=
  match (model.states states).keys.find? fun mode => !mode.toList.contains '.' with
  | some mode => .error (.undottedMode states mode)
  | none => .ok ()

/-- The names that conditions may mention: variables, then constants. -/
def conditionNames (model : Model κ) (vars : List String) : List String :=
  firstOccurrences (vars ++ model.allConstants.keys)

/-- Checks a model. -/
def check (model : Model κ) : Except (Violation κ) Unit :=
  if !model.checks.enabled then .ok ()
  else do
    let root := model.tree.rootComponent
    match root.instanceName with
    | some name => throw (.rootHasInstanceName name)
    | none => pure ()
    if root.parent.isSome then throw .rootHasParent
    -- the tree comes first: names can be listed only if its links hold
    model.tree.check model.checks
    let vars ← model.allVariables.mapError Violation.lookup
    -- conditions see the whole model, by qualified names
    let known := model.conditionNames vars
    model.checkStates .initial known
    model.checkStates .forbidden known
    model.settings.check vars
    -- even a network of one automaton wants its modes spelled with a dot
    if root.isNetwork then
      model.checkDots .initial
      model.checkDots .forbidden

end HybridAutomata.Model
