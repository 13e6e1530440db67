import HybridAutomata.Settings
import HybridAutomata.Tree.Basic
import HybridAutomata.Tree.Copy
import HybridAutomata.Tree.Render
import HybridAutomata.Tree.Resolve
import HybridAutomata.Violation
/-!
# Models

A model is a component tree together with conditions on its initial and forbidden states, one for
each mode that is named, settings, and how much of it is to be checked.
-/

namespace HybridAutomata

/-- A hybrid automaton with its initial and forbidden states. -/
structure Model (κ : Type) where
  tree : Tree κ
  initial : NameMap (Expr κ)
  forbidden : NameMap (Expr κ)
  settings : Settings κ
  checks : CheckOptions

namespace Model

variable {κ : Type}

/-- The conditions of one family, by the mode they are given for. -/
def states (model : Model κ) : StateSet → NameMap (Expr κ)
  | .initial => model.initial
  | .forbidden => model.forbidden

/-- Changes all conditions. -/
def mapConditions (model : Model κ) (f : Expr κ → Expr κ) : Model κ :=
  { model with
    initial := model.initial.mapValues f
    forbidden := model.forbidden.mapValues f }

/-- The global names of the variables of the model. -/
def allVariables (model : Model κ) : Except (ModelError κ) (List String) :=
  model.tree.allVariables model.tree.root

/-- The constants of the model that are not bound, by qualified name. -/
def allConstants (model : Model κ) : NameMap (Option (Interval κ)) :=
  model.tree.allConstants model.tree.root

variable [Scalar κ]

/-- The model of a tree, without conditions. -/
def ofTree (tree : Tree κ) : Model κ :=
  ⟨tree, ∅, ∅, .standard, {}⟩

/-- The model of a single component. -/
def ofComponent (root : Component κ) : Model κ :=
  ofTree (.ofRoot root)

/-- Comparison: trees and conditions whatever their order, numbers as their domain compares them. -/
def beq (left right : Model κ) : Bool :=
  left.tree == right.tree && left.initial == right.initial && left.forbidden == right.forbidden &&
    left.settings == right.settings && left.checks == right.checks

instance : BEq (Model κ) := ⟨beq⟩

/-- Copies a model. The arena of the copy holds what is reachable from the root, and bindings to
literals are resolved. -/
def copy (model : Model κ) : Except (ModelError κ) (Model κ) := do
  let tree ← model.tree.copy
  pure { model with tree }

end Model

/-! ## Showing a model

A model is shown as lines: its conditions, the plot variables if both are set, then its tree.
-/

namespace Model

variable {κ : Type} [Scalar κ]

/-- The lines of one family of conditions, none if it is empty. -/
def stateLines (model : Model κ) (states : StateSet) : List Line :=
  let conditions := model.states states
  if conditions.isEmpty then []
  else ⟨0, states.text ++ ":"⟩ :: conditions.entries.map fun (mode, condition) =>
    ⟨1, mode ++ ": " ++ condition.text⟩

/-- The line of the plot variables, if both are set. -/
def plotLines (model : Model κ) : List Line :=
  match model.settings.plotX, model.settings.plotY with
  | some x, some y => [⟨0, "plot: " ++ x ++ ", " ++ y⟩]
  | _, _ => []

/-- The lines of a model. -/
def lines (model : Model κ) : List Line :=
  model.stateLines .initial ++ model.stateLines .forbidden ++ model.plotLines ++ model.tree.lines

/-- Shows a model. -/
def render (model : Model κ) : String :=
  Line.render model.lines

end Model
end HybridAutomata
