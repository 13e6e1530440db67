import HybridAutomata.Pass.Error
/-!
# What a pass works on

A pass changes a model step by step and reports what it does. A failure keeps the changes and the
reports made so far, so that what a failed run leaves behind can be seen.
-/

namespace HybridAutomata

/-- How much a report matters. -/
inductive LogLevel where
  | debug
  | info
deriving DecidableEq, Repr

/-- What a level is called. -/
def LogLevel.text : LogLevel → String
  | debug => "DEBUG"
  | info => "INFO"

/-- A report of a pass. -/
structure Report where
  level : LogLevel
  message : String
deriving DecidableEq, Repr

/-- The states that a run goes through. -/
inductive Phase where
  | idle
  | checking
  | mutating
  | validating
  | done
  | failed
deriving DecidableEq, Repr

/-- What a state is called. -/
def Phase.text : Phase → String
  | idle => "Idle"
  | checking => "PreconditionChecking"
  | mutating => "Mutating"
  | validating => "PostValidating"
  | done => "Done"
  | failed => "Failed"

/-- A model under change, the state of the run, and the reports so far. -/
structure Workspace (κ : Type) where
  model : Model κ
  phase : Phase := .idle
  log : List Report := []

/-- A computation that changes a workspace and may fail; a failure keeps the changes. -/
abbrev PassM (κ : Type) := Change (PassError κ) (Workspace κ)

namespace PassM

variable {κ α : Type}

/-- The model as it is. -/
def model : PassM κ (Model κ) := do
  return (← get).model

/-- Changes the model. -/
def modifyModel (f : Model κ → Model κ) : PassM κ Unit :=
  modify fun workspace => { workspace with model := f workspace.model }

/-- Changes the tree of the model. -/
def modifyTree (f : Tree κ → Tree κ) : PassM κ Unit :=
  modifyModel fun model => { model with tree := f model.tree }

/-- Makes a report. -/
def report (level : LogLevel) (message : String) : PassM κ Unit :=
  modify fun workspace => { workspace with log := workspace.log ++ [⟨level, message⟩] }

/-- Takes the result of a request to the model. -/
def ofModel : Except (ModelError κ) α → PassM κ α
  | .ok value => pure value
  | .error cause => throw (.model cause)

/-- Carries out a change of the tree of the model. If it is refused, what it has done to the tree so
far is kept. -/
def onTree (change : TreeM κ α) : PassM κ α := do
  let (outcome, tree) := change.runOn (← model).tree
  modifyTree fun _ => tree
  ofModel outcome

end PassM
end HybridAutomata
