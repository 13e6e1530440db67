import HybridAutomata.Model.Check
import HybridAutomata.Pass.Options
import HybridAutomata.Pass.Registry
/-!
# Running passes

A run of a pass goes through its phases in order: the model is checked against the requirements
unless that is skipped, the parameters are read and the model is changed, and the result is
checked. Every phase is reported when it is entered, and so is the outcome.

A pipeline runs passes one after the other on one model and stops at the first failure.
-/

namespace HybridAutomata

namespace Pass

variable {κ : Type} [Scalar κ]

/-- Enters the next phase of a run. -/
def enter (title : String) (phase : Phase) : PassM κ Unit := do
  let old := (← get).phase
  PassM.report .debug (title ++ ": " ++ old.text ++ " -> " ++ phase.text)
  modify fun workspace => { workspace with phase }

/-- The steps of a run up to its outcome. -/
def runSteps (pass : Pass) (title params : String) (checked : Bool) : PassM κ Unit := do
  if checked then
    enter title .checking
    PassM.report .debug ("Checking preconditions for " ++ title)
    match pass.check (← PassM.model) with
    | .ok () => pure ()
    | .error reason => throw (.requirementsNotMet title reason)
  -- the parameters are read as a part of the change
  enter title .mutating
  let tokens := Arguments.split params
  PassM.report .info
    ("Running pass " ++ title ++ " with parameters " ++ Text.quoteList tokens)
  pass.mutate tokens
  enter title .validating
  -- the result obeys the same rules as a model that is read
  match (← PassM.model).check with
  | .ok () => pure ()
  | .error violation => throw (.corrupted title violation)

/-- Runs a pass under a title and reports the outcome. -/
def execute (pass : Pass) (title params : String) (checked : Bool) : PassM κ Unit := do
  try
    pass.runSteps title params checked
  catch cause =>
    -- what the failing step has changed stays changed
    enter title .failed
    PassM.report .info ("Pass " ++ title ++ " failed: " ++ cause.message)
    throw cause
  enter title .done
  PassM.report .info ("Finished pass " ++ title)

/-- Runs a pass from the beginning, under its name. -/
def start (pass : Pass) (params : String) (checked : Bool) : PassM κ Unit := do
  modify fun workspace => { workspace with phase := .idle }
  pass.execute pass.name params checked

/-- Runs a pass on models that are acceptable to it. -/
def run (pass : Pass) (params : String) : PassM κ Unit :=
  pass.start params true

/-- Runs a pass on any model. -/
def runUnchecked (pass : Pass) (params : String) : PassM κ Unit :=
  pass.start params false

end Pass

/-- A pass with the parameters it is requested with. -/
structure RequestedPass where
  pass : Pass
  params : String
deriving DecidableEq, Repr

/-- The written form of a request. -/
def RequestedPass.text (requested : RequestedPass) : String :=
  requested.pass.flag ++ " " ++ Text.quote requested.params

/-- Passes that run one after the other. -/
structure Pipeline where
  passes : List RequestedPass := []
deriving DecidableEq, Repr

namespace Pipeline

variable {κ : Type} [Scalar κ]

/-- Adds the pass with a flag at the end. -/
def add (pipeline : Pipeline) (flag params : String) : Except (PassError κ) Pipeline := do
  let pass ← Pass.find flag
  pure ⟨pipeline.passes ++ [⟨pass, params⟩]⟩

/-- Runs the passes in order, up to the first failure. -/
def run (pipeline : Pipeline) : PassM κ Unit :=
  pipeline.passes.forM fun requested => do
    PassM.report .info
      ("Running " ++ requested.pass.name ++ " with params '" ++ requested.params ++ "'")
    requested.pass.run requested.params

end Pipeline
end HybridAutomata
