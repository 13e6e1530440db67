import HybridAutomata.Pass.Options
import HybridAutomata.Pass.Requirement
/-!
# Failures of passes

Why a run of a pass fails: the model is not acceptable, the parameters cannot be read, the pass
cannot do what it is asked for, or the model is not well-formed afterwards.
-/

namespace HybridAutomata

/-- What a pass cannot do. -/
inductive Unsupported where
  /-- Identity resets are added to automata only. -/
  | resetsOfNetwork
  /-- Parameters of automata only are renamed. -/
  | renamingOfNetwork
  /-- Mode names of automata only are shortened. -/
  | modesOfNetwork
  /-- It is not said which of several instances to copy. -/
  | ambiguousInstance
  /-- The instance to copy does not exist. -/
  | unknownInstance (name : String) (options : List String)
  /-- Fewer instances than one are asked for. -/
  | tooFewInstances (count : Int)
  /-- There is no condition to extend. -/
  | noCondition
  /-- The mode of a condition does not consist of one mode for each instance. -/
  | modeCount (mode : String) (count : Nat)
  /-- A name that a copy needs is taken. -/
  | nameConflict (kind : NameKind) (name : String)
deriving DecidableEq, Repr

/-- The complaint. -/
def Unsupported.message : Unsupported → String
  | resetsOfNetwork => "identity resets in a network"
  | renamingOfNetwork => "renaming parameters of a network"
  | modesOfNetwork => "shortening mode names of a network"
  | ambiguousInstance => "Root component has multiple children and '--name' was not provided."
  | unknownInstance name options =>
    s!"Root component did not contain named child instance: '{name}'. Valid options are: " ++
      Text.join ", " options
  | tooFewInstances count => s!"Num instances must be >= 1. got: {count}"
  | noCondition => "expected a single mode"
  | modeCount mode count =>
    s!"mode '{mode}' does not name one mode for each of the {count} base components"
  | nameConflict kind name => "Root contains conflicting " ++ kind.text ++ s!" name: {name}"

/-- Why a pass fails. -/
inductive PassError (κ : Type) where
  /-- The model is not acceptable to the pass. -/
  | requirementsNotMet (pass : String) (reason : Unmet κ)
  /-- The parameters cannot be read. -/
  | badParameters (pass : String) (cause : OptionError)
  /-- There is no pass with such a flag. -/
  | unknownPass (flag : String) (suggestions : List String)
  /-- The model cannot meet a request of the pass. -/
  | model (cause : ModelError κ)
  /-- The pass cannot do what it is asked for. -/
  | unsupported (cause : Unsupported)
  /-- The model is not well-formed after the pass. -/
  | corrupted (pass : String) (violation : Violation κ)

namespace PassError

variable {κ : Type} [Scalar κ]

/-- The question that goes with suggested flags. -/
def suggestionText (suggestions : List String) : String :=
  if suggestions.isEmpty then "" else " Did you mean: " ++ Text.join ", " suggestions ++ "?"

/-- The complaint. -/
def message : PassError κ → String
  | requirementsNotMet pass reason =>
    s!"the preconditions for pass {pass} were not met by the hybrid automaton model: " ++
      reason.message
  | badParameters pass cause => s!"invalid parameters for pass {pass}: " ++ cause.message
  | unknownPass flag suggestions => s!"unknown pass '{flag}'." ++ suggestionText suggestions
  | model cause => cause.message
  | unsupported cause => cause.message
  | corrupted pass _ =>
    s!"hybrid automaton IR structure was corrupted after running pass {pass}"

end PassError
end HybridAutomata
