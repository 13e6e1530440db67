import HybridAutomata.Pass.CopyInstance
import HybridAutomata.Pass.IdentityReset
import HybridAutomata.Pass.Rename
import HybridAutomata.Pass.ShortenModes
import HybridAutomata.Pass.SubstituteConstants
import HybridAutomata.Suggest
/-!
# The passes

Every pass has a flag by which it is requested, a name, help texts, requirements and parameters.
-/

namespace HybridAutomata

/-- A transformation of models. -/
inductive Pass where
  | identityReset
  | copyInstance
  | rename
  | shortenModes
  | substituteConstants
deriving DecidableEq, Repr

namespace Pass

/-- All passes, in the order in which they are listed. -/
def all : List Pass :=
  [identityReset, copyInstance, rename, shortenModes, substituteConstants]

/-- The flag of a pass. -/
def flag : Pass → String
  | identityReset => "pass_identity"
  | copyInstance => "copy"
  | rename => "rename"
  | shortenModes => "shorten"
  | substituteConstants => "sub_constants"

/-- The name of a pass. -/
def name : Pass → String
  | identityReset => "Add Identity Resets Pass"
  | copyInstance => "Copy Base Component Instance Pass"
  | rename => "Rename Parameters Pass"
  | shortenModes => "Shorten Mode Names Pass"
  | substituteConstants => "Substitute Named Constants for Values Pass"

/-- What a pass does, if its name does not say it. -/
def longHelp : Pass → Option String
  | rename => some "Swaps variable, constant and label names, e.g. 'x:pos:v:vel'"
  | _ => none

/-- The help text of the parameters of a pass. -/
def paramHelp : Pass → String
  | copyInstance =>
    "Usage: copy [OPTIONS]\n\nOptions:\n" ++
    "      --name <NAME>    name of instance to copy, may be omitted if the network has a " ++
    "single child [default: \"\"] [alias: --instance]\n" ++
    "  -n, --num <NUM>      the number of copies at the end (1 = no copy) [default: 2] " ++
    "[alias: --number]\n" ++
    "      --prefix <NAME>  prefix to use for the copies [default: copy]\n" ++
    "  -h, --help           Print help\n"
  | rename =>
    "Usage: rename <NAMES>\n\nArguments:\n" ++
    "  <NAMES>  colon separated list of names: oldname1:newname1:oldname2:newname2\n\n" ++
    "Options:\n  -h, --help  Print help\n"
  | pass =>
    "Options of passes that do not take any parameters\n\nUsage: " ++ pass.flag ++
    "\n\nOptions:\n  -h, --help  Print help\n"

/-- The pass with a flag. If there is none, the flags that come close are suggested. -/
def find {κ : Type} (flag : String) : Except (PassError κ) Pass :=
  match all.find? fun pass => pass.flag = flag with
  | some pass => .ok pass
  | none => .error (.unknownPass flag (Suggest.closest (all.map Pass.flag) flag 5))

/-! ## Requirements -/

/-- What a pass requires of a model in general. -/
def requirements : Pass → Requirements
  | identityReset => .all
  | copyInstance => Requirements.none.insert .noDisjunctions
  | rename => Requirements.none.insert .flat
  | shortenModes => .all
  | substituteConstants => Requirements.none.insert .pointConstants

/-- What copying requires beyond that: a network of automata with one initial condition and at most
one forbidden one. -/
def checkCopying {κ : Type} (model : Model κ) : Except (Unmet κ) Unit :=
  match model.tree.rootComponent.network? with
  | none => .error .notNetwork
  | some children =>
    match children.entries.find? fun (_, inst) => !(model.tree.get inst.child).isBase with
    | some (name, _) => .error (.nestedNetwork name)
    | none =>
      if model.initial.size ≠ 1 then .error (.initialCount model.initial.size)
      else if 1 < model.forbidden.size then .error .severalForbidden
      else .ok ()

/-- Checks whether a model is acceptable to a pass. -/
def check {κ : Type} [Scalar κ] (pass : Pass) (model : Model κ) : Except (Unmet κ) Unit := do
  pass.requirements.check model
  match pass with
  | copyInstance => checkCopying model
  | _ => pure ()

/-! ## Parameters -/

/-- The parameters of a pass that takes none. -/
def emptyGrammar (pass : Pass) : Grammar Unit where
  options := []
  positional := none
  help := pass.paramHelp
  defaults := ()

/-- The parameters of the pass that copies an instance. -/
def copyGrammar : Grammar CopyInstance.Options where
  options :=
    [⟨["name", "instance"], none, "NAME", fun value options => .ok { options with name := value }⟩,
     ⟨["num", "number"], some 'n', "NUM", fun value options =>
        match CopyInstance.readCount value with
        | .ok count => .ok { options with count }
        | .error cause => .error cause.message⟩,
     ⟨["prefix"], none, "NAME", fun value options => .ok { options with stem := value }⟩]
  positional := none
  help := copyInstance.paramHelp
  defaults := {}

/-- The parameters of the pass that renames. -/
def renameGrammar : Grammar (List (String × String)) where
  options := []
  positional := some ⟨[], none, "NAMES", fun value _ =>
    match Rename.readPairs value with
    | .ok pairs => .ok pairs
    | .error cause => .error cause.message⟩
  help := rename.paramHelp
  defaults := []

/-- Reads the parameters of a pass. -/
def readParameters {κ α : Type} (pass : Pass) (grammar : Grammar α) (tokens : List String) :
    PassM κ α :=
  match grammar.read tokens with
  | .ok options => pure options
  | .error cause => throw (.badParameters pass.name cause)

/-- Reads the parameters of a pass and runs it, without any checks. -/
def mutate {κ : Type} [Scalar κ] (pass : Pass) (tokens : List String) : PassM κ Unit :=
  match pass with
  | identityReset => do
    pass.readParameters pass.emptyGrammar tokens
    IdentityReset.run
  | copyInstance => do
    CopyInstance.run (← pass.readParameters copyGrammar tokens)
  | rename => do
    Rename.run (← pass.readParameters renameGrammar tokens)
  | shortenModes => do
    pass.readParameters pass.emptyGrammar tokens
    ShortenModes.run
  | substituteConstants => do
    pass.readParameters pass.emptyGrammar tokens
    SubstituteConstants.run

end Pass
end HybridAutomata
