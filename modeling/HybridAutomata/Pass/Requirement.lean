import HybridAutomata.Model.Basic
import HybridAutomata.Tree.Walk
import HybridAutomata.Expr.Traversal
/-!
# Requirements of passes

What a pass may ask of a model before it runs. A set of requirements is checked in a fixed order,
and the first one that is not met is reported with what it failed on.
-/

namespace HybridAutomata

/-- Something that a pass may ask of a model. -/
inductive Requirement where
  /-- There is at least one variable. -/
  | oneVariable
  /-- Flows and resets are determined. -/
  | deterministic
  /-- No mode is urgent. -/
  | noUrgentModes
  /-- Every constant has a value. -/
  | constantsDefined
  /-- Every value of a constant is a point. -/
  | pointConstants
  /-- The root is an automaton. -/
  | flat
  /-- No condition contains a disjunction. -/
  | noDisjunctions
deriving DecidableEq, Repr

namespace Requirement

/-- All requirements, in the order in which they are listed. -/
def all : List Requirement :=
  [oneVariable, deterministic, noUrgentModes, constantsDefined, pointConstants, flat,
    noDisjunctions]

theorem mem_all (requirement : Requirement) : requirement ∈ all := by
  cases requirement <;> decide

end Requirement

/-- A set of requirements. -/
structure Requirements where
  contains : Requirement → Bool

namespace Requirements

/-- The set that asks nothing. -/
def none : Requirements := ⟨fun _ => false⟩

/-- The set of all requirements. -/
def all : Requirements := ⟨fun _ => true⟩

instance : Inhabited Requirements := ⟨all⟩

/-- Adds a requirement. -/
def insert (set : Requirements) (requirement : Requirement) : Requirements :=
  ⟨fun other => other == requirement || set.contains other⟩

/-- Adds requirements. -/
def insertAll (set : Requirements) (requirements : List Requirement) : Requirements :=
  requirements.foldl insert set

/-- Removes a requirement. -/
def erase (set : Requirements) (requirement : Requirement) : Requirements :=
  ⟨fun other => other != requirement && set.contains other⟩

/-- The requirements in the set, in the order of the list of all. -/
def toList (set : Requirements) : List Requirement :=
  Requirement.all.filter set.contains

/-- Whether everything is asked. -/
def isAll (set : Requirements) : Bool :=
  Requirement.all.all set.contains

end Requirements

/-- Why a model is not acceptable to a pass. -/
inductive Unmet (κ : Type) where
  /-- The root is a network. -/
  | notFlat
  /-- A constant has a proper interval as its value. -/
  | intervalConstant (name : String) (value : Interval κ)
  /-- A condition contains a disjunction. -/
  | disjunction (states : StateSet) (mode : String)
  /-- The variables cannot be listed. -/
  | unresolved (cause : ModelError κ)
  /-- There are no variables. -/
  | noVariables
  /-- A flow or a reset is not determined. -/
  | nondeterministic
  /-- A mode is urgent. -/
  | urgentMode
  /-- A constant has no value. -/
  | undefinedConstant (name : String)
  /-- The root is an automaton. -/
  | notNetwork
  /-- A child of the root is a network. -/
  | nestedNetwork (name : String)
  /-- There is not exactly one initial condition. -/
  | initialCount (count : Nat)
  /-- There is more than one forbidden condition. -/
  | severalForbidden

namespace Unmet

variable {κ : Type} [Scalar κ]

/-- The complaint. -/
def message : Unmet κ → String
  | notFlat =>
    "Automaton must be a single base component; network components are not supported"
  | intervalConstant name value => s!"Constant '{name}' has interval value " ++ value.text
  | disjunction states mode =>
    "Disjunctive " ++ states.text ++ s!" condition in mode '{mode}' is not supported"
  | unresolved cause => cause.message
  | noVariables => "Automaton must have at least one variable"
  | nondeterministic => "Nondeterministic flows or resets are not supported"
  | urgentMode => "Urgent modes are not supported"
  | undefinedConstant name => s!"Constant '{name}' was not defined"
  | notNetwork => "Root must be a network component"
  | nestedNetwork name =>
    s!"Expected each child component of root to be a base component. '{name}' was not."
  | initialCount count => s!"Must have single initial mode. Count was: {count}"
  | severalForbidden => "Max single forbidden mode."

end Unmet

namespace Requirements

variable {κ : Type} [Scalar κ]

/-- The first constant whose value is a proper interval. -/
def intervalConstant? (constants : NameMap (Option (Interval κ))) :
    Option (String × Interval κ) :=
  constants.entries.findSome? fun (name, value) =>
    match value with
    | some interval => if interval.isPoint then .none else some (name, interval)
    | .none => .none

/-- The first condition that contains a disjunction. -/
def disjunction? (model : Model κ) : Option (StateSet × String) :=
  [StateSet.initial, .forbidden].findSome? fun states =>
    ((model.states states).entries.find? fun (_, condition) => condition.uses .or).map
      fun (mode, _) => (states, mode)

/-- Checks one requirement. -/
def checkOne (model : Model κ) : Requirement → Except (Unmet κ) Unit
  | .flat => if model.tree.isFlat then .ok () else .error .notFlat
  | .pointConstants =>
    match intervalConstant? model.allConstants with
    | some (name, value) => .error (.intervalConstant name value)
    | .none => .ok ()
  | .noDisjunctions =>
    match disjunction? model with
    | some (states, mode) => .error (.disjunction states mode)
    | .none => .ok ()
  | .oneVariable =>
    match model.allVariables with
    | .error cause => .error (.unresolved cause)
    | .ok vars => if vars.isEmpty then .error .noVariables else .ok ()
  | .deterministic => if model.tree.isNondeterministic then .error .nondeterministic else .ok ()
  | .noUrgentModes => if model.tree.hasUrgentMode then .error .urgentMode else .ok ()
  | .constantsDefined =>
    match model.allConstants.entries.find? fun (_, value) => value.isNone with
    | some (name, _) => .error (.undefinedConstant name)
    | .none => .ok ()

/-- The order in which requirements are checked. -/
def checkOrder : List Requirement :=
  [.flat, .pointConstants, .noDisjunctions, .oneVariable, .deterministic, .noUrgentModes,
    .constantsDefined]

/-- Checks the requirements of a set. -/
def check (set : Requirements) (model : Model κ) : Except (Unmet κ) Unit :=
  checkOrder.forM fun requirement =>
    -- a requirement that is not asked is not looked into
    if set.contains requirement then checkOne model requirement else .ok ()

end Requirements
end HybridAutomata
