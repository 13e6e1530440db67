import HybridAutomata.Binding
import HybridAutomata.ModelError
import HybridAutomata.Text.Quoted
/-!
# Checks and violated rules

A check of a model can be switched off, or it can leave constants alone while a model that is put
together from templates does not have all its values yet: `CheckOptions`.

The rules of well-formed models that a check can find violated are listed in `Violation`. A
violation names the component by its instance name and carries what the rule was violated with.
-/

namespace HybridAutomata

/-- How much a check looks at. -/
structure CheckOptions where
  /-- Without this, every check succeeds. -/
  enabled : Bool := true
  /-- Without this, names of constants are not checked, and constants need no value. -/
  constants : Bool := true
deriving DecidableEq, Repr

namespace CheckOptions

/-- Checks nothing. -/
def disabled : CheckOptions := ⟨false, true⟩

/-- Leaves constants alone. -/
def withoutConstants : CheckOptions := ⟨true, false⟩

end CheckOptions

/-- The two families of conditions on states that a model has. -/
inductive StateSet where
  | initial
  | forbidden
deriving DecidableEq, Repr

/-- What a family of conditions is called. -/
def StateSet.text : StateSet → String
  | initial => "init"
  | forbidden => "forbidden"

/-- A rule of well-formed models that does not hold. -/
inductive Violation (κ : Type) where
  /-- A name is no identifier. -/
  | invalidName (name component : String)
  /-- A component declares a name twice. -/
  | repeatedName (name component : String)
  /-- A component has an instance name or a parent, but not both. -/
  | linkMismatch (component : String) (hasParent : Bool)
  /-- A constant has no value. -/
  | unresolvedConstant (name component : String) (cause : ModelError κ)
  /-- A network has no instances. -/
  | emptyNetwork (component : String)
  /-- A component does not bear the name of its instance. -/
  | instanceNameMismatch (key declared : String)
  /-- A component or its instance does not name the network around it as parent. -/
  | parentMismatch (inst component : String)
  /-- One side of a binding is empty. -/
  | emptyBinding (kind : NameKind) (component : String)
  /-- The outer side of a binding is not declared. -/
  | unknownOuterName (kind : NameKind) (name component : String)
  /-- The inner side of a binding is not declared. -/
  | unknownInnerName (kind : NameKind) (name component : String)
  /-- An automaton has no modes. -/
  | noModes (component : String)
  /-- A mode is filed under another name than its own. -/
  | modeNameMismatch (key name component : String)
  /-- The invariant of a mode is `false`. -/
  | falseInvariant (mode component : String)
  /-- A mode is urgent and has flows. -/
  | urgentWithFlows (mode component : String)
  /-- A mode is not urgent and has no flows. -/
  | missingFlows (mode component : String)
  /-- A flow is defined for a variable that is not declared. -/
  | flowForUnknownVariable (variableName mode component : String)
  /-- Two modes define flows for different variables. -/
  | inconsistentFlows (firstMode : String) (firstVariables : List String) (mode : String)
      (vars : List String) (component : String)
  /-- A flow mentions a name that is neither a variable nor a constant. -/
  | unknownSymbolInFlow (symbol variableName mode component : String)
  /-- An end of a transition is no mode. -/
  | unknownEndpoint (mode source target component : String)
  /-- The label of a transition is empty. -/
  | blankLabel (source target component : String)
  /-- No transition bears a declared label. -/
  | unusedLabel (label component : String)
  /-- There are no initial states. -/
  | noInitialStates
  /-- A condition is given for something that is no mode. -/
  | unknownMode (states : StateSet) (mode : String)
  /-- A condition mentions a name that the model does not have. -/
  | unknownVariableInStates (states : StateSet) (variableName : String) (suggestion : Option String)
  /-- A mode of a network is named without a dot. -/
  | undottedMode (states : StateSet) (mode : String)
  /-- The root has an instance name. -/
  | rootHasInstanceName (name : String)
  /-- The root has a parent. -/
  | rootHasParent
  /-- A variable to plot is not a variable of the model. -/
  | unknownPlotVariable (variableName : String)
  /-- The model has variables, and not both variables to plot are set. -/
  | missingPlotVariables (vars : List String)
  /-- A name cannot be resolved. -/
  | lookup (cause : ModelError κ)
  /-- A component is nested inside itself. -/
  | circularNesting (component : String)

namespace Violation

variable {κ : Type}

/-- The question that goes with a suggested name. -/
def suggestionText : Option String → String
  | some name => s!" Did you mean '{name}'?"
  | none => ""

/-- The complaint. Its cause, if it has one, is told apart from it. -/
def message : Violation κ → String
  | invalidName name component => s!"forbidden name '{name}' in '{component}'"
  | repeatedName name component => s!"repeated name '{name}' in component '{component}'"
  | linkMismatch component hasParent =>
    s!"instance name and parent of '{component}' must either both be set or both be absent " ++
      s!"(parent set: {hasParent})"
  | unresolvedConstant name component _ =>
    s!"constant '{name}' in automaton {component} is unmapped"
  | emptyNetwork component => s!"network component '{component}' has no children"
  | instanceNameMismatch key declared =>
    s!"instance name '{declared}' in child does not match the name '{key}' in the network component"
  | parentMismatch inst component =>
    s!"parent of child '{inst}' is not the network component '{component}' that contains it"
  | emptyBinding kind component =>
    kind.text ++ s!" mapping with an empty side in component {component}"
  | unknownOuterName kind name component =>
    "parent component doesn't contain mapped " ++ kind.text ++
      s!" '{name}' in parent component named {component}"
  | unknownInnerName kind name component =>
    "child component doesn't contain mapped " ++ kind.text ++
      s!" '{name}' in parent component named {component}"
  | noModes component => s!"base component '{component}' has no modes"
  | modeNameMismatch key name component =>
    s!"mode map name mismatch in '{component}': key is '{key}' but the mode is named '{name}'"
  | falseInvariant mode component => s!"invariant of mode '{mode}' in '{component}' is false"
  | urgentWithFlows mode component =>
    s!"mode '{mode}' in '{component}' is urgent, but dynamics were also defined"
  | missingFlows mode component =>
    s!"mode '{mode}' in '{component}' is not urgent, but has no dynamics"
  | flowForUnknownVariable variableName mode component =>
    s!"dynamics were defined for variable '{variableName}' in mode '{mode}', " ++
      s!"but the variable does not exist in '{component}'"
  | inconsistentFlows firstMode firstVariables mode vars component =>
    s!"{component}: variables with defined flows in mode '{firstMode}' (" ++
      Text.quoteList firstVariables ++ s!") differ from mode '{mode}' (" ++
      Text.quoteList vars ++ ")"
  | unknownSymbolInFlow symbol variableName mode component =>
    s!"{component}: flow in mode '{mode}' for variable '{variableName}' uses '{symbol}', " ++
      "which is not a variable or constant of the component"
  | unknownEndpoint mode source target component =>
    s!"mode '{mode}' in transition '{source}'->'{target}' does not exist in '{component}'"
  | blankLabel source target component =>
    s!"blank label on transition '{source}'->'{target}' in '{component}'"
  | unusedLabel label component =>
    s!"exported label '{label}' was not used in base component '{component}'"
  | noInitialStates => "init states were empty"
  | unknownMode states mode =>
    states.text ++ s!" states contain mode {mode}, which is not in the automaton"
  | unknownVariableInStates states variableName suggestion =>
    states.text ++ s!" states use variable '{variableName}', which is not in the automaton." ++
      suggestionText suggestion
  | undottedMode states mode =>
    states.text ++ s!" mode in network component must contain '.': {mode}"
  | rootHasInstanceName name => s!"root component cannot have an instance name ('{name}')"
  | rootHasParent => "root component cannot have a parent"
  | unknownPlotVariable variableName => s!"plot variable not in automaton: {variableName}"
  | missingPlotVariables vars =>
    "plot variables were not set, but the automaton contains continuous variables: " ++
      Text.quoteList vars
  | lookup _ => "name lookup failed during validation"
  | circularNesting component => s!"component '{component}' is nested inside itself"

end Violation
end HybridAutomata
