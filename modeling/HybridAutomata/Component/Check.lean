import HybridAutomata.Component.Basic
import HybridAutomata.Expr.Traversal
import HybridAutomata.Text.Names
import HybridAutomata.Violation
/-!
# Checking one component

The rules that can be decided by looking at one component alone: its names, its links, its
automaton, and single bindings. Every check reports the first violation it meets, in a fixed order.
-/

namespace HybridAutomata

variable {κ : Type}

/-- Checks that a name is an identifier. -/
def checkName (name component : String) : Except (Violation κ) Unit :=
  if Text.isIdentifier name then .ok () else .error (.invalidName name component)

/-- Checks that names are identifiers, different from each other and from those seen before. A name
that was seen is reported as such, whether or not it is an identifier. -/
def checkNames (component : String) (seen : List String) : List String → Except (Violation κ) Unit
  | [] => .ok ()
  | name :: rest =>
    if seen.contains name then .error (.repeatedName name component)
    else do
      checkName name component
      checkNames component (name :: seen) rest

/-- Checks one binding. The outer name of a literal binding of a constant need not exist while
constants are left alone; the text of a literal marks it, whatever kind of name is bound. -/
def Binding.check (binding : Binding) (outerDeclared innerDeclared : String → Bool)
    (kind : NameKind) (component : String) (constants : Bool) : Except (Violation κ) Unit :=
  if binding.inner.isEmpty || binding.outer.isEmpty then .error (.emptyBinding kind component)
  else if !(!constants && binding.literal?.isSome) && !outerDeclared binding.outer then
    .error (.unknownOuterName kind binding.outer component)
  else if !innerDeclared binding.inner then
    .error (.unknownInnerName kind binding.inner component)
  else .ok ()

namespace Component

/-- Checks a mode: its name, its invariant, and that it has flows unless it is urgent. -/
def checkMode (component : Component κ) (mode : Mode κ) : Except (Violation κ) Unit := do
  let name := component.displayName
  checkName mode.name name
  if mode.invariant.isFalse then throw (.falseInvariant mode.name name)
  -- no time passes in an urgent mode, so it has no use for flows
  if mode.flows.isSome && mode.urgent then throw (.urgentWithFlows mode.name name)
  if mode.flows.isNone && !mode.urgent then throw (.missingFlows mode.name name)
  match mode.flowMap.keys.find? fun variableName => !component.vars.contains variableName with
  | some variableName => throw (.flowForUnknownVariable variableName mode.name name)
  | none => pure ()

/-- Checks a transition: its ends and its label. -/
def checkTransition (component : Component κ) (modes : NameMap (Mode κ))
    (transition : Transition κ) : Except (Violation κ) Unit :=
  let name := component.displayName
  match [transition.source, transition.target].find? fun mode => !modes.contains mode with
  | some mode => .error (.unknownEndpoint mode transition.source transition.target name)
  | none =>
    -- only the empty label is blank
    if transition.label = some "" then
      .error (.blankLabel transition.source transition.target name)
    else .ok ()

/-- Checks that the flows of a mode mention only variables and constants of the component. -/
def checkFlowSymbols (component : Component κ) (mode : Mode κ) : Except (Violation κ) Unit :=
  mode.flowMap.entries.forM fun (variableName, flow) =>
    let unknown := flow.expr.vars.find? fun symbol =>
      !component.declares .var symbol && !component.declares .const symbol
    match unknown with
    | some symbol =>
      .error (.unknownSymbolInFlow symbol variableName mode.name component.displayName)
    | none => .ok ()

/-- Whether two lists without repetitions hold the same names. -/
def sameNames (left right : List String) : Bool :=
  left.length == right.length && left.all right.contains

/-- Checks the flows of all modes that are not urgent: they agree with the first mode on the
variables, and mention only known names. -/
def checkFlows (component : Component κ) (modes : List (Mode κ)) : Except (Violation κ) Unit :=
  match modes.filter fun mode => !mode.urgent with
  | [] => .ok ()
  | first :: rest => do
    -- the first mode is what the others are compared with
    component.checkFlowSymbols first
    rest.forM fun mode => do
      unless sameNames first.flowMap.keys mode.flowMap.keys do
        throw (.inconsistentFlows first.name first.flowMap.keys mode.name mode.flowMap.keys
          component.displayName)
      component.checkFlowSymbols mode

/-- Checks the automaton of a component. -/
def checkAutomaton (component : Component κ) (automaton : Automaton κ) :
    Except (Violation κ) Unit := do
  let name := component.displayName
  if automaton.modes.isEmpty then throw (.noModes name)
  -- a mode carries the name under which it is found
  match automaton.modes.entries.find? fun (key, mode) => key ≠ mode.name with
  | some (key, mode) => throw (.modeNameMismatch key mode.name name)
  | none => pure ()
  automaton.modes.values.forM component.checkMode
  automaton.transitions.forM (component.checkTransition automaton.modes)
  -- labels are checked one way only: a transition may bear a label that is not declared
  let isUsed (label : String) := automaton.transitions.any fun transition =>
    transition.label = some label
  match component.labels.find? fun label => !isUsed label with
  | some label => throw (.unusedLabel label name)
  | none => pure ()
  -- last, because it compares modes that are known to be well-formed
  component.checkFlows automaton.modes.values

/-- Checks that a component has both an instance name and a parent, or neither. -/
def checkLinks (component : Component κ) : Except (Violation κ) Unit := do
  let name := component.displayName
  match component.instanceName with
  | some own => checkName own name
  | none => pure ()
  -- the root has neither, every placed component has both
  if component.instanceName.isSome != component.parent.isSome then
    throw (.linkMismatch name component.parent.isSome)

/-- The names whose spelling and uniqueness are checked. -/
def checkedNames (component : Component κ) (options : CheckOptions) : List String :=
  component.vars ++ component.labels ++
    if options.constants then component.constants.keys else []

end Component
end HybridAutomata
