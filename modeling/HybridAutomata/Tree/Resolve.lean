import HybridAutomata.Text.Names
import HybridAutomata.Tree.Basic
/-!
# Resolving names

A name of a component may be bound to a name of the network around it, which may be bound in turn.
A constant takes its value from the end of that chain, and a variable its global name. A chain
without a repeated binding has at most as many links as the arena has bindings of the kind; a
longer one runs in a circle and is reported as such.

What is not bound is known by its path: the instance names from the root down, with dots between
them.
-/

namespace HybridAutomata.Tree

variable {κ : Type}

/-! ## Chains of bindings -/

/-- The number of bindings of one kind in the arena. -/
def bindingCount (tree : Tree κ) (kind : NameKind) : Nat :=
  (tree.components.toList.flatMap fun component =>
    component.children.values.flatMap fun inst => inst.bindings kind).length

/-- Where a name of a component leads: the network and the name there to which it is bound, if it is
bound. -/
def outer? (tree : Tree κ) (kind : NameKind) (c : Handle) (name : String) :
    Except (ModelError κ) (Option (Handle × String)) := do
  match ← tree.expectInstance c with
  | none => pure none
  | some inst => pure ((inst.outerName? kind name).map fun outer => (inst.parent, outer))

/-- The value of a constant, following at most `steps` bindings. -/
def constantWithin (tree : Tree κ) : (steps : Nat) → Handle → String →
    Except (ModelError κ) (Interval κ)
  | steps, c, name =>
    match (tree.get c).constants.get? name with
    | none => .error (.unknownConstant name (tree.get c).displayName)
    | some own =>
      -- a binding is looked for even if the constant has a value of its own
      match tree.outer? .const c name, own, steps with
      | .error e, _, _ => .error e
      | .ok (some _), some _, _ =>
        .error (.doublyBoundConstant name (tree.get c).displayName)
      | .ok (some _), none, 0 => .error (.circularBinding name (tree.get c).displayName)
      | .ok (some (parent, outer)), none, steps + 1 => tree.constantWithin steps parent outer
      | .ok none, some value, _ => .ok value
      | .ok none, none, _ => .error (.unassignedConstant name (tree.get c).displayName)

/-- The value of a constant that a component declares: its own, or that of the constant to which it
is bound. A constant must not have both. -/
def constantValue (tree : Tree κ) (c : Handle) (name : String) :
    Except (ModelError κ) (Interval κ) :=
  tree.constantWithin (tree.bindingCount .const) c name

/-! ## Paths -/

/-- The instance names on the way down to a component, looking up at most `levels` components. -/
def pathWithin (tree : Tree κ) : (levels : Nat) → Handle → List String
  | 0, _ => []
  | levels + 1, c =>
    let own := (tree.get c).instanceName.getD ""
    match (tree.get c).parent with
    | some parent =>
      if (tree.get parent).instanceName.isSome then tree.pathWithin levels parent ++ [own]
      else [own]
    | none => [own]

/-- The dotted path from the root to a component; the root has the empty path. -/
def path (tree : Tree κ) (c : Handle) : String :=
  Text.join "." (tree.pathWithin tree.size c)

/-- A name behind a path. -/
def qualify (path name : String) : String :=
  if path.isEmpty then name else path ++ "." ++ name

/-- The global name of a variable, following at most `steps` bindings. -/
def variableWithin (tree : Tree κ) : (steps : Nat) → Handle → String →
    Except (ModelError κ) String
  | steps, c, name =>
    match tree.outer? .var c name, steps with
    | .error e, _ => .error e
    | .ok (some _), 0 => .error (.circularBinding name (tree.get c).displayName)
    | .ok (some (parent, outer)), steps + 1 => tree.variableWithin steps parent outer
    | .ok none, _ =>
      if (tree.get c).parent.isNone then .ok name else .ok (tree.path c ++ "." ++ name)

/-- The name under which a variable of a component is known globally: that of the outermost
variable to which it is bound, or its own behind the path of the component. -/
def variableName (tree : Tree κ) (c : Handle) (name : String) : Except (ModelError κ) String :=
  tree.variableWithin (tree.bindingCount .var) c name

/-! ## Names below a component -/

/-- The global names of the variables of the automata at and below a component, looking at most
`levels` levels down. -/
def variablesWithin (tree : Tree κ) : (levels : Nat) → Handle →
    Except (ModelError κ) (List String)
  | 0, c => .error (.circularNesting (tree.get c).displayName)
  | levels + 1, c =>
    match (tree.get c).body with
    | .base _ => do
      let names ← (tree.get c).vars.mapM (tree.variableName c)
      pure (firstOccurrences names)
    | .network children => do
      let names ← children.values.mapM fun inst => tree.variablesWithin levels inst.child
      -- one variable may be bound in several instances
      pure (firstOccurrences (names.flatten.mergeSort fun left right => left ≤ right))

/-- The global names of the variables of the automata at and below a component. An automaton lists
its variables as they are declared, a network sorts those of its instances. -/
def allVariables (tree : Tree κ) (c : Handle) : Except (ModelError κ) (List String) :=
  tree.variablesWithin tree.size c

/-- The constants of a component that are not bound in the network around it, by qualified name. -/
def ownConstants (tree : Tree κ) (c : Handle) : NameMap (Option (Interval κ)) :=
  let isFree (name : String) : Bool :=
    ((tree.instance? c).bind fun inst => inst.outerName? .const name).isNone
  ((tree.get c).constants.filter fun name _ => isFree name).rekey (qualify (tree.path c))

/-- The constants at and below a component that are not bound, looking at most `levels` levels
down. -/
def constantsWithin (tree : Tree κ) : (levels : Nat) → Handle → NameMap (Option (Interval κ))
  | 0, _ => ∅
  | levels + 1, c =>
    (tree.children c).foldl
      (fun found child => found.insertAll (tree.constantsWithin levels child).entries)
      (tree.ownConstants c)

/-- The constants at and below a component that are not bound, by qualified name. -/
def allConstants (tree : Tree κ) (c : Handle) : NameMap (Option (Interval κ)) :=
  tree.constantsWithin tree.size c

/-! ## Assigning constants -/

/-- The tree with another own value of a constant. -/
def assign (tree : Tree κ) (c : Handle) (constant : String) (value : Interval κ) : Tree κ :=
  tree.modify c fun component =>
    { component with constants := component.constants.insert constant (some value) }

/-- Gives a constant that a component declares a value. -/
def setOwnConstant (c : Handle) (name : String) (value : Interval κ) : TreeM κ Unit := do
  let component := (← getThe (Tree κ)).get c
  if component.constants.contains name then
    modifyThe (Tree κ) fun tree => tree.assign c name value
  else throw (.unknownConstant name component.displayName)

/-- Gives a constant a value. In a network, a dotted name is handed on to the instance before the
dot. -/
def setConstant (c : Handle) (name : String) (value : Interval κ) : TreeM κ Unit := do
  let component := (← getThe (Tree κ)).get c
  match component.body with
  | .base _ => setOwnConstant c name value
  | .network children =>
    match _h : Text.cut? '.' name with
    | none => setOwnConstant c name value
    | some (inst, rest) =>
      match children.get? inst with
      | some entry => setConstant entry.child rest value
      | none => throw (.unknownInstance inst component.displayName)
termination_by name.length
decreasing_by exact Text.length_lt_of_cut? (by assumption)

end HybridAutomata.Tree
