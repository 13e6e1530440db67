import HybridAutomata.Expr.Simplify
import HybridAutomata.Pass.Workspace
/-!
# Substituting constants

Every constant of a model is replaced by its value, and the declarations and bindings of constants
disappear. Conditions mention constants of any component by their qualified names and are folded
afterwards; the expressions of an automaton mention the constants of its own component.
-/

namespace HybridAutomata.SubstituteConstants

variable {κ : Type}

/-- The value of a constant as an expression; a proper interval has none. -/
def pointValue [Scalar κ] (tree : Tree κ) (c : Handle) (name : String) :
    Except (ModelError κ) (Expr κ) := do
  let value ← tree.constantValue c name
  match value.value? with
  | some number => pure (.const number)
  | none => throw (.intervalConstant name value)

/-- The values of all constants that a component declares. -/
def pointValues [Scalar κ] (tree : Tree κ) (c : Handle) :
    Except (ModelError κ) (NameMap (Expr κ)) := do
  let entries ← (tree.get c).constants.keys.mapM fun name => do
    pure (name, ← pointValue tree c name)
  pure (.ofList entries)

/-- The values of components by qualified names. -/
def qualifiedValues (tree : Tree κ) (values : List (Handle × NameMap (Expr κ))) :
    NameMap (Expr κ) :=
  .ofList (values.flatMap fun (c, values) =>
    values.entries.map fun (name, value) => (Tree.qualify (tree.path c) name, value))

/-- Takes the constants out of a component. -/
def replaceConstants (component : Component κ) (values : NameMap (Expr κ)) : Component κ :=
  let component : Component κ := { component with constants := ∅ }
  match component.body with
  | .base _ => component.mapAutomaton fun automaton =>
    automaton.mapExprs fun e => e.substitute values
  -- the constants are gone at both ends of these bindings
  | .network _ => component.mapChildren fun children =>
    children.mapValues fun inst => { inst with consts := [] }

/-- Substitutes the constants of the whole model. All values are found before anything is changed.
-/
def run [Scalar κ] : PassM κ Unit := do
  let tree := (← PassM.model).tree
  let values ← PassM.ofModel ((tree.descendants tree.root).mapM fun c => do
    pure (c, ← pointValues tree c))
  -- conditions may mention constants of any component
  let global := qualifiedValues tree values
  PassM.modifyModel fun model => model.mapConditions fun e => (e.substitute global).simplify
  values.forM fun (c, values) =>
    PassM.modifyTree fun tree => tree.modify c fun component => replaceConstants component values

end HybridAutomata.SubstituteConstants
