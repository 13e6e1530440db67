import HybridAutomata.Component.Check
import HybridAutomata.Tree.Resolve
/-!
# Checking a tree

A component is checked before the components below it, and the children of a network one after the
other: first the links and bindings of the instance, then the child itself, then the name it bears.
The first violation ends the check.
-/

namespace HybridAutomata.Tree

variable {κ : Type}

/-- Checks that the names of a component are well-formed and that its constants have values. -/
def checkDeclarations (tree : Tree κ) (options : CheckOptions) (c : Handle) :
    Except (Violation κ) Unit := do
  let component := tree.get c
  -- the links come first, then the names, then the values
  component.checkLinks
  checkNames component.displayName [] (component.checkedNames options)
  if options.constants then
    component.constants.keys.forM fun name =>
      match tree.constantValue c name with
      | .ok _ => .ok ()
      | .error cause => .error (.unresolvedConstant name component.displayName cause)

/-- Checks the links and bindings of an instance. -/
def checkInstance (tree : Tree κ) (options : CheckOptions) (owner : Handle) (inst : Instance) :
    Except (Violation κ) Unit := do
  let network := tree.get owner
  let child := tree.get inst.child
  -- both sides of the link have to name the network
  if inst.parent ≠ owner ∨ child.parent ≠ some owner then
    throw (.parentMismatch child.displayName network.displayName)
  [NameKind.var, .const, .label].forM fun kind =>
    (inst.bindings kind).forM fun binding =>
      binding.check (network.declares kind) (child.declares kind) kind network.displayName
        options.constants

/-- Checks a component and all components below it, at most `levels` levels down. -/
def checkWithin (tree : Tree κ) (options : CheckOptions) : (levels : Nat) → Handle →
    Except (Violation κ) Unit
  | 0, c => .error (.circularNesting (tree.get c).displayName)
  | levels + 1, c => do
    tree.checkDeclarations options c
    let component := tree.get c
    match component.body with
    | .base automaton => component.checkAutomaton automaton
    | .network children =>
      -- a network without instances has no modes
      if children.isEmpty then throw (.emptyNetwork component.displayName)
      children.entries.forM fun (name, inst) => do
        tree.checkInstance options c inst
        tree.checkWithin options levels inst.child
        -- the name comes last, so the child may report it first as no identifier
        let declared := (tree.get inst.child).instanceName
        if declared ≠ some name then
          throw (.instanceNameMismatch name (declared.getD "<root>"))

/-- Checks a component and all components below it. -/
def checkComponent (tree : Tree κ) (c : Handle) (options : CheckOptions) :
    Except (Violation κ) Unit :=
  if options.enabled then tree.checkWithin options tree.size c else .ok ()

/-- Checks the whole tree. -/
def check (tree : Tree κ) (options : CheckOptions) : Except (Violation κ) Unit :=
  tree.checkComponent tree.root options

end HybridAutomata.Tree
