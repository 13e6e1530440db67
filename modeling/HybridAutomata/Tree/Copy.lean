import HybridAutomata.Text.Names
import HybridAutomata.Tree.Basic
/-!
# Copying

A component is copied together with all components below it. The copies are laid out in preorder,
each network followed by the copies below it, and refer to each other only. Constants that are
bound to literals get the value of the literal, and the binding goes.
-/

namespace HybridAutomata.Tree

variable {κ : Type} [Scalar κ]

/-- Gives the constants of a copied child their literal values, in the order of the bindings, and
keeps the other bindings. -/
def resolveLiterals (constants : NameMap (Option (Interval κ))) :
    List Binding → Except (ModelError κ) (NameMap (Option (Interval κ)) × List Binding)
  | [] => .ok (constants, [])
  | binding :: rest =>
    match binding.literal? with
    | none => do
      let (constants, kept) ← resolveLiterals constants rest
      pure (constants, binding :: kept)
    | some literal =>
      match Scalar.read? (Text.trim literal.toList) with
      | none => .error (.malformedLiteral binding.inner literal)
      | some value =>
        resolveLiterals (constants.insert binding.inner (some (.point value))) rest

/-- Places the copy of a child, given as the first of its copies, under a network that lives at
`owner`: the entry of the network and the copies with the first one linked. -/
def placeCopy (owner : Handle) (name : String) (inst : Instance) (start : Nat) :
    List (Component κ) → Except (ModelError κ) (Instance × List (Component κ))
  | [] => .ok ({ inst with parent := owner, child := ⟨start⟩ }, [])
  | child :: below => do
    let (constants, consts) ← resolveLiterals child.constants inst.consts
    pure ({ inst with parent := owner, child := ⟨start⟩, consts },
      { child with parent := some owner, instanceName := some name, constants } :: below)

/-- The copies of a component and of all components below it, for places from `start` on, at most
`levels` levels down. -/
def copyWithin (tree : Tree κ) : (levels start : Nat) → Handle →
    Except (ModelError κ) (List (Component κ))
  | 0, _, c => .error (.circularNesting (tree.get c).displayName)
  | levels + 1, start, c =>
    let component := tree.get c
    match component.body with
    | .base _ => .ok [component.detached]
    | .network children => do
      let (instances, below) ← children.entries.foldlM
        (fun (instances, below) (name, inst) => do
          -- the network itself takes one place, the copies made so far take the next ones
          let next := start + 1 + below.length
          let copies ← tree.copyWithin levels next inst.child
          let (entry, copies) ← placeCopy ⟨start⟩ name inst next copies
          pure (instances.insert name entry, below ++ copies))
        ((∅ : NameMap Instance), ([] : List (Component κ)))
      pure ({ component.detached with body := .network instances } :: below)

/-- Copies a component and all components below it to the end of the arena. The copy has no parent
and no instance name yet. -/
def copyComponent (c : Handle) : TreeM κ Handle := do
  let tree ← getThe (Tree κ)
  -- the copies are gathered outside of the arena
  let copies ← tree.copyWithin tree.size tree.size c
  modifyThe (Tree κ) fun tree => tree.append copies
  return ⟨tree.size⟩

/-- Copies the components that are reachable from the root into an arena of their own. -/
def copy (tree : Tree κ) : Except (ModelError κ) (Tree κ) := do
  let copies ← tree.copyWithin tree.size 0 tree.root
  pure ⟨copies.toArray, ⟨0⟩⟩

end HybridAutomata.Tree
