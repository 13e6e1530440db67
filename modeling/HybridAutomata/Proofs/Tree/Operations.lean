import HybridAutomata.Proofs.Change
import HybridAutomata.Tree.Copy
/-!
# Changes of a tree that can be refused

What `Tree.addInstance`, `Tree.attach` and `Tree.copyComponent` make of a tree, with the refusals.
Each of them asks first and changes then, so a refusal finds the tree as it was:
`addInstance_atomicOn`, `attach_atomicOn`, `copyComponent_atomicOn`.
-/

namespace HybridAutomata.Tree

variable {κ : Type}

/-! ## What the operations do -/

/-- `addInstance` is refused if the place is, and cannot fail after that. -/
theorem runOn_addInstance (parent : Handle) (name : String) (child : Component κ) (tree : Tree κ) :
    (addInstance parent name child).runOn tree =
      match tree.checkPlace parent name with
      | .ok () => (.ok ⟨tree.size⟩, (tree.push child).link parent name ⟨tree.size⟩)
      | .error cause => (.error cause, tree) := by
  rw [addInstance, Change.runOn_bind_ok (Change.runOn_getThe tree), Change.runOn_bind,
    Change.runOn_liftM]
  rcases tree.checkPlace parent name with cause | ⟨⟩ <;> rfl

/-- `attach` is refused if the place is. -/
theorem runOn_attach (parent : Handle) (name : String) (copy : Handle) (tree : Tree κ) :
    (attach parent name copy).runOn tree =
      match tree.checkPlace parent name with
      | .ok () => (.ok (), tree.link parent name copy)
      | .error cause => (.error cause, tree) := by
  rw [attach, Change.runOn_bind_ok (Change.runOn_getThe tree), Change.runOn_bind,
    Change.runOn_liftM]
  rcases tree.checkPlace parent name with cause | ⟨⟩ <;> rfl

/-- `copyComponent` is refused if the copies cannot be made, and appends them otherwise. -/
theorem runOn_copyComponent [Scalar κ] (c : Handle) (tree : Tree κ) :
    (copyComponent c).runOn tree =
      match tree.copyWithin tree.size tree.size c with
      | .ok copies => (.ok ⟨tree.size⟩, tree.append copies)
      | .error cause => (.error cause, tree) := by
  rw [copyComponent, Change.runOn_bind_ok (Change.runOn_getThe tree), Change.runOn_bind,
    Change.runOn_liftM]
  rcases tree.copyWithin tree.size tree.size c with cause | copies <;> rfl

/-! ## Refused operations -/

/-- `addInstance` changes nothing where it is refused. -/
theorem addInstance_atomicOn (parent : Handle) (name : String) (child : Component κ)
    (tree : Tree κ) :
    (addInstance parent name child).AtomicOn id tree := by
  -- the place is checked before the arena grows
  refine Change.keeps_getThe.atomicOn_bind fun _ _ _ => ?_
  refine (Change.keeps_liftM _).atomicOn_bind fun _ _ _ => ?_
  refine Change.SucceedsOn.atomicOn ((Change.succeedsOn_modifyThe _ _).bind fun _ _ => ?_)
  exact (Change.succeedsOn_modifyThe _ _).bind fun _ _ => ⟨_, _, rfl⟩

/-- `attach` changes nothing where it is refused. -/
theorem attach_atomicOn (parent : Handle) (name : String) (copy : Handle) (tree : Tree κ) :
    (attach parent name copy).AtomicOn id tree := by
  -- the place is checked before the component gets its parent
  refine Change.keeps_getThe.atomicOn_bind fun _ _ _ => ?_
  refine (Change.keeps_liftM _).atomicOn_bind fun _ _ _ => ?_
  exact (Change.succeedsOn_modifyThe _ _).atomicOn

/-- `copyComponent` changes nothing where it is refused. -/
theorem copyComponent_atomicOn [Scalar κ] (c : Handle) (tree : Tree κ) :
    (copyComponent c).AtomicOn id tree := by
  -- the copies are complete before the first one comes into the arena
  refine Change.keeps_getThe.atomicOn_bind fun _ _ _ => ?_
  refine (Change.keeps_liftM _).atomicOn_bind fun _ _ _ => ?_
  exact ((Change.succeedsOn_modifyThe _ _).bind fun _ _ => ⟨_, _, rfl⟩).atomicOn

end HybridAutomata.Tree
