import HybridAutomata.Proofs.Scalar.Integer
import HybridAutomata.Proofs.Tree.DottedNames
import HybridAutomata.Proofs.Tree.Operations
import HybridAutomata.Proofs.Tree.Wired
/-!
# Trees that are built step by step

A tree starts with a single component and is changed by five operations: `Operation`. Three of them
change links. A new component comes without children, a component is copied with all components
below it, and a component without a parent is attached to one that is not below it. An operation
asks its questions before it changes anything, so the tree that a refused one leaves behind is the
one before it.

Every tree that is built this way is wired, and this is carried through the operations one by one.
`Consistent` gathers what a reader of the arena may rely on.

* `Operation.atomicOn`           a refused operation leaves the tree as it is
* `Wired.apply`                  an operation keeps a tree wired
* `built_trees_are_consistent`   every tree that is built is consistent
-/

namespace HybridAutomata

/-- Changes the bindings of an instance, those of each kind of names on their own. -/
def Instance.mapBindings (inst : Instance) (edit : NameKind → List Binding → List Binding) :
    Instance :=
  { inst with
    vars := edit .var inst.vars
    consts := edit .const inst.consts
    labels := edit .label inst.labels }

namespace Tree

variable {κ : Type}

/-! ## Operations -/

/-- The ways in which a tree is built. -/
inductive Operation (κ : Type) where
  | addInstance (parent : Handle) (name : String) (child : Component κ)
  | copyComponent (c : Handle)
  | attach (parent : Handle) (name : String) (copy : Handle)
  | editBindings (c : Handle) (edit : NameKind → List Binding → List Binding)
  | setConstant (c : Handle) (name : String) (value : Interval κ)

namespace Operation

/-- Carries an operation out. -/
def run [Scalar κ] : Operation κ → TreeM κ Unit
  | addInstance parent name child => do
    let _ ← Tree.addInstance parent name child
    return ()
  | copyComponent c => do
    let _ ← Tree.copyComponent c
    return ()
  | attach parent name copy => Tree.attach parent name copy
  | editBindings c edit =>
    modifyThe (Tree κ) fun tree => tree.modifyInstance c fun inst => inst.mapBindings edit
  | setConstant c name value => Tree.setConstant c name value

/-- The tree that an operation leaves behind, whether it is carried out or refused. -/
def apply [Scalar κ] (tree : Tree κ) (operation : Operation κ) : Tree κ :=
  (operation.run.runOn tree).2

/-- What is asked of an operation: new components have no children, and what is attached is a
component of the arena without a parent that is not the root and does not have the new parent below
it. -/
def Allowed (tree : Tree κ) : Operation κ → Prop
  | addInstance _ _ child => child.children.entries = []
  | attach parent _ copy =>
    copy.index < tree.size ∧ (tree.get copy).parent = none ∧ copy ≠ tree.root ∧
      parent ∉ tree.descendants copy
  | _ => True

end Operation

/-- The trees to which operations lead, from a single component without children. -/
inductive Built [Scalar κ] : Tree κ → Prop where
  | ofRoot (root : Component κ) (h : root.children.entries = []) : Built (ofRoot root)
  | step (tree : Tree κ) (operation : Operation κ) (h : Built tree)
      (hallowed : operation.Allowed tree) : Built (operation.apply tree)

/-! ## Refused operations -/

/-- A refused `Operation` leaves the tree as it is. -/
theorem Operation.atomicOn [Scalar κ] (operation : Operation κ) (tree : Tree κ) :
    operation.run.AtomicOn id tree := by
  cases operation with
  | addInstance parent name child =>
    exact (addInstance_atomicOn parent name child tree).bind_pure ()
  | copyComponent c => exact (copyComponent_atomicOn c tree).bind_pure ()
  | attach parent name copy => exact attach_atomicOn parent name copy tree
  | editBindings c edit => exact (Change.succeedsOn_modifyThe _ tree).atomicOn
  | setConstant c name value => exact setConstant_atomicOn c name value tree

/-! ## Operations keep a tree wired -/

section

variable {tree : Tree κ}

/-- `mapBindings` at an entry of a network changes no links. -/
theorem links_modifyChild (component : Component κ) (name : String)
    (edit : NameKind → List Binding → List Binding) :
    (component.mapChildren fun children =>
      children.modify name fun inst => inst.mapBindings edit).links = component.links := by
  rcases component with ⟨_, _, _, _, _, _, _ | children⟩
  · rfl
  · refine congrArg (Links.mk _ _) ?_
    -- an entry keeps the handles that it holds
    refine (List.map_map ..).trans (List.map_congr_left fun entry _ => ?_)
    by_cases hname : entry.1 = name
    · simp only [Function.comp_apply, if_pos hname]
      rfl
    · simp only [Function.comp_apply, if_neg hname]

/-- Editing bindings keeps a tree `Wired`. -/
theorem Wired.editBindings (h : tree.Wired) (c : Handle)
    (edit : NameKind → List Binding → List Binding) :
    (tree.modifyInstance c fun inst => inst.mapBindings edit).Wired := by
  rw [Tree.modifyInstance]
  split
  · exact h.modify fun component => links_modifyChild component _ edit
  · exact h

variable [Scalar κ]

/-- `apply` of an allowed operation keeps a tree `Wired`. -/
theorem Wired.apply (h : tree.Wired) {operation : Operation κ}
    (hallowed : operation.Allowed tree) : (operation.apply tree).Wired := by
  -- a refused operation has changed nothing; those that are carried out are gone through
  rcases hrun : operation.run.runOn tree with ⟨cause | ⟨⟩, changed⟩
  case error =>
    obtain rfl : changed = tree := operation.atomicOn tree cause changed hrun
    rwa [Operation.apply, hrun]
  case ok =>
    rw [Operation.apply, hrun]
    cases operation with
    | addInstance parent name child =>
      obtain ⟨_, hadd⟩ := Change.of_bind_pure_eq_ok hrun
      rw [runOn_addInstance] at hadd
      split at hadd
      next hplace =>
        cases hadd
        exact h.addInstance hallowed hplace
      next => cases hadd
    | copyComponent c =>
      obtain ⟨_, hcopy⟩ := Change.of_bind_pure_eq_ok hrun
      rw [runOn_copyComponent] at hcopy
      split at hcopy
      next copies hcopies =>
        cases hcopy
        exact h.append (block_copyWithin hcopies)
      next => cases hcopy
    | attach parent name copy =>
      rw [Operation.run, runOn_attach] at hrun
      split at hrun
      next hplace =>
        cases hrun
        obtain ⟨hlt, hfree, hroot, hbelow⟩ := hallowed
        refine h.link hplace hlt hfree hroot fun habove => hbelow ?_
        exact (h.mem_descendants_iff hlt).2 (h.exists_follow_of_isAbove habove)
      next => cases hrun
    | editBindings c edit =>
      cases hrun
      exact h.editBindings c edit
    | setConstant c name value =>
      rw [Operation.run, runOn_setConstant] at hrun
      split at hrun
      · cases hrun
        exact h.modify fun _ => rfl
      · cases hrun

/-- Every tree that is `Built` is `Wired`. -/
theorem Built.wired (h : Built tree) : tree.Wired := by
  induction h with
  | ofRoot root hroot => exact wired_ofRoot hroot
  | step tree operation _ hallowed ih => exact ih.apply hallowed

end

/-! ## Consistent trees -/

/-- What may be relied on in an arena. -/
structure Consistent (tree : Tree κ) : Prop where
  /-- All handles lead to components of the arena. -/
  root_lt : tree.root.index < tree.size
  parent_lt : ∀ c parent, (tree.get c).parent = some parent → parent.index < tree.size
  child_lt : ∀ c, ∀ entry ∈ (tree.get c).children.entries, entry.2.child.index < tree.size
  /-- An entry and its child name the network around them, and the child its own name there. -/
  link : ∀ c, ∀ entry ∈ (tree.get c).children.entries, tree.LinkOk c entry.1 entry.2
  /-- A component with a parent is the child of the entry under its name there, and of no other
  entry. -/
  placed : ∀ c parent, (tree.get c).parent = some parent →
    ∃ name inst, (tree.get c).instanceName = some name ∧
      tree.childNamed? parent name = some inst ∧ inst.child = c ∧
      ∀ owner, ∀ entry ∈ (tree.get owner).children.entries, entry.2.child = c →
        owner = parent ∧ entry = (name, inst)
  unnamed : ∀ c, (tree.get c).parent = none → (tree.get c).instanceName = none
  /-- There is no endless way up. -/
  climbs : WellFounded fun parent c => (tree.get c).parent = some parent
  /-- A walk visits whatever is at or below a component, and nothing twice. -/
  walk : ∀ c d, c.index < tree.size →
    (d ∈ tree.descendants c ↔ ∃ names, tree.follow c names = some d)
  nodup : ∀ c, c.index < tree.size → (tree.descendants c).Nodup
  /-- Looking for the instance of a component does not fail. -/
  found : ∀ c, tree.expectInstance c = .ok (tree.instance? c)

/-- A `Wired` tree is `Consistent`. -/
theorem Wired.consistent {tree : Tree κ} (h : tree.Wired) : tree.Consistent where
  root_lt := h.root_lt
  parent_lt c parent hparent := (h.index_lt_of_parent hparent).2
  child_lt c entry he := (h.index_lt_of_parent (h.linkOk he).childParent).1
  link c entry he := h.linkOk he
  placed c parent hparent := by
    obtain ⟨name, inst, hname, he, hi⟩ := h.exists_entry hparent
    refine ⟨name, inst, hname, NameMap.get?_eq_some_iff.2 he, hi, ?_⟩
    rintro owner ⟨other, inst'⟩ he' rfl
    -- the child knows only one network and one name
    have hlink := h.linkOk he'
    obtain rfl := Option.some.inj (hlink.childParent.symm.trans hparent)
    obtain rfl := Option.some.inj (hlink.childName.symm.trans hname)
    have hget := NameMap.get?_eq_some_iff.2 he
    rw [NameMap.get?_eq_some_iff.2 he'] at hget
    exact ⟨rfl, congrArg _ (Option.some.inj hget)⟩
  unnamed c := (h.links c).unnamed
  climbs := ⟨fun c => (h.links c).climbs⟩
  walk c d hc := h.mem_descendants_iff hc
  nodup c hc := h.nodup_descendants hc
  found := h.expectInstance_eq

/-- Every tree that is `Built` is `Consistent`. -/
theorem built_trees_are_consistent [Scalar κ] (tree : Tree κ) (h : Built tree) :
    tree.Consistent :=
  h.wired.consistent

/-! ## Two floors -/

/-- A floor with a lamp is placed in a house and copied, and the copy becomes the second floor. Then
names of the lamp there are bound, and a constant is asked for that no floor has. -/
def twoFloors : Tree Int :=
  let house : Component Int := { body := .network ∅ }
  let floor : Component Int := { body := .network ∅ }
  let lamp : Component Int := { labels := ["switch"], body := .base .empty }
  let operations : List (Operation Int) :=
    [.addInstance ⟨0⟩ "first" floor, .addInstance ⟨1⟩ "lamp" lamp, .copyComponent ⟨1⟩,
      .attach ⟨0⟩ "second" ⟨3⟩, .editBindings ⟨4⟩ fun _ bindings => ⟨"switch", "on"⟩ :: bindings,
      .setConstant ⟨0⟩ "second.height" (.point 3)]
  operations.foldl Operation.apply (ofRoot house)

/-- Both floors and their lamps are there. -/
theorem two_floors_are_consistent :
    Built twoFloors ∧ twoFloors.descendants twoFloors.root = [⟨0⟩, ⟨1⟩, ⟨2⟩, ⟨3⟩, ⟨4⟩] ∧
      twoFloors.Consistent := by
  have hbuilt : Built twoFloors := by
    refine .step _ _ (.step _ _ (.step _ _ (.step _ _ (.step _ _ (.step _ _ (.ofRoot _ rfl)
      ?first) ?lamp) ?copy) ?second) ?bind) ?height
    case second =>
      exact ⟨by decide +kernel, by decide +kernel, by decide +kernel, by decide +kernel⟩
    case first | lamp => rfl
    case copy | bind | height => trivial
  exact ⟨hbuilt, by decide +kernel, built_trees_are_consistent twoFloors hbuilt⟩

end Tree

end HybridAutomata
