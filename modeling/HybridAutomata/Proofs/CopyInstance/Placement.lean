import HybridAutomata.Proofs.Component.Body
import HybridAutomata.Proofs.CopyInstance.Preparation
import HybridAutomata.Proofs.NameMap.Lookup
import HybridAutomata.Proofs.Tree.Arena
import HybridAutomata.Proofs.Tree.Operations
/-!
# Placing copies

Once all names are claimed, no copy can fail to be placed. `placed` is the tree with one more copy
of the prototype, `Placeable` says what the placing of a list of copies relies on, and
`runOn_forM_place` says that placing them succeeds and which tree it leads to.
-/

namespace HybridAutomata

namespace CopyInstance

variable {κ : Type}

/-! ## The tree with one more copy -/

/-- The copy of the prototype, linked to the root. -/
def copyOf (tree : Tree κ) (prototype : Instance) (plan : Plan) : Component κ :=
  { (tree.get prototype.child).detached with
    parent := some tree.root, instanceName := some plan.name }

/-- The entry of the root for a copy that lives at a place of the arena. -/
def entryOf (root : Handle) (prototype : Instance) (plan : Plan) (place : Nat) : Instance where
  parent := root
  child := ⟨place⟩
  vars := plan.vars
  consts := prototype.consts
  labels := plan.labels

/-- The tree with one more copy in the root. -/
def placed (tree : Tree κ) (prototype : Instance) (plan : Plan) : Tree κ :=
  (tree.push (copyOf tree prototype plan)).modify tree.root fun component =>
    component.mapChildren fun children =>
      children.insert plan.name (entryOf tree.root prototype plan tree.size)

/-- What placing copies relies on: the root is a network, the prototype an automaton of the arena,
and the names of the copies are new and different. -/
structure Placeable (tree : Tree κ) (prototype : Instance) (copies : List Plan) : Prop where
  isNetwork : tree.rootComponent.isNetwork
  child_lt : prototype.child.index < tree.size
  isBase : (tree.get prototype.child).isBase
  fresh : ∀ plan ∈ copies, plan.name ∉ tree.rootComponent.children.keys
  distinct : (copies.map Plan.name).Nodup

@[simp] theorem root_placed (tree : Tree κ) (prototype : Instance) (plan : Plan) :
    (placed tree prototype plan).root = tree.root := rfl

/-- `placed` leaves components other than the root as they are. -/
theorem get_placed_of_lt {tree : Tree κ} {c : Handle} (hlt : c.index < tree.size)
    (hne : c ≠ tree.root) (prototype : Instance) (plan : Plan) :
    (placed tree prototype plan).get c = tree.get c := by
  rw [placed, Tree.get_modify_of_ne hne, Tree.get_push_of_lt hlt]

@[simp] theorem size_placed (tree : Tree κ) (prototype : Instance) (plan : Plan) :
    (placed tree prototype plan).size = tree.size + 1 := by
  rw [placed, Tree.size_modify, Tree.size_push]

namespace Placeable

variable {tree : Tree κ} {prototype : Instance} {copies : List Plan} {plan : Plan}

theorem root_lt (h : Placeable tree prototype copies) : tree.root.index < tree.size :=
  Tree.index_lt_of_isNetwork h.isNetwork

theorem child_ne_root (h : Placeable tree prototype copies) : prototype.child ≠ tree.root :=
  Tree.ne_root_of_isBase h.isBase h.isNetwork

/-- The place of the next copy is not that of the root. -/
theorem last_ne_root (h : Placeable tree prototype copies) :
    (⟨tree.size⟩ : Handle) ≠ tree.root := by
  intro he
  have hlt := h.root_lt
  rw [← he] at hlt
  exact Nat.lt_irrefl _ hlt

/-- `placed` inserts the entry of the copy into the root. -/
theorem rootComponent_placed (h : Placeable tree prototype copies) (plan : Plan) :
    (placed tree prototype plan).rootComponent =
      tree.rootComponent.mapChildren fun children =>
        children.insert plan.name (entryOf tree.root prototype plan tree.size) := by
  have hlt : tree.root.index < (tree.push (copyOf tree prototype plan)).size := by
    rw [Tree.size_push]
    exact Nat.lt_succ_of_lt h.root_lt
  -- appending the copy does not move the root, so only the change of the root shows
  rw [Tree.rootComponent, root_placed, placed, Tree.get_modify_self hlt,
    Tree.get_push_of_lt h.root_lt, Tree.rootComponent]

/-- `placed` puts the copy at the end of the arena. -/
theorem get_placed_last (h : Placeable tree prototype copies) (plan : Plan) :
    (placed tree prototype plan).get ⟨tree.size⟩ = copyOf tree prototype plan := by
  rw [placed, Tree.get_modify_of_ne h.last_ne_root, Tree.get_push_self]

/-- After one copy is `placed` the tree is `Placeable` for the rest of the copies. -/
theorem placed (h : Placeable tree prototype (plan :: copies)) :
    Placeable (CopyInstance.placed tree prototype plan) prototype copies where
  isNetwork := by
    rw [h.rootComponent_placed, Component.isNetwork_mapChildren]
    exact h.isNetwork
  child_lt := by
    rw [size_placed]
    exact Nat.lt_succ_of_lt h.child_lt
  isBase := by
    rw [get_placed_of_lt h.child_lt h.child_ne_root]
    exact h.isBase
  fresh := by
    -- the names of the others are compared with the old instances and with the copy just placed
    intro other ho
    rw [h.rootComponent_placed, Component.children_mapChildren h.isNetwork,
      NameMap.mem_keys_insert, not_or]
    refine ⟨?_, h.fresh other (List.mem_cons_of_mem _ ho)⟩
    -- the first copy is in the root now, and no other copy is called like it
    intro he
    have hd := h.distinct
    rw [List.map_cons, List.nodup_cons] at hd
    exact hd.1 (he ▸ List.mem_map_of_mem ho)
  distinct := (List.nodup_cons.1 h.distinct).2

end Placeable

/-! ## The tree with all copies -/

/-- The tree with copies in the root, one after the other. -/
def placedAll (tree : Tree κ) (prototype : Instance) (copies : List Plan) : Tree κ :=
  copies.foldl (fun tree plan => placed tree prototype plan) tree

/-- The entries of the root for copies that live at the end of the arena. -/
def newEntries (tree : Tree κ) (prototype : Instance) (copies : List Plan) :
    List (String × Instance) :=
  (copies.zipIdx tree.size).map fun (plan, place) =>
    (plan.name, entryOf tree.root prototype plan place)

/-- `placedAll` does not move the root. -/
@[simp] theorem root_placedAll (tree : Tree κ) (prototype : Instance) (copies : List Plan) :
    (placedAll tree prototype copies).root = tree.root := by
  induction copies generalizing tree with
  | nil => rfl
  | cons plan rest ih => exact ih _

/-- `placedAll` takes one place of the arena for each copy. -/
@[simp] theorem size_placedAll (tree : Tree κ) (prototype : Instance) (copies : List Plan) :
    (placedAll tree prototype copies).size = tree.size + copies.length := by
  -- induction on the copies, which are placed from the left, so the tree varies
  induction copies generalizing tree with
  | nil => rfl
  | cons plan rest ih =>
    refine (ih _).trans ?_
    rw [size_placed, List.length_cons]
    omega

/-- `placedAll` leaves components other than the root as they are. -/
theorem get_placedAll_of_lt {tree : Tree κ} {c : Handle} (hlt : c.index < tree.size)
    (hne : c ≠ tree.root) (prototype : Instance) (copies : List Plan) :
    (placedAll tree prototype copies).get c = tree.get c := by
  induction copies generalizing tree with
  | nil => rfl
  | cons plan rest ih =>
    -- the arena only grows, so the component stays inside it
    have hlt' : c.index < (placed tree prototype plan).size := by
      rw [size_placed]
      exact Nat.lt_succ_of_lt hlt
    exact (ih hlt' hne).trans (get_placed_of_lt hlt hne prototype plan)

namespace Placeable

variable {tree : Tree κ} {prototype : Instance} {copies : List Plan} {plan : Plan}

/-- `copyOf` the prototype is the same before and after another copy is `placed`. -/
theorem copyOf_placed (h : Placeable tree prototype copies) (plan other : Plan) :
    copyOf (CopyInstance.placed tree prototype plan) prototype other =
      copyOf tree prototype other := by
  rw [copyOf, copyOf, get_placed_of_lt h.child_lt h.child_ne_root, root_placed]

/-- After `placedAll` every copy is at its place. -/
theorem get_placedAll (h : Placeable tree prototype copies) {place : Nat}
    (hplan : (plan, place) ∈ copies.zipIdx tree.size) :
    (placedAll tree prototype copies).get ⟨place⟩ = copyOf tree prototype plan := by
  -- every copy is made in the tree that the copies before it have led to
  induction copies generalizing tree with
  | nil => cases hplan
  | cons first rest ih =>
    have hnext : Placeable (CopyInstance.placed tree prototype first) prototype rest := h.placed
    rw [List.zipIdx_cons] at hplan
    rcases List.mem_cons.1 hplan with he | hr
    · obtain ⟨rfl, rfl⟩ := Prod.mk.inj he
      have hlt : tree.size < (CopyInstance.placed tree prototype plan).size := by
        rw [size_placed]
        exact Nat.lt_succ_self _
      exact (get_placedAll_of_lt (c := ⟨tree.size⟩) hlt h.last_ne_root prototype rest).trans
        (h.get_placed_last plan)
    · -- the prototype is still there after the first copy, so the others are made from it
      rw [← h.copyOf_placed first plan]
      refine ih hnext ?_
      rwa [size_placed]

/-- After `placedAll` the root has `newEntries` behind the others, in the order of the copies. -/
theorem entries_placedAll (h : Placeable tree prototype copies) :
    (placedAll tree prototype copies).rootComponent.children.entries =
      tree.rootComponent.children.entries ++ newEntries tree prototype copies := by
  induction copies generalizing tree with
  | nil => exact (List.append_nil _).symm
  | cons first rest ih =>
    have hnext : Placeable (CopyInstance.placed tree prototype first) prototype rest := h.placed
    -- the first copy goes behind all entries, because its name is new
    have hfirst : (CopyInstance.placed tree prototype first).rootComponent.children.entries =
        tree.rootComponent.children.entries ++
          [(first.name, entryOf tree.root prototype first tree.size)] := by
      rw [h.rootComponent_placed, Component.children_mapChildren h.isNetwork,
        NameMap.entries_insert_of_not_mem (h.fresh first List.mem_cons_self)]
    refine (ih hnext).trans ?_
    rw [hfirst, List.append_assoc, List.singleton_append, newEntries, newEntries, size_placed,
      root_placed, List.zipIdx_cons, List.map_cons]

/-- `placedAll` changes nothing of the root but its body. -/
theorem rootComponent_placedAll (h : Placeable tree prototype copies) :
    ∃ children, (placedAll tree prototype copies).rootComponent =
      { tree.rootComponent with body := .network children } := by
  -- every copy replaces the body once more
  induction copies generalizing tree with
  | nil => exact ⟨_, Component.eq_of_isNetwork h.isNetwork⟩
  | cons first rest ih =>
    have hnext : Placeable (CopyInstance.placed tree prototype first) prototype rest := h.placed
    obtain ⟨children, hrest⟩ := ih hnext
    refine ⟨children, hrest.trans ?_⟩
    rw [h.rootComponent_placed, Component.mapChildren_of_isNetwork h.isNetwork]

end Placeable

/-! ## Placing does not fail -/

/-- `copyWithin` an automaton is a single component, `detached` from its place. -/
theorem copyWithin_of_isBase [Scalar κ] {tree : Tree κ} {c : Handle} (h : (tree.get c).isBase)
    (levels start : Nat) :
    tree.copyWithin (levels + 1) start c = .ok [(tree.get c).detached] := by
  obtain ⟨automaton, ha⟩ := Component.exists_automaton h
  rw [Tree.copyWithin, ha]

/-- `Tree.copyComponent` puts the copy of an automaton at the end of the arena. -/
theorem runOn_copyComponent_of_isBase [Scalar κ] {tree : Tree κ} {c : Handle}
    (h : (tree.get c).isBase) (hlt : c.index < tree.size) :
    (Tree.copyComponent c).runOn tree = (.ok ⟨tree.size⟩, tree.push (tree.get c).detached) := by
  have hcopy : tree.copyWithin tree.size tree.size c = .ok [(tree.get c).detached] := by
    -- one level is enough, and the arena is not empty because the automaton is in it
    obtain ⟨levels, hs⟩ := Nat.exists_eq_succ_of_ne_zero (Nat.ne_zero_of_lt hlt)
    rw [hs]
    exact copyWithin_of_isBase h levels _
  have happend : tree.components ++ [(tree.get c).detached] =
      tree.components.push (tree.get c).detached := by simp
  -- an automaton is a single component, so one component is appended
  rw [Tree.runOn_copyComponent, hcopy, Tree.push, ← happend]
  rfl

variable {tree : Tree κ} {prototype : Instance} {copies : List Plan} {plan : Plan}

/-- The copy that was just appended can be attached to the root. -/
theorem runOn_attach_push (h : Placeable tree prototype (plan :: copies)) :
    (Tree.attach tree.root plan.name ⟨tree.size⟩).runOn
        (tree.push (tree.get prototype.child).detached) =
      (.ok (), (tree.push (copyOf tree prototype plan)).modify tree.root fun component =>
        component.mapChildren fun children =>
          children.insert plan.name { parent := tree.root, child := ⟨tree.size⟩ }) := by
  have hroot : (tree.push (tree.get prototype.child).detached).get tree.root =
      tree.rootComponent := Tree.get_push_of_lt h.root_lt _
  have hfresh : tree.rootComponent.children.contains plan.name = false :=
    NameMap.contains_eq_false_iff.2 (h.fresh plan List.mem_cons_self)
  -- both checks of the place succeed: it is a network, and the name is free
  rw [Tree.runOn_attach, Tree.checkPlace, hroot, Component.network?_eq_some h.isNetwork]
  simp only [hfresh, Bool.false_eq_true, if_false]
  rw [Tree.link, Tree.modify_push]
  rfl

/-- Placing a copy leads to the tree with one more copy. -/
theorem runOn_place [Scalar κ] (w : Workspace κ) (name : String)
    (h : Placeable w.model.tree prototype (plan :: copies)) :
    (place prototype name plan).runOn w =
      (.ok (), {
        model := { w.model with tree := placed w.model.tree prototype plan }
        phase := w.phase
        log := w.log ++ [⟨.info, "Created copy " ++ plan.name ++ " of instance " ++ name⟩] }) := by
  -- first the component of the prototype is copied, then the copy is attached, and last it is bound
  have hcopy := PassM.runOn_onTree_ok (runOn_copyComponent_of_isBase h.isBase h.child_lt)
  rw [place, Change.runOn_bind_ok (PassM.runOn_model w), Change.runOn_bind_ok hcopy,
    Change.runOn_bind_ok (PassM.runOn_onTree_ok (runOn_attach_push h)),
    Change.runOn_bind_ok (PassM.runOn_modifyTree ..), PassM.runOn_report]
  simp only [Tree.modifyChild, Tree.modify_modify, placed, entryOf]
  -- binding the new instance changes the entry that was just inserted
  simp only [Function.comp_def, Component.mapChildren_mapChildren, NameMap.modify_insert]

/-- What the placing of copies reports. -/
def placeReports (name : String) (copies : List Plan) : List Report :=
  copies.map fun plan => ⟨.info, "Created copy " ++ plan.name ++ " of instance " ++ name⟩

/-- `place` succeeds for all copies in turn and leads to `placedAll`. -/
theorem runOn_forM_place [Scalar κ] (w : Workspace κ) (name : String)
    (h : Placeable w.model.tree prototype copies) :
    (copies.forM (place prototype name)).runOn w =
      (.ok (), {
        model := { w.model with tree := placedAll w.model.tree prototype copies }
        phase := w.phase
        log := w.log ++ placeReports name copies }) := by
  -- induction on the copies; what one copy leaves behind is `Placeable` for the others
  induction copies generalizing w with
  | nil => simp [placeReports, placedAll]
  | cons plan rest ih =>
    rw [List.forM_eq_forM, List.forM_cons, ← List.forM_eq_forM,
      Change.runOn_bind_ok (runOn_place w name h), ih _ h.placed]
    simp [placeReports, placedAll]

end CopyInstance
end HybridAutomata
