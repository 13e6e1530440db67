import HybridAutomata.Proofs.Tree.Literals
import HybridAutomata.Proofs.Tree.Operations
import HybridAutomata.Proofs.Tree.Subtree
/-!
# Copies in one arena

A component is copied to the end of the arena in which it lives, with the components below it. If
the networks there are linked to their instances and bind no constant to a literal, the copies
mirror the tree below the component (`subtree`), at places that follow the old ones in preorder:
`copied`. What was in the arena stays as it is, and nothing in the copies leads back to it.

* `LinkedBelow.runOn_copyComponent_eq`   what copying makes of the arena
* `LinkedBelow.mirrors_withCopy`      the copies mirror what is copied
* `LinkedBelow.isCopied_withCopy`     old and new components after copying
-/

namespace HybridAutomata.Tree

variable {κ : Type}

/-- Where the copy of a component at or below `c` lies if `c` is copied. -/
def copied (tree : Tree κ) (c d : Handle) : Handle :=
  ⟨tree.size + (tree.descendants c).idxOf d⟩

/-- The arena with the copies of a component and of those below it. -/
def withCopy (tree : Tree κ) (c : Handle) : Tree κ :=
  tree.append ((tree.descendants c).map fun d => ((tree.subtree c).get d).relabel (tree.copied c))

/-- A component that one arena has and another one does not have. -/
def IsNew (tree after : Tree κ) (d : Handle) : Prop :=
  tree.size ≤ d.index ∧ d.index < after.size

/-- After copying a component there are the old components and the copies, and these are apart. -/
structure IsCopied (tree after : Tree κ) (c copy : Handle) : Prop where
  /-- What was there before is not changed. -/
  root : after.root = tree.root
  kept : ∀ d, d.index < tree.size → after.get d = tree.get d
  /-- There is one new component for each one at or below `c`, in preorder. -/
  listed : ∀ d, d ∈ tree.descendants c ↔ ∃ names, tree.follow c names = some d
  once : (tree.descendants c).Nodup
  size : after.size = tree.size + (tree.descendants c).length
  places : (tree.descendants c).map (tree.copied c) =
    (List.range' tree.size (tree.descendants c).length).map Handle.mk
  /-- All handles in new components lead to new components. -/
  parents : ∀ d, tree.IsNew after d → ∀ parent, (after.get d).parent = some parent →
    tree.IsNew after parent
  entries : ∀ d, tree.IsNew after d → ∀ entry ∈ (after.get d).children.entries,
    tree.IsNew after entry.2.parent ∧ tree.IsNew after entry.2.child
  /-- A copy differs from its original in the handles only, but the copy of `c` is not placed yet.
  -/
  place : copy = tree.copied c c
  top : after.get copy = ((tree.get c).relabel (tree.copied c)).unlinked
  below : ∀ d ∈ tree.descendants c, d ≠ c →
    after.get (tree.copied c d) = (tree.get d).relabel (tree.copied c)

@[simp] theorem root_withCopy (tree : Tree κ) (c : Handle) :
    (tree.withCopy c).root = tree.root := rfl

@[simp] theorem size_withCopy (tree : Tree κ) (c : Handle) :
    (tree.withCopy c).size = tree.size + (tree.descendants c).length := by
  rw [withCopy, size_append, List.length_map]

/-- `withCopy` keeps the components that were there. -/
theorem get_withCopy_of_lt {tree : Tree κ} {c d : Handle} (h : d.index < tree.size) :
    (tree.withCopy c).get d = tree.get d :=
  get_append_of_lt h _

/-- `copied` numbers the copies, starting behind the arena. -/
theorem numbered_copied {tree : Tree κ} {c : Handle} (h : (tree.descendants c).Nodup) :
    Numbered (tree.copied c) tree.size (tree.descendants c) :=
  (numbered_idxOf h).shift tree.size

/-- The copies that `withCopy` adds are new components. -/
theorem isNew_copied {tree : Tree κ} {c d : Handle} (h : d ∈ tree.descendants c) :
    tree.IsNew (tree.withCopy c) (tree.copied c d) := by
  rw [IsNew, size_withCopy]
  exact ⟨Nat.le_add_right .., Nat.add_lt_add_left (List.idxOf_lt_length_of_mem h) _⟩

namespace LinkedBelow

variable {tree : Tree κ} {c d : Handle}

/-- A walk from a component starts there, if no way leads back to it. -/
theorem exists_descendants (h : tree.LinkedBelow c) (hlt : c.index < tree.size)
    (hback : tree.NoWayBack c) : ∃ below, tree.descendants c = c :: below := by
  have hroot := (h.linked_subtree hlt hback).exists_descendants
  rwa [root_subtree, descendants_subtree] at hroot

/-- The copy of the component itself lies at the first new place. -/
theorem copied_self (h : tree.LinkedBelow c) (hlt : c.index < tree.size)
    (hback : tree.NoWayBack c) : tree.copied c c = ⟨tree.size⟩ := by
  obtain ⟨below, hbelow⟩ := h.exists_descendants hlt hback
  rw [copied, hbelow, List.idxOf_cons_self, Nat.add_zero]

/-- `copyComponent` makes `withCopy` of the arena, and gives the copy of the component. -/
theorem runOn_copyComponent_eq [Scalar κ] (h : tree.LinkedBelow c) (hlt : c.index < tree.size)
    (hback : tree.NoWayBack c) (hliteral : tree.NoLiteralsBelow c) :
    (copyComponent c).runOn tree = (.ok (tree.copied c c), tree.withCopy c) := by
  have hnodup := h.nodup_descendants hlt hback
  have hplaces := numbered_copied hnodup
  obtain ⟨below, hbelow⟩ := h.exists_descendants hlt hback
  -- only the first copy is freed of its links, as only `c` is freed of them in the tree below it
  have hcopies : ((tree.descendants c).map fun d => (tree.get d).relabel (tree.copied c)).modifyHead
        Component.unlinked =
      (tree.descendants c).map fun d => ((tree.subtree c).get d).relabel (tree.copied c) := by
    rw [hbelow, List.nodup_cons] at hnodup
    rw [hbelow, List.map_cons, List.modifyHead_cons, List.map_cons, get_subtree_self]
    refine congrArg _ (List.map_congr_left fun d hd => ?_)
    rw [get_subtree_of_ne tree c (ne_of_mem_of_not_mem hd hnodup.1)]
  rw [descendants_eq] at hplaces
  rw [runOn_copyComponent, copyWithin_eq h hliteral (h.covers hlt hback) hplaces, ← descendants_eq,
    hcopies, h.copied_self hlt hback]
  rfl

/-- The copies that `withCopy` adds mirror the tree below the component. -/
theorem mirrors_withCopy (h : tree.LinkedBelow c) (hlt : c.index < tree.size)
    (hback : tree.NoWayBack c) :
    (tree.subtree c).Mirrors ((tree.withCopy c).withRoot (tree.copied c c)) (tree.copied c) where
  linked := h.linked_subtree hlt hback
  root := rfl
  root_lt := (isNew_copied ((h.mem_descendants_iff hlt hback).2 ⟨[], rfl⟩)).2
  -- the copies stand in the order of the walk
  get d hd := by
    have hmem := (h.mem_descendants_iff hlt hback).2 (reachable_subtree_iff.1 hd)
    obtain ⟨i, hplace, hi⟩ := (numbered_copied (h.nodup_descendants hlt hback)).exists_place hmem
    rw [hplace]
    refine get_append_of_getElem? tree ?_
    rw [List.getElem?_map, hi]
    rfl

/-- Every component that is new in `withCopy` is the copy of one at or below `c`. -/
theorem exists_of_isNew (h : tree.LinkedBelow c) (hlt : c.index < tree.size)
    (hback : tree.NoWayBack c) (hd : tree.IsNew (tree.withCopy c) d) :
    ∃ o ∈ tree.descendants c, tree.copied c o = d := by
  have hmem : d ∈ (tree.descendants c).map (tree.copied c) := by
    rw [(numbered_copied (h.nodup_descendants hlt hback)).map_eq]
    rw [IsNew, size_withCopy] at hd
    exact List.mem_map.2 ⟨d.index, List.mem_range'_1.2 hd, rfl⟩
  exact List.mem_map.1 hmem

/-- `withCopy` keeps the old components and adds copies that are apart from them, as `IsCopied`
says. -/
theorem isCopied_withCopy (h : tree.LinkedBelow c) (hlt : c.index < tree.size)
    (hback : tree.NoWayBack c) : tree.IsCopied (tree.withCopy c) c (tree.copied c c) := by
  have hmirrors := h.mirrors_withCopy hlt hback
  have hreach {d : Handle} (hd : d ∈ tree.descendants c) : (tree.subtree c).Reachable d :=
    reachable_subtree_iff.2 ((h.mem_descendants_iff hlt hback).1 hd)
  have hget {d : Handle} (hd : d ∈ tree.descendants c) :
      (tree.withCopy c).get (tree.copied c d) =
        ((tree.subtree c).get d).relabel (tree.copied c) := hmirrors.get d (hreach hd)
  have hnew {d : Handle} (hd : (tree.subtree c).Reachable d) :
      tree.IsNew (tree.withCopy c) (tree.copied c d) :=
    isNew_copied ((h.mem_descendants_iff hlt hback).2 (reachable_subtree_iff.1 hd))
  have htop : c ∈ tree.descendants c := (h.mem_descendants_iff hlt hback).2 ⟨[], rfl⟩
  constructor
  case root => rfl
  case kept => exact fun d hd => get_withCopy_of_lt hd
  case listed => exact fun d => h.mem_descendants_iff hlt hback
  case once => exact h.nodup_descendants hlt hback
  case size => exact size_withCopy tree c
  case places => exact (numbered_copied (h.nodup_descendants hlt hback)).map_eq
  case place => rfl
  case top =>
    rw [hget htop, get_subtree_self]
    rfl
  case below =>
    intro d hd hne
    rw [hget hd, get_subtree_of_ne tree c hne]
  case parents =>
    intro d hd parent hparent
    obtain ⟨o, ho, rfl⟩ := h.exists_of_isNew hlt hback hd
    rw [hget ho] at hparent
    obtain ⟨own, hown, rfl⟩ := Option.map_eq_some_iff.1 hparent
    -- the parent of the original is below `c`, too
    rcases hmirrors.linked.instance?_cases (hreach ho) with
      ⟨rfl, -⟩ | ⟨b, _, _, hb, -, rfl, hlink, -⟩
    · cases hmirrors.linked.rootParent.symm.trans hown
    · obtain rfl := Option.some.inj (hlink.childParent.symm.trans hown)
      exact hnew hb
  case entries =>
    intro d hd entry he
    obtain ⟨o, ho, rfl⟩ := h.exists_of_isNew hlt hback hd
    rw [hget ho, Component.entries_children_relabel] at he
    obtain ⟨own, hown, rfl⟩ := List.mem_map.1 he
    have hlink := hmirrors.linked.link o (hreach ho) own hown
    refine ⟨?_, hnew ((hreach ho).child hown)⟩
    rw [Instance.relabel, hlink.parent]
    exact hnew (hreach ho)

end LinkedBelow

end HybridAutomata.Tree
