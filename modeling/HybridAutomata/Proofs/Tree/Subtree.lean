import HybridAutomata.Proofs.Tree.Climb
import HybridAutomata.Proofs.Tree.Wired
/-!
# The tree below a component

The components at and below a component of an arena make up a tree: the component comes first and is
freed of its links. If the networks there are linked to their instances and no way leads back to the
component, the links of this tree are consistent (`Linked`), and so what holds of such trees holds
below the component, whether or not it can be reached from the root.

* `LinkedBelow.linked_subtree`   the links below a component
* `LinkedBelow.mem_descendants_iff`, `LinkedBelow.nodup_descendants`   each component is met once
-/

namespace HybridAutomata.Tree

variable {κ : Type}

/-- The tree that is left if a component, freed of its links, becomes the root. -/
def subtree (tree : Tree κ) (c : Handle) : Tree κ :=
  (tree.modify c Component.unlinked).withRoot c

section

variable (tree : Tree κ) (c : Handle)

@[simp] theorem root_subtree : (tree.subtree c).root = c := rfl

@[simp] theorem size_subtree : (tree.subtree c).size = tree.size :=
  size_modify ..

theorem get_subtree_self : (tree.subtree c).get c = (tree.get c).unlinked :=
  get_modify_self_of_default rfl tree c

theorem get_subtree_of_ne {d : Handle} (h : d ≠ c) : (tree.subtree c).get d = tree.get d :=
  get_modify_of_ne h _

/-- `subtree` keeps all children. -/
theorem children_get_subtree (d : Handle) :
    ((tree.subtree c).get d).children = (tree.get d).children := by
  by_cases hd : d = c
  · rw [hd, get_subtree_self]
    rfl
  · rw [get_subtree_of_ne tree c hd]

/-- `follow` leads to the same components in a `subtree`. -/
theorem follow_subtree (d : Handle) (names : List String) :
    (tree.subtree c).follow d names = tree.follow d names :=
  follow_congr (tree.children_get_subtree c) d names

/-- `descendants` are the same in a `subtree`. -/
theorem descendants_subtree : (tree.subtree c).descendants c = tree.descendants c := by
  have hchildren (d : Handle) : (tree.subtree c).children d = tree.children d := by
    rw [children, children, children_get_subtree]
  rw [descendants_eq, descendants_eq, size_subtree, preorder_congr hchildren]

end

variable {tree : Tree κ} {c d : Handle}

/-- `Reachable` in the `subtree` of a component is what lies at or below it. -/
theorem reachable_subtree_iff :
    (tree.subtree c).Reachable d ↔ ∃ names, tree.follow c names = some d :=
  exists_congr fun names => by rw [root_subtree, follow_subtree]

theorem AllLinked.linkedBelow (h : tree.AllLinked) (c : Handle) : tree.LinkedBelow c :=
  fun _ d _ entry he => h.link d entry he

/-- `NoLiteralsBelow` can be read off the arena, since only components in it have entries. -/
theorem NoLiteralsBelow.of_arena (h : ∀ i < tree.size, ∀ entry ∈ (tree.get ⟨i⟩).children.entries,
    ∀ binding ∈ entry.2.consts, binding.literal? = none) : tree.NoLiteralsBelow c :=
  fun _ d _ entry he => h d.index (index_lt_of_mem_children he) entry he

/-- With `NoWayBack`, no entry below a component leads back to the component. -/
theorem NoWayBack.child_ne (hback : tree.NoWayBack c) {names : List String}
    (hf : tree.follow c names = some d) {entry : String × Instance}
    (he : entry ∈ (tree.get d).children.entries) : entry.2.child ≠ c := by
  intro hc
  have hway : tree.follow c (names ++ [entry.1]) = some c :=
    follow_concat_iff.2 ⟨d, entry.2, hf, he, hc⟩
  exact List.append_ne_nil_of_right_ne_nil names (List.cons_ne_nil _ _) (hback _ hway)

namespace LinkedBelow

/-- The `subtree` of a component is `Linked` if it is `LinkedBelow` and there is `NoWayBack`. -/
theorem linked_subtree (h : tree.LinkedBelow c) (hlt : c.index < tree.size)
    (hback : tree.NoWayBack c) : (tree.subtree c).Linked where
  root_lt := by rwa [size_subtree]
  rootName := by
    rw [rootComponent, root_subtree, get_subtree_self]
    rfl
  rootParent := by
    rw [rootComponent, root_subtree, get_subtree_self]
    rfl
  -- the entries lead to other components than the root, and those are as they were
  link d hd entry he := by
    obtain ⟨names, hf⟩ := reachable_subtree_iff.1 hd
    rw [children_get_subtree] at he
    have hlink := h names d hf entry he
    have hchild := get_subtree_of_ne tree c (hback.child_ne hf he)
    exact ⟨hlink.parent, by rw [hchild]; exact hlink.childParent,
      by rw [hchild]; exact hlink.childName⟩

/-- The arena `Covers` a component below which links are consistent. -/
theorem covers (h : tree.LinkedBelow c) (hlt : c.index < tree.size) (hback : tree.NoWayBack c) :
    tree.Covers tree.size c := by
  intro names d hf
  have hcovers := (h.linked_subtree hlt hback).covers (tree.subtree c).reachable_root
  rw [size_subtree] at hcovers
  exact hcovers names d (by rw [root_subtree, follow_subtree]; exact hf)

/-- `descendants` of a component are what is at or below it. -/
theorem mem_descendants_iff (h : tree.LinkedBelow c) (hlt : c.index < tree.size)
    (hback : tree.NoWayBack c) :
    d ∈ tree.descendants c ↔ ∃ names, tree.follow c names = some d := by
  rw [← reachable_subtree_iff, ← (h.linked_subtree hlt hback).mem_descendants_iff, root_subtree,
    descendants_subtree]

/-- `descendants` of a component have no repetitions. -/
theorem nodup_descendants (h : tree.LinkedBelow c) (hlt : c.index < tree.size)
    (hback : tree.NoWayBack c) : (tree.descendants c).Nodup := by
  rw [← descendants_subtree]
  exact (h.linked_subtree hlt hback).nodup_descendants

end LinkedBelow

end HybridAutomata.Tree
