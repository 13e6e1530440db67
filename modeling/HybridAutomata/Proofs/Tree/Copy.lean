import HybridAutomata.Proofs.Tree.Relabel
import HybridAutomata.Tree.Copy
/-!
# What a copy holds

A tree with consistent links and without bindings to literals is copied completely: the copy holds
one component for each component that is reachable, in preorder, and differs in the handles only.

The places are given by a numbering `f` of the components in preorder. A network takes the first
place that is free and its instances take the next ones, so the places of the instances are known
before the instances are copied; this is why one `f` serves all components.

* `copyWithin_eq`    the copies of a component and of those below it
* `copy_eq`          the copy of a tree
* `mirrors_compact`  the copy mirrors the tree
* `copy_compact`     a copy is its own copy
-/

namespace HybridAutomata

variable {κ : Type}

/-- A component without its links. -/
def Component.unlinked (component : Component κ) : Component κ :=
  { component with parent := none, instanceName := none }

/-- A component without links is what `unlinked` makes of it. -/
theorem Component.unlinked_eq_self {component : Component κ} (hparent : component.parent = none)
    (hname : component.instanceName = none) : component.unlinked = component := by
  rcases component with ⟨_, _, _, _, _, _, _⟩
  simp only at hparent hname
  rw [hparent, hname]
  rfl

namespace Tree

/-- No constant is bound to a literal. -/
def NoLiterals (tree : Tree κ) : Prop :=
  ∀ c, tree.Reachable c → ∀ entry ∈ (tree.get c).children.entries,
    ∀ binding ∈ entry.2.consts, binding.literal? = none

/-- No network at or below a component binds a constant to a literal. -/
def NoLiteralsBelow (tree : Tree κ) (c : Handle) : Prop :=
  ∀ names d, tree.follow c names = some d → ∀ entry ∈ (tree.get d).children.entries,
    ∀ binding ∈ entry.2.consts, binding.literal? = none

/-- The networks at or below a component are linked to their instances. -/
def LinkedBelow (tree : Tree κ) (c : Handle) : Prop :=
  ∀ names d, tree.follow c names = some d → ∀ entry ∈ (tree.get d).children.entries,
    tree.LinkOk d entry.1 entry.2

section

variable {tree : Tree κ} {c : Handle} {entry : String × Instance}

theorem NoLiterals.below (h : tree.NoLiterals) : tree.NoLiteralsBelow tree.root :=
  fun names d hf => h d ⟨names, hf⟩

/-- What is below a reachable component of a `Linked` tree is linked. -/
theorem Linked.below (h : tree.Linked) (hc : tree.Reachable c) : tree.LinkedBelow c := by
  obtain ⟨way, hway⟩ := hc
  intro names d hf
  refine h.link d ⟨way ++ names, ?_⟩
  rw [follow_append, hway]
  exact hf

/-- `NoLiteralsBelow` a component are none below its instances. -/
theorem NoLiteralsBelow.child (h : tree.NoLiteralsBelow c)
    (he : entry ∈ (tree.get c).children.entries) : tree.NoLiteralsBelow entry.2.child :=
  fun names d hf => h (entry.1 :: names) d (follow_cons_iff.2 ⟨entry.2, he, hf⟩)

/-- `LinkedBelow` a component is linked below its instances. -/
theorem LinkedBelow.child (h : tree.LinkedBelow c) (he : entry ∈ (tree.get c).children.entries) :
    tree.LinkedBelow entry.2.child :=
  fun names d hf => h (entry.1 :: names) d (follow_cons_iff.2 ⟨entry.2, he, hf⟩)

end

/-! ## Numberings -/

/-- Components are given places one after the other. -/
def Numbered (f : Handle → Handle) : (start : Nat) → List Handle → Prop
  | _, [] => True
  | start, c :: rest => f c = ⟨start⟩ ∧ Numbered f (start + 1) rest

/-- Components are `Numbered` if both parts of them are, one behind the other. -/
theorem numbered_append {f : Handle → Handle} {start : Nat} {left right : List Handle} :
    Numbered f start (left ++ right) ↔
      Numbered f start left ∧ Numbered f (start + left.length) right := by
  induction left generalizing start with
  | nil => simp [Numbered]
  | cons c rest ih =>
    rw [List.cons_append, Numbered, Numbered, ih, and_assoc, List.length_cons, Nat.add_right_comm,
      Nat.add_assoc]

/-- The places of `Numbered` components are those from the first one on. -/
theorem Numbered.map_eq {f : Handle → Handle} {start : Nat} {handles : List Handle}
    (h : Numbered f start handles) :
    handles.map f = (List.range' start handles.length).map Handle.mk := by
  induction handles generalizing start with
  | nil => rfl
  | cons c rest ih =>
    rw [List.map_cons, h.1, ih h.2, List.length_cons, List.range'_succ, List.map_cons]

/-- `Numbered` components are so with later places. -/
theorem Numbered.shift {f : Handle → Handle} {start : Nat} {handles : List Handle}
    (h : Numbered f start handles) (offset : Nat) :
    Numbered (fun c => ⟨offset + (f c).index⟩) (offset + start) handles := by
  induction handles generalizing start with
  | nil => trivial
  | cons c rest ih =>
    have hrest := ih h.2
    rw [← Nat.add_assoc] at hrest
    exact ⟨congrArg (fun place : Handle => (⟨offset + place.index⟩ : Handle)) h.1, hrest⟩

/-- A `Numbered` component comes in the list where its place says. -/
theorem Numbered.exists_place {f : Handle → Handle} {start : Nat} {handles : List Handle}
    (h : Numbered f start handles) {c : Handle} (hc : c ∈ handles) :
    ∃ i, f c = ⟨start + i⟩ ∧ handles[i]? = some c := by
  induction handles generalizing start with
  | nil => cases hc
  | cons first rest ih =>
    rcases List.mem_cons.1 hc with rfl | hc
    · exact ⟨0, h.1, rfl⟩
    · obtain ⟨i, hf, hi⟩ := ih h.2 hc
      exact ⟨i + 1, by rw [hf, Nat.add_assoc, Nat.add_comm 1], hi⟩

/-- Different components are `Numbered` by their places in the list. -/
theorem numbered_idxOf {handles : List Handle} (hn : handles.Nodup) :
    Numbered (fun c => ⟨handles.idxOf c⟩) 0 handles := by
  have key (front back : List Handle) (he : handles = front ++ back) :
      Numbered (fun c => ⟨handles.idxOf c⟩) front.length back := by
    induction back generalizing front with
    | nil => trivial
    | cons c rest ih =>
      rw [List.append_cons] at he
      have hrest := ih (front ++ [c]) he
      rw [List.length_append, List.length_singleton] at hrest
      refine ⟨congrArg Handle.mk ?_, hrest⟩
      -- the component does not come before
      rw [he, List.append_assoc] at hn
      have hc : c ∉ front := fun hm =>
        (List.nodup_append.1 hn).2.2 c hm c List.mem_cons_self rfl
      rw [he, List.append_assoc, List.idxOf_append, if_neg hc]
      simp
  exact key [] handles rfl

/-- Places are `Numbered` by themselves. -/
theorem numbered_id (start n : Nat) :
    Numbered id start ((List.range' start n).map Handle.mk) := by
  induction n generalizing start with
  | zero => trivial
  | succ n ih => exact ⟨rfl, ih (start + 1)⟩

/-! ## Copies -/

section

variable [Scalar κ] {tree : Tree κ} {f : Handle → Handle} {c : Handle}

/-- `resolveLiterals` keeps bindings to names, and gives no constant a value. -/
theorem resolveLiterals_eq {constants : NameMap (Option (Interval κ))} {bindings : List Binding}
    (h : ∀ binding ∈ bindings, binding.literal? = none) :
    resolveLiterals constants bindings = .ok (constants, bindings) := by
  induction bindings with
  | nil => rfl
  | cons binding rest ih =>
    rw [resolveLiterals, h binding List.mem_cons_self,
      ih fun other ho => h other (List.mem_cons_of_mem _ ho)]
    rfl

/-- `placeCopy` links the copy of a child at its place. -/
theorem placeCopy_eq {name : String} {inst : Instance} (hlink : tree.LinkOk c name inst)
    (hliteral : ∀ binding ∈ inst.consts, binding.literal? = none) {place : Nat}
    (hplace : f inst.child = ⟨place⟩) (below : List (Component κ)) :
    placeCopy (f c) name inst place (((tree.get inst.child).relabel f).unlinked :: below) =
      .ok (inst.relabel f, (tree.get inst.child).relabel f :: below) := by
  -- the copy of the instance and that of its component are the relabelled ones
  have hinst : { inst with parent := f c, child := ⟨place⟩ } = inst.relabel f := by
    rw [Instance.relabel, hplace, hlink.parent]
  have hchild : { ((tree.get inst.child).relabel f).unlinked with
      parent := some (f c), instanceName := some name } = (tree.get inst.child).relabel f := by
    rw [Component.unlinked, Component.relabel, hlink.childParent, hlink.childName]
    rfl
  rw [placeCopy, resolveLiterals_eq hliteral, ← hinst, ← hchild]
  rfl

/-- One entry of a network is copied: what is added to the instances and to the copies made so far.
-/
def copyEntry (tree : Tree κ) (levels start : Nat) (state : NameMap Instance × List (Component κ))
    (entry : String × Instance) :
    Except (ModelError κ) (NameMap Instance × List (Component κ)) := do
  let next := start + 1 + state.2.length
  let copies ← tree.copyWithin levels next entry.2.child
  let (inst, copies) ← placeCopy ⟨start⟩ entry.1 entry.2 next copies
  pure (state.1.insert entry.1 inst, state.2 ++ copies)

/-- `copyWithin` makes of a network its own copy and then those of its entries, one after the other.
-/
theorem copyWithin_of_network {children : NameMap Instance}
    (hb : (tree.get c).body = .network children) (levels start : Nat) :
    tree.copyWithin (levels + 1) start c =
      (children.entries.foldlM (tree.copyEntry levels start) (∅, []) >>= fun placed =>
        .ok ({ (tree.get c).detached with body := .network placed.1 } :: placed.2)) := by
  rw [copyWithin]
  simp only [hb]
  rfl

/-- `copyEntry` links the copies of an instance at their places, if the first of them was not linked
yet. -/
theorem copyEntry_eq {levels start : Nat} {entry : String × Instance}
    {state : NameMap Instance × List (Component κ)} (hlink : tree.LinkOk c entry.1 entry.2)
    (hliteral : ∀ binding ∈ entry.2.consts, binding.literal? = none) (hfc : f c = ⟨start⟩)
    (hl : tree.Covers levels entry.2.child)
    (hf : Numbered f (start + 1 + state.2.length) (tree.preorder levels entry.2.child))
    (hcopies : tree.copyWithin levels (start + 1 + state.2.length) entry.2.child =
      .ok (((tree.preorder levels entry.2.child).map fun d => (tree.get d).relabel f).modifyHead
        Component.unlinked)) :
    tree.copyEntry levels start state entry =
      .ok (state.1.insert entry.1 (entry.2.relabel f),
        state.2 ++ (tree.preorder levels entry.2.child).map fun d => (tree.get d).relabel f) := by
  cases levels with
  | zero => exact absurd hl (not_covers_zero tree _)
  | succ levels =>
    -- the first copy is that of the component, and it gets its links when it is placed
    rw [preorder, List.map_cons, List.modifyHead_cons] at hcopies
    rw [copyEntry]
    simp only [hcopies, Except.ok_bind, ← hfc, placeCopy_eq hlink hliteral hf.1]
    rfl

/-- The copies that `copyEntry` makes of several instances come one behind the other. -/
theorem foldlM_copyEntry_eq {levels start : Nat} {entries : List (String × Instance)}
    (hentry : ∀ entry ∈ entries, ∀ state : NameMap Instance × List (Component κ),
      Numbered f (start + 1 + state.2.length) (tree.preorder levels entry.2.child) →
        tree.copyEntry levels start state entry =
          .ok (state.1.insert entry.1 (entry.2.relabel f),
            state.2 ++ (tree.preorder levels entry.2.child).map fun d => (tree.get d).relabel f))
    (state : NameMap Instance × List (Component κ))
    (hf : Numbered f (start + 1 + state.2.length)
      (entries.flatMap fun entry => tree.preorder levels entry.2.child)) :
    entries.foldlM (tree.copyEntry levels start) state =
      .ok (state.1.insertAll (entries.map fun entry => (entry.1, entry.2.relabel f)),
        state.2 ++ (entries.flatMap fun entry => tree.preorder levels entry.2.child).map
          fun d => (tree.get d).relabel f) := by
  -- by induction on the entries: the first place of each one is behind the copies made so far
  induction entries generalizing state with
  | nil => simp [NameMap.insertAll]
  | cons entry rest ih =>
    rw [List.flatMap_cons, numbered_append] at hf
    rw [List.foldlM_cons, hentry entry List.mem_cons_self state hf.1, Except.ok_bind, ih]
    · simp only [List.map_cons, NameMap.insertAll_cons, List.flatMap_cons, List.map_append,
        List.append_assoc]
    · exact fun other ho => hentry other (List.mem_cons_of_mem _ ho)
    · -- the next instance starts behind the copies of this one
      rw [List.length_append, List.length_map, ← Nat.add_assoc]
      exact hf.2

/-- `copyWithin` puts the copies of a component and of those below it at their places; the first one
is not linked yet. -/
theorem copyWithin_eq (h : tree.LinkedBelow c) (hliteral : tree.NoLiteralsBelow c)
    {levels start : Nat} (hl : tree.Covers levels c)
    (hf : Numbered f start (tree.preorder levels c)) :
    tree.copyWithin levels start c =
      .ok (((tree.preorder levels c).map fun d => (tree.get d).relabel f).modifyHead
        Component.unlinked) := by
  -- by induction on the levels, with any place to start at
  induction levels generalizing start c with
  | zero => exact absurd hl (not_covers_zero tree c)
  | succ levels ih =>
    obtain ⟨hfc, hbelow⟩ := hf
    rw [flatMap_children] at hbelow
    rw [preorder, flatMap_children, List.map_cons, List.modifyHead_cons]
    cases hb : (tree.get c).body with
    | base automaton =>
      rw [copyWithin, Component.children_of_base hb, Component.unlinked, Component.relabel]
      simp only [hb, Component.detached]
      rfl
    | network children =>
      have hchildren := Component.children_of_network hb
      rw [hchildren] at hbelow ⊢
      have hinstances : (∅ : NameMap Instance).insertAll
          (children.entries.map fun entry => (entry.1, entry.2.relabel f)) =
          children.mapValues (Instance.relabel f) :=
        NameMap.ext (NameMap.entries_ofList (children.mapValues (Instance.relabel f)).nodup_keys)
      have hall := foldlM_copyEntry_eq (fun entry he state hstate => by
        rw [← hchildren] at he
        exact copyEntry_eq (h [] c rfl entry he) (hliteral [] c rfl entry he) hfc (hl.child he)
          hstate
          (ih (h.child he) (hliteral.child he) (hl.child he) hstate)) (∅, []) hbelow
      rw [hinstances] at hall
      rw [copyWithin_of_network hb, hall, Component.detached, Component.unlinked, Component.relabel,
        hb]
      rfl

end

/-! ## The copy of a tree -/

/-- The reachable components at their places. -/
def compact (tree : Tree κ) (f : Handle → Handle) : Tree κ :=
  ⟨((tree.descendants tree.root).map fun c => (tree.get c).relabel f).toArray, ⟨0⟩⟩

/-- `compact` holds as many components as a walk from the root visits. -/
theorem size_compact (tree : Tree κ) (f : Handle → Handle) :
    (tree.compact f).size = (tree.descendants tree.root).length := by
  simp [compact, size]

section

variable {tree tree' : Tree κ} {f : Handle → Handle}

/-- `compact` mirrors the tree. -/
theorem mirrors_compact (h : tree.Linked) (hf : Numbered f 0 (tree.descendants tree.root)) :
    tree.Mirrors (tree.compact f) f where
  linked := h
  -- the root comes first in the list of descendants
  root := by
    obtain ⟨below, hbelow⟩ := h.exists_descendants
    rw [hbelow] at hf
    exact hf.1.symm
  root_lt := by
    rw [size_compact]
    exact List.length_pos_of_mem (h.mem_descendants_iff.2 tree.reachable_root)
  -- a component has the place of its number
  get c hc := by
    obtain ⟨i, hplace, hi⟩ := hf.exists_place (h.mem_descendants_iff.2 hc)
    rw [hplace, Nat.zero_add]
    simp [get, compact, hi]

/-- Everything in `compact` can be reached. -/
theorem reachable_compact (h : tree.Linked) (hf : Numbered f 0 (tree.descendants tree.root))
    {d : Handle} (hd : d.index < (tree.compact f).size) : (tree.compact f).Reachable d := by
  have hmem : d ∈ (tree.descendants tree.root).map f := by
    rw [hf.map_eq, ← size_compact tree f]
    exact List.mem_map.2 ⟨d.index, List.mem_range'_1.2 ⟨Nat.zero_le _, by omega⟩, rfl⟩
  obtain ⟨c, hc, rfl⟩ := List.mem_map.1 hmem
  exact (mirrors_compact h hf).reachable (h.mem_descendants_iff.1 hc)

/-- A tree that `Mirrors` one with `NoLiterals` has none, either. -/
theorem Mirrors.noLiterals (h : tree.Mirrors tree' f) (hliteral : tree.NoLiterals) :
    tree'.NoLiterals := by
  intro d hd entry he binding hb
  obtain ⟨c, hc, rfl⟩ := h.exists_of_reachable hd
  rw [h.entries_children hc] at he
  obtain ⟨own, ho, rfl⟩ := List.mem_map.1 he
  exact hliteral c hc own ho binding hb

/-- To `compact` once more changes nothing. -/
theorem compact_compact (h : tree.Linked) (hf : Numbered f 0 (tree.descendants tree.root)) :
    (tree.compact f).compact id = tree.compact f := by
  have hmirrors := mirrors_compact h hf
  -- the second copy meets the same components in the same order
  have hcomponents : ((tree.compact f).descendants (tree.compact f).root).map
        (fun d => ((tree.compact f).get d).relabel id) =
      (tree.descendants tree.root).map fun c => (tree.get c).relabel f := by
    rw [hmirrors.descendants_eq, List.map_map]
    refine List.map_congr_left fun c hc => ?_
    rw [Function.comp_apply, hmirrors.get c (h.mem_descendants_iff.1 hc)]
    exact Component.relabel_eq_self (Option.map_id_apply ..) fun _ _ => rfl
  rw [compact, hcomponents]
  rfl

variable [Scalar κ]

/-- `copy` of a tree is `compact`: it holds the reachable components at their places. -/
theorem copy_eq (h : tree.Linked) (hliteral : tree.NoLiterals)
    (hf : Numbered f 0 (tree.descendants tree.root)) : tree.copy = .ok (tree.compact f) := by
  obtain ⟨below, hbelow⟩ := h.exists_descendants
  have hroot := tree.reachable_root
  have hparent : ((tree.get tree.root).relabel f).parent = none := by
    have hnone : (tree.get tree.root).parent = none := h.rootParent
    rw [Component.relabel, hnone]
    rfl
  -- the root has no links that could be missing
  rw [copy, copyWithin_eq (h.below hroot) hliteral.below (h.covers hroot)
    (by rwa [← descendants_eq]),
    ← descendants_eq, compact, hbelow, List.map_cons, List.modifyHead_cons,
    Component.unlinked_eq_self hparent h.rootName]
  rfl

/-- `copy` of a copy is the copy itself. -/
theorem copy_compact (h : tree.Linked) (hliteral : tree.NoLiterals)
    (hf : Numbered f 0 (tree.descendants tree.root)) :
    (tree.compact f).copy = .ok (tree.compact f) := by
  have hmirrors := mirrors_compact h hf
  have hplaces : Numbered id 0 ((tree.compact f).descendants (tree.compact f).root) := by
    rw [hmirrors.descendants_eq, hf.map_eq]
    exact numbered_id 0 _
  rw [copy_eq hmirrors.linked' (hmirrors.noLiterals hliteral) hplaces, compact_compact h hf]

end

end Tree
end HybridAutomata
