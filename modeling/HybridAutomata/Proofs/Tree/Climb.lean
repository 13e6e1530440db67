import HybridAutomata.Proofs.Tree.Constants
/-!
# Climbing along bindings

A constant that is bound leads to a constant of the network around its component, and so on. A climb
lists the constants that are passed on the way. Nothing is assumed about reachability here, so a
climb may also start at a component that is not placed below the root. What is passed before a
constant that does not come before is passed once, and each step uses a binding of its own, so a
climb is no longer than the arena has bindings.

* `AllLinked.linked`     consistent links, as far as the root leads
* `outer?_cases`         where a constant leads
* `Climb.length_le`      no climb is longer than the arena has bindings
* `Chain.exists_climb`   a chain of bindings is a climb to its end
-/

namespace HybridAutomata.Tree

variable {κ : Type}

/-- The root is no instance, and every entry of every network in the arena and its component name
the network, whether or not the network can be reached. -/
structure AllLinked (tree : Tree κ) : Prop where
  root_lt : tree.root.index < tree.size
  rootName : tree.rootComponent.instanceName = none
  rootParent : tree.rootComponent.parent = none
  link : ∀ c, ∀ entry ∈ (tree.get c).children.entries, tree.LinkOk c entry.1 entry.2

/-- A constant of a component, followed to a constant of the network around it for as many steps as
there are constants in the list. The list holds the constants that are left behind, the first one
first. -/
inductive Climb (tree : Tree κ) :
    Handle → String → List (Handle × String) → Handle → String → Prop where
  | here (c : Handle) (name : String) : Climb tree c name [] c name
  | up {c parent d : Handle} {name outer last : String} {inst : Instance}
      {passed : List (Handle × String)} (hinst : tree.instance? c = some inst)
      (hparent : (tree.get c).parent = some parent)
      (houter : inst.outerName? .const name = some outer)
      (hrest : Climb tree parent outer passed d last) :
      Climb tree c name ((c, name) :: passed) d last

/-! ## Links -/

section

variable {tree : Tree κ} {c : Handle} {name : String}

/-- Outside of the arena there are no `children`. -/
theorem index_lt_of_mem_children {entry : String × Instance}
    (he : entry ∈ (tree.get c).children.entries) : c.index < tree.size := by
  apply Nat.lt_of_not_le
  intro hle
  rw [get_eq_default hle] at he
  cases he

/-- A component with an instance has a parent, which lists the instance among its `children`. -/
theorem exists_entry_of_instance? {inst : Instance} (h : tree.instance? c = some inst) :
    ∃ parent own, (tree.get c).parent = some parent ∧
      (own, inst) ∈ (tree.get parent).children.entries := by
  rw [instance?] at h
  split at h
  · next parent own hparent _ => exact ⟨parent, own, hparent, NameMap.get?_eq_some_iff.1 h⟩
  · cases h

namespace AllLinked

/-- A tree is `AllLinked` if the components in the arena are linked, since the others have no
entries. -/
theorem of_arena (hlt : tree.root.index < tree.size)
    (hroot : tree.rootComponent.instanceName = none ∧ tree.rootComponent.parent = none)
    (hlink : ∀ i < tree.size, ∀ entry ∈ (tree.get ⟨i⟩).children.entries,
      entry.2.parent = ⟨i⟩ ∧ (tree.get entry.2.child).parent = some ⟨i⟩ ∧
        (tree.get entry.2.child).instanceName = some entry.1) : tree.AllLinked where
  root_lt := hlt
  rootName := hroot.1
  rootParent := hroot.2
  link c entry he := by
    obtain ⟨hparent, hchildParent, hchildName⟩ :=
      hlink c.index (index_lt_of_mem_children he) entry he
    exact ⟨hparent, hchildParent, hchildName⟩

/-- Links that are consistent all over the arena are so as far as the root leads. -/
theorem linked (h : tree.AllLinked) : tree.Linked where
  root_lt := h.root_lt
  rootName := h.rootName
  rootParent := h.rootParent
  link c _ entry he := h.link c entry he

/-- If `AllLinked` then an instance names the parent of the component. -/
theorem parent_eq (h : tree.AllLinked) {inst : Instance} (hi : tree.instance? c = some inst) :
    (tree.get c).parent = some inst.parent := by
  obtain ⟨parent, own, hparent, he⟩ := exists_entry_of_instance? hi
  rw [hparent, (h.link parent _ he).parent]

end AllLinked

/-- A component has no parent, or its parent knows it. -/
def IsPlaced (tree : Tree κ) (c : Handle) : Prop :=
  (tree.get c).parent = none ∨ (tree.instance? c).isSome = true

/-- `outer?` leads from a constant to where its binding leads, unless the parent of its component
does not know the component. -/
theorem outer?_cases (tree : Tree κ) (c : Handle) (name : String) :
    (∃ parent, (tree.get c).parent = some parent ∧ tree.instance? c = none ∧
      tree.outer? .const c name =
        .error (.unknownInstance (tree.get c).displayName (tree.get parent).displayName)) ∨
    (tree.IsPlaced c ∧ tree.IsFree .const c name ∧ tree.outer? .const c name = .ok none) ∨
    ∃ inst outer, tree.instance? c = some inst ∧ inst.outerName? .const name = some outer ∧
      tree.outer? .const c name = .ok (some (inst.parent, outer)) := by
  -- no parent, a parent without an instance, or an instance that binds the name or does not
  cases hparent : (tree.get c).parent with
  | none =>
    have hi := instance?_of_parent_eq_none hparent
    exact .inr (.inl ⟨.inl hparent, isFree_of_instance?_eq_none hi _ _,
      outer?_of_parent_eq_none hparent _ _⟩)
  | some parent =>
    cases hi : tree.instance? c with
    | none =>
      refine .inl ⟨parent, rfl, rfl, ?_⟩
      simp only [outer?, expectInstance, hparent, hi]
      rfl
    | some inst =>
      have houter : tree.outer? .const c name =
          .ok ((inst.outerName? .const name).map fun outer => (inst.parent, outer)) := by
        simp only [outer?, expectInstance, hparent, hi]
        rfl
      cases ho : inst.outerName? .const name with
      | none =>
        exact .inr (.inl ⟨.inr (by rw [hi]; rfl), (isFree_iff_of_instance? hi).2 ho,
          by rw [houter, ho]; rfl⟩)
      | some outer => exact .inr (.inr ⟨inst, outer, rfl, ho, by rw [houter, ho]; rfl⟩)

end

/-! ## Climbs -/

namespace Climb

variable {tree : Tree κ} {c d : Handle} {name last : String}
    {passed passed' : List (Handle × String)}

/-- The first constant that a `Climb` meets is the one at which it starts. -/
theorem exists_tail (h : tree.Climb c name passed d last) :
    ∃ rest, passed ++ [(d, last)] = (c, name) :: rest := by
  cases h with
  | here => exact ⟨[], rfl⟩
  | up => exact ⟨_, rfl⟩

/-- There is one `Climb` to a constant that is not passed before. -/
theorem unique (h : tree.Climb c name passed d last) (h' : tree.Climb c name passed' d last)
    (hd : (d, last) ∉ passed) (hd' : (d, last) ∉ passed') : passed = passed' := by
  -- by induction on the climb: at each constant there is one way to go on, and the end comes once
  induction h generalizing passed' with
  | here =>
    cases h' with
    | here => rfl
    | up => exact absurd List.mem_cons_self hd'
  | up hinst hparent houter _ ih =>
    cases h' with
    | here => exact absurd List.mem_cons_self hd
    | up hinst' hparent' houter' hrest' =>
      obtain rfl := Option.some.inj (hparent.symm.trans hparent')
      obtain rfl := Option.some.inj (hinst.symm.trans hinst')
      obtain rfl := Option.some.inj (houter.symm.trans houter')
      rw [ih hrest' (List.not_mem_of_not_mem_cons hd) (List.not_mem_of_not_mem_cons hd')]

/-- A `Climb` can be joined at each constant that it passes. -/
theorem exists_of_mem (h : tree.Climb c name passed d last) {constant : Handle × String}
    (hm : constant ∈ passed) :
    ∃ front back, passed = front ++ constant :: back ∧
      tree.Climb constant.1 constant.2 (constant :: back) d last := by
  -- the climb goes through the constant at its start, or later
  induction h with
  | here => cases hm
  | up hinst hparent houter hrest ih =>
    rcases List.mem_cons.1 hm with rfl | hm
    · exact ⟨[], _, rfl, .up hinst hparent houter hrest⟩
    · obtain ⟨front, back, rfl, hback⟩ := ih hm
      exact ⟨_ :: front, back, rfl, hback⟩

/-- What a `Climb` meets on the way to a constant that is not passed before is met once. -/
theorem nodup (h : tree.Climb c name passed d last) (hd : (d, last) ∉ passed) :
    (passed ++ [(d, last)]).Nodup := by
  induction h with
  | here => simp
  | up hinst hparent houter hrest ih =>
    have hd' := List.not_mem_of_not_mem_cons hd
    refine List.nodup_cons.2 ⟨fun hm => ?_, ih hd'⟩
    rcases List.mem_append.1 hm with hm | hm
    · -- coming back, the climb would go on as it did before
      obtain ⟨front, back, rfl, hback⟩ := hrest.exists_of_mem hm
      have hsame := (Climb.up hinst hparent houter hrest).unique hback hd fun hmem =>
        hd' (List.mem_append_right front hmem)
      have hlength := congrArg List.length (List.cons.inj hsame).2
      simp only [List.length_append, List.length_cons] at hlength
      omega
    · exact hd (List.mem_singleton.1 hm ▸ List.mem_cons_self)

end Climb

/-! ## Counting bindings -/

/-- What the constants of instances are bound to, all over the arena. -/
def boundTo (tree : Tree κ) : List (Handle × String) :=
  (List.range tree.size).flatMap fun i =>
    (tree.get ⟨i⟩).children.values.flatMap fun inst =>
      (inst.bindings .const).map fun binding => (⟨i⟩, binding.outer)

/-- What is listed for every binding of a constant is listed as often as `bindingCount` says. -/
theorem length_flatMap_consts {α : Type} (tree : Tree κ) (f : Nat → Instance → Binding → α) :
    ((List.range tree.size).flatMap fun i => (tree.get ⟨i⟩).children.values.flatMap fun inst =>
      (inst.bindings .const).map (f i inst)).length = tree.bindingCount .const := by
  rw [bindingCount_eq_sum, List.length_flatMap]
  congr 1
  refine List.map_congr_left fun i _ => ?_
  rw [bindingsIn, List.length_flatMap, List.length_flatMap]
  simp only [List.length_map]

theorem length_boundTo (tree : Tree κ) : tree.boundTo.length = tree.bindingCount .const :=
  tree.length_flatMap_consts fun i _ binding => (Handle.mk i, binding.outer)

/-- Where a binding leads is in `boundTo`. -/
theorem mem_boundTo {tree : Tree κ} {parent : Handle} {own name outer : String} {inst : Instance}
    (he : (own, inst) ∈ (tree.get parent).children.entries)
    (ho : inst.outerName? .const name = some outer) : (parent, outer) ∈ tree.boundTo := by
  obtain ⟨binding, hb, -, rfl⟩ := exists_binding_of_outerName? ho
  exact List.mem_flatMap.2 ⟨parent.index, List.mem_range.2 (index_lt_of_mem_children he),
    List.mem_flatMap.2 ⟨inst, List.mem_map_of_mem he, List.mem_map_of_mem hb⟩⟩

namespace Climb

variable {tree : Tree κ} {c d : Handle} {name last : String} {passed : List (Handle × String)}

/-- All that a `Climb` meets after the start is in `boundTo`. -/
theorem tail_subset (h : tree.Climb c name passed d last) :
    (passed ++ [(d, last)]).tail ⊆ tree.boundTo := by
  -- each step leads to a name that an instance binds
  induction h with
  | here => simp
  | @up c parent d name outer last inst passed hinst hparent houter hrest ih =>
    obtain ⟨parent', own, hparent', he⟩ := exists_entry_of_instance? hinst
    obtain rfl := Option.some.inj (hparent.symm.trans hparent')
    obtain ⟨rest, htail⟩ := hrest.exists_tail
    rw [List.cons_append, List.tail_cons, htail, List.cons_subset]
    rw [htail, List.tail_cons] at ih
    exact ⟨mem_boundTo he houter, ih⟩

/-- No `Climb` to a constant that is not passed before is longer than the `bindingCount` of the
arena. -/
theorem length_le (h : tree.Climb c name passed d last) (hd : (d, last) ∉ passed) :
    passed.length ≤ tree.bindingCount .const := by
  -- what is met after the start is met once, and all of it is bound to
  have hnodup := h.nodup hd
  obtain ⟨rest, htail⟩ := h.exists_tail
  have hsubset := h.tail_subset
  rw [htail] at hnodup hsubset
  have hlength := congrArg List.length htail
  rw [List.length_append, List.length_singleton, List.length_cons] at hlength
  rw [← length_boundTo, Nat.succ.inj hlength]
  exact (List.nodup_cons.1 hnodup).2.length_le_of_subset hsubset

end Climb

/-- A `Chain` of bindings is a `Climb` to its end. -/
theorem Chain.exists_climb {tree : Tree κ} (h : tree.AllLinked) {c d : Handle} {name last : String}
    {steps : Nat} (hchain : tree.Chain .const c name steps d last) :
    ∃ passed, tree.Climb c name passed d last := by
  induction hchain with
  | free => exact ⟨[], .here _ _⟩
  | bound hinst houter _ ih =>
    obtain ⟨passed, hrest⟩ := ih
    exact ⟨_, .up hinst (h.parent_eq hinst) houter hrest⟩

/-- A `Climb` stays among reachable components. -/
theorem Climb.reachable {tree : Tree κ} (h : tree.Linked) {c d : Handle} {name last : String}
    {passed : List (Handle × String)} (hclimb : tree.Climb c name passed d last)
    (hc : tree.Reachable c) : tree.Reachable d := by
  induction hclimb with
  | here => exact hc
  | up hinst hparent _ _ ih =>
    refine ih ?_
    rcases h.instance?_cases hc with ⟨-, hi⟩ | ⟨b, own, inst', hb, -, rfl, hlink, -⟩
    · cases hinst.symm.trans hi
    · rwa [← Option.some.inj (hparent.symm.trans hlink.childParent)] at hb

end HybridAutomata.Tree
