import HybridAutomata.Proofs.Tree.Linked
/-!
# Chains of bindings

A name of a component may be bound to a name of the network around it, and so on up to a name that
is not bound any more. Each step of such a chain goes one component up and uses a binding of the
network there. So in a tree with consistent links every chain ends, and it has no more steps than
the arena has bindings.

* `Linked.outer?_eq`       where a name leads
* `Chain.unique`           a name has one chain
* `Linked.exists_chain`    every chain ends within the bindings of the arena
-/

namespace HybridAutomata.Tree

variable {κ : Type}

/-- A name of a component is not bound in the network around it. -/
def IsFree (tree : Tree κ) (kind : NameKind) (c : Handle) (name : String) : Prop :=
  ((tree.instance? c).bind fun inst => inst.outerName? kind name) = none

/-- Without an instance every name `IsFree`. -/
theorem isFree_of_instance?_eq_none {tree : Tree κ} {c : Handle} (h : tree.instance? c = none)
    (kind : NameKind) (name : String) : tree.IsFree kind c name := by
  rw [IsFree, h]
  rfl

/-- In an instance a name `IsFree` if the instance does not bind it. -/
theorem isFree_iff_of_instance? {tree : Tree κ} {c : Handle} {inst : Instance}
    (h : tree.instance? c = some inst) {kind : NameKind} {name : String} :
    tree.IsFree kind c name ↔ inst.outerName? kind name = none := by
  rw [IsFree, h]
  rfl

/-- A name that the instance binds is not free. -/
theorem not_isFree_of_outerName? {tree : Tree κ} {c : Handle} {inst : Instance}
    (hinst : tree.instance? c = some inst) {kind : NameKind} {name outer : String}
    (houter : inst.outerName? kind name = some outer) : ¬ tree.IsFree kind c name := by
  rw [isFree_iff_of_instance? hinst, houter]
  exact Option.some_ne_none outer

/-- A name of a component is bound to the next name of the chain, until the last one is not bound.
The number counts the bindings. -/
inductive Chain (tree : Tree κ) (kind : NameKind) :
    Handle → String → Nat → Handle → String → Prop where
  | free {c : Handle} {name : String} (hfree : tree.IsFree kind c name) :
      Chain tree kind c name 0 c name
  | bound {c d : Handle} {name outer last : String} {inst : Instance} {steps : Nat}
      (hinst : tree.instance? c = some inst) (houter : inst.outerName? kind name = some outer)
      (hrest : Chain tree kind inst.parent outer steps d last) :
      Chain tree kind c name (steps + 1) d last

/-- The chain of a name ends at a name of a component. -/
def EndsAt (tree : Tree κ) (kind : NameKind) (c : Handle) (name : String) (d : Handle)
    (last : String) : Prop :=
  ∃ steps, tree.Chain kind c name steps d last

/-- A name has one `Chain`. -/
theorem Chain.unique {tree : Tree κ} {kind : NameKind} {c d d' : Handle}
    {name last last' : String} {steps steps' : Nat} (h : tree.Chain kind c name steps d last)
    (h' : tree.Chain kind c name steps' d' last') : steps = steps' ∧ d = d' ∧ last = last' := by
  -- induction on the first chain; a name is free or bound, so both chains take the same kind of
  -- step
  induction h generalizing steps' with
  | free hfree =>
    cases h' with
    | free => exact ⟨rfl, rfl, rfl⟩
    | bound hinst houter hrest => exact absurd hfree (not_isFree_of_outerName? hinst houter)
  | bound hinst houter hrest ih =>
    cases h' with
    | free hfree => exact absurd hfree (not_isFree_of_outerName? hinst houter)
    | bound hinst' houter' hrest' =>
      obtain rfl := Option.some.inj (hinst.symm.trans hinst')
      obtain rfl := Option.some.inj (houter.symm.trans houter')
      obtain ⟨hsteps, hd⟩ := ih hrest'
      exact ⟨congrArg (· + 1) hsteps, hd⟩

/-- A `Chain` ends where a name `IsFree`. -/
theorem Chain.isFree {tree : Tree κ} {kind : NameKind} {c d : Handle} {name last : String}
    {steps : Nat} (h : tree.Chain kind c name steps d last) : tree.IsFree kind d last := by
  induction h with
  | free hfree => exact hfree
  | bound _ _ _ ih => exact ih

/-- A name that an instance binds has one of its bindings. -/
theorem exists_binding_of_outerName? {inst : Instance} {kind : NameKind} {name outer : String}
    (h : inst.outerName? kind name = some outer) :
    ∃ binding ∈ inst.bindings kind, binding.inner = name ∧ binding.outer = outer := by
  obtain ⟨binding, hb, ho⟩ := Option.map_eq_some_iff.1 h
  exact ⟨binding, List.mem_of_find?_eq_some hb, by simpa using List.find?_some hb, ho⟩

/-! ## Counting bindings -/

/-- The number of bindings of a kind that the instances of a component have. -/
def bindingsIn (tree : Tree κ) (kind : NameKind) (c : Handle) : Nat :=
  ((tree.get c).children.values.flatMap fun inst => inst.bindings kind).length

/-- `bindingCount` of the arena is the sum of `bindingsIn` its components. -/
theorem bindingCount_eq_sum (tree : Tree κ) (kind : NameKind) :
    tree.bindingCount kind =
      ((List.range tree.size).map fun i => tree.bindingsIn kind ⟨i⟩).sum := by
  -- the arena, written as a list of places
  have hcomponents :
      tree.components.toList = (List.range tree.size).map fun i => tree.get ⟨i⟩ := by
    apply List.ext_getElem
    · simp [size]
    · intro i hi _
      have hi' : i < tree.components.size := by simpa using hi
      simp [get, Array.getD_eq_getD_getElem?, Array.getElem?_eq_getElem hi']
  rw [bindingCount, List.length_flatMap, hcomponents, List.map_map]
  rfl

/-- A network that binds a name has a binding among its `bindingsIn`. -/
theorem bindingsIn_pos {tree : Tree κ} {kind : NameKind} {c : Handle} {entry : String × Instance}
    (he : entry ∈ (tree.get c).children.entries) {name outer : String}
    (ho : entry.2.outerName? kind name = some outer) : 0 < tree.bindingsIn kind c := by
  obtain ⟨binding, hb, -⟩ := exists_binding_of_outerName? ho
  exact List.length_pos_of_mem
    (List.mem_flatMap.2 ⟨entry.2, List.mem_map_of_mem he, hb⟩)

/-- What holds of the root and goes from every reachable network to its instances holds of every
reachable component. -/
@[elab_as_elim]
theorem Reachable.induction {tree : Tree κ} {motive : Handle → Prop} (root : motive tree.root)
    (child : ∀ b, tree.Reachable b → motive b →
      ∀ entry ∈ (tree.get b).children.entries, motive entry.2.child)
    {c : Handle} (hc : tree.Reachable c) : motive c := by
  -- go down the way, from a component that has been reached already
  have key (names : List String) (b : Handle) (hb : tree.Reachable b) (hm : motive b)
      (hf : tree.follow b names = some c) : motive c := by
    induction names generalizing b with
    | nil =>
      obtain rfl := Option.some.inj hf
      exact hm
    | cons name rest ih =>
      obtain ⟨inst, he, hf⟩ := follow_cons_iff.1 hf
      exact ih inst.child (hb.child he) (child b hb hm _ he) hf
  obtain ⟨names, hf⟩ := hc
  exact key names tree.root tree.reachable_root root hf

namespace Linked

variable {tree : Tree κ} {c d : Handle} {names : List String} {name last : String}
  {kind : NameKind} {steps : Nat}

/-- `outer?` leads from a name of a reachable component to a name of the network around it, if it is
bound. -/
theorem outer?_eq (h : tree.Linked) (hc : tree.Reachable c) (kind : NameKind) (name : String) :
    tree.outer? kind c name = .ok ((tree.instance? c).bind fun inst =>
      (inst.outerName? kind name).map fun outer => (inst.parent, outer)) := by
  rcases h.instance?_cases hc with ⟨rfl, hi⟩ | ⟨b, own, inst, -, he, rfl, hlink, hi⟩
  · rw [hi, outer?_of_parent_eq_none h.rootParent]
    rfl
  · rw [hi, hlink.outer?_eq he, ← hlink.parent]
    rfl

/-- `outer?` leads nowhere from a free name of a reachable component. -/
theorem outer?_of_isFree (h : tree.Linked) (hc : tree.Reachable c)
    (hfree : tree.IsFree kind c name) : tree.outer? kind c name = .ok none := by
  rw [h.outer?_eq hc]
  rw [IsFree] at hfree
  cases hi : tree.instance? c with
  | none => rfl
  | some inst =>
    rw [hi, Option.bind_some] at hfree
    simp [hfree]

/-- `outer?` leads from a bound name of a reachable component to the network around it. -/
theorem outer?_of_bound (h : tree.Linked) (hc : tree.Reachable c) {inst : Instance}
    {outer : String} (hi : tree.instance? c = some inst)
    (ho : inst.outerName? kind name = some outer) :
    tree.outer? kind c name = .ok (some (inst.parent, outer)) := by
  rw [h.outer?_eq hc, hi, Option.bind_some, ho]
  rfl

/-- The network around a reachable component is reachable, if links are consistent. -/
theorem reachable_parent (h : tree.Linked) (hc : tree.Reachable c) {inst : Instance}
    (hi : tree.instance? c = some inst) : tree.Reachable inst.parent := by
  rcases h.instance?_cases hc with ⟨-, hi'⟩ | ⟨b, own, inst', hb, -, -, hlink, hi'⟩
  · cases hi.symm.trans hi'
  · obtain rfl := Option.some.inj (hi.symm.trans hi')
    rw [hlink.parent]
    exact hb

/-- A `Chain` stays among reachable components. -/
theorem reachable_of_chain (h : tree.Linked) (hc : tree.Reachable c)
    (hchain : tree.Chain kind c name steps d last) : tree.Reachable d := by
  induction hchain with
  | free => exact hc
  | bound hinst _ _ ih => exact ih (h.reachable_parent hc hinst)

/-- Every `Chain` ends within the `bindingCount` of the arena. -/
theorem exists_chain (h : tree.Linked) (hc : tree.Reachable c) (kind : NameKind) (name : String) :
    ∃ steps d last, tree.Chain kind c name steps d last ∧ steps ≤ tree.bindingCount kind := by
  -- from the root down: a chain uses one binding of each network that it goes through
  have key : ∃ names, tree.follow tree.root names = some c ∧ ∀ name, ∃ steps d last,
      tree.Chain kind c name steps d last ∧
        steps ≤ ((tree.passed tree.root names).map (tree.bindingsIn kind)).sum := by
    refine Reachable.induction ?_ ?_ hc
    · have hi := instance?_of_parent_eq_none h.rootParent
      exact ⟨[], rfl, fun name =>
        ⟨0, tree.root, name, .free (isFree_of_instance?_eq_none hi kind name), Nat.zero_le _⟩⟩
    · rintro b hb ⟨names, hf, hchains⟩ ⟨own, inst⟩ he
      have hlink := h.link b hb _ he
      have hi := hlink.instance?_eq he
      refine ⟨names ++ [own], follow_concat_iff.2 ⟨b, inst, hf, he, rfl⟩, fun name => ?_⟩
      rw [passed_concat hf he, List.map_append, List.sum_append]
      cases ho : inst.outerName? kind name with
      | none =>
        exact ⟨0, inst.child, name, .free ((isFree_iff_of_instance? hi).2 ho), Nat.zero_le _⟩
      | some outer =>
        obtain ⟨steps, d, last, hchain, hsteps⟩ := hchains outer
        have hpos := bindingsIn_pos he ho
        refine ⟨steps + 1, d, last, .bound hi ho (hlink.parent ▸ hchain), ?_⟩
        simp only [List.map_cons, List.map_nil, List.sum_cons, List.sum_nil]
        omega
  obtain ⟨names, hf, hchains⟩ := key
  obtain ⟨steps, d, last, hchain, hsteps⟩ := hchains name
  refine ⟨steps, d, last, hchain, Nat.le_trans hsteps ?_⟩
  -- the networks on a way are different components of the arena
  rw [bindingCount_eq_sum]
  exact sum_map_le tree (List.nodup_append.1 (h.straight.nodup_passed hf)).1 fun b hb =>
    h.index_lt (reachable_of_mem_passed hb)

end Linked

end HybridAutomata.Tree
