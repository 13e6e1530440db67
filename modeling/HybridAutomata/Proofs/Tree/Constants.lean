import HybridAutomata.Proofs.Tree.Chain
import HybridAutomata.Proofs.Tree.Location
/-!
# Values of constants

In a well-formed tree the value of a constant is the own value of a constant further up, which is
not bound any more. Just these constants are listed for the whole model, each under a name of its
own.

* `WellFormed.declares_of_chain`             a chain of declared names stays among declared names
* `Linked.constantValue_of_isFree`, `Linked.constantValue_of_bound`   the value of one constant
* `WellFormed.exists_free_of_constantValue`  the end of a chain of constants
* `WellFormed.get?_allConstants_iff`         which constants are listed
-/

namespace HybridAutomata.Tree

variable {κ : Type}

/-! ## Bindings -/

section

variable {tree : Tree κ} {owner : Handle} {name : String} {inst : Instance}

/-- `InstanceOk` says that the network declares the names to which its instances are bound. -/
theorem InstanceOk.declares_outer (h : tree.InstanceOk owner name inst) {kind : NameKind}
    {inner outer : String} (ho : inst.outerName? kind inner = some outer) :
    (tree.get owner).declares kind outer = true := by
  obtain ⟨binding, hb, -, rfl⟩ := exists_binding_of_outerName? ho
  exact (h.binding kind binding hb).2.1

end

namespace WellFormed

variable {tree : Tree κ} {c d : Handle} {kind : NameKind} {name outer last : String}
  {inst : Instance} {steps : Nat}

/-- In a `WellFormed` tree the network around a component declares the names to which the component
is bound. -/
theorem declares_of_bound (h : tree.WellFormed) (hc : tree.Reachable c)
    (hi : tree.instance? c = some inst) (ho : inst.outerName? kind name = some outer) :
    (tree.get inst.parent).declares kind outer = true := by
  rcases h.linked.instance?_cases hc with ⟨-, hi'⟩ | ⟨b, own, inst', ⟨names, hf⟩, he, -, hlink, hi'⟩
  · cases hi.symm.trans hi'
  · obtain rfl := Option.some.inj (hi.symm.trans hi')
    rw [hlink.parent]
    exact ((h.nodeOk hf).instances _ he).declares_outer ho

/-- In a `WellFormed` tree a `Chain` of declared names ends at a declared name. -/
theorem declares_of_chain (h : tree.WellFormed) (hc : tree.Reachable c)
    (hchain : tree.Chain kind c name steps d last)
    (hn : (tree.get c).declares kind name = true) : (tree.get d).declares kind last = true := by
  induction hchain with
  | free => exact hn
  | bound hi ho _ ih => exact ih (h.linked.reachable_parent hc hi) (h.declares_of_bound hc hi ho)

end WellFormed

/-! ## Chains of constants -/

/-- `constantWithin` finds the own value of a constant that is not bound. -/
theorem constantWithin_of_free {tree : Tree κ} {c : Handle} {name : String}
    (ho : tree.outer? .const c name = .ok none) (steps : Nat) :
    tree.constantWithin steps c name =
      match (tree.get c).constants.get? name with
      | none => .error (.unknownConstant name (tree.get c).displayName)
      | some none => .error (.unassignedConstant name (tree.get c).displayName)
      | some (some value) => .ok value := by
  rw [constantWithin.eq_def]
  -- an unknown constant is reported before its bindings are looked at
  cases hown : (tree.get c).constants.get? name with
  | none => simp only [hown]
  | some own => cases own <;> simp only [hown, ho]

/-- `constantWithin` finds the value of the constant that a constant is bound to, unless it has one
of its own. -/
theorem constantWithin_of_bound {tree : Tree κ} {c b : Handle} {name outer : String}
    (ho : tree.outer? .const c name = .ok (some (b, outer))) (steps : Nat) :
    tree.constantWithin (steps + 1) c name =
      match (tree.get c).constants.get? name with
      | none => .error (.unknownConstant name (tree.get c).displayName)
      | some none => tree.constantWithin steps b outer
      | some (some _) => .error (.doublyBoundConstant name (tree.get c).displayName) := by
  rw [constantWithin.eq_def]
  -- whether the constant has a value of its own decides if the step is taken
  cases hown : (tree.get c).constants.get? name with
  | none => simp only [hown]
  | some own => cases own <;> simp only [hown, ho]

/-- `constantWithin` finds a value if the constant is not bound and has one itself, or if it has
none itself and is bound to a constant that has one. -/
theorem constantWithin_eq_ok_iff {tree : Tree κ} {steps : Nat} {c : Handle} {name : String}
    {value : Interval κ} :
    tree.constantWithin steps c name = .ok value ↔
      (tree.outer? .const c name = .ok none ∧
        (tree.get c).constants.get? name = some (some value)) ∨
      ∃ b outer rest, tree.outer? .const c name = .ok (some (b, outer)) ∧
        (tree.get c).constants.get? name = some none ∧ steps = rest + 1 ∧
        tree.constantWithin rest b outer = .ok value := by
  -- follow the definition: its own value, then a binding, then the steps that are left
  rw [constantWithin.eq_def]
  cases hown : (tree.get c).constants.get? name with
  | none => simp [hown]
  | some own =>
    cases ho : tree.outer? .const c name with
    | error cause => simp [hown, ho]
    | ok outer =>
      rcases outer with _ | ⟨b, outer⟩
      · cases own <;> simp [hown, ho]
      · cases own with
        | some own => simp [hown, ho]
        | none =>
          cases steps with
          | zero => simp [hown, ho]
          | succ steps =>
            simp only [hown, ho]
            constructor
            · exact fun h => .inr ⟨b, outer, steps, rfl, trivial, rfl, h⟩
            · rintro (⟨hnone, -⟩ | ⟨_, _, _, hsome, -, hsteps, h⟩)
              · cases hnone
              · cases hsome
                cases hsteps
                exact h

/-- What `constantWithin` finds is the own value of the constant at the end of the `Chain`. -/
theorem Linked.own_value_of_chain {tree : Tree κ} (h : tree.Linked) {c d : Handle}
    {name last : String} {steps steps' : Nat} {value : Interval κ} (hc : tree.Reachable c)
    (hchain : tree.Chain .const c name steps d last) (hsteps : steps ≤ steps')
    (hv : tree.constantWithin steps' c name = .ok value) :
    (tree.get d).constants.get? last = some (some value) := by
  -- by induction on the chain, with one step less for each binding
  induction hchain generalizing steps' with
  | @free c name hfree =>
    rw [constantWithin_of_free (h.outer?_of_isFree hc hfree)] at hv
    cases hown : (tree.get c).constants.get? name with
    | none =>
      rw [hown] at hv
      cases hv
    | some own =>
      rw [hown] at hv
      cases own with
      | none => cases hv
      | some value' => rw [Except.ok.inj hv]
  | @bound c _ name _ _ _ _ hi ho _ ih =>
    obtain ⟨rest, rfl⟩ := Nat.exists_eq_add_of_lt hsteps
    rw [constantWithin_of_bound (h.outer?_of_bound hc hi ho)] at hv
    refine ih (h.reachable_parent hc hi) (Nat.le_add_right _ rest) ?_
    -- the constant has no value of its own, so the next one decides
    split at hv
    · cases hv
    · exact hv
    · cases hv

/-- With as many steps as the `Chain` has, `constantWithin` does not depend on the number of steps.
-/
theorem Linked.constantWithin_eq {tree : Tree κ} (h : tree.Linked) {c d : Handle}
    {name last : String} {steps bound bound' : Nat} (hc : tree.Reachable c)
    (hchain : tree.Chain .const c name steps d last) (hb : steps ≤ bound) (hb' : steps ≤ bound') :
    tree.constantWithin bound c name = tree.constantWithin bound' c name := by
  -- induction along the chain, with one step used up on both sides
  induction hchain generalizing bound bound' with
  | free hfree =>
    have ho := h.outer?_of_isFree hc hfree
    rw [constantWithin_of_free ho, constantWithin_of_free ho]
  | bound hi ho _ ih =>
    obtain ⟨rest, rfl⟩ := Nat.exists_eq_add_of_lt hb
    obtain ⟨rest', rfl⟩ := Nat.exists_eq_add_of_lt hb'
    have houter := h.outer?_of_bound hc hi ho
    rw [constantWithin_of_bound houter, constantWithin_of_bound houter,
      ih (h.reachable_parent hc hi) (Nat.le_add_right _ rest) (Nat.le_add_right _ rest')]

/-- `constantValue` of a constant that is not bound is its own value. -/
theorem Linked.constantValue_of_isFree {tree : Tree κ} (h : tree.Linked) {c : Handle}
    {name : String} (hc : tree.Reachable c) (hfree : tree.IsFree .const c name) :
    tree.constantValue c name =
      match (tree.get c).constants.get? name with
      | none => .error (.unknownConstant name (tree.get c).displayName)
      | some none => .error (.unassignedConstant name (tree.get c).displayName)
      | some (some value) => .ok value :=
  constantWithin_of_free (h.outer?_of_isFree hc hfree) _

/-- `constantValue` of a constant that is bound is that of the constant to which it is bound. -/
theorem Linked.constantValue_of_bound {tree : Tree κ} (h : tree.Linked) {c : Handle}
    {name outer : String} {inst : Instance} (hc : tree.Reachable c)
    (hi : tree.instance? c = some inst) (ho : inst.outerName? .const name = some outer) :
    tree.constantValue c name =
      match (tree.get c).constants.get? name with
      | none => .error (.unknownConstant name (tree.get c).displayName)
      | some none => tree.constantValue inst.parent outer
      | some (some _) => .error (.doublyBoundConstant name (tree.get c).displayName) := by
  obtain ⟨steps, d, last, hchain, hsteps⟩ := h.exists_chain hc .const name
  cases hchain with
  | free hfree => exact absurd hfree (not_isFree_of_outerName? hi ho)
  | @bound _ _ _ _ _ _ steps hi' ho' hrest =>
    obtain rfl := Option.some.inj (hi.symm.trans hi')
    obtain rfl := Option.some.inj (ho.symm.trans ho')
    -- one step is taken, and the other ones are enough for the rest of the chain
    obtain ⟨rest, hcount⟩ := Nat.exists_eq_add_of_lt hsteps
    have hle : steps ≤ tree.bindingCount .const := Nat.le_of_succ_le hsteps
    rw [constantValue, constantValue, hcount, constantWithin_of_bound (h.outer?_of_bound hc hi ho),
      h.constantWithin_eq (h.reachable_parent hc hi) hrest (Nat.le_add_right _ rest) hle, hcount]

/-- `constantValue` is the own value of a constant that is not bound. -/
theorem WellFormed.exists_free_of_constantValue {tree : Tree κ} (h : tree.WellFormed) {c : Handle}
    {names : List String} {name : String} {value : Interval κ}
    (hf : tree.follow tree.root names = some c) (hv : tree.constantValue c name = .ok value) :
    ∃ names' d name', tree.follow tree.root names' = some d ∧ tree.IsFree .const d name' ∧
      (tree.get d).constants.get? name' = some (some value) := by
  have hc : tree.Reachable c := ⟨names, hf⟩
  obtain ⟨steps, d, last, hchain, hsteps⟩ := h.linked.exists_chain hc .const name
  obtain ⟨names', hf'⟩ := h.linked.reachable_of_chain hc hchain
  exact ⟨names', d, last, hf', hchain.isFree, h.linked.own_value_of_chain hc hchain hsteps hv⟩

/-! ## Listed constants -/

/-- `ownConstants` lists a free constant under its qualified name. -/
theorem qualify_mem_ownConstants {tree : Tree κ} {c : Handle} {name : String}
    (hfree : tree.IsFree .const c name) (hname : name ∈ (tree.get c).constants.keys) :
    qualify (tree.path c) name ∈ (tree.ownConstants c).keys := by
  obtain ⟨entry, he, rfl⟩ := List.mem_map.1 hname
  -- a later constant may take its place in the map, but not its name
  rw [ownConstants, NameMap.rekey, NameMap.ofList, NameMap.mem_keys_insertAll]
  refine .inr (List.mem_map_of_mem (List.mem_map_of_mem (List.mem_filter.2 ⟨he, ?_⟩)))
  rw [IsFree] at hfree
  simp [hfree]

/-- What `ownConstants` lists is a free constant of the component. -/
theorem exists_of_get?_ownConstants {tree : Tree κ} {c : Handle} {listed : String}
    {value : Option (Interval κ)} (h : (tree.ownConstants c).get? listed = some value) :
    ∃ name, listed = qualify (tree.path c) name ∧ tree.IsFree .const c name ∧
      (tree.get c).constants.get? name = some value := by
  rw [ownConstants, NameMap.rekey, NameMap.ofList] at h
  -- the names are qualified one by one, so a listed one comes from a constant of the component
  rcases NameMap.get?_insertAll_eq_some h with h | h
  · cases h
  · obtain ⟨⟨name, value'⟩, he, heq⟩ := List.mem_map.1 h
    obtain ⟨rfl, rfl⟩ := Prod.mk.inj heq
    obtain ⟨hm, hfree⟩ := List.mem_filter.1 he
    exact ⟨name, rfl, by simpa [IsFree] using hfree, NameMap.get?_eq_some_iff.2 hm⟩

/-- What `constantsWithin` lists is a free constant of a component at or below. -/
theorem exists_of_get?_constantsWithin {tree : Tree κ} {levels : Nat} {c : Handle}
    {listed : String} {value : Option (Interval κ)}
    (h : (tree.constantsWithin levels c).get? listed = some value) :
    ∃ d ∈ tree.preorder levels c, ∃ name, listed = qualify (tree.path d) name ∧
      tree.IsFree .const d name ∧ (tree.get d).constants.get? name = some value := by
  -- induction on the levels; what a child lists may overwrite, but adds nothing else
  induction levels generalizing c with
  | zero => cases h
  | succ levels ih =>
    rw [constantsWithin] at h
    rcases NameMap.get?_foldl_insertAll_eq_some h with h | ⟨child, hc, h⟩
    · obtain ⟨name, hname⟩ := exists_of_get?_ownConstants h
      exact ⟨c, List.mem_cons_self, name, hname⟩
    · obtain ⟨d, hd, hname⟩ := ih (NameMap.get?_eq_some_iff.2 h)
      exact ⟨d, List.mem_cons_of_mem _ (List.mem_flatMap.2 ⟨child, hc, hd⟩), hname⟩

/-- `constantsWithin` lists every free constant of a component at or below. -/
theorem qualify_mem_constantsWithin {tree : Tree κ} {levels : Nat} {c d : Handle} {name : String}
    (hd : d ∈ tree.preorder levels c) (hfree : tree.IsFree .const d name)
    (hname : name ∈ (tree.get d).constants.keys) :
    qualify (tree.path d) name ∈ (tree.constantsWithin levels c).keys := by
  -- induction on the levels, down to the component of the constant
  induction levels generalizing c with
  | zero => cases hd
  | succ levels ih =>
    rw [constantsWithin, NameMap.mem_keys_foldl_insertAll]
    rcases List.mem_cons.1 hd with rfl | hd
    · exact .inl (qualify_mem_ownConstants hfree hname)
    · obtain ⟨child, hc, hd⟩ := List.mem_flatMap.1 hd
      exact .inr ⟨child, hc, ih hd⟩

namespace WellFormed

variable {tree : Tree κ}

/-- Names of constants have no dots in a `WellFormed` tree, since they are identifiers. -/
theorem not_mem_of_mem_constants (h : tree.WellFormed) {names : List String} {c : Handle}
    {name : String} (hf : tree.follow tree.root names = some c)
    (hname : name ∈ (tree.get c).constants.keys) : '.' ∉ name.toList :=
  Text.not_mem_of_isIdentifier
    ((h.nodeOk hf).identifiers name (mem_checkedNames_iff.2 (.inr (.inr hname))))

/-- `allConstants` of a `WellFormed` tree lists the free constants of all components, each under its
own name. -/
theorem get?_allConstants_iff (h : tree.WellFormed) {listed : String}
    {value : Option (Interval κ)} :
    (tree.allConstants tree.root).get? listed = some value ↔
      ∃ names d name, tree.follow tree.root names = some d ∧
        listed = qualify (tree.path d) name ∧ tree.IsFree .const d name ∧
        (tree.get d).constants.get? name = some value := by
  constructor
  · intro hl
    obtain ⟨d, hd, name, hname⟩ := exists_of_get?_constantsWithin hl
    obtain ⟨names, -, hf⟩ := mem_preorder_iff.1 hd
    exact ⟨names, d, name, hf, hname⟩
  · rintro ⟨names, d, name, hf, rfl, hfree, hname⟩
    have hkey : name ∈ (tree.get d).constants.keys :=
      NameMap.mem_keys_iff.2 ⟨value, hname⟩
    have hd := mem_preorder_iff.2 ⟨names, h.linked.length_lt hf, hf⟩
    -- the name is listed, and whatever it is listed for is the same constant
    obtain ⟨value', hv⟩ := NameMap.mem_keys_iff.1 (qualify_mem_constantsWithin hd hfree hkey)
    obtain ⟨d', hd', name', heq, -, hname'⟩ := exists_of_get?_constantsWithin hv
    obtain ⟨names', -, hf'⟩ := mem_preorder_iff.1 hd'
    obtain ⟨rfl, rfl⟩ := h.qualify_inj hf hf' (h.not_mem_of_mem_constants hf hkey)
      (h.not_mem_of_mem_constants hf' (NameMap.mem_keys_iff.2 ⟨value', hname'⟩)) heq
    obtain rfl := Option.some.inj (hname.symm.trans hname')
    exact hv

end WellFormed

/-- The qualified name of a constant that is not bound. -/
def IsConstant (tree : Tree κ) (listed : String) : Prop :=
  ∃ c, tree.Reachable c ∧ ∃ name ∈ (tree.get c).constants.keys,
    tree.IsFree .const c name ∧ listed = qualify (tree.path c) name

/-- `allConstants` lists the qualified names of all free constants, as `IsConstant` says. -/
theorem Linked.mem_keys_allConstants_iff {tree : Tree κ} (h : tree.Linked) {listed : String} :
    listed ∈ (tree.allConstants tree.root).keys ↔ tree.IsConstant listed := by
  constructor
  · intro hl
    obtain ⟨value, hv⟩ := NameMap.mem_keys_iff.1 hl
    obtain ⟨c, hc, name, he, hfree, hname⟩ := exists_of_get?_constantsWithin hv
    obtain ⟨names, -, hf⟩ := mem_preorder_iff.1 hc
    exact ⟨c, ⟨names, hf⟩, name, NameMap.mem_keys_iff.2 ⟨value, hname⟩, hfree, he⟩
  · rintro ⟨c, ⟨names, hf⟩, name, hname, hfree, rfl⟩
    exact qualify_mem_constantsWithin (mem_preorder_iff.2 ⟨names, h.length_lt hf, hf⟩) hfree hname

/-- In a `WellFormed` tree, too, `allConstants` lists what `IsConstant` says. -/
theorem WellFormed.mem_keys_allConstants_iff {tree : Tree κ} (h : tree.WellFormed)
    {listed : String} : listed ∈ (tree.allConstants tree.root).keys ↔ tree.IsConstant listed :=
  h.linked.mem_keys_allConstants_iff

end HybridAutomata.Tree
