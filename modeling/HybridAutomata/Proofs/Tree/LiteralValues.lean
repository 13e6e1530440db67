import HybridAutomata.Proofs.Component.Check
import HybridAutomata.Proofs.Tree.Climb
import HybridAutomata.Proofs.Tree.Constants
import HybridAutomata.Proofs.Tree.Literals
import HybridAutomata.Proofs.Tree.Check
import Mathlib.Data.List.Nodup
/-!
# Values behind literals

Where all literals are in place, a constant that is bound to a number has it as its value, and so
does every constant whose bindings lead to one. The other constants are looked up as before, and
what passes a check still passes it.

* `LeadsToLiteral.constantValue_inlined`   constants that lead to a number
* `constantValue_inlined_of_forall_not`    the other constants
* `check_inlined`                          checks
-/

namespace HybridAutomata.Tree

variable {κ : Type} [Scalar κ]

/-- Every constant that an instance binds is declared by the component of the instance, and no
instance binds a constant twice. -/
structure BindsConstantsOnce (tree : Tree κ) : Prop where
  declared : ∀ c, tree.Reachable c → ∀ entry ∈ (tree.get c).children.entries,
    ∀ binding ∈ entry.2.consts, binding.inner ∈ (tree.get entry.2.child).constants.keys
  once : ∀ c, tree.Reachable c → ∀ entry ∈ (tree.get c).children.entries,
    (entry.2.consts.map Binding.inner).Nodup

omit [Scalar κ] in
/-- `BindsConstantsOnce` can be read off the arena, since only components in it have instances. -/
theorem BindsConstantsOnce.of_arena {tree : Tree κ}
    (h : ∀ i < tree.size, ∀ entry ∈ (tree.get ⟨i⟩).children.entries,
      (∀ binding ∈ entry.2.consts, binding.inner ∈ (tree.get entry.2.child).constants.keys) ∧
        (entry.2.consts.map Binding.inner).Nodup) : tree.BindsConstantsOnce where
  declared c _ entry he := (h c.index (index_lt_of_mem_children he) entry he).1
  once c _ entry he := (h c.index (index_lt_of_mem_children he) entry he).2

/-- A constant is bound to a literal that reads as a number, or it has no value of its own and is
bound to a constant of the network around it that leads to such a literal. -/
inductive LeadsToLiteral (tree : Tree κ) : Handle → String → κ → Prop where
  | literal {c : Handle} {inst : Instance} {binding : Binding} {value : κ}
      (hinst : tree.instance? c = some inst) (hb : binding ∈ inst.consts)
      (hvalue : binding.value? = some value) : LeadsToLiteral tree c binding.inner value
  | bound {c : Handle} {inst : Instance} {binding : Binding} {value : κ}
      (hinst : tree.instance? c = some inst) (hb : binding ∈ inst.consts)
      (hname : binding.literal? = none)
      (hown : (tree.get c).constants.get? binding.inner = some none)
      (hrest : LeadsToLiteral tree inst.parent binding.outer value) :
      LeadsToLiteral tree c binding.inner value

/-! ## One instance -/

section

variable {inst : Instance} {binding : Binding} {name outer : String}

omit [Scalar κ] in
/-- Of bindings of different names each one counts, so `outerName?` gives its outer name. -/
theorem outerName?_of_mem (hn : (inst.consts.map Binding.inner).Nodup)
    (hb : binding ∈ inst.consts) :
    inst.outerName? .const binding.inner = some binding.outer := by
  have hfind := List.find?_eq_some_of_nodup hn hb
  rw [Instance.outerName?, Instance.bindings, hfind]
  rfl

omit [Scalar κ] in
/-- `inlined` drops the binding of a constant to a literal. -/
theorem outerName?_inlined_of_literal (hn : (inst.consts.map Binding.inner).Nodup)
    (hb : binding ∈ inst.consts) (hl : binding.literal? ≠ none) :
    inst.inlined.outerName? .const binding.inner = none := by
  cases ho : inst.inlined.outerName? .const binding.inner with
  | none => rfl
  | some outer =>
    -- no other binding has the name
    obtain ⟨other, hm, he, -⟩ := exists_binding_of_outerName? ho
    obtain ⟨hm, hkept⟩ := List.mem_filter.1 hm
    obtain rfl := List.inj_on_of_nodup_map hn hm hb he
    exact absurd (Option.isNone_iff_eq_none.1 hkept) hl

omit [Scalar κ] in
/-- `inlined` keeps the binding of a constant to a name. -/
theorem outerName?_inlined_of_name (hn : (inst.consts.map Binding.inner).Nodup)
    (hb : binding ∈ inst.consts) (hl : binding.literal? = none) :
    inst.inlined.outerName? .const binding.inner = some binding.outer :=
  outerName?_of_mem (hn.sublist (List.filter_sublist.map _))
    (List.mem_filter.2 ⟨hb, Option.isNone_iff_eq_none.2 hl⟩)

omit [Scalar κ] in
/-- `inlined` binds no constant that was not bound. -/
theorem outerName?_inlined_of_none (h : inst.outerName? .const name = none) :
    inst.inlined.outerName? .const name = none := by
  rw [Instance.outerName?, Option.map_eq_none_iff, List.find?_eq_none] at h ⊢
  exact fun binding hb => h binding (List.mem_filter.1 hb).1

/-- A constant that is bound to a number gets it from `literalValues`. -/
theorem get?_insertAll_literalValues_of_value {constants : NameMap (Option (Interval κ))}
    (hn : (inst.consts.map Binding.inner).Nodup) (hb : binding ∈ inst.consts) {value : κ}
    (hv : binding.value? = some value) :
    (constants.insertAll (literalValues inst.consts)).get? binding.inner =
      some (some (.point value)) :=
  NameMap.get?_insertAll_of_mem (hn.sublist (map_fst_literalValues_sublist _))
    (mem_literalValues_iff.2 ⟨binding, hb, value, hv, rfl⟩)

/-- A constant that is bound to no number keeps its own value under `literalValues`. -/
theorem get?_insertAll_literalValues_of_none {constants : NameMap (Option (Interval κ))}
    (h : ∀ binding ∈ inst.consts, binding.inner = name → (binding.value? : Option κ) = none) :
    (constants.insertAll (literalValues inst.consts)).get? name = constants.get? name := by
  refine NameMap.get?_insertAll_of_not_mem fun hm => ?_
  obtain ⟨entry, he, rfl⟩ := List.mem_map.1 hm
  obtain ⟨binding, hb, value, hv, rfl⟩ := mem_literalValues_iff.1 he
  cases (h binding hb rfl).symm.trans hv

end

/-! ## Values -/

section

variable {tree : Tree κ} {c : Handle} {name : String} {inst : Instance} {binding : Binding}
    {value : κ}

omit [Scalar κ] in
/-- The instance through which a component is placed binds no constant twice. -/
theorem BindsConstantsOnce.once_of_instance? (h : tree.BindsConstantsOnce) (hlinked : tree.Linked)
    (hc : tree.Reachable c) (hi : tree.instance? c = some inst) :
    (inst.consts.map Binding.inner).Nodup := by
  rcases hlinked.instance?_cases hc with ⟨-, hi'⟩ | ⟨b, own, inst', hb, he, -, -, hi'⟩
  · cases hi.symm.trans hi'
  · obtain rfl := Option.some.inj (hi.symm.trans hi')
    exact h.once b hb _ he

omit [Scalar κ] in
/-- A component declares the constants that its instance binds. -/
theorem BindsConstantsOnce.declared_of_instance? (h : tree.BindsConstantsOnce)
    (hlinked : tree.Linked) (hc : tree.Reachable c) (hi : tree.instance? c = some inst)
    (hb : binding ∈ inst.consts) : binding.inner ∈ (tree.get c).constants.keys := by
  rcases hlinked.instance?_cases hc with ⟨-, hi'⟩ | ⟨b, own, inst', hb', he, rfl, -, hi'⟩
  · cases hi.symm.trans hi'
  · obtain rfl := Option.some.inj (hi.symm.trans hi')
    exact h.declared b hb' _ he binding hb

/-- In `inlined`, a component that is placed by an instance has its constants and the numbers of the
instance. -/
theorem constants_inlined (hi : tree.instance? c = some inst) :
    (tree.inlined.get c).constants =
      (tree.get c).constants.insertAll (literalValues inst.consts) := by
  rw [get_inlined]
  exact inlinedConstants_of_instance? hi

/-- `inlined` keeps the instance of a component, without its literals. -/
theorem instance?_inlined_of_instance? (hi : tree.instance? c = some inst) :
    tree.inlined.instance? c = some inst.inlined := by
  rw [instance?_inlined, hi]
  rfl

/-- The next step from a constant that is bound to a name: `inlined` gives it no value, so it has
one of its own just if it had one before. -/
theorem constantValue_inlined_of_name (h : tree.BindsConstantsOnce) (hlinked : tree.Linked)
    (hc : tree.Reachable c) (hi : tree.instance? c = some inst) (hb : binding ∈ inst.consts)
    (hl : binding.literal? = none) :
    tree.inlined.constantValue c binding.inner =
      match (tree.get c).constants.get? binding.inner with
      | none => .error (.unknownConstant binding.inner (tree.get c).displayName)
      | some none => tree.inlined.constantValue inst.parent binding.outer
      | some (some _) => .error (.doublyBoundConstant binding.inner (tree.get c).displayName) := by
  have hn := h.once_of_instance? hlinked hc hi
  have hkept : ((tree.get c).constants.insertAll (literalValues inst.consts)).get? binding.inner =
      (tree.get c).constants.get? binding.inner :=
    -- no other binding of the name could bring a value in
    get?_insertAll_literalValues_of_none fun other ho he => by
      obtain rfl := List.inj_on_of_nodup_map hn ho hb he
      exact Binding.value?_of_literal?_eq_none hl
  rw [hlinked.inlined.constantValue_of_bound (reachable_inlined_iff.2 hc)
    (instance?_inlined_of_instance? hi) (outerName?_inlined_of_name hn hb hl), constants_inlined hi,
    hkept, displayName_inlined]
  rfl

/-- In `inlined`, a constant that `LeadsToLiteral` has the number as its value. -/
theorem LeadsToLiteral.constantValue_inlined (h : tree.LeadsToLiteral c name value)
    (hlinked : tree.Linked) (honce : tree.BindsConstantsOnce) (hc : tree.Reachable c) :
    tree.inlined.constantValue c name = .ok (.point value) := by
  -- induction on the chain: its last constant holds the number, the others hand it down
  induction h with
  | @literal c inst binding value hi hb hv =>
    have hn := honce.once_of_instance? hlinked hc hi
    have hl : binding.literal? ≠ none := fun hnone => by
      cases hv.symm.trans (Binding.value?_of_literal?_eq_none hnone)
    have hfree : tree.inlined.IsFree .const c binding.inner :=
      (isFree_iff_of_instance? (instance?_inlined_of_instance? hi)).2
        (outerName?_inlined_of_literal hn hb hl)
    rw [hlinked.inlined.constantValue_of_isFree (reachable_inlined_iff.2 hc) hfree,
      constants_inlined hi, get?_insertAll_literalValues_of_value hn hb hv]
  | bound hi hb hl hown _ ih =>
    rw [constantValue_inlined_of_name honce hlinked hc hi hb hl, hown]
    exact ih (hlinked.reachable_parent hc hi)

/-- In `inlined`, a constant of the root has the value that it had before. -/
theorem constantValue_inlined_root (hlinked : tree.Linked) (name : String) :
    tree.inlined.constantValue tree.root name = tree.constantValue tree.root name := by
  have hi := instance?_of_parent_eq_none hlinked.rootParent
  have hi' := instance?_of_parent_eq_none hlinked.inlined.rootParent
  have hroot := tree.reachable_root
  rw [hlinked.constantValue_of_isFree hroot (isFree_of_instance?_eq_none hi _ _)]
  rw [← root_inlined tree, hlinked.inlined.constantValue_of_isFree tree.inlined.reachable_root
    (isFree_of_instance?_eq_none hi' _ _), root_inlined, displayName_inlined, get_inlined,
    Component.inlined, inlinedConstants_of_instance?_eq_none hi]

/-- In `inlined`, a constant that is not bound has the value that it had before. -/
theorem constantValue_inlined_of_none (h : tree.BindsConstantsOnce) (hlinked : tree.Linked)
    (hc : tree.Reachable c) (hi : tree.instance? c = some inst)
    (ho : inst.outerName? .const name = none) :
    tree.inlined.constantValue c name = tree.constantValue c name := by
  have hn := h.once_of_instance? hlinked hc hi
  -- no literal is bound to the constant, so none takes its place
  have hkept : ((tree.get c).constants.insertAll (literalValues inst.consts)).get? name =
      (tree.get c).constants.get? name :=
    get?_insertAll_literalValues_of_none fun binding hb hname => by
      rw [← hname, outerName?_of_mem hn hb] at ho
      cases ho
  rw [hlinked.constantValue_of_isFree hc ((isFree_iff_of_instance? hi).2 ho),
    hlinked.inlined.constantValue_of_isFree (reachable_inlined_iff.2 hc)
      ((isFree_iff_of_instance? (instance?_inlined_of_instance? hi)).2
        (outerName?_inlined_of_none ho)),
    constants_inlined hi, hkept, displayName_inlined]

/-- If no literal is malformed then a constant that is bound to one `LeadsToLiteral`. -/
theorem exists_leadsToLiteral (hlinked : tree.Linked)
    (hliterals : ∀ name literal, ¬ tree.HasMalformed name literal) (hc : tree.Reachable c)
    (hi : tree.instance? c = some inst) (hb : binding ∈ inst.consts) {literal : String}
    (hl : binding.literal? = some literal) :
    ∃ value, tree.LeadsToLiteral c binding.inner value := by
  cases hv : (Scalar.read? (Text.trim literal.toList) : Option κ) with
  | some value => exact ⟨value, .literal hi hb (by rw [Binding.value?, hl, Option.bind_some, hv])⟩
  | none =>
    -- otherwise the instance would have a malformed literal
    rcases hlinked.instance?_cases hc with ⟨-, hi'⟩ | ⟨b, own, inst', hb', he, rfl, -, hi'⟩
    · cases hi.symm.trans hi'
    · obtain rfl := Option.some.inj (hi.symm.trans hi')
      exact absurd ⟨b, hb', _, he, binding, hb, rfl, hl, hv⟩ (hliterals binding.inner literal)

/-- In `inlined`, a constant that does not lead to a literal is looked up with the same outcome as
before. -/
theorem constantValue_inlined_of_forall_not (hlinked : tree.Linked)
    (honce : tree.BindsConstantsOnce)
    (hliterals : ∀ name literal, ¬ tree.HasMalformed name literal) (hc : tree.Reachable c)
    (hother : ∀ value, ¬ tree.LeadsToLiteral c name value) :
    tree.inlined.constantValue c name = tree.constantValue c name := by
  -- from the root down, for all names at once
  suffices hall : ∀ name, (∀ value, ¬ tree.LeadsToLiteral c name value) →
      tree.inlined.constantValue c name = tree.constantValue c name from hall name hother
  refine Reachable.induction (fun name _ => constantValue_inlined_root hlinked name) ?_ hc
  rintro b hb ih ⟨own, inst⟩ he name hother
  have hc := hb.child he
  have hlink : tree.LinkOk b own inst := hlinked.link b hb _ he
  have hi := hlink.instance?_eq he
  cases ho : inst.outerName? .const name with
  | none => exact constantValue_inlined_of_none honce hlinked hc hi ho
  | some outer =>
    obtain ⟨binding, hm, rfl, rfl⟩ := exists_binding_of_outerName? ho
    cases hl : binding.literal? with
    | some literal =>
      obtain ⟨value, hleads⟩ := exists_leadsToLiteral hlinked hliterals hc hi hm hl
      exact absurd hleads (hother value)
    | none =>
      -- one step up on both sides; what is left is the name that the constant is bound to
      rw [constantValue_inlined_of_name honce hlinked hc hi hm hl,
        hlinked.constantValue_of_bound hc hi ho]
      rcases hown : (tree.get inst.child).constants.get? binding.inner with _ | _ | own
      · rfl
      · have hparent := ih binding.outer fun value hrest =>
          hother value (.bound hi hm hl hown (hlink.parent ▸ hrest))
        rw [← hlink.parent] at hparent
        exact hparent
      · rfl

/-! ## Checks -/

/-- `inlined` gives values to declared constants only, so the declared names are the same. -/
theorem keys_constants_inlined (hlinked : tree.Linked) (honce : tree.BindsConstantsOnce)
    (hc : tree.Reachable c) :
    (tree.inlined.get c).constants.keys = (tree.get c).constants.keys := by
  cases hi : tree.instance? c with
  | none =>
    rw [get_inlined, Component.inlined, inlinedConstants_of_instance?_eq_none hi]
  | some inst =>
    rw [constants_inlined hi]
    -- only declared constants are bound
    refine NameMap.keys_insertAll_of_subset fun name hm => ?_
    obtain ⟨binding, hb, rfl⟩ :=
      List.mem_map.1 ((map_fst_literalValues_sublist inst.consts).subset hm)
    exact honce.declared_of_instance? hlinked hc hi hb

/-- `inlined` keeps what a component declares. -/
theorem declares_inlined (hlinked : tree.Linked) (honce : tree.BindsConstantsOnce)
    (hc : tree.Reachable c) (kind : NameKind) :
    (tree.inlined.get c).declares kind = (tree.get c).declares kind := by
  funext name
  have hkeys := keys_constants_inlined hlinked honce hc
  -- constants are the only kind of names that change, and they keep their names
  cases kind with
  | var => rw [get_inlined]; rfl
  | const =>
    rw [Component.declares, Component.declares, Bool.eq_iff_iff, NameMap.contains_iff,
      NameMap.contains_iff, hkeys]
  | label => rw [get_inlined]; rfl

/-- A component whose declarations pass a check has declarations that pass it in `inlined`. -/
theorem checkDeclarations_inlined (hlinked : tree.Linked) (honce : tree.BindsConstantsOnce)
    (hliterals : ∀ name literal, ¬ tree.HasMalformed name literal) (hc : tree.Reachable c)
    {options : CheckOptions} (h : tree.checkDeclarations options c = .ok ()) :
    tree.inlined.checkDeclarations options c = .ok () := by
  have hkeys := keys_constants_inlined hlinked honce hc
  have hnames : (tree.inlined.get c).checkedNames options = (tree.get c).checkedNames options := by
    rw [Component.checkedNames, Component.checkedNames, hkeys, get_inlined]
    rfl
  have hlinks : (tree.inlined.get c).checkLinks = (tree.get c).checkLinks := by
    rw [get_inlined]
    rfl
  -- three checks: links, names and, if asked for, values
  rw [checkDeclarations, Except.check_bind_eq_ok_iff, Except.check_bind_eq_ok_iff] at h ⊢
  refine ⟨by rw [hlinks]; exact h.1, by rw [hnames, displayName_inlined]; exact h.2.1, ?_⟩
  replace h := h.2.2
  cases hoption : options.constants with
  | false => rfl
  | true =>
    rw [hoption, if_pos rfl, List.forM_eq_ok_iff] at h
    rw [if_pos rfl, List.forM_eq_ok_iff, hkeys]
    intro name hn
    -- the constant has the number that it leads to, or the value that it had
    by_cases hleads : ∃ value, tree.LeadsToLiteral c name value
    · obtain ⟨value, hvalue⟩ := hleads
      rw [hvalue.constantValue_inlined hlinked honce hc]
    · rw [constantValue_inlined_of_forall_not hlinked honce hliterals hc fun value hv =>
        hleads ⟨value, hv⟩, displayName_inlined]
      exact h name hn

/-- An instance that passes a check passes it in `inlined`, with fewer bindings to look at. -/
theorem checkInstance_inlined (hlinked : tree.Linked) (honce : tree.BindsConstantsOnce)
    (hc : tree.Reachable c) (he : (name, inst) ∈ (tree.get c).children.entries)
    {options : CheckOptions} (h : tree.checkInstance options c inst = .ok ()) :
    tree.inlined.checkInstance options c inst.inlined = .ok () := by
  have hparent : (tree.inlined.get inst.child).parent = (tree.get inst.child).parent := by
    rw [get_inlined]
    rfl
  -- bindings are dropped, none comes in
  have hbindings (kind : NameKind) : inst.inlined.bindings kind ⊆ inst.bindings kind := by
    cases kind with
    | var => exact List.Subset.refl _
    | const => exact fun binding hb => (List.mem_filter.1 hb).1
    | label => exact List.Subset.refl _
  rw [checkInstance] at h ⊢
  simp only [Except.guard_bind_eq_ok_iff, List.forM_eq_ok_iff] at h ⊢
  refine ⟨?_, fun kind hk binding hb => ?_⟩
  · rw [show inst.inlined.child = inst.child from rfl, hparent]
    exact h.1
  · rw [show inst.inlined.child = inst.child from rfl, declares_inlined hlinked honce hc,
      declares_inlined hlinked honce (hc.child he), displayName_inlined]
    exact h.2 kind hk binding (hbindings kind hb)

/-- What passes `checkWithin` passes it in `inlined`. -/
theorem checkWithin_inlined (hlinked : tree.Linked) (honce : tree.BindsConstantsOnce)
    (hliterals : ∀ name literal, ¬ tree.HasMalformed name literal) (hc : tree.Reachable c)
    {options : CheckOptions} {levels : Nat} (h : tree.checkWithin options levels c = .ok ()) :
    tree.inlined.checkWithin options levels c = .ok () := by
  -- induction on the levels of the check
  induction levels generalizing c with
  | zero => cases h
  | succ levels ih =>
    rw [checkWithin, Except.check_bind_eq_ok_iff] at h ⊢
    refine ⟨checkDeclarations_inlined hlinked honce hliterals hc h.1, ?_⟩
    replace h := h.2
    cases hb : (tree.get c).body with
    | base automaton =>
      have hb' : (tree.inlined.get c).body = .base automaton := by
        rw [get_inlined, Component.inlined, hb]
      simp only [hb, Component.checkAutomaton_eq_ok_iff] at h
      simp only [hb', Component.checkAutomaton_eq_ok_iff]
      exact h.congr (by rw [get_inlined]; rfl) (keys_constants_inlined hlinked honce hc)
        (by rw [get_inlined]; rfl)
    -- every entry is checked by itself, and each of its three checks carries over
    | network children =>
      have hchildren := Component.children_of_network hb
      have hb' : (tree.inlined.get c).body = .network (children.mapValues Instance.inlined) := by
        rw [get_inlined, Component.inlined, hb]
      have hempty : (children.mapValues Instance.inlined).isEmpty = children.isEmpty := by
        rw [NameMap.isEmpty, NameMap.isEmpty, NameMap.mapValues, List.isEmpty_map]
      simp only [hb, Except.guard_bind_eq_ok_iff, List.forM_eq_ok_iff,
        Except.check_bind_eq_ok_iff] at h
      simp only [hb', hempty, Except.guard_bind_eq_ok_iff, List.forM_eq_ok_iff,
        Except.check_bind_eq_ok_iff]
      refine ⟨h.1, fun entry he => ?_⟩
      obtain ⟨own, ho, rfl⟩ := List.mem_map.1 he
      obtain ⟨hinst, hbelow, hname⟩ := h.2 own ho
      rw [← hchildren] at ho
      have hchild : tree.Reachable own.2.child := hc.child ho
      refine ⟨checkInstance_inlined hlinked honce hc ho hinst, ih hchild hbelow, ?_⟩
      have hdeclared : (tree.inlined.get own.2.inlined.child).instanceName =
          (tree.get own.2.child).instanceName := by
        rw [get_inlined]
        rfl
      rw [hdeclared]
      exact hname

/-- A tree that passes a check passes it in `inlined`. -/
theorem check_inlined (hlinked : tree.Linked) (honce : tree.BindsConstantsOnce)
    (hliterals : ∀ name literal, ¬ tree.HasMalformed name literal) {options : CheckOptions}
    (h : tree.check options = .ok ()) : tree.inlined.check options = .ok () := by
  rw [check, checkComponent] at h ⊢
  cases henabled : options.enabled with
  | false => rfl
  | true =>
    rw [henabled, if_pos rfl] at h
    rw [if_pos rfl, size_inlined]
    exact checkWithin_inlined hlinked honce hliterals tree.reachable_root h

end

end HybridAutomata.Tree
