import HybridAutomata.Proofs.Component.Alike
import HybridAutomata.Proofs.Tree.Check
import HybridAutomata.Proofs.Tree.Variables
import HybridAutomata.Tree.Modes
/-!
# Trees that agree

Two trees agree if the same ways lead down from their roots and the components at the ends of each
way are alike. Handles, components that are not reachable, and the order of instances may differ.
Names are then resolved alike, and checks end alike; only mode lists depend on the order of the
instances.

* `agreement_of_same`                trees that compare as equal agree
* `Agreement.variableName_eq`        variables have the same global names
* `Agreement.exists_constantValue`   constants have values alike
* `Agreement.check`                  checks accept alike
* `Agreement.modeExists_eq`          modes exist alike, if instances come in the same order
-/

namespace HybridAutomata.Tree

variable {κ : Type}

/-- The same way leads to both components. -/
def Counterparts (left right : Tree κ) (c d : Handle) : Prop :=
  ∃ names, left.follow left.root names = some c ∧ right.follow right.root names = some d

/-- Trees with consistent links whose components at the same places are alike. -/
structure Agreement (left right : Tree κ) : Prop where
  linked : left.Linked
  linked' : right.Linked
  alike : ∀ c d, left.Counterparts right c d → (left.get c).Alike (right.get d)

/-- The instances of networks at the same places come in the same order. -/
def SameOrder (left right : Tree κ) : Prop :=
  ∀ c d, left.Counterparts right c d → (left.get c).children.keys = (right.get d).children.keys

/-! ## Comparison -/

section

variable [Scalar κ] {left right : Tree κ} {c d : Handle} {levels : Nat}

/-- Components that compare as equal by `sameWithin` are `Alike`. -/
theorem alike_of_sameWithin (h : left.sameWithin right levels c d = true) :
    (left.get c).Alike (right.get d) := by
  cases levels with
  | zero => cases h
  | succ levels =>
    rw [sameWithin, Bool.and_eq_true] at h
    -- the declarations agree by name, and the bodies by what they are made of
    obtain ⟨hdeclared, hbody⟩ := h
    simp only [Component.sameDeclarations, Bool.and_eq_true, beq_iff_eq] at hdeclared
    obtain ⟨⟨⟨⟨hname, hvars⟩, hconstants⟩, hlabels⟩, -⟩ := hdeclared
    refine ⟨hname, hvars, hlabels, NameMap.related_of_same hconstants fun own own' ho => ?_, ?_⟩
    · cases own <;> cases own' <;> first | rfl | cases ho
    · revert hbody
      -- an automaton is never compared with a network
      cases (left.get c).body <;> cases (right.get d).body <;> intro hbody
      · exact .base (Automaton.alike_of_beq hbody)
      · cases hbody
      · cases hbody
      · refine .network (NameMap.related_of_same hbody fun inst inst' hinst kind => ?_)
        rw [Bool.and_eq_true] at hinst
        have hbindings := hinst.1
        simp only [Instance.sameBindings, Bool.and_eq_true, beq_iff_eq] at hbindings
        cases kind with
        | var => exact hbindings.1.1
        | const => exact hbindings.1.2
        | label => exact hbindings.2

/-- Components of instances of the same name compare as equal by `sameWithin`, with one level less.
-/
theorem sameWithin_child (h : left.sameWithin right (levels + 1) c d = true) {name : String}
    {inst inst' : Instance} (he : (name, inst) ∈ (left.get c).children.entries)
    (he' : (name, inst') ∈ (right.get d).children.entries) :
    left.sameWithin right levels inst.child inst'.child = true := by
  rw [sameWithin, Bool.and_eq_true] at h
  replace h := h.2
  rw [Component.children, Component.network?] at he he'
  revert h he he'
  -- both components are networks, since both have entries
  cases (left.get c).body <;> cases (right.get d).body <;> intro he he' h
  · cases he
  · cases he
  · cases he'
  · obtain ⟨inst'', he'', hsame⟩ := (NameMap.related_of_same
      (r := fun i j => i.sameBindings j = true ∧
        left.sameWithin right levels i.child j.child = true)
      h fun _ _ hinst => Bool.and_eq_true _ _ ▸ hinst).exists_right he
    rw [NameMap.value_unique he' he'']
    exact hsame.2

/-- Trees with consistent links that compare as equal are in `Agreement`. -/
theorem agreement_of_same (h : (left == right) = true) (hl : left.Linked) (hr : right.Linked) :
    left.Agreement right where
  linked := hl
  linked' := hr
  alike c d hcd := by
    obtain ⟨names, hc, hd⟩ := hcd
    -- down the way, what is left of the levels compares as equal
    have key (names : List String) {levels : Nat} {b b' : Handle}
        (hb : left.sameWithin right levels b b' = true) (hc : left.follow b names = some c)
        (hd : right.follow b' names = some d) : (left.get c).Alike (right.get d) := by
      induction names generalizing levels b b' with
      | nil =>
        cases hc
        cases hd
        exact alike_of_sameWithin hb
      | cons name rest ih =>
        obtain ⟨inst, he, hc⟩ := follow_cons_iff.1 hc
        obtain ⟨inst', he', hd⟩ := follow_cons_iff.1 hd
        cases levels with
        | zero => cases hb
        | succ levels => exact ih (sameWithin_child hb he he') hc hd
    exact key names h hc hd

end

/-! ## Places -/

theorem counterparts_root (left right : Tree κ) :
    left.Counterparts right left.root right.root := ⟨[], rfl, rfl⟩

/-- `Counterparts` are reachable. -/
theorem Counterparts.reachable {left right : Tree κ} {c d : Handle}
    (h : left.Counterparts right c d) : left.Reachable c ∧ right.Reachable d := by
  obtain ⟨names, hc, hd⟩ := h
  exact ⟨⟨names, hc⟩, ⟨names, hd⟩⟩

/-- `Counterparts` are so the other way round. -/
theorem Counterparts.symm {left right : Tree κ} {c d : Handle} (h : left.Counterparts right c d) :
    right.Counterparts left d c := by
  obtain ⟨names, hc, hd⟩ := h
  exact ⟨names, hd, hc⟩

namespace Agreement

variable {left right : Tree κ} {b c d e : Handle} {name last : String} {kind : NameKind}
    {steps : Nat}

/-- `Agreement` holds the other way round. -/
theorem symm (h : left.Agreement right) : right.Agreement left where
  linked := h.linked'
  linked' := h.linked
  alike c d hcd := (h.alike d c hcd.symm).symm

/-- In trees in `Agreement`, every instance has one of the same name in the counterpart of its
network. -/
theorem exists_child (h : left.Agreement right) (hcd : left.Counterparts right c d)
    {inst : Instance} (he : (name, inst) ∈ (left.get c).children.entries) :
    ∃ inst', (name, inst') ∈ (right.get d).children.entries ∧ inst.BindsAlike inst' ∧
      left.Counterparts right inst.child inst'.child := by
  obtain ⟨inst', he', hbinds⟩ := (h.alike c d hcd).children.exists_right he
  obtain ⟨names, hc, hd⟩ := hcd
  exact ⟨inst', he', hbinds, names ++ [name], follow_concat_iff.2 ⟨c, inst, hc, he, rfl⟩,
    follow_concat_iff.2 ⟨d, inst', hd, he', rfl⟩⟩

/-- In trees in `Agreement`, instances of the same name lead to `Counterparts`. -/
theorem counterparts_child (h : left.Agreement right) (hcd : left.Counterparts right c d)
    {inst inst' : Instance} (he : (name, inst) ∈ (left.get c).children.entries)
    (he' : (name, inst') ∈ (right.get d).children.entries) :
    inst.BindsAlike inst' ∧ left.Counterparts right inst.child inst'.child := by
  obtain ⟨inst'', he'', hchild⟩ := h.exists_child hcd he
  rwa [NameMap.value_unique he' he'']

/-- In trees in `Agreement`, every reachable component has a counterpart. -/
theorem exists_counterpart (h : left.Agreement right) (hc : left.Reachable c) :
    ∃ d, left.Counterparts right c d := by
  refine Reachable.induction ⟨right.root, counterparts_root left right⟩ ?_ hc
  rintro b hb ⟨d, hbd⟩ ⟨name, inst⟩ he
  obtain ⟨inst', -, -, hchild⟩ := h.exists_child hbd he
  exact ⟨inst'.child, hchild⟩

/-- `Counterparts` lie on the same `path`. -/
theorem path_eq (h : left.Agreement right) (hcd : left.Counterparts right c d) :
    left.path c = right.path d := by
  obtain ⟨names, hc, hd⟩ := hcd
  rw [h.linked.path_eq hc, h.linked'.path_eq hd]

/-- `Counterparts` both have a parent or both have none. -/
theorem parent_eq_none_iff (h : left.Agreement right) (hcd : left.Counterparts right c d) :
    (left.get c).parent = none ↔ (right.get d).parent = none := by
  obtain ⟨names, hc, hd⟩ := hcd
  rw [h.linked.parent_eq_none_iff hc, h.linked'.parent_eq_none_iff hd]

/-- `Counterparts` are the roots, or placed in counterparts by instances that bind alike. -/
theorem instance?_cases (h : left.Agreement right) (hcd : left.Counterparts right c d) :
    (left.instance? c = none ∧ right.instance? d = none) ∨
      ∃ inst inst', left.instance? c = some inst ∧ right.instance? d = some inst' ∧
        inst.BindsAlike inst' ∧ left.Counterparts right inst.parent inst'.parent := by
  obtain ⟨names, hc, hd⟩ := hcd
  -- the way to both is empty, or it ends with an instance of the same name in counterparts
  rcases List.eq_nil_or_concat names with rfl | ⟨front, last, he⟩
  · obtain rfl := Option.some.inj hc
    obtain rfl := Option.some.inj hd
    exact .inl ⟨instance?_of_parent_eq_none h.linked.rootParent,
      instance?_of_parent_eq_none h.linked'.rootParent⟩
  · rw [List.concat_eq_append] at he
    subst he
    obtain ⟨b, inst, hb, he, rfl, hlink⟩ := h.linked.exists_link hc
    obtain ⟨b', inst', hb', he', rfl, hlink'⟩ := h.linked'.exists_link hd
    have hbb : left.Counterparts right b b' := ⟨front, hb, hb'⟩
    refine .inr ⟨inst, inst', hlink.instance?_eq he, hlink'.instance?_eq he',
      (h.counterparts_child hbb he he').1, ?_⟩
    rw [hlink.parent, hlink'.parent]
    exact hbb

/-! ## Names -/

/-- A name of `Counterparts` is bound alike. -/
theorem isFree_iff (h : left.Agreement right) (hcd : left.Counterparts right c d) :
    left.IsFree kind c name ↔ right.IsFree kind d name := by
  rw [IsFree, IsFree]
  rcases h.instance?_cases hcd with ⟨hl, hr⟩ | ⟨inst, inst', hl, hr, hbinds, -⟩
  · rw [hl, hr]
  · rw [hl, hr, Option.bind_some, Option.bind_some, hbinds.outerName?_eq]

/-- A `Chain` of bindings goes the same way in trees in `Agreement`. -/
theorem chain (h : left.Agreement right) (hcd : left.Counterparts right c d)
    (hchain : left.Chain kind c name steps e last) :
    ∃ e', right.Chain kind d name steps e' last ∧ left.Counterparts right e e' := by
  -- induction along the chain, which has its counterpart step by step
  induction hchain generalizing d with
  | free hfree => exact ⟨d, .free ((h.isFree_iff hcd).1 hfree), hcd⟩
  | bound hinst houter _ ih =>
    rcases h.instance?_cases hcd with ⟨hl, -⟩ | ⟨inst, inst', hl, hr, hbinds, hparent⟩
    · cases hinst.symm.trans hl
    · obtain rfl := Option.some.inj (hinst.symm.trans hl)
      obtain ⟨e', hrest, hee⟩ := ih hparent
      exact ⟨e', .bound hr (hbinds.outerName?_eq kind _ ▸ houter) hrest, hee⟩

/-- `Counterparts` give variables the same global names. -/
theorem variableName_eq (h : left.Agreement right) (hcd : left.Counterparts right c d)
    (name : String) : left.variableName c name = right.variableName d name := by
  obtain ⟨hc, hd⟩ := hcd.reachable
  obtain ⟨steps, e, last, hchain, -⟩ := h.linked.exists_chain hc .var name
  obtain ⟨e', hchain', hee⟩ := h.chain hcd hchain
  have hparent : (left.get e).parent.isNone = (right.get e').parent.isNone := by
    rw [Bool.eq_iff_iff, Option.isNone_iff_eq_none, Option.isNone_iff_eq_none]
    exact h.parent_eq_none_iff hee
  rw [h.linked.variableName_eq hc ⟨steps, hchain⟩, h.linked'.variableName_eq hd ⟨steps, hchain'⟩,
    freeName, freeName, hparent, h.path_eq hee]

/-- Along corresponding chains, `constantWithin` finds values alike. -/
theorem exists_constantWithin (h : left.Agreement right) (hcd : left.Counterparts right c d)
    (hchain : left.Chain .const c name steps e last) {bound bound' : Nat} (hb : steps ≤ bound)
    (hb' : steps ≤ bound') (hv : ∃ value, left.constantWithin bound c name = .ok value) :
    ∃ value, right.constantWithin bound' d name = .ok value := by
  obtain ⟨value, hv⟩ := hv
  -- by induction on the chain: its end decides, and each binding before uses up a step on both
  -- sides
  induction hchain generalizing d bound bound' with
  | @free c name hfree =>
    obtain ⟨hc, hd⟩ := hcd.reachable
    rw [constantWithin_of_free (h.linked.outer?_of_isFree hc hfree)] at hv
    rw [constantWithin_of_free (h.linked'.outer?_of_isFree hd ((h.isFree_iff hcd).1 hfree))]
    rcases (h.alike c d hcd).constant_cases name with ⟨hl, hr⟩ | ⟨hl, hr⟩ | ⟨own, own', hl, hr⟩
    · rw [hl] at hv
      cases hv
    · rw [hl] at hv
      cases hv
    · rw [hr]
      exact ⟨own', rfl⟩
  | @bound c e name outer last inst steps hinst houter _ ih =>
    obtain ⟨hc, hd⟩ := hcd.reachable
    rcases h.instance?_cases hcd with ⟨hi, -⟩ | ⟨inst', inst'', hi, hi', hbinds, hparent⟩
    · cases hinst.symm.trans hi
    obtain rfl := Option.some.inj (hinst.symm.trans hi)
    have houter' := hbinds.outerName?_eq .const name ▸ houter
    obtain ⟨rest, rfl⟩ := Nat.exists_eq_add_of_lt hb
    obtain ⟨rest', rfl⟩ := Nat.exists_eq_add_of_lt hb'
    rw [constantWithin_of_bound (h.linked.outer?_of_bound hc hinst houter)] at hv
    rw [constantWithin_of_bound (h.linked'.outer?_of_bound hd hi' houter')]
    rcases (h.alike c d hcd).constant_cases name with ⟨hl, hr⟩ | ⟨hl, hr⟩ | ⟨own, own', hl, hr⟩
    · rw [hl] at hv
      cases hv
    · rw [hl] at hv
      rw [hr]
      exact ih hparent (Nat.le_add_right ..) (Nat.le_add_right ..) hv
    · rw [hl] at hv
      cases hv

/-- `Counterparts` have values for their constants alike. -/
theorem exists_constantValue (h : left.Agreement right) (hcd : left.Counterparts right c d)
    (hv : ∃ value, left.constantValue c name = .ok value) :
    ∃ value, right.constantValue d name = .ok value := by
  obtain ⟨hc, hd⟩ := hcd.reachable
  obtain ⟨steps, e, last, hchain, hsteps⟩ := h.linked.exists_chain hc .const name
  obtain ⟨steps', e', last', hchain', hsteps'⟩ := h.linked'.exists_chain hd .const name
  obtain ⟨_, hother, -⟩ := h.chain hcd hchain
  obtain ⟨rfl, -⟩ := hchain'.unique hother
  exact h.exists_constantWithin hcd hchain hsteps hsteps' hv

/-! ## Checks -/

/-- `checkLinks` accepts `Counterparts` alike. -/
theorem checkLinks (h : left.Agreement right) (hcd : left.Counterparts right c d)
    (hcheck : (left.get c).checkLinks = .ok ()) : (right.get d).checkLinks = .ok () := by
  have hparent : (left.get c).parent.isSome = (right.get d).parent.isSome := by
    rw [Bool.eq_iff_iff, ← Option.ne_none_iff_isSome, ← Option.ne_none_iff_isSome, Ne, Ne,
      h.parent_eq_none_iff hcd]
  rw [Component.checkLinks_eq_ok_iff] at hcheck ⊢
  rwa [← (h.alike c d hcd).instanceName, ← hparent]

/-- `checkDeclarations` accepts `Counterparts` alike. -/
theorem checkDeclarations (h : left.Agreement right) (hcd : left.Counterparts right c d)
    {options : CheckOptions} (hcheck : left.checkDeclarations options c = .ok ()) :
    right.checkDeclarations options d = .ok () := by
  have halike := h.alike c d hcd
  rw [Tree.checkDeclarations, Except.check_bind_eq_ok_iff, Except.check_bind_eq_ok_iff] at hcheck ⊢
  obtain ⟨hlinks, hnames, hvalues⟩ := hcheck
  refine ⟨h.checkLinks hcd hlinks, ?_, ?_⟩
  -- the names agree because the declarations do
  · rw [← halike.displayName_eq]
    exact halike.checkNames hnames
  · cases hoption : options.constants with
    | false => rfl
    | true =>
      rw [hoption, if_pos rfl, List.forM_eq_ok_iff] at hvalues
      rw [if_pos rfl, List.forM_eq_ok_iff]
      -- a constant with a value on the left has one on the right
      intro name hn
      have hvalue := hvalues name (halike.constants.mem_keys_iff.2 hn)
      have hleft : ∃ value, left.constantValue c name = .ok value := by
        cases hv : left.constantValue c name with
        | ok value => exact ⟨value, rfl⟩
        | error cause =>
          rw [hv] at hvalue
          cases hvalue
      obtain ⟨value, hright⟩ := h.exists_constantValue hcd hleft
      rw [hright]

/-- `checkInstance` ends alike for instances of the same name. -/
theorem checkInstance_eq (h : left.Agreement right) (hcd : left.Counterparts right c d)
    {inst inst' : Instance} (he : (name, inst) ∈ (left.get c).children.entries)
    (he' : (name, inst') ∈ (right.get d).children.entries) (options : CheckOptions) :
    left.checkInstance options c inst = right.checkInstance options d inst' := by
  obtain ⟨hc, hd⟩ := hcd.reachable
  obtain ⟨hbinds, hchild⟩ := h.counterparts_child hcd he he'
  have hlink : left.LinkOk c name inst := h.linked.link c hc _ he
  have hlink' : right.LinkOk d name inst' := h.linked'.link d hd _ he'
  have halike := h.alike c d hcd
  -- the links are consistent, so the bindings are what is left
  rw [checkInstance, checkInstance]
  simp only [hlink.parent, hlink.childParent, hlink'.parent, hlink'.childParent, ne_eq,
    not_true_eq_false, or_self, if_false, hbinds _, halike.declares_eq, halike.displayName_eq,
    (h.alike _ _ hchild).declares_eq]

/-- What `checkWithin` accepts on one side, it accepts on the other, given levels enough. -/
theorem checkWithin (h : left.Agreement right) {options : CheckOptions} {levels levels' : Nat}
    (hcd : left.Counterparts right c d) (hl' : right.Covers levels' d)
    (hcheck : left.checkWithin options levels c = .ok ()) :
    right.checkWithin options levels' d = .ok () := by
  -- by induction on the levels of the other side, which cover what is below
  induction levels' generalizing levels c d with
  | zero => exact absurd hl' (not_covers_zero right d)
  | succ levels' ih =>
    cases levels with
    | zero => cases hcheck
    | succ levels =>
      rw [Tree.checkWithin, Except.check_bind_eq_ok_iff] at hcheck ⊢
      refine ⟨h.checkDeclarations hcd hcheck.1, ?_⟩
      replace hcheck := hcheck.2
      have halike := h.alike c d hcd
      rcases halike.body_cases with ⟨automaton, automaton', hb, hb', hautomata⟩ |
        ⟨children, children', hb, hb', hrelated⟩
      · simp only [hb, hb', Component.checkAutomaton_eq_ok_iff, Component.automatonOk_iff]
          at hcheck ⊢
        exact halike.wellBehaved hautomata hcheck
      · have hchildren := Component.children_of_network hb
        have hchildren' := Component.children_of_network hb'
        simp only [hb, hb', Except.guard_bind_eq_ok_iff, List.forM_eq_ok_iff,
          Except.check_bind_eq_ok_iff, hrelated.isEmpty_eq] at hcheck ⊢
        refine ⟨hcheck.1, fun entry he' => ?_⟩
        obtain ⟨name, inst'⟩ := entry
        obtain ⟨inst, he, -⟩ := hrelated.symm.exists_right he'
        obtain ⟨hinst, hbelow, hname⟩ := hcheck.2 _ he
        rw [← hchildren] at he
        rw [← hchildren'] at he'
        have hchild := (h.counterparts_child hcd he he').2
        refine ⟨h.checkInstance_eq hcd he he' options ▸ hinst,
          ih hchild (hl'.child he') hbelow, ?_⟩
        rw [← (h.alike _ _ hchild).instanceName]
        exact hname

/-- `check` accepts trees in `Agreement` alike. -/
theorem check (h : left.Agreement right) {options : CheckOptions}
    (hcheck : left.check options = .ok ()) : right.check options = .ok () := by
  rw [Tree.check, checkComponent] at hcheck ⊢
  cases henabled : options.enabled with
  | false => rfl
  | true =>
    rw [henabled, if_pos rfl] at hcheck
    rw [if_pos rfl]
    exact h.checkWithin (counterparts_root left right)
      (h.linked'.covers right.reachable_root) hcheck

/-! ## Lists -/

/-- Trees in `Agreement` list the same variables. -/
theorem isVariable_iff (h : left.Agreement right) {listed : String} :
    left.IsVariable listed ↔ right.IsVariable listed := by
  have key {left right : Tree κ} (h : left.Agreement right) (hl : left.IsVariable listed) :
      right.IsVariable listed := by
    obtain ⟨c, hc, hbase, name, hname, hv⟩ := hl
    obtain ⟨d, hcd⟩ := h.exists_counterpart hc
    have halike := h.alike c d hcd
    exact ⟨d, hcd.reachable.2, halike.isBase_eq ▸ hbase, name, halike.vars ▸ hname,
      h.variableName_eq hcd name ▸ hv⟩
  exact ⟨key h, key h.symm⟩

/-- Trees in `Agreement` list the same constants. -/
theorem isConstant_iff (h : left.Agreement right) {listed : String} :
    left.IsConstant listed ↔ right.IsConstant listed := by
  have key {left right : Tree κ} (h : left.Agreement right) (hl : left.IsConstant listed) :
      right.IsConstant listed := by
    obtain ⟨c, hc, name, hname, hfree, rfl⟩ := hl
    obtain ⟨d, hcd⟩ := h.exists_counterpart hc
    exact ⟨d, hcd.reachable.2, name, (h.alike c d hcd).constants.mem_keys_iff.1 hname,
      (h.isFree_iff hcd).1 hfree, by rw [h.path_eq hcd]⟩
  exact ⟨key h, key h.symm⟩

/-! ## Modes -/

/-- In trees in `Agreement`, a path leads to a mode alike. -/
theorem hasModePath_eq (h : left.Agreement right) (hcd : left.Counterparts right c d)
    (mode : String) : left.hasModePath c mode = right.hasModePath d mode := by
  -- each step takes a name off the path
  induction hlength : mode.length using Nat.strongRecOn generalizing c d mode with
  | ind length ih =>
    rw [hasModePath, hasModePath]
    rcases (h.alike c d hcd).body_cases with ⟨automaton, automaton', hb, hb', hautomata⟩ |
      ⟨children, children', hb, hb', hrelated⟩
    · simp only [hb, hb', hautomata.modes.contains_eq]
    · simp only [hb, hb']
      split
      · rfl
      · next name rest hcut =>
        cases hi : children.get? name with
        | none =>
          have hi' : children'.get? name = none := by
            rw [NameMap.get?_eq_none_iff] at hi ⊢
            rwa [← hrelated.mem_keys_iff]
          simp only [hi']
        | some inst =>
          have he : (name, inst) ∈ (left.get c).children.entries := by
            rw [Component.children_of_network hb]
            exact NameMap.get?_eq_some_iff.1 hi
          obtain ⟨inst', he', -, hchild⟩ := h.exists_child hcd he
          have hi' : children'.get? name = some inst' := by
            rw [Component.children_of_network hb'] at he'
            exact NameMap.get?_eq_some_iff.2 he'
          simp only [hi']
          exact ih rest.length (hlength ▸ Text.length_lt_of_cut? hcut) hchild rest rfl

/-- In trees in `Agreement` and in the `SameOrder`, mode lists are read alike. -/
theorem takeModes_eq (h : left.Agreement right) (horder : left.SameOrder right)
    {levels levels' : Nat} (hcd : left.Counterparts right c d) (hl : left.Covers levels c)
    (hl' : right.Covers levels' d) (modes : String) :
    left.takeModes levels c modes = right.takeModes levels' d modes := by
  induction levels generalizing levels' c d modes with
  | zero => exact absurd hl (not_covers_zero left c)
  | succ levels ih =>
    cases levels' with
    | zero => exact absurd hl' (not_covers_zero right d)
    | succ levels' =>
      rw [takeModes, takeModes]
      -- both are automata with the same modes, or networks with instances in the same order
      rcases (h.alike c d hcd).body_cases with ⟨automaton, automaton', hb, hb', hautomata⟩ |
        ⟨children, children', hb, hb', -⟩
      · simp only [hb, hb', hautomata.modes.contains_eq]
      · have hkeys := horder c d hcd
        rw [Component.children_of_network hb, Component.children_of_network hb'] at hkeys
        simp only [hb, hb']
        refine List.foldlM_congr_of_forall₂
          (NameMap.forall₂_values hkeys fun name inst inst' he he' rest => ?_) modes
        rw [← Component.children_of_network hb] at he
        rw [← Component.children_of_network hb'] at he'
        exact ih (h.counterparts_child hcd he he').2 (hl.child he) (hl'.child he') rest

/-- In trees in `Agreement` and in the `SameOrder`, modes exist alike in either spelling. -/
theorem modeExists_eq (h : left.Agreement right) (horder : left.SameOrder right) (mode : String) :
    left.modeExists left.root mode = right.modeExists right.root mode := by
  have hroot := counterparts_root left right
  rw [modeExists, modeExists, h.hasModePath_eq hroot, h.takeModes_eq horder hroot
    (h.linked.covers left.reachable_root) (h.linked'.covers right.reachable_root)]

end Agreement

end HybridAutomata.Tree
