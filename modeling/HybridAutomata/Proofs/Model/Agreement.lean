import HybridAutomata.Proofs.Model.Queries
import HybridAutomata.Proofs.Tree.Agreement
import HybridAutomata.Proofs.Tree.Climb
/-!
# Equal models are checked alike

Two models that compare as equal may differ in their arenas and in the order of instances, names and
conditions. If their links are consistent then the check accepts both of them or none, with one
proviso: the modes that conditions are given for have to exist in both. A path to a mode does not
depend on the order of instances, but a list of modes, one for each automaton, does.

* `agreement_of_beq`                     models that compare as equal agree
* `Agreement.check`                      the check accepts models that agree alike
* `equal_models_are_equally_valid`       all together
-/

namespace HybridAutomata

variable {κ : Type}

namespace Model

/-- Two models whose trees agree, with conditions for the same modes that mention the same names,
the same plot variables, and checked to the same extent. -/
structure Agreement (left right : Model κ) : Prop where
  tree : left.tree.Agreement right.tree
  states : ∀ states, (left.states states).Related Expr.MentionsAlike (right.states states)
  plotX : left.settings.plotX = right.settings.plotX
  plotY : left.settings.plotY = right.settings.plotY
  checks : left.checks = right.checks

/-- `Model.beq` of linked models gives their `Agreement`: expressions are known by their names only,
numbers not at all. -/
theorem agreement_of_beq [Scalar κ] {left right : Model κ} (h : (left == right) = true)
    (hl : left.tree.Linked) (hr : right.tree.Linked) : left.Agreement right := by
  replace h : left.beq right = true := h
  simp only [beq, Bool.and_eq_true] at h
  obtain ⟨⟨⟨⟨htree, hinitial⟩, hforbidden⟩, hsettings⟩, hchecks⟩ := h
  have hmentions {map map' : NameMap (Expr κ)} (h : (map == map') = true) :
      map.Related Expr.MentionsAlike map' :=
    NameMap.related_of_same h fun _ _ => Expr.mem_vars_of_beq
  -- settings are compared in the fields that are checked, and in the choice of the tool
  replace hsettings : (left.settings.plotX == right.settings.plotX &&
    left.settings.plotY == right.settings.plotY &&
    left.settings.tool == right.settings.tool) = true := hsettings
  simp only [Bool.and_eq_true, beq_iff_eq] at hsettings
  exact {
    tree := Tree.agreement_of_same htree hl hr
    states := fun states => by
      cases states with
      | initial => exact hmentions hinitial
      | forbidden => exact hmentions hforbidden
    plotX := hsettings.1.1
    plotY := hsettings.1.2
    checks := eq_of_beq hchecks }

/-- The modes that conditions are given for exist alike in two models. -/
def SameModes (left right : Model κ) : Prop :=
  ∀ states, ∀ mode ∈ (left.states states).keys,
    left.tree.modeExists left.tree.root mode = right.tree.modeExists right.tree.root mode

namespace Agreement

variable {left right : Model κ}

/-- `Agreement` is symmetric part by part. -/
theorem symm (h : left.Agreement right) : right.Agreement left where
  tree := h.tree.symm
  states states := (h.states states).symm.mono fun _ _ hvars name => (hvars name).symm
  plotX := h.plotX.symm
  plotY := h.plotY.symm
  checks := h.checks.symm

/-- `SameModes` may be read from either side, since the conditions are given for the same modes. -/
theorem sameModes_symm (h : left.Agreement right) (hmodes : left.SameModes right) :
    right.SameModes left := fun states mode hm =>
  (hmodes states mode ((h.states states).mem_keys_iff.2 hm)).symm

/-- `Agreement` of models relates their roots, which correspond as the ends of the empty path. -/
theorem root (h : left.Agreement right) :
    left.tree.rootComponent.Alike right.tree.rootComponent :=
  h.tree.alike _ _ (Tree.counterparts_root left.tree right.tree)

/-- `Fits` is carried over where the modes exist: conditions and settings are about the names that
there are, and those are the same. -/
theorem fits (h : left.Agreement right)
    (hmodes : ∀ states, ∀ mode ∈ (right.states states).keys,
      right.tree.modeExists right.tree.root mode = true)
    {vars : List String} (hfits : left.Fits vars) : ∃ vars', right.Fits vars' := by
  -- the variables of the other model are listed in another order, so both lists are compared by
  -- membership
  obtain ⟨vars', hlisted⟩ := h.tree.linked'.exists_allVariables right.tree.reachable_root
  have hvars {name : String} : name ∈ vars ↔ name ∈ vars' := by
    rw [h.tree.linked.mem_allVariables_iff hfits.listed,
      h.tree.linked'.mem_allVariables_iff hlisted,
      h.tree.isVariable_iff]
  have hconstants {name : String} :
      name ∈ left.allConstants.keys ↔ name ∈ right.allConstants.keys := by
    rw [allConstants, allConstants, h.tree.linked.mem_keys_allConstants_iff,
      h.tree.linked'.mem_keys_allConstants_iff, h.tree.isConstant_iff]
  refine ⟨vars', {
    listed := hlisted
    nonempty := (h.states .initial).isEmpty_eq ▸ hfits.nonempty
    modes := fun states entry he => hmodes states entry.1 (NameMap.mem_keys_of_mem he)
    names := fun states entry he name hn => ?_
    settings := ?_
    dots := fun hnetwork states mode hm => ?_ }⟩
  -- the condition for the same mode mentions the same names
  · obtain ⟨condition, hc, hmentions⟩ := (h.states states).symm.exists_right he
    rw [← hvars, ← hconstants]
    exact hfits.names states _ hc name ((hmentions name).2 hn)
  · have hsettings := hfits.settings
    rw [Settings.check_eq_ok_iff, Settings.plotVariables, h.plotX, h.plotY] at hsettings
    rw [Settings.check_eq_ok_iff]
    -- there is nothing to plot in one model just if there is nothing in the other
    refine ⟨fun name hn => hvars.1 (hsettings.1 name hn), hsettings.2.imp_left fun hnil => ?_⟩
    exact List.eq_nil_iff_forall_not_mem.2 fun name hn => by
      have hmem := hvars.2 hn
      rw [hnil] at hmem
      cases hmem
  · rw [Component.isNetwork, ← h.root.isBase_eq] at hnetwork
    exact hfits.dots hnetwork states mode ((h.states states).mem_keys_iff.2 hm)

/-- `check` accepts models in `Agreement` alike, if the modes exist alike that conditions are given
for. -/
theorem check (h : left.Agreement right) (hmodes : left.SameModes right)
    (hcheck : left.check = .ok ()) : right.check = .ok () := by
  -- a check that is off accepts everything
  cases henabled : right.checks.enabled with
  | false => simp [Model.check, henabled]
  | true =>
    have henabled' : left.checks.enabled = true := h.checks ▸ henabled
    rw [check_eq_ok_iff_of_enabled henabled'] at hcheck
    obtain ⟨-, htree, vars, hfits⟩ := hcheck
    rw [check_eq_ok_iff_of_enabled henabled]
    refine ⟨⟨h.tree.linked'.rootName, h.tree.linked'.rootParent⟩, h.tree.check (h.checks ▸ htree),
      h.fits (fun states mode hm => ?_) hfits⟩
    have hm' := (h.states states).mem_keys_iff.2 hm
    obtain ⟨condition, hc⟩ := NameMap.mem_keys_iff.1 hm'
    rw [← hmodes states mode hm']
    exact hfits.modes states _ (NameMap.get?_eq_some_iff.1 hc)

/-- `check` accepts both models in `Agreement` or none, if the modes exist alike. -/
theorem check_iff (h : left.Agreement right) (hmodes : left.SameModes right) :
    left.check = .ok () ↔ right.check = .ok () :=
  ⟨h.check hmodes, h.symm.check (h.sameModes_symm hmodes)⟩

end Agreement

/-- `modeExists` for all conditions of a model that passes an enabled check. -/
theorem modeExists_of_check {model : Model κ} (henabled : model.checks.enabled = true)
    (hcheck : model.check = .ok ()) (states : StateSet) {mode : String}
    (hm : mode ∈ (model.states states).keys) :
    model.tree.modeExists model.tree.root mode = true := by
  obtain ⟨-, -, vars, hfits⟩ := (check_eq_ok_iff_of_enabled henabled).1 hcheck
  obtain ⟨condition, hc⟩ := NameMap.mem_keys_iff.1 hm
  exact hfits.modes states _ (NameMap.get?_eq_some_iff.1 hc)

end Model

/-- Of two models that compare as equal, the check accepts both or none, provided that the modes
exist alike that conditions are given for. If anything is checked at all and both are accepted, they
do exist alike. They do so if all of them are spelled by their paths, or if the instances of all
networks come in the same order. -/
theorem equal_models_are_equally_valid [Scalar κ] (left right : Model κ)
    (h : (left == right) = true) (hl : left.tree.Linked) (hr : right.tree.Linked) :
    (left.SameModes right → (left.check = .ok () ↔ right.check = .ok ())) ∧
    (left.checks.enabled = true → left.check = .ok () → right.check = .ok () →
      left.SameModes right) ∧
    ((∀ states, ∀ mode ∈ (left.states states).keys,
        left.tree.hasModePath left.tree.root mode = true) → left.SameModes right) ∧
    (left.tree.SameOrder right.tree → left.SameModes right) := by
  have hagree := Model.agreement_of_beq h hl hr
  have hroot := Tree.counterparts_root left.tree right.tree
  -- modes that exist in both, modes spelled by paths, and instances in the same order
  refine ⟨hagree.check_iff, fun henabled hcheck hcheck' states mode hm => ?_,
    fun hpaths states mode hm => ?_,
    fun horder states mode _ => hagree.tree.modeExists_eq horder mode⟩
  · rw [Model.modeExists_of_check henabled hcheck states hm,
      Model.modeExists_of_check (hagree.checks ▸ henabled) hcheck' states
        ((hagree.states states).mem_keys_iff.1 hm)]
  · have hpath := hpaths states mode hm
    rw [Tree.modeExists, Tree.modeExists, ← hagree.tree.hasModePath_eq hroot, hpath, Bool.or_true,
      Bool.or_true]

/-- The clock and the lamp, with the lamp before the clock. -/
def lampAndClock : Model Int :=
  { clockAndLamp with
    tree := clockAndLamp.tree.modify ⟨1⟩ fun box =>
      box.mapChildren fun children => .ofList children.entries.reverse }

/-- The conditions that are given for modes spelled by their paths. -/
def withPaths (model : Model Int) : Model Int :=
  { model with initial := model.initial.filter fun mode _ =>
      model.tree.hasModePath model.tree.root mode }

/-- A list of modes follows the order of the instances, so it does not exist alike in equal models.
-/
theorem equal_models_have_different_mode_lists :
    clockAndLamp.tree.AllLinked ∧ lampAndClock.tree.AllLinked ∧
      (clockAndLamp == lampAndClock) = true ∧ clockAndLamp.check = .ok () ∧
      lampAndClock.check.isOk = false := by
  exact ⟨.of_arena (by decide) (by decide) (by decide +kernel),
    .of_arena (by decide) (by decide) (by decide +kernel), by decide +kernel,
    Except.eq_ok_of_isOk (by decide +kernel), by decide +kernel⟩

/-- With paths only, the order of the clock and the lamp does not matter. -/
theorem lampAndClock_with_paths_is_valid :
    (withPaths clockAndLamp == withPaths lampAndClock) = true ∧
      (withPaths clockAndLamp).tree.Linked ∧ (withPaths lampAndClock).tree.Linked ∧
      (withPaths clockAndLamp).check = .ok () ∧ (withPaths lampAndClock).check = .ok () := by
  have hl : (withPaths clockAndLamp).tree.Linked :=
    (Tree.AllLinked.of_arena (by decide) (by decide) (by decide +kernel)).linked
  have hr : (withPaths lampAndClock).tree.Linked :=
    (Tree.AllLinked.of_arena (by decide) (by decide) (by decide +kernel)).linked
  have heq : (withPaths clockAndLamp == withPaths lampAndClock) = true := by decide +kernel
  have hcheck : (withPaths clockAndLamp).check = .ok () := Except.eq_ok_of_isOk (by decide +kernel)
  obtain ⟨hvalid, -, hpaths, -⟩ := equal_models_are_equally_valid _ _ heq hl hr
  -- the second model has the modes of the first one, in its own order
  have hmodes : (withPaths clockAndLamp).SameModes (withPaths lampAndClock) :=
    hpaths fun states => by cases states <;> decide +kernel
  exact ⟨heq, hl, hr, hcheck, (hvalid hmodes).1 hcheck⟩

end HybridAutomata
