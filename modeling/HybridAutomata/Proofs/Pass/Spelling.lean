import HybridAutomata.Proofs.CopyInstance.Soundness
import HybridAutomata.Proofs.Rename.Result
/-!
# Names that are no identifiers

The passes that rename and copy make new names from their parameters. Neither of them looks at how
these names are spelled: a new name has to be free, but it need not be an identifier. So a name that
is none gets into the model, and only the check of the result finds it, when the model has been
changed already. A request for such a name is refused in time only if something else is wrong with
it.

* `Model.isIdentifier_of_mem_rootNames`   what the check of a model says about spelling
* `CopyInstance.Prepared.mem_rootNames`   the new names of copies get into the root
* `unspellable_names_are_refused_iff`     when such a request is refused in time
-/

namespace HybridAutomata

variable {κ : Type}

/-! ## New names -/

/-- The names that are declared in the root, and those of its instances. -/
def Model.rootNames (model : Model κ) : List String :=
  model.tree.rootComponent.declaredNames ++ model.tree.rootComponent.children.keys

/-- The names that a copy brings into the root: its own, and those to which it is bound. -/
def CopyInstance.Plan.newNames (plan : Plan) : List String :=
  plan.name :: (outerNames plan.vars ++ outerNames plan.labels)

/-- A run with the given parameters is going to introduce a name: renaming one that it chooses,
copying one of a copy that is asked for. -/
inductive Pass.Introduces (model : Model κ) (params : String) : Pass → String → Prop where
  | rename {pairs : List (String × String)} {old name : String}
    (hread : Pass.renameGrammar.read (Arguments.split params) = .ok pairs)
    (hchoice : (old, name) ∈
      Rename.choices model.tree.rootComponent.declaredNames ∅ pairs) :
    Introduces model params .rename name
  | copy {options : CopyInstance.Options} {prototype : Instance} {plan : CopyInstance.Plan}
    {inst name : String}
    (hread : Pass.copyGrammar.read (Arguments.split params) = .ok options)
    (hchosen : CopyInstance.chooseInstance (κ := κ)
      (CopyInstance.rootInstances model.tree).keys options.name = .ok inst)
    (hprototype : (CopyInstance.rootInstances model.tree).get? inst = some prototype)
    (hplan : plan ∈ CopyInstance.plans prototype inst options.stem options.count)
    (hname : name ∈ plan.newNames) :
    Introduces model params .copyInstance name

/-- `GivesUp` says that copying fails while it finds out what is to be done. -/
def Pass.GivesUp (pass : Pass) (model : Model κ) (params : String) : Prop :=
  pass = .copyInstance ∧ ∃ options cause,
    Pass.copyGrammar.read (Arguments.split params) = .ok options ∧
      CopyInstance.prepare model options = .error cause

/-- `copyInstance` gives up just if its `prepare` fails. -/
theorem Pass.givesUp_iff {model : Model κ} {params : String} {options : CopyInstance.Options}
    (hread : Pass.copyGrammar.read (Arguments.split params) = .ok options) :
    Pass.GivesUp .copyInstance model params ↔
      ∃ cause, CopyInstance.prepare model options = .error cause := by
  constructor
  · rintro ⟨-, options', cause, hread', hprepare⟩
    obtain rfl := Except.ok.inj (hread.symm.trans hread')
    exact ⟨cause, hprepare⟩
  · rintro ⟨cause, hprepare⟩
    exact ⟨rfl, options, cause, hread, hprepare⟩

/-- A computation is `RefusedOn` a workspace that it fails on without a change, and not because it
has spoiled the model. -/
def PassM.RefusedOn (m : PassM κ Unit) (w : Workspace κ) : Prop :=
  match m.runOn w with
  | (.error cause, w') => ¬ cause.IsCorruption ∧ w'.model = w.model
  | (.ok (), _) => False

/-! ## The names of the result -/

/-- The `newNames` of a copy that is made get into the root. -/
theorem CopyInstance.Prepared.mem_rootNames {model : Model κ} {options : Options}
    {prep : Preparation κ} (h : Prepared model options prep) {plan : Plan}
    (hplan : plan ∈ prep.copies) {name : String} (hname : name ∈ plan.newNames) :
    name ∈ (prep.result model).rootNames := by
  obtain ⟨children, hroot⟩ := h.exists_rootComponent_result
  have hvars : (prep.result model).tree.rootComponent.vars = prep.vars :=
    congrArg Component.vars hroot
  have hlabels : (prep.result model).tree.rootComponent.labels = prep.labels :=
    congrArg Component.labels hroot
  rcases List.mem_cons.1 hname with rfl | hname
  · -- the instance of a copy is called like its plan
    rw [h.copies_eq_map] at hplan
    obtain ⟨start, hs, rfl⟩ := List.mem_map.1 hplan
    obtain ⟨place, hp⟩ := h.exists_place hs
    exact List.mem_append_right _
      (NameMap.mem_keys_of_mem (h.mem_entries_iff.2 (.inr ⟨_, place, hp, rfl⟩)))
  · refine List.mem_append_left _ ?_
    rw [Component.declaredNames, hvars, hlabels, h.vars_eq, h.labels_eq]
    rcases List.mem_append.1 hname with hv | hl
    · exact List.mem_append_left _ (List.mem_append_left _
        (List.mem_append_right _ (List.mem_flatMap.2 ⟨plan, hplan, hv⟩)))
    · exact List.mem_append_right _
        (List.mem_append_right _ (List.mem_flatMap.2 ⟨plan, hplan, hl⟩))

/-- In a well-formed model the `rootNames` are identifiers. -/
theorem Model.isIdentifier_of_mem_rootNames {model : Model κ} (hchecks : model.checks = {})
    (hvalid : model.check = .ok ()) {name : String} (hname : name ∈ model.rootNames) :
    Text.isIdentifier name = true := by
  obtain ⟨vars, hrules⟩ := (Model.check_eq_ok_iff hchecks).1 hvalid
  have hroot := hrules.tree.nodeOk (Tree.follow_nil model.tree model.tree.root)
  rcases List.mem_append.1 hname with hdeclared | hchild
  · refine hroot.identifiers name (Tree.mem_checkedNames_iff.2 ?_)
    rw [Component.declaredNames, List.mem_append, List.mem_append, or_assoc] at hdeclared
    exact hdeclared.imp_right Or.symm
  · -- an instance is called like its component
    obtain ⟨entry, he, rfl⟩ := List.mem_map.1 hchild
    have hf : model.tree.follow model.tree.root [entry.1] = some entry.2.child :=
      Tree.follow_cons_iff.2 ⟨entry.2, he, rfl⟩
    exact hrules.tree.isIdentifier_of_follow hf List.mem_cons_self

/-- The check finds one of the `rootNames` that is no identifier. -/
theorem Pass.exists_outcomeOf_eq_corrupted (pass : Pass) {result : Model κ}
    (hchecks : result.checks = {}) {name : String} (hname : name ∈ result.rootNames)
    (hspelling : Text.isIdentifier name = false) :
    ∃ violation, pass.outcomeOf result = .error (.corrupted pass.name violation) := by
  cases hcheck : result.check with
  | error violation => exact ⟨violation, by rw [outcomeOf, hcheck]⟩
  | ok =>
    rw [Model.isIdentifier_of_mem_rootNames hchecks hcheck hname] at hspelling
    cases hspelling

/-- A run whose outcome is that of the check of its result was not `RefusedOn` the workspace. -/
theorem not_refusedOn_of_outcomeOf {m : PassM κ Unit} {w w' : Workspace κ} {pass : Pass}
    {result : Model κ} (hrun : m.runOn w = (pass.outcomeOf result, w')) : ¬ m.RefusedOn w := by
  rw [PassM.RefusedOn, hrun, Pass.outcomeOf]
  cases result.check with
  | ok => exact id
  | error violation => exact fun h => h.1 trivial

/-! ## Runs -/

variable [Scalar κ]

/-- What a run does that `Introduces` a name: unless it `GivesUp`, the check of its result decides,
and a copy has brought the name into the root. -/
theorem Pass.Introduces.cases_of_runOn {pass : Pass} {w w' : Workspace κ} {params name : String}
    {outcome : Except (PassError κ) Unit} (hnew : pass.Introduces w.model params name)
    (hrequired : pass.check w.model = .ok ())
    (hrun : (pass.run params).runOn w = (outcome, w')) :
    (pass.GivesUp w.model params ∧ w'.model = w.model ∧
        ∃ cause, outcome = .error cause ∧ ¬ cause.IsCorruption) ∨
      (¬ pass.GivesUp w.model params ∧ outcome = pass.outcomeOf w'.model ∧
        w'.model.checks = w.model.checks ∧
        (pass = .copyInstance → name ∈ w'.model.rootNames)) := by
  -- renaming cannot fail by itself, and copying fails in its preparation or not at all
  cases hnew with
  | rename hread hchoice =>
    have hflat : w.model.tree.isFlat = true := by
      rw [Pass.check_eq (by decide), Requirements.check_eq_ok_iff] at hrequired
      exact Requirements.checkOne_flat_iff.1 (hrequired .flat rfl)
    obtain ⟨houtcome, hmodel⟩ := Rename.eq_of_runOn hread hflat hrun
    refine .inr ⟨fun h => (nomatch h.1), ?_, ?_, fun h => (nomatch h)⟩
    · rw [hmodel, houtcome]
    · rw [hmodel]
      rfl
  | @copy options prototype plan inst _ hread hchosen hprototype hplan hname =>
    obtain ⟨herror, hnothing, hresult⟩ := CopyInstance.eq_of_prepare hrequired hread hrun
    cases hp : CopyInstance.prepare w.model options with
    | error cause =>
      obtain ⟨rfl, hmodel⟩ := herror cause hp
      exact .inl ⟨(givesUp_iff hread).2 ⟨cause, hp⟩, hmodel, cause, rfl,
        CopyInstance.harmless_prepare w.model options cause hp⟩
    | ok found =>
      have hgoes : ¬ GivesUp .copyInstance w.model params := by
        rw [givesUp_iff hread, hp]
        exact nofun
      rcases CopyInstance.prepare_eq_ok hp with ⟨hone, -⟩ | ⟨prep, rfl, hprep⟩
      · -- no copies are asked for, so there are no new names
        rw [hone] at hplan
        cases hplan
      · obtain ⟨rfl, hmodel⟩ := hresult prep hp
        obtain rfl : inst = prep.name := Except.ok.inj (hchosen.symm.trans hprep.chosen)
        obtain rfl : prototype = prep.prototype :=
          NameMap.value_unique (NameMap.get?_eq_some_iff.1 hprototype) hprep.prototype
        rw [← hprep.copies] at hplan
        refine .inr ⟨hgoes, ?_, ?_, fun _ => ?_⟩
        · rw [hmodel]
        · rw [hmodel]
          rfl
        · rw [hmodel]
          exact hprep.mem_rootNames hplan hname

/-- On a well-formed model that is acceptable to the pass, a run that is going to introduce a name
that is no identifier is refused just if copying gives up for another reason. Otherwise the name is
not refused: as soon as it has got into the root, and with copying it always has, the run fails
because it has spoiled the model. -/
theorem unspellable_names_are_refused_iff (pass : Pass) (w : Workspace κ) (params name : String)
    (hchecks : w.model.checks = {}) (hvalid : w.model.check = .ok ())
    (hrequired : pass.check w.model = .ok ()) (hnew : pass.Introduces w.model params name)
    (hspelling : Text.isIdentifier name = false) :
    ((pass.run params).RefusedOn w ↔ pass.GivesUp w.model params) ∧
      ∀ outcome w', (pass.run params).runOn w = (outcome, w') →
        (pass = .copyInstance → ¬ pass.GivesUp w.model params → name ∈ w'.model.rootNames) ∧
        (name ∈ w'.model.rootNames →
          ∃ violation, outcome = .error (.corrupted pass.name violation)) := by
  constructor
  · rcases hrun : (pass.run params).runOn w with ⟨outcome, w'⟩
    rcases hnew.cases_of_runOn hrequired hrun with
      ⟨hgives, hmodel, cause, rfl, hcause⟩ | ⟨hgoes, houtcome, -, -⟩
    · refine iff_of_true ?_ hgives
      rw [PassM.RefusedOn, hrun]
      exact ⟨hcause, hmodel⟩
    · rw [houtcome] at hrun
      exact iff_of_false (not_refusedOn_of_outcomeOf hrun) hgoes
  · intro outcome w' hrun
    rcases hnew.cases_of_runOn hrequired hrun with
      ⟨hgives, hmodel, -⟩ | ⟨-, houtcome, hsame, hcopy⟩
    · refine ⟨fun _ hgoes => absurd hgives hgoes, fun hname => ?_⟩
      -- the model was well-formed, so there was no such name
      rw [hmodel] at hname
      rw [Model.isIdentifier_of_mem_rootNames hchecks hvalid hname] at hspelling
      cases hspelling
    · refine ⟨fun h _ => hcopy h, fun hname => ?_⟩
      rw [houtcome]
      exact pass.exists_outcomeOf_eq_corrupted (hsame.trans hchecks) hname hspelling

/-- A copy of the timer under a name that starts with a digit is made, and has to be complained
about afterwards. -/
theorem copying_timer_under_a_number_is_not_refused :
    ¬ (Pass.run .copyInstance "--prefix 1").RefusedOn { model := timerBeside "rate" } ∧
      ∃ violation w', (Pass.run .copyInstance "--prefix 1").runOn { model := timerBeside "rate" } =
        (.error (.corrupted Pass.copyInstance.name violation), w') := by
  have hread : Pass.copyGrammar.read (Arguments.split "--prefix 1") =
      .ok ({ stem := "1" } : CopyInstance.Options) := rfl
  have hgoes : ¬ Pass.GivesUp .copyInstance (timerBeside "rate") "--prefix 1" := by
    rw [Pass.givesUp_iff hread]
    rintro ⟨cause, hp⟩
    obtain ⟨prep, hprepare, -⟩ : ∃ prep,
        CopyInstance.prepare (timerBeside "rate") { stem := "1" } = .ok (some prep) ∧ True :=
      CopyInstance.exists_prepare (by decide +kernel)
    cases hprepare.symm.trans hp
  -- the first copy takes its name from the stem, the number of the copy and that of the instance
  have hplan : CopyInstance.Plan.make ⟨⟨0⟩, ⟨1⟩, [⟨"t", "time"⟩], [], []⟩ "T" "12_" ∈
      CopyInstance.plans ⟨⟨0⟩, ⟨1⟩, [⟨"t", "time"⟩], [], []⟩ "T" "1" 2 := List.mem_cons_self
  have hresult := unspellable_names_are_refused_iff .copyInstance { model := timerBeside "rate" }
    "--prefix 1" "12_T" rfl (Except.eq_ok_of_isOk (by decide +kernel))
    (Except.eq_ok_of_isOk (by decide +kernel))
    (.copy hread rfl rfl hplan List.mem_cons_self) (by decide)
  refine ⟨fun h => hgoes (hresult.1.1 h), ?_⟩
  rcases hrun : (Pass.run .copyInstance "--prefix 1").runOn { model := timerBeside "rate" } with
    ⟨outcome, w'⟩
  -- copying has brought the name into the root, where the check has found it
  obtain ⟨violation, rfl⟩ := (hresult.2 outcome w' hrun).2 ((hresult.2 outcome w' hrun).1 rfl hgoes)
  exact ⟨violation, w', rfl⟩

/-- A variable is renamed to a text that starts with a digit. The run spoils the model before it
fails. -/
theorem renaming_to_a_number_is_not_refused :
    twoLabels.check = .ok () ∧ Pass.check .rename twoLabels = .ok () ∧
      Pass.Introduces twoLabels "x:1x" .rename "1x" ∧ Text.isIdentifier "1x" = false ∧
      ¬ (Pass.run .rename "x:1x").RefusedOn { model := twoLabels } ∧
      ((Pass.run .rename "x:1x").runOn { model := twoLabels }).2.model.tree.rootComponent.vars =
        ["1x"] := by
  -- the parameters are read, and the chosen name is the one that was asked for
  have hread : Pass.renameGrammar.read (Arguments.split "x:1x") = .ok [("x", "1x")] := rfl
  have hchoice : ("x", "1x") ∈
      Rename.choices twoLabels.tree.rootComponent.declaredNames ∅ [("x", "1x")] := by decide +kernel
  refine ⟨Except.eq_ok_of_isOk (by decide +kernel), Except.eq_ok_of_isOk (by decide +kernel),
    .rename hread hchoice, by decide, ?_, ?_⟩
  · rcases hrun : (Pass.run .rename "x:1x").runOn { model := twoLabels } with ⟨outcome, w'⟩
    obtain ⟨rfl, -⟩ := Rename.eq_of_runOn hread rfl hrun
    exact not_refusedOn_of_outcomeOf hrun
  · rw [Rename.model_runOn hread { model := twoLabels } rfl]
    decide +kernel

end HybridAutomata
