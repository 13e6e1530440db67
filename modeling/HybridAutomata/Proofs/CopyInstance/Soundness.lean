import HybridAutomata.Proofs.CopyInstance.Validity
import HybridAutomata.Proofs.Pass.Atomicity
import HybridAutomata.Proofs.Scalar.Integer
/-!
# Runs that copy an instance

A run on a well-formed model either fails and leaves the model alone, or leaves a well-formed model,
but for what its checks overlook: a new name that is taken by another kind of names, or a condition
on a shadowed variable. `copying_is_safe_iff` says just when a run is safe.
-/

namespace HybridAutomata

variable {κ : Type}

/-- A computation that fails without a change, or else leaves a well-formed model. -/
def PassM.SafeOn [Scalar κ] (m : PassM κ Unit) (w : Workspace κ) : Prop :=
  match m.runOn w with
  | (.error cause, w') => ¬ cause.IsCorruption ∧ w'.model = w.model
  | (.ok (), w') => w'.model.check = .ok ()

namespace CopyInstance

/-! ## Failed preparations -/

/-- A request that never reports a corrupted model. -/
def Harmless {α : Type} (x : Except (PassError κ) α) : Prop :=
  ∀ cause, x = .error cause → ¬ cause.IsCorruption

section

variable {α β : Type}

/-- Success is `Harmless`. -/
theorem harmless_ok (a : α) : Harmless (.ok a : Except (PassError κ) α) := by
  intro cause h
  cases h

/-- A refusal of the request is `Harmless`. -/
theorem harmless_unsupported (reason : Unsupported) :
    Harmless (.error (.unsupported reason) : Except (PassError κ) α) := by
  intro cause h
  rw [← Except.error.inj h]
  exact id

/-- A complaint about a name in the model is `Harmless`, since it does not come from a check of the
model. -/
theorem harmless_model (reason : ModelError κ) :
    Harmless (.error (.model reason) : Except (PassError κ) α) := by
  intro cause h
  rw [← Except.error.inj h]
  exact id

/-- `Harmless` requests in sequence are harmless. -/
theorem harmless_bind {x : Except (PassError κ) α} {f : α → Except (PassError κ) β}
    (hx : Harmless x) (hf : ∀ a, Harmless (f a)) : Harmless (x >>= f) := by
  -- only the outcome of the first request decides whether there is a second one
  cases x with
  | error cause =>
    intro cause' h
    rw [← Except.error.inj h]
    exact hx cause rfl
  | ok a => exact hf a

/-- A loop of `Harmless` checks is harmless. -/
theorem harmless_forM {items : List α} {check : α → Except (PassError κ) Unit}
    (h : ∀ item, Harmless (check item)) : Harmless (items.forM check) := by
  -- induction on the items, with `harmless_bind` for one of them
  induction items with
  | nil => exact harmless_ok ()
  | cons item rest ih =>
    rw [List.forM_eq_forM, List.forM_cons, ← List.forM_eq_forM]
    exact harmless_bind (h item) fun _ => ih

end

/-- `rootInstance` complains about an unknown name only. -/
theorem harmless_rootInstance (tree : Tree κ) (name : String) :
    Harmless (rootInstance tree name) := by
  rw [rootInstance]
  split
  · exact harmless_ok _
  · exact harmless_model _

/-- `singleState` complains about the request or about a mode that is not known. -/
theorem harmless_singleState (tree : Tree κ) (states : NameMap (Expr κ)) :
    Harmless (singleState tree states) := by
  have hsplit (instances : List String) (mode : String) :
      Harmless (splitModes (κ := κ) instances mode) := by
    -- the comparison of lengths is the only place where splitting can fail
    have key (found : List String) (reason : Unsupported) :
        Harmless (if found.length = instances.length then .ok found
          else .error (.unsupported reason) : Except (PassError κ) (List String)) := by
      split
      · exact harmless_ok _
      · exact harmless_unsupported _
    exact key _ _
  -- a mode is looked up in an instance that has to be found first
  have hmode (inst mode : String) : Harmless (checkMode tree inst mode) := by
    rw [checkMode]
    refine harmless_bind (harmless_rootInstance tree inst) fun entry => ?_
    dsimp only
    split
    · split
      · exact harmless_ok _
      · exact harmless_model _
    · exact harmless_model _
  rw [singleState]
  split
  · exact harmless_unsupported _
  · exact harmless_bind (hsplit _ _) fun _ =>
      harmless_bind (harmless_forM fun _ => hmode _ _) fun _ => harmless_ok _

/-- `claimPlans` complains about a name that is taken. -/
theorem harmless_claimPlans (root : Component κ) (plans : List Plan) :
    Harmless (claimPlans root plans) := by
  -- induction on the bindings of one plan; each of them takes a name
  have hnames (kind : NameKind) (bindings : List Binding) (taken : List String) :
      Harmless (claimNames (κ := κ) kind taken bindings) := by
    induction bindings generalizing taken with
    | nil => exact harmless_ok _
    | cons binding rest ih =>
      rw [claimNames]
      split
      · exact harmless_unsupported _
      · exact ih _
  rw [claimPlans]
  -- the names that are taken grow along the list
  generalize (root.vars, root.labels) = taken
  induction plans generalizing taken with
  | nil => exact harmless_ok _
  | cons plan rest ih =>
    rw [List.foldlM_cons]
    refine harmless_bind ?_ ih
    dsimp only
    split
    · exact harmless_model _
    · exact harmless_bind (hnames _ _ _) fun _ =>
        harmless_bind (hnames _ _ _) fun _ => harmless_ok _

/-- `prepare` gives up before the model is changed, so it does not say that the model is corrupted.
-/
theorem harmless_prepare (model : Model κ) (options : Options) :
    Harmless (prepare model options) := by
  -- the choice of the instance fails only if there is no choice
  have hchoose (instances : List String) :
      Harmless (chooseInstance (κ := κ) instances options.name) := by
    rw [chooseInstance.eq_def]
    split
    · exact harmless_ok _
    · exact harmless_unsupported _
    · exact harmless_ok _
  have hforbidden : Harmless (findForbidden model) := by
    rw [findForbidden]
    split
    · exact harmless_ok _
    · exact harmless_bind (harmless_singleState _ _) fun _ => harmless_ok _
  -- none of the steps checks the model, and only such a check finds it corrupted
  rw [prepare]
  refine harmless_bind (hchoose _) fun name => ?_
  dsimp only
  split
  · next position _ =>
    split
    · exact harmless_unsupported _
    · refine harmless_bind (harmless_singleState _ _) fun _ => harmless_bind hforbidden fun _ => ?_
      split
      · exact harmless_ok _
      · exact harmless_bind (harmless_rootInstance _ _) fun _ =>
          harmless_bind (harmless_claimPlans _ _) fun _ => harmless_ok _
  · exact harmless_unsupported _

/-! ## Runs -/

variable [Scalar κ]

/-- `prepare` decides what a run does on an acceptable model: what it fails with, or which model it
leaves behind. -/
theorem eq_of_prepare {w w' : Workspace κ} {params : String} {options : Options}
    {outcome : Except (PassError κ) Unit}
    (hrequired : Pass.check .copyInstance w.model = .ok ())
    (hparams : Pass.copyGrammar.read (Arguments.split params) = .ok options)
    (hrun : (Pass.run .copyInstance params).runOn w = (outcome, w')) :
    (∀ cause, prepare w.model options = .error cause →
      outcome = .error cause ∧ w'.model = w.model) ∧
    (prepare w.model options = .ok none →
      outcome = Pass.outcomeOf .copyInstance w.model ∧ w'.model = w.model) ∧
    ∀ prep, prepare w.model options = .ok (some prep) →
      outcome = Pass.outcomeOf .copyInstance (prep.result w.model) ∧
        w'.model = prep.result w.model := by
  -- what is in the workspace besides the model makes no difference to the change
  have key (found : Except (PassError κ) Unit) (result : Model κ)
      (hchange : ∀ before : Workspace κ, before.model = w.model →
        ∃ w', (run options).runOn before = (found, w') ∧ w'.model = result) :
      outcome = (found >>= fun _ => Pass.outcomeOf .copyInstance result) ∧ w'.model = result := by
    -- the course of a run is requirements, change and check of the result, of which only the change
    -- is open
    refine (Pass.Course.of_runOn hrun).eq_of_mutate hrequired fun before hbefore => ?_
    have hmutate : (Pass.mutate .copyInstance (Arguments.split params)).runOn before =
        (run options).runOn before :=
      Change.runOn_bind_ok (Pass.runOn_readParameters hparams .copyInstance before)
    rw [hmutate]
    exact hchange before hbefore
  -- three outcomes of the preparation, and the change is known for each of them
  refine ⟨fun cause hp => key (.error cause) w.model fun before hbefore => ?_,
    fun hp => key (.ok ()) w.model fun before hbefore => ?_,
    fun prep hp => key (.ok ()) (prep.result w.model) fun before hbefore => ?_⟩
  · rw [runOn_run, hbefore, hp]
    exact ⟨_, rfl, hbefore⟩
  · rw [runOn_run, hbefore, hp]
    exact ⟨_, rfl, hbefore⟩
  · have hprep : Prepared before.model options prep := hbefore ▸ prepared_of_prepare hp
    rw [runOn_run, hbefore, hp]
    exact ⟨_, hprep.runOn_carryOut, by rw [hbefore]⟩

/-- `SafeOn` holds of a run that gets to its changes just if nothing was overlooked. -/
theorem safeOn_iff_of_prepare (w : Workspace κ) (params : String) {options : Options}
    {prep : Preparation κ} (hchecks : w.model.checks = {}) (hvalid : w.model.check = .ok ())
    (hrequired : Pass.check .copyInstance w.model = .ok ())
    (hparams : Pass.copyGrammar.read (Arguments.split params) = .ok options)
    (hstem : Text.isIdentifier options.stem = true)
    (hprepare : prepare w.model options = .ok (some prep)) :
    (Pass.run .copyInstance params).SafeOn w ↔ ¬ prep.Overlooks w.model := by
  obtain ⟨vars, hrules⟩ := (Model.check_eq_ok_iff hchecks).1 hvalid
  rcases hrun : (Pass.run .copyInstance params).runOn w with ⟨outcome, w'⟩
  obtain ⟨rfl, hmodel⟩ := (eq_of_prepare hrequired hparams hrun).2.2 prep hprepare
  have hchecks' : (prep.result w.model).checks = {} := hchecks
  -- both sides speak of the check of the result
  rw [← (prepared_of_prepare hprepare).rules_result_iff hrules hstem,
    ← Model.check_eq_ok_iff hchecks', PassM.SafeOn, hrun, Pass.outcomeOf]
  cases hc : (prep.result w.model).check with
  | ok =>
    refine ⟨fun _ => rfl, fun _ => ?_⟩
    show w'.model.check = .ok ()
    rw [hmodel, hc]
  | error violation =>
    constructor
    · -- the check of the result has failed, which is a corruption
      exact fun h => absurd trivial h.1
    · intro h
      cases h

/-- `SafeOn` holds of a run that does not get to its changes. -/
theorem safeOn_of_prepare {w : Workspace κ} {params : String} {options : Options}
    (hvalid : w.model.check = .ok ()) (hrequired : Pass.check .copyInstance w.model = .ok ())
    (hparams : Pass.copyGrammar.read (Arguments.split params) = .ok options)
    (hprepare : ∀ prep, prepare w.model options ≠ .ok (some prep)) :
    (Pass.run .copyInstance params).SafeOn w := by
  rcases hrun : (Pass.run .copyInstance params).runOn w with ⟨outcome, w'⟩
  obtain ⟨herror, hnothing, -⟩ := eq_of_prepare hrequired hparams hrun
  rw [PassM.SafeOn, hrun]
  -- a failed preparation leaves the model alone, and with nothing to do the old model is checked
  -- again
  cases hp : prepare w.model options with
  | error cause =>
    obtain ⟨rfl, hmodel⟩ := herror cause hp
    exact ⟨harmless_prepare w.model options cause hp, hmodel⟩
  | ok found =>
    cases found with
    | none =>
      obtain ⟨rfl, hmodel⟩ := hnothing hp
      rw [Pass.outcomeOf, hvalid]
      show w'.model.check = .ok ()
      rw [hmodel, hvalid]
    | some prep => exact absurd hp (hprepare prep)

/-- A run succeeds and leaves `result` behind if its preparation has succeeded and overlooks
nothing. -/
theorem exists_runOn_eq_ok (w : Workspace κ) (params : String) {options : Options}
    {prep : Preparation κ} (hchecks : w.model.checks = {}) (hvalid : w.model.check = .ok ())
    (hrequired : Pass.check .copyInstance w.model = .ok ())
    (hparams : Pass.copyGrammar.read (Arguments.split params) = .ok options)
    (hstem : Text.isIdentifier options.stem = true)
    (hprepare : prepare w.model options = .ok (some prep)) (hclear : ¬ prep.Overlooks w.model) :
    ∃ w', (Pass.run .copyInstance params).runOn w = (.ok (), w') ∧
      w'.model = prep.result w.model := by
  obtain ⟨vars, hrules⟩ := (Model.check_eq_ok_iff hchecks).1 hvalid
  have hchecks' : (prep.result w.model).checks = {} := hchecks
  -- the result obeys the rules, so the final check passes
  have hresult := (Model.check_eq_ok_iff hchecks').2
    (((prepared_of_prepare hprepare).rules_result_iff hrules hstem).2 hclear)
  rcases hrun : (Pass.run .copyInstance params).runOn w with ⟨outcome, w'⟩
  obtain ⟨rfl, hmodel⟩ := (eq_of_prepare hrequired hparams hrun).2.2 prep hprepare
  refine ⟨w', ?_, hmodel⟩
  rw [Pass.outcomeOf, hresult]

omit [Scalar κ] in
/-- What `prepare` finds out can be computed, so a closed run is followed by evaluation. -/
theorem exists_prepare {model : Model κ} {options : Options} {p : Preparation κ → Prop}
    [DecidablePred p]
    (h : (match prepare model options with
      | .ok (some prep) => decide (p prep)
      | _ => false) = true) : ∃ prep, prepare model options = .ok (some prep) ∧ p prep := by
  split at h
  · next prep hp => exact ⟨prep, hp, of_decide_eq_true h⟩
  · cases h

end CopyInstance

variable [Scalar κ]

/-- On a well-formed and acceptable model, with an identifier as stem, a run fails without a change
or leaves a well-formed model just if its checks overlook nothing: no new name is a name of another
kind in the root, and no condition mentions a shadowed variable. -/
theorem copying_is_safe_iff (w : Workspace κ) (params : String) (options : CopyInstance.Options)
    (hchecks : w.model.checks = {}) (hvalid : w.model.check = .ok ())
    (hrequired : Pass.check .copyInstance w.model = .ok ())
    (hparams : Pass.copyGrammar.read (Arguments.split params) = .ok options)
    (hstem : Text.isIdentifier options.stem = true) :
    (Pass.run .copyInstance params).SafeOn w ↔
      ∀ prep, CopyInstance.prepare w.model options = .ok (some prep) →
        ¬ prep.Overlooks w.model := by
  constructor
  · intro hsafe prep hprepare
    exact (CopyInstance.safeOn_iff_of_prepare w params hchecks hvalid hrequired hparams hstem
      hprepare).1 hsafe
  · intro h
    -- either the run gets to its changes, or there is nothing to be overlooked
    by_cases hprepare : ∃ prep, CopyInstance.prepare w.model options = .ok (some prep)
    · obtain ⟨prep, hp⟩ := hprepare
      exact (CopyInstance.safeOn_iff_of_prepare w params hchecks hvalid hrequired hparams hstem
        hp).2 (h prep hp)
    · exact CopyInstance.safeOn_of_prepare hvalid hrequired hparams (not_exists.1 hprepare)

/-! ## A timer beside a constant -/

/-- A network of one timer, whose clock is the variable `time` of the network, and a constant. -/
def timerBeside (constant : String) : Model Int where
  tree := {
    components := #[
      { vars := ["time"]
        constants := .ofList [(constant, some (.point 1))]
        body := .network (.ofList [("T", {
          parent := ⟨0⟩
          child := ⟨1⟩
          vars := [⟨"t", "time"⟩] })]) },
      { parent := some ⟨0⟩
        instanceName := some "T"
        vars := ["t"]
        body := .base {
          modes := .ofList [("run", {
            name := "run"
            invariant := .bool true
            urgent := false
            flows := some (.ofList [("t", { expr := .const 1 })]) })]
          transitions := [] } }]
    root := ⟨0⟩ }
  initial := .ofList [("T.run", .binary .equal (.var "time") (.const 0))]
  forbidden := ∅
  settings := { Settings.standard with plotX := some "time", plotY := some "time" }
  checks := {}

/-- Beside a constant with an unrelated name, the timer can be copied. -/
theorem copying_timer_is_safe :
    (Pass.run .copyInstance "--num 3").SafeOn { model := timerBeside "rate" } := by
  refine (copying_is_safe_iff { model := timerBeside "rate" } "--num 3" { count := 3 } rfl
    (Except.eq_ok_of_isOk (by decide +kernel)) (Except.eq_ok_of_isOk (by decide +kernel)) rfl
    (by decide)).2 fun prep hprepare => ?_
  -- the preparation is found by evaluation, and overlooks nothing
  obtain ⟨found, hfound, hclear⟩ : ∃ prep,
      CopyInstance.prepare (timerBeside "rate") { count := 3 } = .ok (some prep) ∧
        ¬ prep.Overlooks (timerBeside "rate") :=
    CopyInstance.exists_prepare (by decide +kernel)
  obtain rfl := Option.some.inj (Except.ok.inj (hfound.symm.trans hprepare))
  exact hclear

/-- Beside a constant that is called like the clock of the first copy is going to be called, copying
the timer leaves a model that is not well-formed. -/
theorem copying_timer_is_not_safe :
    (timerBeside "copy2_time").check = .ok () ∧
      Pass.check .copyInstance (timerBeside "copy2_time") = .ok () ∧
      ¬ (Pass.run .copyInstance "").SafeOn { model := timerBeside "copy2_time" } := by
  have hvalid : (timerBeside "copy2_time").check = .ok () :=
    Except.eq_ok_of_isOk (by decide +kernel)
  have hrequired : Pass.check .copyInstance (timerBeside "copy2_time") = .ok () :=
    Except.eq_ok_of_isOk (by decide +kernel)
  -- the constant of the root has the name that a copy claims
  obtain ⟨prep, hprepare, hoverlooks⟩ : ∃ prep,
      CopyInstance.prepare (timerBeside "copy2_time") {} = .ok (some prep) ∧
        prep.Overlooks (timerBeside "copy2_time") :=
    CopyInstance.exists_prepare (by decide +kernel)
  refine ⟨hvalid, hrequired, fun hsafe => ?_⟩
  exact (CopyInstance.safeOn_iff_of_prepare { model := timerBeside "copy2_time" } "" rfl hvalid
    hrequired rfl (by decide) hprepare).1 hsafe hoverlooks

end HybridAutomata
