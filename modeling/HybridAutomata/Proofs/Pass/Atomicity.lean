import HybridAutomata.Proofs.CopyInstance.Result
import HybridAutomata.Proofs.Pass.Course
import HybridAutomata.Proofs.SubstituteConstants.Correctness
import HybridAutomata.Proofs.SubstituteConstants.Result
/-!
# Failed runs

A pass that fails has not changed the model: every failure comes before the first change. So the
only failure that a model does not survive unharmed is that of the check at the end of a run. A
pipeline that fails leaves what the passes before the failing one have made.

* `mutate_atomicOn`            a pass that fails by itself keeps the model
* `Course.model_eq`            so does a failed run, unless its result is not well-formed
* `Pipeline.run_eq_error`      where a pipeline stops
* `pass_runs_are_atomic`       all of this for runs of passes and pipelines
-/

namespace HybridAutomata

variable {κ : Type} [Scalar κ]

/-- `IsCorruption` says that a pass has left a model that is not well-formed. -/
def PassError.IsCorruption : PassError κ → Prop
  | .corrupted .. => True
  | _ => False

namespace Pass

/-! ## Passes by themselves -/

omit [Scalar κ] in
/-- `readParameters` keeps the model, whether or not the parameters can be read. -/
theorem keeps_readParameters {α : Type} (pass : Pass) (grammar : Grammar α)
    (tokens : List String) :
    Change.Keeps Workspace.model (pass.readParameters grammar tokens : PassM κ α) := by
  intro w
  rw [readParameters]
  split <;> rfl

omit [Scalar κ] in
/-- `IdentityReset.run` fails only on a network, before it has changed the model. -/
theorem identityReset_atomicOn (w : Workspace κ) :
    Change.AtomicOn Workspace.model (IdentityReset.run : PassM κ Unit) w := by
  -- the only change comes last and cannot fail
  refine PassM.keeps_model.atomicOn_bind fun model w' _ => ?_
  dsimp only
  split
  · exact ((Change.keeps_liftM (.error _)).atomicOn w')
  · exact Change.SucceedsOn.atomicOn ⟨_, _, PassM.runOn_modifyTree ..⟩

omit [Scalar κ] in
/-- `Rename.run` reports the new names before it puts them into the model. -/
theorem rename_atomicOn (pairs : List (String × String)) (w : Workspace κ) :
    Change.AtomicOn Workspace.model (Rename.run pairs : PassM κ Unit) w := by
  refine PassM.keeps_model.atomicOn_bind fun model w' _ => ?_
  dsimp only
  split
  · exact (Change.keeps_liftM (.error _)).atomicOn w'
  · refine (Change.keeps_forM fun _ _ => PassM.keeps_report _ _).atomicOn_bind
      fun _ w' _ => ?_
    exact Change.SucceedsOn.atomicOn ⟨_, _, PassM.runOn_modifyModel ..⟩

omit [Scalar κ] in
/-- `ShortenModes.run` reports the short names before it puts them into the model. -/
theorem shortenModes_atomicOn (w : Workspace κ) :
    Change.AtomicOn Workspace.model (ShortenModes.run : PassM κ Unit) w := by
  refine PassM.keeps_model.atomicOn_bind fun model w' _ => ?_
  dsimp only
  split
  · exact (Change.keeps_liftM (.error _)).atomicOn w'
  · refine (Change.keeps_forM fun _ _ => PassM.keeps_report _ _).atomicOn_bind
      fun _ w' _ => ?_
    exact Change.SucceedsOn.atomicOn ⟨_, _, PassM.runOn_modifyModel ..⟩

/-- `SubstituteConstants.run` finds all values before it replaces the first constant. -/
theorem substituteConstants_atomicOn (w : Workspace κ) :
    Change.AtomicOn Workspace.model (SubstituteConstants.run : PassM κ Unit) w := by
  intro cause w' h
  rw [SubstituteConstants.runOn_run] at h
  -- the pass asks for all values before it changes the model
  cases hv : SubstituteConstants.allValues w.model.tree with
  | error cause =>
    rw [hv] at h
    obtain ⟨-, rfl⟩ := Prod.mk.inj h
    rfl
  | ok values =>
    rw [hv] at h
    cases h

/-- `CopyInstance.run` chooses all names before it makes the first copy, and then every copy can be
made. -/
theorem copyInstance_atomicOn (options : CopyInstance.Options) (w : Workspace κ) :
    Change.AtomicOn Workspace.model (CopyInstance.run options : PassM κ Unit) w := by
  intro cause w' h
  -- the only failure is that of the preparation
  rcases CopyInstance.run_cases options w with ⟨_, -, hr⟩ | ⟨-, hr⟩ | ⟨_, -, hr⟩
  · rw [hr] at h
    obtain ⟨-, rfl⟩ := Prod.mk.inj h
    rfl
  · rw [hr] at h
    cases h
  · rw [hr] at h
    cases h

/-- A failing `mutate` keeps the model, even if the model is not acceptable to the pass. -/
theorem mutate_atomicOn (pass : Pass) (tokens : List String) (w : Workspace κ) :
    Change.AtomicOn Workspace.model (pass.mutate tokens : PassM κ Unit) w := by
  -- reading the parameters changes nothing, so it is up to the body of each pass
  cases pass with
  | identityReset =>
    exact (keeps_readParameters _ _ tokens).atomicOn_bind
      fun _ w' _ => identityReset_atomicOn w'
  | copyInstance =>
    exact (keeps_readParameters _ _ tokens).atomicOn_bind
      fun options w' _ => copyInstance_atomicOn options w'
  | rename =>
    exact (keeps_readParameters _ _ tokens).atomicOn_bind
      fun pairs w' _ => rename_atomicOn pairs w'
  | shortenModes =>
    exact (keeps_readParameters _ _ tokens).atomicOn_bind
      fun _ w' _ => shortenModes_atomicOn w'
  | substituteConstants =>
    exact (keeps_readParameters _ _ tokens).atomicOn_bind
      fun _ w' _ => substituteConstants_atomicOn w'

/-! ## Runs -/

/-- The `Course` of a failed run keeps the model, unless the failure is a corruption. -/
theorem Course.model_eq {pass : Pass} {params : String} {checked : Bool} {model after : Model κ}
    {cause : PassError κ} (h : Course pass params checked model (.error cause) after)
    (hcause : ¬ cause.IsCorruption) : after = model := by
  cases h with
  | unmet _ _ => rfl
  | stopped _ hbefore hmutate => exact (mutate_atomicOn pass _ _ _ _ hmutate).trans hbefore
  | corrupted _ _ _ _ => exact absurd trivial hcause

/-- The `Course` of a run that succeeds leaves a well-formed model. -/
theorem Course.check_eq_ok {pass : Pass} {params : String} {checked : Bool} {model after : Model κ}
    (h : Course pass params checked model (.ok ()) after) : after.check = .ok () := by
  cases h with
  | finished _ _ _ hafter => exact hafter

end Pass

namespace Pipeline

/-- The step of a pipeline for one requested pass. -/
def step (requested : RequestedPass) : PassM κ Unit := do
  PassM.report .info
    ("Running " ++ requested.pass.name ++ " with params '" ++ requested.params ++ "'")
  requested.pass.run requested.params

theorem run_nil (w : Workspace κ) : (Pipeline.run ⟨[]⟩).runOn w = (.ok (), w) := rfl

/-- A pipeline runs its first pass in a `step` and then the rest. -/
theorem run_cons (requested : RequestedPass) (rest : List RequestedPass) :
    (Pipeline.run ⟨requested :: rest⟩ : PassM κ Unit) =
      step requested >>= fun _ => Pipeline.run ⟨rest⟩ := rfl

/-- A `step` that reports its pass takes one of the ways of a run, as `Course` lists them. -/
theorem step_course {requested : RequestedPass} {w w' : Workspace κ}
    {outcome : Except (PassError κ) Unit} (h : (step requested).runOn w = (outcome, w')) :
    Pass.Course requested.pass requested.params true w.model outcome w'.model := by
  rw [step, Change.runOn_bind_ok (PassM.runOn_report ..)] at h
  have hcourse := Pass.Course.of_runOn h
  exact hcourse

/-- A pipeline that fails has run the passes before the failing one, and its `step` gives the
failure. -/
theorem run_eq_error {passes : List RequestedPass} {w w' : Workspace κ} {cause : PassError κ}
    (h : (Pipeline.run ⟨passes⟩).runOn w = (.error cause, w')) :
    ∃ before requested after w₁, passes = before ++ requested :: after ∧
      (Pipeline.run ⟨before⟩).runOn w = (.ok (), w₁) ∧
      (step requested).runOn w₁ = (.error cause, w') := by
  -- either the first pass fails, or the failure is in the rest of the pipeline
  induction passes generalizing w with
  | nil => cases h
  | cons requested rest ih =>
    rw [run_cons] at h
    rcases hs : (step requested).runOn w with ⟨cause₁ | ⟨⟩, w₁⟩
    · rw [Change.runOn_bind_error hs] at h
      exact ⟨[], requested, rest, w, rfl, rfl, hs.trans h⟩
    · rw [Change.runOn_bind_ok hs] at h
      obtain ⟨before, failing, after, w₂, rfl, hb, hf⟩ := ih h
      refine ⟨requested :: before, failing, after, w₂, rfl, ?_, hf⟩
      rw [run_cons, Change.runOn_bind_ok hs, hb]

/-- A pipeline that succeeds has at least one pass, and the check of its last one has accepted the
model. -/
theorem check_of_run_eq_ok {passes : List RequestedPass} (hne : passes ≠ []) {w w' : Workspace κ}
    (h : (Pipeline.run ⟨passes⟩).runOn w = (.ok (), w')) : w'.model.check = .ok () := by
  -- the last pass has checked the model that it leaves
  induction passes generalizing w with
  | nil => exact absurd rfl hne
  | cons requested rest ih =>
    rw [run_cons] at h
    rcases hs : (step requested).runOn w with ⟨cause₁ | ⟨⟩, w₁⟩
    · rw [Change.runOn_bind_error hs] at h
      cases h
    · rw [Change.runOn_bind_ok hs] at h
      cases rest with
      | nil =>
        rw [run_nil] at h
        obtain ⟨-, rfl⟩ := Prod.mk.inj h
        exact (step_course hs).check_eq_ok
      | cons next rest => exact ih (List.cons_ne_nil _ _) h

end Pipeline

/-- Runs are atomic, whatever the model is like. A run of a pass, with or without the check of its
requirements, that fails for another reason than a result that is not well-formed leaves the model
as it was. A pipeline that fails so at one of its passes leaves the model that the passes before it
lead to, and one that succeeds has left a well-formed model. -/
theorem pass_runs_are_atomic (w : Workspace κ) :
    (∀ (pass : Pass) (params : String) (cause : PassError κ) (w' : Workspace κ),
      ((pass.run params).runOn w = (.error cause, w') ∨
        (pass.runUnchecked params).runOn w = (.error cause, w')) →
      ¬ cause.IsCorruption → w'.model = w.model) ∧
    (∀ (passes : List RequestedPass) (cause : PassError κ) (w' : Workspace κ),
      (Pipeline.run ⟨passes⟩).runOn w = (.error cause, w') →
      ∃ before requested after w₁, passes = before ++ requested :: after ∧
        (Pipeline.run ⟨before⟩).runOn w = (.ok (), w₁) ∧
        (∃ w₂, w₂.model = w₁.model ∧
          (requested.pass.run requested.params).runOn w₂ = (.error cause, w')) ∧
        (¬ cause.IsCorruption → w'.model = w₁.model)) ∧
    ∀ (passes : List RequestedPass) (w' : Workspace κ), passes ≠ [] →
      (Pipeline.run ⟨passes⟩).runOn w = (.ok (), w') → w'.model.check = .ok () := by
  refine ⟨?_, ?_, ?_⟩
  -- a failure that is no corruption comes before the change, whether or not requirements are
  -- checked
  · rintro pass params cause w' (h | h) hcause
    · exact (Pass.Course.of_runOn h).model_eq hcause
    · exact (Pass.Course.of_runOn h).model_eq hcause
  · intro passes cause w' h
    -- the passes before the one that fails have succeeded
    obtain ⟨before, requested, after, w₁, hp, hb, hs⟩ := Pipeline.run_eq_error h
    refine ⟨before, requested, after, w₁, hp, hb, ?_, (Pipeline.step_course hs).model_eq⟩
    rw [Pipeline.step, Change.runOn_bind_ok (PassM.runOn_report ..)] at hs
    refine ⟨_, ?_, hs⟩
    rfl
  · intro passes w' hne h
    exact Pipeline.check_of_run_eq_ok hne h

/-! ## A timer and an instance that does not exist -/

/-- Whether an outcome is a failure of the pass by itself. -/
def failsByItself : Except (PassError Int) Unit → Bool
  | .error (.unsupported _) => true
  | _ => false

/-- An outcome that `failsByItself` is no corruption. -/
theorem exists_of_failsByItself (outcome : Except (PassError Int) Unit)
    (h : failsByItself outcome = true) :
    ∃ cause, outcome = .error cause ∧ ¬ cause.IsCorruption := by
  cases outcome with
  | ok => cases h
  | error cause =>
    refine ⟨cause, rfl, fun hcause => ?_⟩
    cases cause with
    | corrupted pass violation => cases h
    | _ => cases hcause

/-- There is no instance `X` to copy, which the pass finds out by itself: a run leaves the timer as
it was, with or without the check of the requirements. In a pipeline the rate that was put in before
stays, as in the pipeline that stops before the copying. -/
theorem copying_missing_instance_is_atomic :
    let w : Workspace Int := { model := boundTimer }
    let substitute : RequestedPass := ⟨.substituteConstants, ""⟩
    let missing : RequestedPass := ⟨.copyInstance, "--name X"⟩
    (∃ cause w', (missing.pass.run missing.params).runOn w = (.error cause, w') ∧
      ¬ cause.IsCorruption ∧ w'.model = w.model) ∧
    (∃ cause w', (missing.pass.runUnchecked missing.params).runOn w = (.error cause, w') ∧
      ¬ cause.IsCorruption ∧ w'.model = w.model) ∧
    (∃ cause w' w₁, (Pipeline.run ⟨[substitute, missing]⟩).runOn w = (.error cause, w') ∧
      ¬ cause.IsCorruption ∧ (Pipeline.run ⟨[substitute]⟩).runOn w = (.ok (), w₁) ∧
      w'.model = w₁.model) ∧
    ∃ w₁, (Pipeline.run ⟨[substitute]⟩).runOn w = (.ok (), w₁) ∧
      w₁.model.tree.rootComponent.constants.keys = [] ∧ w₁.model.check = .ok () := by
  intro w substitute missing
  obtain ⟨hruns, hpipelines, hsuccesses⟩ := pass_runs_are_atomic w
  have hone : (Pipeline.run ⟨[substitute]⟩).runOn w =
      (.ok (), ((Pipeline.run ⟨[substitute]⟩).runOn w).2) :=
    Prod.ext (Except.eq_ok_of_isOk (by decide +kernel)) rfl
  refine ⟨?checked, ?unchecked, ?pipeline, ?success⟩
  case checked =>
    obtain ⟨cause, hcause, hno⟩ := exists_of_failsByItself
      ((missing.pass.run missing.params).runOn w).1 (by decide +kernel)
    exact ⟨cause, _, Prod.ext hcause rfl, hno,
      hruns _ _ _ _ (.inl (Prod.ext hcause rfl)) hno⟩
  case unchecked =>
    obtain ⟨cause, hcause, hno⟩ := exists_of_failsByItself
      ((missing.pass.runUnchecked missing.params).runOn w).1 (by decide +kernel)
    exact ⟨cause, _, Prod.ext hcause rfl, hno,
      hruns _ _ _ _ (.inr (Prod.ext hcause rfl)) hno⟩
  case pipeline =>
    obtain ⟨cause, hcause, hno⟩ := exists_of_failsByItself
      ((Pipeline.run ⟨[substitute, missing]⟩).runOn w).1 (by decide +kernel)
    obtain ⟨before, failing, after, w₁, hpasses, hbefore, -, hmodel⟩ :=
      hpipelines [substitute, missing] cause _ (Prod.ext hcause rfl)
    refine ⟨cause, _, w₁, Prod.ext hcause rfl, hno, ?_, hmodel hno⟩
    -- the pipeline has not failed at the first pass, which would have kept the rate
    rcases before with _ | ⟨first, _ | ⟨second, rest⟩⟩
    · have hrate : ((Pipeline.run ⟨[substitute, missing]⟩).runOn
          w).2.model.tree.rootComponent.constants.keys = [] := by decide +kernel
      cases hbefore
      rw [hmodel hno] at hrate
      cases hrate
    · cases hpasses
      exact hbefore
    · have hlength := congrArg List.length hpasses
      simp at hlength
  case success =>
    exact ⟨_, hone, by decide +kernel, hsuccesses [substitute] _ (by simp) hone⟩

end HybridAutomata
