import HybridAutomata.Pass.Execution
import HybridAutomata.Proofs.ForStd.Except
import HybridAutomata.Proofs.Pass.Outcome
/-!
# The course of a run

A run of a pass reports what it does at every turn. `Course` leaves the reports out and says which
ways a run can take and what each of them does to the model; `course_of_start` says that every run
takes one of them.
-/

namespace HybridAutomata.Pass

variable {κ : Type} [Scalar κ]

/-- The ways that a run of a pass can take, with its outcome and the model it leaves behind. -/
inductive Course (pass : Pass) (params : String) (checked : Bool) (model : Model κ) :
    Except (PassError κ) Unit → Model κ → Prop where
  /-- The model is not acceptable. -/
  | unmet {reason : Unmet κ} (hchecked : checked = true)
      (hcheck : pass.check model = .error reason) :
    Course pass params checked model (.error (.requirementsNotMet pass.name reason)) model
  /-- The parameters cannot be read, or the pass cannot do what it is asked for. -/
  | stopped {before after : Workspace κ} {cause : PassError κ}
    (hcheck : checked = true → pass.check model = .ok ()) (hbefore : before.model = model)
    (hmutate : (pass.mutate (Arguments.split params)).runOn before = (.error cause, after)) :
    Course pass params checked model (.error cause) after.model
  /-- The changed model is not well-formed. -/
  | corrupted {before after : Workspace κ} {violation : Violation κ}
    (hcheck : checked = true → pass.check model = .ok ()) (hbefore : before.model = model)
    (hmutate : (pass.mutate (Arguments.split params)).runOn before = (.ok (), after))
    (hafter : after.model.check = .error violation) :
    Course pass params checked model (.error (.corrupted pass.name violation)) after.model
  /-- The changed model is well-formed. -/
  | finished {before after : Workspace κ}
    (hcheck : checked = true → pass.check model = .ok ()) (hbefore : before.model = model)
    (hmutate : (pass.mutate (Arguments.split params)).runOn before = (.ok (), after))
    (hafter : after.model.check = .ok ()) :
    Course pass params checked model (.ok ()) after.model

omit [Scalar κ] in
/-- `enter` reports a phase and does nothing to the model. -/
theorem runOn_enter (title : String) (phase : Phase) (w : Workspace κ) :
    ∃ w', (enter title phase).runOn w = (.ok (), w') ∧ w'.model = w.model :=
  ⟨_, rfl, rfl⟩

/-- The steps of a run behind its check. -/
private theorem course_of_change (pass : Pass) (params : String) {checked : Bool} {w : Workspace κ}
    {model : Model κ} (hw : w.model = model)
    (hcheck : checked = true → pass.check model = .ok ()) :
    ∃ outcome w', (do
        enter pass.name .mutating
        PassM.report .info ("Running pass " ++ pass.name ++ " with parameters " ++
          Text.quoteList (Arguments.split params))
        pass.mutate (Arguments.split params)
        enter pass.name .validating
        match (← PassM.model).check with
        | .ok () => pure ()
        | .error violation => throw (.corrupted pass.name violation) : PassM κ Unit).runOn w =
        (outcome, w') ∧
      Course pass params checked model outcome w'.model := by
  obtain ⟨w₁, h₁, hm₁⟩ := runOn_enter pass.name .mutating w
  rw [Change.runOn_bind_ok h₁, Change.runOn_bind_ok (PassM.runOn_report ..)]
  generalize hb : ({ w₁ with log := _ } : Workspace κ) = before
  have hbefore : before.model = model := by
    rw [← hb]
    exact hm₁.trans hw
  -- a change that fails ends the run; otherwise its result is checked
  rcases hr : (pass.mutate (Arguments.split params)).runOn before with ⟨cause | ⟨⟩, after⟩
  · exact ⟨_, _, Change.runOn_bind_error hr, .stopped hcheck hbefore hr⟩
  · obtain ⟨w₂, h₂, hm₂⟩ := runOn_enter pass.name .validating after
    rw [Change.runOn_bind_ok hr, Change.runOn_bind_ok h₂,
      Change.runOn_bind_ok (PassM.runOn_model _),
      hm₂]
    cases hc : after.model.check with
    | error violation => exact ⟨_, _, rfl, hm₂ ▸ .corrupted hcheck hbefore hr hc⟩
    | ok => exact ⟨_, _, rfl, hm₂ ▸ .finished hcheck hbefore hr hc⟩

/-- The `runSteps` take one of the ways of `Course`. -/
theorem course_of_runSteps (pass : Pass) (params : String) (checked : Bool) (w : Workspace κ) :
    ∃ outcome w', (pass.runSteps pass.name params checked).runOn w = (outcome, w') ∧
      Course pass params checked w.model outcome w'.model := by
  rw [runSteps]
  cases checked with
  | false => exact course_of_change pass params rfl fun h => absurd h Bool.false_ne_true
  | true =>
    -- the check of the requirements only reads the model
    obtain ⟨w₁, h₁, hm₁⟩ := runOn_enter pass.name .checking w
    simp only [if_true]
    rw [Change.runOn_bind_ok h₁, Change.runOn_bind_ok (PassM.runOn_report ..),
      Change.runOn_bind_ok (PassM.runOn_model _)]
    rw [← hm₁]
    cases hc : pass.check w₁.model with
    | error reason => exact ⟨_, _, rfl, .unmet rfl hc⟩
    | ok => exact course_of_change pass params rfl fun _ => hc

/-- Every `start` of a pass takes one of the ways of `Course`. -/
theorem course_of_start (pass : Pass) (params : String) (checked : Bool) (w : Workspace κ) :
    ∃ outcome w', (pass.start params checked).runOn w = (outcome, w') ∧
      Course pass params checked w.model outcome w'.model := by
  obtain ⟨outcome, w₁, hr, hcourse⟩ :=
    course_of_runSteps pass params checked { w with phase := .idle }
  -- the handler reports a failure and passes it on
  rw [start, Change.runOn_bind_ok (Change.runOn_modify ..), execute, Change.runOn_bind,
    Change.runOn_tryCatch, hr]
  cases outcome with
  | error cause => exact ⟨_, _, rfl, hcourse⟩
  | ok => exact ⟨_, _, rfl, hcourse⟩

omit [Scalar κ] in
/-- `readParameters` hands parameters on that can be read. -/
theorem runOn_readParameters {α : Type} {grammar : Grammar α} {tokens : List String} {options : α}
    (h : grammar.read tokens = .ok options) (pass : Pass) (w : Workspace κ) :
    (pass.readParameters grammar tokens : PassM κ α).runOn w = (.ok options, w) := by
  rw [readParameters, h]
  rfl

/-- A run with a given outcome has taken the `Course` with that outcome. -/
theorem Course.of_runOn {pass : Pass} {params : String} {checked : Bool} {w w' : Workspace κ}
    {outcome : Except (PassError κ) Unit}
    (h : (pass.start params checked).runOn w = (outcome, w')) :
    Course pass params checked w.model outcome w'.model := by
  obtain ⟨_, _, hr, hcourse⟩ := course_of_start pass params checked w
  obtain ⟨rfl, rfl⟩ := Prod.mk.inj (h.symm.trans hr)
  exact hcourse

/-- The outcome of a run whose change has a given result: the check of the result decides. -/
def outcomeOf (pass : Pass) (result : Model κ) : Except (PassError κ) Unit :=
  match result.check with
  | .ok () => .ok ()
  | .error violation => .error (.corrupted pass.name violation)

omit [Scalar κ] in
/-- A result with a good outcome has passed its check. -/
theorem check_of_outcomeOf {pass : Pass} {result : Model κ} (h : pass.outcomeOf result = .ok ()) :
    result.check = .ok () := by
  rw [outcomeOf] at h
  split at h
  · next hc => exact hc
  · cases h

/-- If the model is acceptable then the change decides what the run leaves behind, and whether it
fails, unless it fails because of the result. -/
theorem Course.eq_of_mutate {pass : Pass} {params : String} {checked : Bool}
    {model after result : Model κ} {outcome found : Except (PassError κ) Unit}
    (h : Course pass params checked model outcome after) (hcheck : pass.check model = .ok ())
    (hmutate : ∀ before : Workspace κ, before.model = model →
      ∃ w', (pass.mutate (Arguments.split params)).runOn before = (found, w') ∧ w'.model = result) :
    outcome = (found >>= fun _ => pass.outcomeOf result) ∧ after = result := by
  -- whichever way the run took, its change is the given one
  cases h with
  | unmet _ hreason => cases hreason.symm.trans hcheck
  | stopped _ hbefore hm =>
    obtain ⟨w', hw, hr⟩ := hmutate _ hbefore
    obtain ⟨rfl, rfl⟩ := Prod.mk.inj (hm.symm.trans hw)
    exact ⟨rfl, hr⟩
  | corrupted _ hbefore hm hafter =>
    obtain ⟨w', hw, hr⟩ := hmutate _ hbefore
    obtain ⟨rfl, rfl⟩ := Prod.mk.inj (hm.symm.trans hw)
    rw [hr] at hafter
    exact ⟨by rw [Except.ok_bind, outcomeOf, hafter], hr⟩
  | finished _ hbefore hm hafter =>
    obtain ⟨w', hw, hr⟩ := hmutate _ hbefore
    obtain ⟨rfl, rfl⟩ := Prod.mk.inj (hm.symm.trans hw)
    rw [hr] at hafter
    exact ⟨by rw [Except.ok_bind, outcomeOf, hafter], hr⟩

end HybridAutomata.Pass
