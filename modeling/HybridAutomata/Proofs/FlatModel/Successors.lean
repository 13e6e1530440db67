import HybridAutomata.Proofs.Expr.Meaning
import HybridAutomata.Proofs.FlatModel.IdentityResets
import HybridAutomata.Proofs.Pass.Atomicity
/-!
# Identity resets and successor states

A transition leads from one assignment of numbers to the declared variables to others. All resets
read the state before the transition, whatever the other resets write; a variable without reset
keeps its number, and a disturbance adds any number of its interval. Making the resets of kept
variables explicit says this in another way, so a transition leads to the same states afterwards.

* `entries_foldl_keepReset`   which entries come in, and where
* `leads_addIdentityResets`   a completed transition leads to the same states
* `course_model_cases`        what a run of the pass may do to a model
* `identity_resets_keep_successors`   all of this for runs of the pass
-/

namespace HybridAutomata

variable {κ : Type}

/-! ## Successor states -/

/-- A number for each declared variable. -/
def State (κ : Type) (vars : List String) : Type :=
  ∀ name, name ∈ vars → κ

/-- What names stand for in a state. Names that are not declared stand for what they are given. -/
def State.reading {vars : List String} (state : State κ vars) (given : String → Option (Value κ))
    (name : String) : Option (Value κ) :=
  if h : name ∈ vars then some (.number (state name h)) else given name

/-- The numbers that an update may give. -/
inductive Update.Gives [Scalar κ] (env : String → Option (Value κ)) : Update κ → κ → Prop where
  | value {expr : Expr κ} {x : κ} (hx : expr.Evaluates env (.number x)) : Gives env ⟨expr, none⟩ x
  | disturbed {expr : Expr κ} {interval : Interval κ} {x d : κ}
    (hx : expr.Evaluates env (.number x)) (hd : interval.contains d = true) :
    Gives env ⟨expr, some interval⟩ (Scalar.add x d)

/-- The states that a transition may lead to from a state in which its guard holds. -/
structure Transition.Leads [Scalar κ] {vars : List String} (transition : Transition κ)
    (given : String → Option (Value κ)) (before after : State κ vars) : Prop where
  guard : transition.guard.Evaluates (before.reading given) (.bool true)
  assigned : ∀ name (hname : name ∈ vars) update, transition.resets.get? name = some update →
    update.Gives (before.reading given) (after name hname)
  kept : ∀ name (hname : name ∈ vars), name ∉ transition.resets.keys →
    after name hname = before name hname

/-! ## Completed transitions -/

/-- The resets that are missing for some of the variables, each variable once and in order. -/
def Transition.missingResets (resets : NameMap (Update κ)) (vars : List String) :
    List (String × Update κ) :=
  ((firstOccurrences vars).filter (· ∉ resets.keys)).map fun name => (name, { expr := .var name })

/-- A transition and the same one with the resets that it lacks, behind those that it has. Every
variable has a reset, and the two lead to the same states, whatever other names stand for. -/
structure Transition.IsCompleted [Scalar κ] (vars : List String) (old new : Transition κ) :
    Prop where
  source : new.source = old.source
  target : new.target = old.target
  label : new.label = old.label
  guard : new.guard = old.guard
  entries : new.resets.entries = old.resets.entries ++ missingResets old.resets vars
  complete : vars ⊆ new.resets.keys
  leads : ∀ given (before after : State κ vars),
    new.Leads given before after ↔ old.Leads given before after

namespace Transition

variable {resets : NameMap (Update κ)} {vars : List String} {name : String}

/-- `missingResets` leaves out a variable that has a reset. -/
theorem missingResets_cons_of_mem (h : name ∈ resets.keys) :
    missingResets resets (name :: vars) = missingResets resets vars := by
  have hfilter : ((firstOccurrences vars).filter (· ≠ name)).filter (· ∉ resets.keys) =
      (firstOccurrences vars).filter (· ∉ resets.keys) := by
    -- a variable that is filtered out as the first one is filtered out as one with a reset
    rw [List.filter_filter]
    refine List.filter_congr fun other _ => ?_
    by_cases ho : other ∈ resets.keys
    · simp [ho]
    · have hne : other ≠ name := fun e => ho (e ▸ h)
      simp [ho, hne]
  rw [missingResets, firstOccurrences, List.filter_cons_of_neg (by simpa using h), hfilter]
  rfl

/-- `missingResets` begins with a variable without reset, and goes on as if it had one. -/
theorem missingResets_cons_of_not_mem (h : name ∉ resets.keys) (update : Update κ) :
    missingResets resets (name :: vars) =
      (name, { expr := .var name }) :: missingResets (resets.insert name update) vars := by
  have hfilter : ((firstOccurrences vars).filter (· ≠ name)).filter (· ∉ resets.keys) =
      (firstOccurrences vars).filter (· ∉ (resets.insert name update).keys) := by
    rw [List.filter_filter]
    -- having the new reset is the same as being the first variable
    refine List.filter_congr fun other _ => ?_
    simp [NameMap.mem_keys_insert, Bool.and_comm]
  rw [missingResets, firstOccurrences, List.filter_cons_of_pos (by simpa using h), List.map_cons,
    hfilter]
  rfl

/-- `keepReset` for all variables puts `missingResets` behind the others, in the order of the
declarations. -/
theorem entries_foldl_keepReset (resets : NameMap (Update κ)) (vars : List String) :
    (vars.foldl keepReset resets).entries = resets.entries ++ missingResets resets vars := by
  -- induction on the variables; a reset that is added is one less to be missed
  induction vars generalizing resets with
  | nil => exact (List.append_nil _).symm
  | cons name rest ih =>
    rw [List.foldl_cons]
    by_cases h : name ∈ resets.keys
    · rw [keepReset_of_mem h, ih, missingResets_cons_of_mem h]
    · rw [keepReset_of_not_mem h, ih, NameMap.entries_insert_of_not_mem h,
        missingResets_cons_of_not_mem h { expr := .var name }, List.append_assoc,
        List.singleton_append]

/-- `keepReset` for all variables leaves a reset that was there. -/
theorem get?_foldl_keepReset_of_mem (h : name ∈ resets.keys) :
    (vars.foldl keepReset resets).get? name = resets.get? name := by
  obtain ⟨update, hu⟩ := NameMap.mem_keys_iff.1 h
  rw [hu, NameMap.get?_eq_some_iff, entries_foldl_keepReset]
  exact List.mem_append_left _ (NameMap.get?_eq_some_iff.1 hu)

/-- `keepReset` for all variables gives a declared variable without reset an identity reset. -/
theorem get?_foldl_keepReset_of_not_mem (hname : name ∈ vars) (h : name ∉ resets.keys) :
    (vars.foldl keepReset resets).get? name = some { expr := .var name } := by
  obtain ⟨update, hu⟩ := NameMap.mem_keys_iff.1 (mem_keys_foldl_keepReset.2 (.inl hname))
  have hmem := NameMap.get?_eq_some_iff.1 hu
  rw [entries_foldl_keepReset] at hmem
  -- the entry is not an old one, so it was missing
  rcases List.mem_append.1 hmem with hold | hnew
  · exact absurd (NameMap.mem_keys_of_mem hold) h
  · obtain ⟨other, -, he⟩ := List.mem_map.1 hnew
    obtain ⟨rfl, rfl⟩ := Prod.mk.inj he
    exact hu

variable [Scalar κ] {given : String → Option (Value κ)} {before after : State κ vars}

/-- `Gives` of an identity reset is the number that the variable has. -/
theorem gives_var_iff (hname : name ∈ vars) {x : κ} :
    Update.Gives (before.reading given) { expr := .var name } x ↔ x = before name hname := by
  have hreading : before.reading given name = some (.number (before name hname)) := dif_pos hname
  constructor
  -- the disturbance is missing, so only the first rule applies, and then the rule for variables
  · rintro (@⟨_, _, hx⟩)
    cases hx with
    | var h =>
      rw [hreading] at h
      cases h
      rfl
  · rintro rfl
    exact .value (.var hreading)

/-- `Leads` does not tell a completed transition from the transition: saying that a variable keeps
its number is as good as saying nothing. -/
theorem leads_addIdentityResets (transition : Transition κ) :
    (transition.addIdentityResets vars).Leads given before after ↔
      transition.Leads given before after := by
  rw [addIdentityResets]
  change Leads { transition with resets := vars.foldl keepReset transition.resets } .. ↔ _
  constructor
  -- from explicit resets: a kept variable is one whose reset was added
  · intro h
    refine ⟨h.guard, fun name hname update hu => ?_, fun name hname hn => ?_⟩
    · refine h.assigned name hname update ?_
      rwa [get?_foldl_keepReset_of_mem (NameMap.mem_keys_iff.2 ⟨update, hu⟩)]
    · have hgives := h.assigned name hname _ (get?_foldl_keepReset_of_not_mem hname hn)
      exact (gives_var_iff hname).1 hgives
  · intro h
    refine ⟨h.guard, fun name hname update hu => ?_, fun name hname hn => ?_⟩
    · -- the entry is one of the old ones, or the variable was kept
      by_cases hn : name ∈ transition.resets.keys
      · rw [get?_foldl_keepReset_of_mem hn] at hu
        exact h.assigned name hname update hu
      · rw [get?_foldl_keepReset_of_not_mem hname hn] at hu
        cases hu
        exact (gives_var_iff hname).2 (h.kept name hname hn)
    · exact absurd (mem_keys_foldl_keepReset.2 (.inl hname)) hn

/-- `addIdentityResets` completes a transition. -/
theorem isCompleted_addIdentityResets (transition : Transition κ) (vars : List String) :
    transition.IsCompleted vars (transition.addIdentityResets vars) where
  source := rfl
  target := rfl
  label := rfl
  guard := rfl
  entries := entries_foldl_keepReset transition.resets vars
  complete _ hname := mem_keys_foldl_keepReset.2 (.inl hname)
  leads _ _ _ := leads_addIdentityResets transition

end Transition

/-! ## Models -/

/-- A model and the same one with an automaton for its root in which every transition is completed.
Modes and transitions are in their places, and nothing else is different. -/
structure Model.IsCompleted [Scalar κ] (old new : Model κ) (before after : Automaton κ) : Prop where
  body : old.tree.rootComponent.body = .base before
  root : new.tree.rootComponent = { old.tree.rootComponent with body := .base after }
  modes : after.modes = before.modes
  transitions : List.Forall₂ (Transition.IsCompleted old.tree.rootComponent.vars) before.transitions
    after.transitions
  others : ∀ c, c ≠ old.tree.root → new.tree.get c = old.tree.get c
  rootHandle : new.tree.root = old.tree.root
  size : new.tree.size = old.tree.size
  states : new.states = old.states
  settings : new.settings = old.settings
  checks : new.checks = old.checks

namespace IdentityReset

/-- `result` of `result` is `result`: a change of an automaton that is made if there is one, and
then again, is made twice. -/
theorem result_result (model : Model κ) : result (result model) = result model := by
  -- on networks nothing is done, so only automata have to be considered
  have htwice (component : Component κ) :
      ((component.mapAutomaton fun automaton =>
        automaton.addIdentityResets component.vars).mapAutomaton
        fun automaton => automaton.addIdentityResets component.vars) =
        component.mapAutomaton fun automaton => automaton.addIdentityResets component.vars := by
    rcases component with ⟨_, _, _, _, _, _, _ | _⟩
    · simp only [Component.mapAutomaton, Automaton.addIdentityResets_addIdentityResets]
    · rfl
  have hvars (component : Component κ) (f : Automaton κ → Automaton κ) :
      (component.mapAutomaton f).vars = component.vars := by
    rcases component with ⟨_, _, _, _, _, _, _ | _⟩ <;> rfl
  rw [result, result]
  simp only [Tree.root_modify, Tree.modify_modify]
  refine congrArg (fun tree => { model with tree }) (Tree.modify_congr ?_)
  simp only [Function.comp_apply, hvars, htwice]

/-- `run` leads to `result` if it does not fail by itself. -/
theorem model_eq_of_runOn {w w' : Workspace κ} (h : run.runOn w = (.ok (), w')) :
    w'.model = result w.model := by
  cases hn : w.model.tree.rootComponent.isNetwork with
  | false =>
    rw [runOn_run_of_base hn] at h
    obtain ⟨-, rfl⟩ := Prod.mk.inj h
    rfl
  -- a network is refused, so there is no such run
  | true =>
    rw [run, Change.runOn_bind_ok (PassM.runOn_model w)] at h
    simp only [hn, if_true] at h
    cases h

variable [Scalar κ]

/-- `result` completes the transitions of a root that is an automaton. -/
theorem isCompleted_result {model : Model κ} {automaton : Automaton κ}
    (hbody : model.tree.rootComponent.body = .base automaton) :
    model.IsCompleted (result model) automaton
      (automaton.addIdentityResets model.tree.rootComponent.vars) where
  body := hbody
  root := by
    -- the default component has no transitions, so a root outside of the arena is kept, too
    have hdefault : ((default : Component κ).mapAutomaton fun automaton =>
        automaton.addIdentityResets (default : Component κ).vars) = default := rfl
    rw [Tree.rootComponent, result, Tree.root_modify, Tree.get_modify_self_of_default hdefault,
      ← Tree.rootComponent, Component.mapAutomaton, hbody]
  modes := rfl
  transitions := by
    -- transitions are completed one by one, so they correspond by their places
    rw [Automaton.addIdentityResets, List.forall₂_map_right_iff, List.forall₂_same]
    exact fun transition _ => transition.isCompleted_addIdentityResets _
  others c hc := Tree.get_modify_of_ne hc _
  rootHandle := rfl
  size := Tree.size_modify ..
  states := rfl
  settings := rfl
  checks := rfl

/-- The course of a run leads to `result` or leaves the model, whatever the outcome is. -/
theorem course_model_cases {params : String} {checked : Bool} {model after : Model κ}
    {outcome : Except (PassError κ) Unit}
    (h : Pass.Course .identityReset params checked model outcome after) :
    after = model ∨ after = result model := by
  -- the change itself either fails or makes the resets explicit
  have hchanged {before changed : Workspace κ} (hbefore : before.model = model)
      (hmutate : (Pass.mutate .identityReset (Arguments.split params)).runOn before =
        (.ok (), changed)) : changed.model = result model := by
    rw [Pass.mutate, Change.runOn_bind] at hmutate
    split at hmutate
    · next w hread =>
      have hw := Pass.keeps_readParameters .identityReset (Pass.emptyGrammar .identityReset)
        (Arguments.split params) before
      rw [hread] at hw
      rw [model_eq_of_runOn hmutate, hw, hbefore]
    · cases hmutate
  -- a run that stops has changed nothing, and a run that goes on has made the whole change
  cases h with
  | unmet => exact .inl rfl
  | stopped _ hbefore hmutate => exact .inl ((Pass.mutate_atomicOn _ _ _ _ _ hmutate).trans hbefore)
  | corrupted _ hbefore hmutate => exact .inr (hchanged hbefore hmutate)
  | finished _ hbefore hmutate => exact .inr (hchanged hbefore hmutate)

end IdentityReset

open IdentityReset in
/-- On a model that it accepts, the pass completes every transition of the root and changes nothing
else, so each transition leads to the same states as before. Whether the run fails is decided by the
check of the completed model. A further run, whatever its outcome, leaves the completed model as it
is. -/
theorem identity_resets_keep_successors [Scalar κ] {w : Workspace κ} {params : String}
    (hcheck : Pass.identityReset.check w.model = .ok ())
    (hparams : Pass.identityReset.emptyGrammar.read (Arguments.split params) = .ok ()) :
    ∃ w' before after,
      (Pass.identityReset.run params).runOn w = (Pass.identityReset.outcomeOf w'.model, w') ∧
        w.model.IsCompleted w'.model before after ∧
          ∀ params' checked w'' outcome,
            (Pass.identityReset.start params' checked).runOn w' = (outcome, w'') →
              w''.model = w'.model := by
  -- the requirements of the pass ask for an automaton
  have hflat : w.model.tree.isFlat = true := by
    rw [Pass.check_eq (by decide), Requirements.check_eq_ok_iff] at hcheck
    exact Requirements.checkOne_flat_iff.1 (hcheck .flat rfl)
  obtain ⟨automaton, hbody⟩ := Component.exists_automaton hflat
  have hmutate (before : Workspace κ) (hbefore : before.model = w.model) :
      ∃ w', (Pass.mutate .identityReset (Arguments.split params)).runOn before = (.ok (), w') ∧
        w'.model = result w.model := by
    have hnetwork : before.model.tree.rootComponent.isNetwork = false := by
      rw [hbefore, Component.isNetwork]
      exact congrArg (! ·) hflat
    refine ⟨{ before with model := result before.model }, ?_, congrArg result hbefore⟩
    rw [Pass.mutate, Change.runOn_bind_ok (Pass.runOn_readParameters hparams _ _)]
    exact runOn_run_of_base hnetwork
  obtain ⟨outcome, w', hrun, hcourse⟩ := Pass.course_of_start .identityReset params true w
  obtain ⟨houtcome, hmodel⟩ := hcourse.eq_of_mutate hcheck hmutate
  -- success, the completed model, and what a further run does to it
  refine ⟨w', automaton, automaton.addIdentityResets w.model.tree.rootComponent.vars, ?_, ?_, ?_⟩
  · rw [hmodel]
    rw [houtcome] at hrun
    exact hrun
  · rw [hmodel]
    exact isCompleted_result hbody
  · intro params' checked w'' outcome hagain
    rcases course_model_cases (Pass.Course.of_runOn hagain) with hkept | hcompleted
    · exact hkept
    · rw [hcompleted, hmodel, result_result]

/-- Two tanks. The first transition swaps what is in them, up to a disturbance, and the second one
empties one of them. Neither says what becomes of the count. -/
def swappingTanks : Model Int where
  tree := .ofRoot {
    vars := ["left", "count", "right"]
    body := .base {
      modes := .ofList [("resting", {
        name := "resting"
        invariant := .bool true
        urgent := false
        flows := some (.ofList (["left", "count", "right"].map fun name =>
          (name, { expr := .const 0 }))) })]
      transitions := [
        ⟨"resting", "resting", none, .bool true, .ofList [
          ("right", { expr := .var "left" }),
          ("left", { expr := .var "right", disturbance := some (.point 1) })]⟩,
        ⟨"resting", "resting", none, .bool true, .ofList [("right", { expr := .const 0 })]⟩] } }
  initial := .ofList [("resting", .bool true)]
  forbidden := ∅
  settings := .standard
  checks := {}

/-- The swap is left as it is, and nothing else happens to the tanks when the run is repeated. -/
theorem identity_resets_keep_successors_of_swappingTanks :
    ∃ w' before after,
      (Pass.identityReset.run "").runOn { model := swappingTanks } =
          (Pass.identityReset.outcomeOf w'.model, w') ∧
        swappingTanks.IsCompleted w'.model before after ∧
          ∀ params' checked w'' outcome,
            (Pass.identityReset.start params' checked).runOn w' = (outcome, w'') →
              w''.model = w'.model := by
  refine identity_resets_keep_successors (w := { model := swappingTanks }) ?_ rfl
  exact Except.eq_ok_of_isOk (by decide +kernel)

end HybridAutomata
