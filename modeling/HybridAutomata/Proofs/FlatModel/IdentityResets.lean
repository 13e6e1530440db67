import HybridAutomata.Pass.IdentityReset
import HybridAutomata.Proofs.FlatModel.Parts
import HybridAutomata.Proofs.Pass.Outcome
/-!
# Identity resets of a single automaton

The resets that a transition is given are those it lacks, so a second time nothing is missing. What
is added keeps a variable as it is, which a change of expressions respects if it leaves the
variables alone.

* `keepReset`                   the step for one variable
* `addResets_addResets`         adding resets twice is adding them once
* `Acceptable.addResets`        acceptable parts stay acceptable
* `runOn_run_of_base`           what a run of the pass does to a model
* `runOn_identityReset`         a run of the pass adds the resets to the parts
-/

namespace HybridAutomata

variable {κ : Type}

/-! ## Transitions -/

namespace Transition

/-- Adds a reset that keeps a variable, unless the variable has one. -/
def keepReset (resets : NameMap (Update κ)) (name : String) : NameMap (Update κ) :=
  if resets.contains name then resets else resets.insert name { expr := .var name }

theorem resets_addIdentityResets (transition : Transition κ) (vars : List String) :
    (transition.addIdentityResets vars).resets = vars.foldl keepReset transition.resets := rfl

variable {resets : NameMap (Update κ)} {vars : List String} {name other : String}

/-- `keepReset` leaves a reset that is there. -/
theorem keepReset_of_mem (h : name ∈ resets.keys) : keepReset resets name = resets := by
  unfold keepReset
  rw [if_pos (NameMap.contains_iff.2 h)]

/-- `keepReset` adds a reset that is missing, behind the others. -/
theorem keepReset_of_not_mem (h : name ∉ resets.keys) :
    keepReset resets name = resets.insert name { expr := .var name } := by
  unfold keepReset
  rw [NameMap.contains_eq_false_iff.2 h]
  rfl

/-- `keepReset` leads to resets for the variable and for those that had one. -/
theorem mem_keys_keepReset :
    other ∈ (keepReset resets name).keys ↔ other = name ∨ other ∈ resets.keys := by
  by_cases h : name ∈ resets.keys
  · rw [keepReset_of_mem h, or_iff_right_of_imp]
    exact fun he => he ▸ h
  · rw [keepReset_of_not_mem h, NameMap.mem_keys_insert]

/-- `keepReset` for all variables leads to resets for all of them and for those that had one. -/
theorem mem_keys_foldl_keepReset :
    other ∈ (vars.foldl keepReset resets).keys ↔ other ∈ vars ∨ other ∈ resets.keys := by
  -- induction on the variables; the resets grow from one to the next
  induction vars generalizing resets with
  | nil => simp
  | cons name rest ih =>
    rw [List.foldl_cons, ih, mem_keys_keepReset, List.mem_cons, or_assoc, or_left_comm]

/-- `keepReset` adds nothing for variables that have resets. -/
theorem foldl_keepReset_of_subset (h : vars ⊆ resets.keys) :
    vars.foldl keepReset resets = resets := by
  induction vars with
  | nil => rfl
  | cons name rest ih =>
    rw [List.foldl_cons, keepReset_of_mem (h List.mem_cons_self)]
    exact ih fun other ho => h (List.mem_cons_of_mem _ ho)

/-- `addIdentityResets` twice is `addIdentityResets` once. -/
theorem addIdentityResets_addIdentityResets (transition : Transition κ) (vars : List String) :
    (transition.addIdentityResets vars).addIdentityResets vars =
      transition.addIdentityResets vars := by
  -- after the first time no variable lacks a reset
  have hresets : vars.foldl keepReset (vars.foldl keepReset transition.resets) =
      vars.foldl keepReset transition.resets :=
    foldl_keepReset_of_subset fun name hn => mem_keys_foldl_keepReset.2 (.inl hn)
  show { transition with
    resets := vars.foldl keepReset (vars.foldl keepReset transition.resets) } = _
  rw [hresets]
  rfl

/-- `keepReset` may be swapped with a change of expressions that leaves the variable alone. -/
theorem keepReset_mapValues {f : Expr κ → Expr κ} (hf : f (.var name) = .var name) :
    keepReset (resets.mapValues fun update => { update with expr := f update.expr }) name =
      (keepReset resets name).mapValues fun update => { update with expr := f update.expr } := by
  -- the change of expressions keeps the keys, so both sides agree on what is missing
  by_cases h : name ∈ resets.keys
  · rw [keepReset_of_mem h, keepReset_of_mem]
    rwa [NameMap.keys_mapValues]
  · rw [keepReset_of_not_mem h, keepReset_of_not_mem, NameMap.mapValues_insert, hf]
    rwa [NameMap.keys_mapValues]

/-- `addIdentityResets` may be swapped with a change of expressions that leaves the variables alone.
-/
theorem addIdentityResets_mapExprs {f : Expr κ → Expr κ} (transition : Transition κ)
    (hf : ∀ name ∈ vars, f (.var name) = .var name) :
    (transition.mapExprs f).addIdentityResets vars =
      (transition.addIdentityResets vars).mapExprs f := by
  have key (resets : NameMap (Update κ)) :
      vars.foldl keepReset (resets.mapValues fun update => { update with expr := f update.expr }) =
        (vars.foldl keepReset resets).mapValues fun update =>
          { update with expr := f update.expr } := by
    -- induction on the variables; the first one is swapped by the lemma for one variable
    induction vars generalizing resets with
    | nil => rfl
    | cons name rest ih =>
      rw [List.foldl_cons, List.foldl_cons, keepReset_mapValues (hf name List.mem_cons_self)]
      exact ih (fun other ho => hf other (List.mem_cons_of_mem _ ho)) _
  exact congrArg (fun resets => { transition.mapExprs f with resets }) (key transition.resets)

variable [Scalar κ]

/-- `keepReset` adds no disturbance, so the automaton does not become nondeterministic by it. -/
theorem any_keepReset (resets : NameMap (Update κ)) (name : String) :
    (keepReset resets name).values.any Update.isNondeterministic =
      resets.values.any Update.isNondeterministic := by
  by_cases h : name ∈ resets.keys
  · rw [keepReset_of_mem h]
  · rw [keepReset_of_not_mem h, NameMap.values, NameMap.entries_insert_of_not_mem h, NameMap.values]
    simp [Update.isNondeterministic]

/-- `keepReset` for all variables adds no disturbance. -/
theorem any_foldl_keepReset (vars : List String) (resets : NameMap (Update κ)) :
    (vars.foldl keepReset resets).values.any Update.isNondeterministic =
      resets.values.any Update.isNondeterministic := by
  -- induction on the variables, one step for each
  induction vars generalizing resets with
  | nil => rfl
  | cons name rest ih => rw [List.foldl_cons, ih, any_keepReset]

end Transition

/-! ## Automata -/

namespace Automaton

variable {vars : List String}

/-- `addIdentityResets` of an automaton, twice. -/
theorem addIdentityResets_addIdentityResets (automaton : Automaton κ) (vars : List String) :
    (automaton.addIdentityResets vars).addIdentityResets vars =
      automaton.addIdentityResets vars := by
  simp [addIdentityResets, Transition.addIdentityResets_addIdentityResets]

/-- `addIdentityResets` of an automaton may be swapped with a change of expressions that leaves the
variables alone. -/
theorem addIdentityResets_mapExprs {f : Expr κ → Expr κ} (automaton : Automaton κ)
    (hf : ∀ name ∈ vars, f (.var name) = .var name) :
    (automaton.mapExprs f).addIdentityResets vars =
      (automaton.addIdentityResets vars).mapExprs f := by
  simp [addIdentityResets, mapExprs, Transition.addIdentityResets_mapExprs _ hf]

/-- `addIdentityResets` does not make an automaton nondeterministic. -/
theorem isNondeterministic_addIdentityResets [Scalar κ] (automaton : Automaton κ)
    (vars : List String) :
    (automaton.addIdentityResets vars).isNondeterministic = automaton.isNondeterministic := by
  have htransition (transition : Transition κ) :
      (transition.addIdentityResets vars).resets.values.any Update.isNondeterministic =
        transition.resets.values.any Update.isNondeterministic := by
    rw [Transition.resets_addIdentityResets, Transition.any_foldl_keepReset]
  simp [isNondeterministic, addIdentityResets, Function.comp_def, htransition]

end Automaton

/-- `AutomatonOk` does not look at resets, so adding some keeps it. -/
theorem Component.AutomatonOk.addIdentityResets {component : Component κ} {automaton : Automaton κ}
    (h : component.AutomatonOk automaton) (vars : List String) :
    component.AutomatonOk (automaton.addIdentityResets vars) where
  modes := h.modes
  filed := h.filed
  mode := h.mode
  -- a transition keeps its ends and its guard, and has more resets
  transition transition ht := by
    obtain ⟨old, ho, rfl⟩ := List.mem_map.1 ht
    exact h.transition old ho
  label label hl := by
    obtain ⟨old, ho, he⟩ := h.label label hl
    exact ⟨_, List.mem_map_of_mem ho, he⟩
  sameFlows := h.sameFlows
  flowSymbols := h.flowSymbols

/-! ## Runs -/

namespace IdentityReset

/-- The model with all resets of its root made explicit. -/
def result (model : Model κ) : Model κ :=
  { model with
    tree := model.tree.modify model.tree.root fun component =>
      component.mapAutomaton fun automaton => automaton.addIdentityResets component.vars }

/-- A run on a model with an automaton as its root does not fail by itself, and leads to `result`.
-/
theorem runOn_run_of_base {w : Workspace κ} (h : w.model.tree.rootComponent.isNetwork = false) :
    run.runOn w = (.ok (), { w with model := result w.model }) := by
  rw [run, Change.runOn_bind_ok (PassM.runOn_model w)]
  simp only [h, Bool.false_eq_true, if_false]
  rw [PassM.runOn_modifyTree]
  rfl

end IdentityReset

/-! ## Models with a single automaton -/

namespace FlatModel

/-- Every transition says what becomes of each variable. -/
def addResets (flat : FlatModel κ) : FlatModel κ :=
  { flat with automaton := flat.automaton.addIdentityResets flat.vars }

/-- `addResets` twice is `addResets` once. -/
theorem addResets_addResets (flat : FlatModel κ) : flat.addResets.addResets = flat.addResets := by
  unfold addResets
  rw [Automaton.addIdentityResets_addIdentityResets]

/-- A run of the pass makes the change `addResets` of the parts. -/
theorem Represents.runOn_identityReset {flat : FlatModel κ} {w : Workspace κ}
    (h : flat.Represents w.model) :
    IdentityReset.run.runOn w = (.ok (), { w with model := w.model.withFlat flat.addResets }) := by
  have hbase : w.model.tree.rootComponent.isNetwork = false := by
    rw [Component.isNetwork, h.flat_tree.isBase]
    rfl
  -- what is computed from the root of the model is what is computed from the parts
  have htree : w.model.tree.modify w.model.tree.root (fun component =>
      component.mapAutomaton fun automaton => automaton.addIdentityResets component.vars) =
      w.model.tree.modify w.model.tree.root fun _ => flat.addResets.component :=
    h.modify_root rfl
  rw [IdentityReset.runOn_run_of_base hbase, IdentityReset.result, htree,
    h.withFlat_eq_of_states flat.addResets rfl]

variable [Scalar κ]

/-- `addResets` keeps parts acceptable: no requirement and no rule looks at what a reset says, but
for disturbances. -/
theorem Acceptable.addResets {flat : FlatModel κ} (h : flat.Acceptable) :
    flat.addResets.Acceptable where
  distinct := h.distinct
  identifiers := h.identifiers
  -- only the automaton changes, and its rules allow for more resets
  automaton := (h.automaton.addIdentityResets flat.vars).congr rfl rfl rfl
  nonempty := h.nonempty
  keys := h.keys
  names := h.names
  points := h.points
  noDisjunctions := h.noDisjunctions
  oneVariable := h.oneVariable
  deterministic := (flat.automaton.isNondeterministic_addIdentityResets flat.vars).trans
    h.deterministic
  noUrgentModes := h.noUrgentModes

end FlatModel

end HybridAutomata
