import HybridAutomata.Proofs.Expr.Folding
import HybridAutomata.Proofs.FlatModel.Parts
import HybridAutomata.Proofs.SubstituteConstants.Components
/-!
# Constants of a single automaton

The constants of a single automaton are not qualified, and their values are what they are declared
with. Putting the values in takes all constants away, so a second time there is nothing to put in,
and what was folded once stays as it is.

* `substituteConstants_substituteConstants`   substituting twice is substituting once
* `Acceptable.substituteConstants`            acceptable parts stay acceptable
* `runOn_substituteConstants`                 a run substitutes the constants of the parts
-/

namespace HybridAutomata

variable {κ : Type}

/-! ## Automata with changed expressions -/

namespace Automaton

/-- `mapExprs` makes no mode urgent and none not. -/
theorem hasUrgentMode_mapExprs (automaton : Automaton κ) (f : Expr κ → Expr κ) :
    (automaton.mapExprs f).hasUrgentMode = automaton.hasUrgentMode := by
  simp [hasUrgentMode, mapExprs, Mode.mapExprs, Function.comp_def]

/-- `mapExprs` leaves disturbances alone, which are no expressions. -/
theorem isNondeterministic_mapExprs [Scalar κ] (automaton : Automaton κ) (f : Expr κ → Expr κ) :
    (automaton.mapExprs f).isNondeterministic = automaton.isNondeterministic := by
  have hupdate (update : Update κ) :
      Update.isNondeterministic { update with expr := f update.expr } =
        update.isNondeterministic := rfl
  unfold isNondeterministic
  simp only [mapExprs, NameMap.values_mapValues, List.any_map, Function.comp_def,
    Mode.flowMap_mapExprs, Transition.mapExprs, hupdate]

/-- `mapExprs` of a function that changes nothing changes nothing. -/
theorem mapExprs_eq_self (automaton : Automaton κ) {f : Expr κ → Expr κ} (hf : ∀ e, f e = e) :
    automaton.mapExprs f = automaton := by
  have hupdates (updates : NameMap (Update κ)) :
      (updates.mapValues fun update => { update with expr := update.expr }) = updates :=
    NameMap.ext (List.map_id _)
  have hmode (mode : Mode κ) : mode.mapExprs f = mode := by
    -- a mode may be without flows
    rcases mode with ⟨_, _, _, _ | flows⟩ <;> simp [Mode.mapExprs, hf, hupdates]
  have htransition (transition : Transition κ) : transition.mapExprs f = transition := by
    simp [Transition.mapExprs, hf, hupdates]
  have hmodes : (automaton.modes.mapValues fun mode => mode.mapExprs f) = automaton.modes := by
    simp only [hmode]
    exact NameMap.ext (List.map_id _)
  simp [mapExprs, hmodes, htransition]

end Automaton

/-! ## Models with a single automaton -/

namespace FlatModel

/-- The values of constants, which are points, as expressions. -/
def values (flat : FlatModel κ) : NameMap (Expr κ) :=
  flat.constants.mapValues fun interval => .const interval.lower

/-- The values in the place of the constants, which disappear. -/
def substituteConstants [Scalar κ] (flat : FlatModel κ) : FlatModel κ :=
  { flat with
    constants := ∅
    automaton := flat.automaton.mapExprs fun e => e.substitute flat.values
    states := fun states =>
      (flat.states states).mapValues fun e => (e.substitute flat.values).simplify }

/-- `values` are numbers. -/
theorem eq_const_of_get?_values {flat : FlatModel κ} {name : String} {e : Expr κ}
    (h : flat.values.get? name = some e) : ∃ number, e = .const number := by
  rw [values, NameMap.get?_mapValues] at h
  obtain ⟨interval, -, rfl⟩ := Option.map_eq_some_iff.1 h
  exact ⟨interval.lower, rfl⟩

/-- `values` has an entry for every constant. -/
theorem exists_get?_values {flat : FlatModel κ} {name : String} (h : name ∈ flat.constants.keys) :
    ∃ e, flat.values.get? name = some e := by
  obtain ⟨interval, hi⟩ := NameMap.mem_keys_iff.1 h
  exact ⟨.const interval.lower, by rw [values, NameMap.get?_mapValues, hi]; rfl⟩

variable [Scalar κ]

/-- `substituteConstants` twice is once: after the first time there are no constants left, and
nothing to fold. -/
theorem substituteConstants_substituteConstants (flat : FlatModel κ) :
    flat.substituteConstants.substituteConstants = flat.substituteConstants := by
  have hvalues : flat.substituteConstants.values = ∅ := rfl
  have hautomaton : (flat.substituteConstants.automaton.mapExprs fun e =>
      e.substitute flat.substituteConstants.values) = flat.substituteConstants.automaton := by
    rw [hvalues]
    exact Automaton.mapExprs_eq_self _ Expr.substitute_empty
  have hstates (states : StateSet) :
      ((flat.substituteConstants.states states).mapValues fun e =>
        (e.substitute flat.substituteConstants.values).simplify) =
      flat.substituteConstants.states states := by
    -- without constants nothing is put in, and what was folded stays
    simp only [hvalues, Expr.substitute_empty]
    unfold substituteConstants
    simp only [NameMap.mapValues_mapValues, Expr.simplify_simplify]
  calc flat.substituteConstants.substituteConstants
      = { flat.substituteConstants with
          automaton := flat.substituteConstants.automaton.mapExprs fun e =>
            e.substitute flat.substituteConstants.values
          states := fun states => (flat.substituteConstants.states states).mapValues fun e =>
            (e.substitute flat.substituteConstants.values).simplify } := rfl
    _ = flat.substituteConstants := by rw [hautomaton, funext hstates]

namespace Acceptable

variable {flat : FlatModel κ}

/-- A name of a condition after `substituteConstants` was there before and is no constant. -/
theorem mem_vars_of_substitute {e : Expr κ} {name : String}
    (h : name ∈ ((e.substitute flat.values).simplify).vars) :
    name ∈ e.vars ∧ name ∉ flat.constants.keys := by
  -- what is put in are numbers, so no name comes in with them
  obtain ⟨hn, hnone⟩ := Expr.mem_vars_substitute_of_const
    (fun _ _ hg => eq_const_of_get?_values hg) (Expr.mem_vars_of_simplify h)
  refine ⟨hn, fun hc => ?_⟩
  obtain ⟨value, hv⟩ := exists_get?_values hc
  rw [hnone] at hv
  cases hv

/-- `substituteConstants` keeps parts acceptable. -/
theorem substituteConstants (h : flat.Acceptable) : flat.substituteConstants.Acceptable := by
  have hchecked : flat.substituteConstants.component.checkedNames {} = flat.vars ++ flat.labels :=
    List.append_nil _
  -- every new condition comes from an old one under the same mode
  have hstates {states : StateSet} {entry : String × Expr κ}
      (he : entry ∈ (flat.substituteConstants.states states).entries) :
      ∃ old ∈ (flat.states states).entries,
        (old.1, (old.2.substitute flat.values).simplify) = entry :=
    List.mem_map.1 he
  constructor
  case distinct =>
    rw [hchecked]
    exact (List.nodup_append.1 h.distinct).1
  case identifiers =>
    rw [hchecked]
    exact fun name hn => h.identifiers name (List.mem_append_left _ hn)
  case automaton =>
    -- the rules of automata have been carried over already, with the values as numbers
    have hautomaton := h.automaton.substitute
      (fun _ _ hg => eq_const_of_get?_values hg) fun name hn =>
      exists_get?_values (flat.keys_constants_component ▸ hn)
    exact hautomaton.congr rfl rfl rfl
  case nonempty =>
    have hnonempty := h.nonempty
    rw [NameMap.isEmpty] at hnonempty ⊢
    exact List.isEmpty_map.trans hnonempty
  case keys =>
    intro states mode hm
    obtain ⟨entry, he, rfl⟩ := List.mem_map.1 hm
    obtain ⟨old, ho, rfl⟩ := hstates he
    have hkey := h.keys states _ (NameMap.mem_keys_of_mem ho)
    rwa [FlatModel.substituteConstants, Automaton.mapExprs, NameMap.keys_mapValues]
  case names =>
    intro states entry he name hn
    obtain ⟨old, ho, rfl⟩ := hstates he
    obtain ⟨hold, hc⟩ := mem_vars_of_substitute hn
    exact .inl ((h.names states old ho name hold).resolve_right hc)
  case points =>
    intro entry he
    cases he
  case noDisjunctions =>
    intro states entry he
    obtain ⟨old, ho, rfl⟩ := hstates he
    refine Bool.eq_false_iff.2 fun hu => ?_
    -- a disjunction is not brought in by numbers, and not by folding
    have hold := Expr.uses_of_substitute (fun _ _ hg => eq_const_of_get?_values hg)
      (Expr.uses_of_simplify hu)
    rw [h.noDisjunctions states old ho] at hold
    cases hold
  case oneVariable => exact h.oneVariable
  case deterministic => exact (Automaton.isNondeterministic_mapExprs ..).trans h.deterministic
  case noUrgentModes => exact (Automaton.hasUrgentMode_mapExprs ..).trans h.noUrgentModes

end Acceptable

/-! ## Runs -/

namespace Represents

variable {flat : FlatModel κ} {model : Model κ}

/-- `pointValue` of a constant of the root is the value that it is declared with. -/
theorem pointValue_root (h : flat.Represents model) (hok : flat.Acceptable)
    {entry : String × Interval κ} (he : entry ∈ flat.constants.entries) :
    SubstituteConstants.pointValue model.tree model.tree.root entry.1 =
      .ok (.const entry.2.lower) := by
  have hvalue : model.tree.rootComponent.constants.get? entry.1 = some (some entry.2) := by
    rw [h.root]
    exact NameMap.get?_eq_some_iff.2 (List.mem_map_of_mem he)
  refine SubstituteConstants.pointValue_eq_ok_iff.2 ⟨entry.2, entry.2.lower, ?_, ?_, rfl⟩
  · rw [h.flat_tree.constantValue_root, hvalue]
  · rw [Interval.value?, if_pos (hok.points entry he)]

/-- `pointValues` of the root are the `values` of the parts. -/
theorem pointValues_root (h : flat.Represents model) (hok : flat.Acceptable) :
    SubstituteConstants.pointValues model.tree model.tree.root = .ok flat.values := by
  have hkeys : (model.tree.get model.tree.root).constants.keys =
      flat.constants.entries.map Prod.fst := by
    have hroot : model.tree.get model.tree.root = flat.component := h.root
    rw [hroot]
    exact flat.keys_constants_component
  -- each look-up gives the declared value, so none of them can fail
  have hentries : (flat.constants.entries.map Prod.fst).mapM (fun name => do
      pure (name, ← SubstituteConstants.pointValue model.tree model.tree.root name)) =
      flat.constants.entries.mapM fun entry =>
        (pure (entry.1, .const entry.2.lower) : Except (ModelError κ) (String × Expr κ)) :=
    List.mapM_map_congr fun entry he => by rw [h.pointValue_root hok he]; rfl
  have hvalues : NameMap.ofList flat.values.entries = flat.values :=
    NameMap.ext (NameMap.entries_ofList flat.values.nodup_keys)
  rw [SubstituteConstants.pointValues, hkeys, hentries, List.mapM_pure]
  exact congrArg Except.ok hvalues

/-- `allValues` are those of the root, which is the only component. -/
theorem allValues_eq (h : flat.Represents model) (hok : flat.Acceptable) :
    SubstituteConstants.allValues model.tree = .ok [(model.tree.root, flat.values)] := by
  rw [SubstituteConstants.allValues, h.flat_tree.descendants_root, List.mapM_cons, List.mapM_nil,
    h.pointValues_root hok]
  rfl

omit [Scalar κ] in
/-- `qualifiedValues` of the root are its values, since its names are not qualified. -/
theorem qualifiedValues_eq (h : flat.Represents model) :
    SubstituteConstants.qualifiedValues model.tree [(model.tree.root, flat.values)] =
      flat.values := by
  have hrekey : SubstituteConstants.qualifiedValues model.tree [(model.tree.root, flat.values)] =
      flat.values.rekey (Tree.qualify (model.tree.path model.tree.root)) := by
    rw [SubstituteConstants.qualifiedValues, List.flatMap_singleton]
    rfl
  rw [hrekey, NameMap.rekey_eq_self fun name _ => h.flat_tree.qualify_root name]

/-- A run of the pass makes the change `substituteConstants` of the parts. -/
theorem runOn_substituteConstants {w : Workspace κ} (h : flat.Represents w.model)
    (hok : flat.Acceptable) :
    SubstituteConstants.run.runOn w =
      (.ok (), { w with model := w.model.withFlat flat.substituteConstants }) := by
  -- the root is all that is changed in the tree
  have htree : SubstituteConstants.resultTree w.model.tree [(w.model.tree.root, flat.values)] =
      w.model.tree.modify w.model.tree.root fun _ => flat.substituteConstants.component :=
    h.modify_root rfl
  rw [SubstituteConstants.runOn_run, h.allValues_eq hok]
  simp only [SubstituteConstants.result, h.qualifiedValues_eq, htree, Model.mapConditions,
    h.initial_eq, h.forbidden_eq]
  rfl

end Represents

end FlatModel

end HybridAutomata
