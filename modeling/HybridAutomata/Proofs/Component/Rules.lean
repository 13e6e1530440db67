import HybridAutomata.Proofs.Component.Check
import HybridAutomata.Proofs.Text.Dotted
/-!
# The rules of components

What is asked of the names that a component declares and of an automaton, in words of their own: no
order of checks, no mode that comes first, no rule twice. The checks decide just these rules.

* `wellNamed_iff`      names, as the check goes through them
* `automatonOk_iff`    automata, as the check goes through them
-/

namespace HybridAutomata

variable {κ : Type}

namespace Component

/-! ## Names -/

/-- The variables, constants and labels together are different identifiers. -/
structure WellNamed (component : Component κ) : Prop where
  distinct : component.declaredNames.Nodup
  identifiers : ∀ name ∈ component.declaredNames, Text.isIdentifier name = true

/-- `WellNamed` in terms of `checkedNames`, where the same names stand in another order. -/
theorem wellNamed_iff {component : Component κ} :
    component.WellNamed ↔ (component.checkedNames {}).Nodup ∧
      ∀ name ∈ component.checkedNames {}, Text.isIdentifier name = true := by
  -- labels stand before constants in `checkedNames` and behind them in `declaredNames`
  have hperm : component.declaredNames.Perm (component.checkedNames {}) := by
    rw [declaredNames, checkedNames, if_pos rfl, List.append_assoc, List.append_assoc]
    exact List.perm_append_comm.append_left component.vars
  constructor
  · intro h
    exact ⟨hperm.nodup_iff.1 h.distinct, fun name hn => h.identifiers name (hperm.mem_iff.2 hn)⟩
  · rintro ⟨hd, hi⟩
    exact ⟨hperm.nodup_iff.2 hd, fun name hn => hi name (hperm.mem_iff.1 hn)⟩

/-- What `declares` finds, of whatever kind, is one of the `declaredNames`. -/
theorem mem_declaredNames_of_declares {component : Component κ} {kind : NameKind} {name : String}
    (h : component.declares kind name = true) : name ∈ component.declaredNames := by
  simp only [declaredNames, List.mem_append]
  cases kind with
  | var => exact .inl (.inl (declares_var_iff.1 h))
  | const => exact .inl (.inr (declares_const_iff.1 h))
  | label => exact .inr (declares_label_iff.1 h)

/-- What a `WellNamed` component `declares` is not empty, being an identifier. -/
theorem WellNamed.ne_empty {component : Component κ} (h : component.WellNamed) {kind : NameKind}
    {name : String} (hd : component.declares kind name = true) : name ≠ "" :=
  Text.ne_empty_of_isIdentifier (h.identifiers name (mem_declaredNames_of_declares hd))

/-! ## Automata -/

/-- `sameNames` compares lists without repetitions as sets. -/
theorem sameNames_iff {left right : List String} (hl : left.Nodup) (hr : right.Nodup) :
    sameNames left right = true ↔ ∀ name, name ∈ left ↔ name ∈ right := by
  -- `sameNames` asks for equal lengths and one inclusion, the other one follows
  simp only [sameNames, Bool.and_eq_true, beq_iff_eq, List.all_eq_true, List.contains_iff_mem]
  constructor
  · rintro ⟨hlength, hsub⟩ name
    refine ⟨hsub name, fun hm => Decidable.byContradiction fun hn => ?_⟩
    -- the right list would be longer
    have hle := (List.nodup_cons.2 ⟨hn, hl⟩).length_le_of_subset (List.cons_subset.2 ⟨hm, hsub⟩)
    rw [List.length_cons] at hle
    omega
  · intro h
    have hle := hl.length_le_of_subset fun name hn => (h name).1 hn
    have hge := hr.length_le_of_subset fun name hn => (h name).2 hn
    exact ⟨by omega, fun name hn => (h name).1 hn⟩

/-- The automaton of a component obeys the rules. -/
structure WellBehaved (component : Component κ) (automaton : Automaton κ) : Prop where
  nonempty : automaton.modes.entries ≠ []
  /-- Modes are filed under their names, which are identifiers. -/
  filed : ∀ entry ∈ automaton.modes.entries,
    entry.1 = entry.2.name ∧ Text.isIdentifier entry.1 = true
  invariant : ∀ mode ∈ automaton.modes.values, mode.invariant ≠ .bool false
  /-- Just the urgent modes have no flows. -/
  flows : ∀ mode ∈ automaton.modes.values, mode.flows.isSome = true ↔ mode.urgent = false
  /-- The modes that are not urgent drive the same variables. -/
  driven : ∃ driven : List String, (∀ name ∈ driven, name ∈ component.vars) ∧
    ∀ mode ∈ automaton.modes.values, mode.urgent = false →
      ∀ name, name ∈ mode.flowMap.keys ↔ name ∈ driven
  /-- Flows mention variables and constants of the component only. -/
  symbols : ∀ mode ∈ automaton.modes.values, mode.urgent = false →
    ∀ flow ∈ mode.flowMap.values, ∀ symbol ∈ flow.expr.vars,
      symbol ∈ component.vars ∨ symbol ∈ component.constants.keys
  /-- Transitions lead from modes to modes, and their labels are not empty. -/
  ends : ∀ transition ∈ automaton.transitions,
    transition.source ∈ automaton.modes.keys ∧ transition.target ∈ automaton.modes.keys
  labels : ∀ transition ∈ automaton.transitions, transition.label ≠ some ""
  /-- Every declared label is used. -/
  used : ∀ label ∈ component.labels, ∃ transition ∈ automaton.transitions,
    transition.label = some label

/-- `checkFlows` compares modes with the first one that is not urgent, so all of them drive what it
drives. -/
theorem AutomatonOk.exists_driven {component : Component κ} {automaton : Automaton κ}
    (h : component.AutomatonOk automaton) :
    ∃ driven : List String, (∀ name ∈ driven, name ∈ component.vars) ∧
      ∀ mode ∈ automaton.modes.values, mode.urgent = false →
        ∀ name, name ∈ mode.flowMap.keys ↔ name ∈ driven := by
  -- a mode that is not urgent is among those that are compared
  have hmem {mode : Mode κ} (hm : mode ∈ automaton.modes.values) (hu : mode.urgent = false) :
      mode ∈ automaton.modes.values.filter fun mode => !mode.urgent :=
    List.mem_filter.2 ⟨hm, by simp [hu]⟩
  cases hmodes : automaton.modes.values.filter fun mode => !mode.urgent with
  | nil =>
    -- there is no mode to drive anything
    refine ⟨[], fun name hn => (List.not_mem_nil hn).elim, fun mode hm hu => ?_⟩
    have hnone := hmem hm hu
    rw [hmodes] at hnone
    cases hnone
  | cons first rest =>
    -- the first mode drives what all of them drive
    have hfirst : first ∈ automaton.modes.values :=
      (List.mem_filter.1 (hmodes ▸ List.mem_cons_self)).1
    refine ⟨first.flowMap.keys, (h.mode first hfirst).flowVars, fun mode hm hu name => ?_⟩
    have hcompared := hmem hm hu
    rw [hmodes] at hcompared
    rcases List.mem_cons.1 hcompared with rfl | hr
    · exact Iff.rfl
    · have hsame := h.sameFlows first rest hmodes mode hr
      exact ((sameNames_iff first.flowMap.nodup_keys mode.flowMap.nodup_keys).1 hsame name).symm

/-- A mode of a `WellBehaved` automaton passes its own check, `ModeOk`. -/
theorem WellBehaved.modeOk {component : Component κ} {automaton : Automaton κ}
    (h : component.WellBehaved automaton) {mode : Mode κ} (hm : mode ∈ automaton.modes.values) :
    component.ModeOk mode where
  name := by
    obtain ⟨entry, he, rfl⟩ := List.mem_map.1 hm
    obtain ⟨hfiled, hi⟩ := h.filed entry he
    rwa [← hfiled]
  invariant := by
    rw [← Bool.not_eq_true, Expr.isFalse_iff]
    exact h.invariant mode hm
  flows := by
    have hflows := h.flows mode hm
    -- flows are there just if the mode is not urgent, as Booleans
    cases hs : mode.flows.isSome <;> cases hu : mode.urgent <;> simp_all
  flowVars name hn := by
    cases hu : mode.urgent with
    | false =>
      obtain ⟨driven, hdriven, hkeys⟩ := h.driven
      exact hdriven name ((hkeys mode hm hu name).1 hn)
    | true =>
      -- an urgent mode has no flows
      have hnone : mode.flows = none := by
        rw [← Option.not_isSome_iff_eq_none, h.flows mode hm, hu]
        exact Bool.noConfusion
      rw [Mode.flowMap, hnone] at hn
      cases hn

/-- `AutomatonOk`, which follows the checks, and `WellBehaved`, which does not, are the same rules.
-/
theorem automatonOk_iff {component : Component κ} {automaton : Automaton κ} :
    component.AutomatonOk automaton ↔ component.WellBehaved automaton := by
  constructor
  · intro h
    -- most rules are those of the check, but for Booleans and the first mode
    exact {
      nonempty := by simpa [NameMap.isEmpty] using h.modes
      filed := fun entry he =>
        ⟨h.filed entry he, h.isIdentifier_of_mem_keys (NameMap.mem_keys_of_mem he)⟩
      invariant := fun mode hm hfalse => by
        have hi := (h.mode mode hm).invariant
        rw [Expr.isFalse_iff.2 hfalse] at hi
        cases hi
      flows := fun mode hm => by simp [(h.mode mode hm).flows]
      driven := h.exists_driven
      symbols := fun mode hm hu flow hf => by
        obtain ⟨entry, he, rfl⟩ := List.mem_map.1 hf
        exact h.flowSymbols mode hm hu entry he
      ends := fun transition ht => (h.transition transition ht).1
      labels := fun transition ht => (h.transition transition ht).2
      used := h.label }
  · intro h
    -- the variables that modes drive are given, so each comparison of the check is known to succeed
    obtain ⟨driven, -, hkeys⟩ := h.driven
    exact {
      modes := by simpa [NameMap.isEmpty] using h.nonempty
      filed := fun entry he => (h.filed entry he).1
      mode := fun mode hm => h.modeOk hm
      transition := fun transition ht => ⟨h.ends transition ht, h.labels transition ht⟩
      label := h.used
      sameFlows := fun first rest hmodes mode hr => by
        -- both modes drive what all modes drive that are not urgent
        have hmem (other : Mode κ) (ho : other ∈ first :: rest) (name : String) :
            name ∈ other.flowMap.keys ↔ name ∈ driven := by
          rw [← hmodes, List.mem_filter] at ho
          exact hkeys other ho.1 (by simpa using ho.2) name
        refine (sameNames_iff first.flowMap.nodup_keys mode.flowMap.nodup_keys).2 fun name => ?_
        exact (hmem first List.mem_cons_self name).trans
          (hmem mode (List.mem_cons_of_mem _ hr) name).symm
      flowSymbols := fun mode hm hu entry he =>
        h.symbols mode hm hu entry.2 (List.mem_map_of_mem he) }

end Component

end HybridAutomata
