import HybridAutomata.Pass.Registry
import HybridAutomata.Proofs.ForStd.Except
/-!
# Requirements that are met

A set of requirements is met if each of its members is, whatever the order of the checks.
-/

namespace HybridAutomata

variable {κ : Type} [Scalar κ] {model : Model κ}

theorem Requirements.mem_checkOrder (requirement : Requirement) : requirement ∈ checkOrder := by
  cases requirement <;> decide

/-- `Requirements.check` accepts a model just if it meets every member of the set. -/
theorem Requirements.check_eq_ok_iff {set : Requirements} :
    set.check model = .ok () ↔
      ∀ requirement, set.contains requirement = true → checkOne model requirement = .ok () := by
  rw [check, List.forM_eq_ok_iff]
  constructor
  -- each requirement of the set is checked in turn
  · intro h requirement hr
    have hone := h requirement (mem_checkOrder requirement)
    rwa [if_pos hr] at hone
  · intro h requirement _
    split
    · next hr => exact h requirement hr
    · rfl

/-- Only `copyInstance` requires more than its set of `requirements`. -/
theorem Pass.check_eq {pass : Pass} (h : pass ≠ .copyInstance) :
    pass.check model = pass.requirements.check model := by
  have hpure : (pass.requirements.check model >>= fun _ => .ok ()) =
      pass.requirements.check model := by
    cases pass.requirements.check model <;> rfl
  cases pass with
  | copyInstance => exact absurd rfl h
  | _ => exact hpure

/-! ## Single requirements -/

namespace Requirements

/-- A model meets `flat` just if its tree has an automaton at the root. -/
theorem checkOne_flat_iff : checkOne model .flat = .ok () ↔ model.tree.isFlat = true := by
  rw [checkOne]
  split <;> simp_all

/-- A model meets `pointConstants` just if all listed constants with a value are points. -/
theorem checkOne_pointConstants_iff :
    checkOne model .pointConstants = .ok () ↔
      ∀ entry ∈ model.allConstants.entries, ∀ interval, entry.2 = some interval →
        interval.isPoint = true := by
  -- the search for an interval that is no point is in vain
  have hnone : intervalConstant? model.allConstants = Option.none ↔
      ∀ entry ∈ model.allConstants.entries, ∀ interval, entry.2 = some interval →
        interval.isPoint = true := by
    rw [intervalConstant?, List.findSome?_eq_none_iff]
    refine forall_congr' fun entry => imp_congr_right fun _ => ?_
    rcases entry with ⟨name, _ | interval⟩ <;> simp
  rw [← hnone, checkOne]
  split <;> simp_all

/-- A model meets `noDisjunctions` just if none of its conditions uses `or`. -/
theorem checkOne_noDisjunctions_iff :
    checkOne model .noDisjunctions = .ok () ↔
      ∀ states, ∀ entry ∈ (model.states states).entries, entry.2.uses .or = false := by
  -- no disjunction is found just if neither set of states has one
  have hnone : disjunction? model = Option.none ↔
      ∀ states, ∀ entry ∈ (model.states states).entries, entry.2.uses .or = false := by
    have hstates (p : StateSet → Prop) :
        (∀ states ∈ [StateSet.initial, .forbidden], p states) ↔ ∀ states, p states :=
      ⟨fun h states => h states (by cases states <;> simp), fun h states _ => h states⟩
    rw [disjunction?, List.findSome?_eq_none_iff, hstates]
    simp
  rw [← hnone, checkOne]
  split <;> simp_all

/-- A model meets `oneVariable` just if there are variables that can be listed. -/
theorem checkOne_oneVariable_iff :
    checkOne model .oneVariable = .ok () ↔ ∃ vars, model.allVariables = .ok vars ∧ vars ≠ [] := by
  rw [checkOne]
  cases model.allVariables with
  | error cause => simp
  | ok vars => cases vars <;> simp

/-- A model meets `deterministic` just if no component of its tree is nondeterministic. -/
theorem checkOne_deterministic_iff :
    checkOne model .deterministic = .ok () ↔ model.tree.isNondeterministic = false := by
  rw [checkOne]
  split <;> simp_all

/-- A model meets `noUrgentModes` just if no component of its tree has an urgent mode. -/
theorem checkOne_noUrgentModes_iff :
    checkOne model .noUrgentModes = .ok () ↔ model.tree.hasUrgentMode = false := by
  rw [checkOne]
  split <;> simp_all

/-- A model meets `constantsDefined` just if all listed constants have values. -/
theorem checkOne_constantsDefined_iff :
    checkOne model .constantsDefined = .ok () ↔
      ∀ entry ∈ model.allConstants.entries, entry.2.isSome = true := by
  have hnone : model.allConstants.entries.find? (fun entry => entry.2.isNone) = Option.none ↔
      ∀ entry ∈ model.allConstants.entries, entry.2.isSome = true := by
    simp [List.find?_eq_none, Option.isSome_iff_ne_none]
  rw [← hnone, checkOne]
  split
  · next he => simp only [he, reduceCtorEq]
  · next he => simp only [he]

end Requirements

/-- `rename` requires a single automaton only. -/
theorem Pass.check_rename_of_isFlat (hflat : model.tree.isFlat = true) :
    Pass.check .rename model = .ok () := by
  rw [check_eq (by decide), Requirements.check_eq_ok_iff]
  intro requirement hr
  -- the set has one member
  have hone : requirement = .flat := by
    cases requirement <;> first | rfl | cases hr
  rw [hone]
  exact Requirements.checkOne_flat_iff.2 hflat

end HybridAutomata
