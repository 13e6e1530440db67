import HybridAutomata.Proofs.ForStd.Option
import HybridAutomata.Proofs.Tree.Climb
/-!
# Look-ups that come to an end

Nothing is assumed about links here: the links of a component may lead to the instance of another
one, and an instance may name any component as the network around it. So the look-up of a constant
may go anywhere, and round in a circle. It settles if it comes to an end.

The number of steps that a look-up is given is enough for every look-up that settles: a longer one
uses a binding twice. So a circle is reported just for the look-ups that never end.

* `constantWithin_isCircular_iff`   what is reported after a number of steps
* `constantValue_isCircular_iff`    a circle is reported just if the look-up does not settle
-/

namespace HybridAutomata

variable {κ : Type}

/-- A complaint about going round in a circle, or down without end. -/
def ModelError.IsCircular : ModelError κ → Prop
  | .circularBinding _ _ | .circularNesting _ => True
  | _ => False

namespace Tree

/-- Where the look-up of a constant goes on: the constant has no value of its own, and the instance
to which the links of its component lead binds it. -/
def next? (tree : Tree κ) (constant : Handle × String) : Option (Handle × String) :=
  match (tree.get constant.1).constants.get? constant.2,
    tree.outer? .const constant.1 constant.2 with
  | some none, .ok target => target
  | _, _ => none

/-- The look-up of a constant comes to an end. -/
def Settles (tree : Tree κ) (c : Handle) (name : String) : Prop :=
  ∃ steps, Option.iterate tree.next? steps (c, name) = none

variable {tree : Tree κ} {c b : Handle} {name outer : String} {steps : Nat}

/-- `next?` goes on from constants without a value of their own that are bound. -/
theorem next?_eq_some_iff : tree.next? (c, name) = some (b, outer) ↔
    (tree.get c).constants.get? name = some none ∧
      tree.outer? .const c name = .ok (some (b, outer)) := by
  rw [next?]
  rcases (tree.get c).constants.get? name with _ | _ | own <;>
    rcases tree.outer? .const c name with cause | _ | target <;> simp

/-- From a component whose links are those of its entry, `next?` goes on in the network that holds
it. -/
theorem LinkOk.eq_of_next? {owner : Handle} {own : String} {inst : Instance}
    (h : tree.LinkOk owner own inst) (he : (own, inst) ∈ (tree.get owner).children.entries)
    (hnext : tree.next? (inst.child, name) = some (b, outer)) : b = owner := by
  have ho := (next?_eq_some_iff.1 hnext).2
  rw [h.outer?_eq he] at ho
  obtain ⟨_, -, htarget⟩ := Option.map_eq_some_iff.1 (Except.ok.inj ho)
  exact (Prod.mk.inj htarget).1.symm

/-- From a component without a parent, `next?` goes nowhere. -/
theorem next?_ne_some_of_parent_eq_none (h : (tree.get c).parent = none) :
    tree.next? (c, name) ≠ some (b, outer) := by
  intro hnext
  cases (outer?_of_parent_eq_none h .const name).symm.trans (next?_eq_some_iff.1 hnext).2

/-- A look-up that goes on `Settles` if the rest of it does. -/
theorem Settles.of_next? (h : ∀ b outer, tree.next? (c, name) = some (b, outer) →
    tree.Settles b outer) : tree.Settles c name := by
  -- the look-up ends at once, or one step later than the rest
  cases hnext : tree.next? (c, name) with
  | none => exact ⟨1, by rw [Option.iterate_succ, hnext]; rfl⟩
  | some target =>
    obtain ⟨steps, hend⟩ := h target.1 target.2 hnext
    exact ⟨steps + 1, by rw [Option.iterate_succ, hnext]; exact hend⟩

/-! ## Enough steps -/

/-- What the constants of instances are bound to, all over the arena, as far as the instances
themselves tell. -/
def targets (tree : Tree κ) : List (Handle × String) :=
  (List.range tree.size).flatMap fun i => (tree.get ⟨i⟩).children.values.flatMap fun inst =>
    (inst.bindings .const).map fun binding => (inst.parent, binding.outer)

/-- `next?` leads to one of the `targets`. -/
theorem mem_targets_of_next? (h : tree.next? (c, name) = some (b, outer)) :
    (b, outer) ∈ tree.targets := by
  -- only the third kind of step leads somewhere: a binding of the instance that is found
  rcases tree.outer?_cases c name with ⟨_, -, -, ho⟩ | ⟨-, -, ho⟩ | ⟨inst, bound, hi, hbound, ho⟩
  · cases ho.symm.trans (next?_eq_some_iff.1 h).2
  · cases ho.symm.trans (next?_eq_some_iff.1 h).2
  · cases ho.symm.trans (next?_eq_some_iff.1 h).2
    obtain ⟨parent, own, -, he⟩ := exists_entry_of_instance? hi
    obtain ⟨binding, hb, -, rfl⟩ := exists_binding_of_outerName? hbound
    exact List.mem_flatMap.2 ⟨parent.index, List.mem_range.2 (index_lt_of_mem_children he),
      List.mem_flatMap.2 ⟨inst, List.mem_map_of_mem he, List.mem_map_of_mem hb⟩⟩

/-- Where `next?` does not lead on, `constantWithin` does not report a circle either. -/
theorem not_isCircular_of_next?_eq_none (h : tree.next? (c, name) = none) {cause : ModelError κ}
    (hcause : tree.constantWithin steps c name = .error cause) : ¬ cause.IsCircular := by
  rw [constantWithin.eq_def] at hcause
  -- the cases of a look-up that ends: an unknown constant, broken links, no binding, a value of its
  -- own
  cases hown : (tree.get c).constants.get? name with
  | none =>
    simp only [hown] at hcause
    cases hcause
    exact not_false
  | some own =>
    rcases tree.outer?_cases c name with ⟨_, -, -, ho⟩ | ⟨-, -, ho⟩ | ⟨inst, outer, -, -, ho⟩
    · simp only [hown, ho] at hcause
      cases hcause
      exact not_false
    · cases own with
      | none =>
        simp only [hown, ho] at hcause
        cases hcause
        exact not_false
      | some value =>
        simp only [hown, ho] at hcause
        cases hcause
    · cases own with
      | none => cases h.symm.trans (next?_eq_some_iff.2 ⟨hown, ho⟩)
      | some value =>
        simp only [hown, ho] at hcause
        cases hcause
        exact not_false

/-- `constantWithin` reports a circle if it would go on after its last step. -/
theorem constantWithin_isCircular_iff :
    (∃ cause, tree.constantWithin steps c name = .error cause ∧ cause.IsCircular) ↔
      (Option.iterate tree.next? (steps + 1) (c, name)).isSome = true := by
  -- where the look-up stops, neither side holds
  have hstop {steps : Nat} {c : Handle} {name : String} (hnext : tree.next? (c, name) = none) :
      ¬ ∃ cause, tree.constantWithin steps c name = .error cause ∧ cause.IsCircular := by
    rintro ⟨cause, hcause, hcircular⟩
    exact not_isCircular_of_next?_eq_none hnext hcause hcircular
  -- induction on the steps, with one use of `next?` for each of them
  induction steps generalizing c name with
  | zero =>
    cases hnext : tree.next? (c, name) with
    | none => simp [Option.iterate_succ, hnext, hstop hnext]
    | some target =>
      obtain ⟨hown, ho⟩ := next?_eq_some_iff.1 hnext
      rw [Option.iterate_succ, hnext]
      refine ⟨fun _ => rfl, fun _ => ⟨.circularBinding name (tree.get c).displayName, ?_, trivial⟩⟩
      rw [constantWithin.eq_def]
      simp only [hown, ho]
  | succ steps ih =>
    cases hnext : tree.next? (c, name) with
    | none => simp [Option.iterate_succ, hnext, hstop hnext]
    | some target =>
      obtain ⟨hown, ho⟩ := next?_eq_some_iff.1 hnext
      rw [Option.iterate_succ, hnext, Option.bind_some, constantWithin_of_bound ho, hown]
      exact ih

/-- `constantValue` reports a circle just if the look-up does not settle. -/
theorem constantValue_isCircular_iff :
    (∃ cause, tree.constantValue c name = .error cause ∧ cause.IsCircular) ↔
      ¬ tree.Settles c name := by
  rw [constantValue, constantWithin_isCircular_iff]
  -- there are as many targets as steps, so a longer look-up comes back to one of them
  have hlength : tree.targets.length = tree.bindingCount .const :=
    tree.length_flatMap_consts fun _ inst binding => (inst.parent, binding.outer)
  rw [← hlength]
  constructor
  · rintro hlong ⟨n, hend⟩
    have hsome := Option.isSome_iterate_of_length (fun _ _ => mem_targets_of_next?) hlong n
    rw [hend] at hsome
    cases hsome
  · intro h
    exact Option.ne_none_iff_isSome.1 fun hend => h ⟨_, hend⟩

end Tree

end HybridAutomata
