import HybridAutomata.Proofs.Model.Queries
import HybridAutomata.Proofs.Tree.Climb
/-!
# What decides the value of a constant

A constant has the value that is found at the end of its climb. Nothing is chosen on the way: what
is passed must have no value of its own, and the first thing that is wrong decides how the look-up
fails. In a model that passes its check nothing is wrong, and the values are those that are listed
for the model.

* `Climb.constantWithin_eq`         a climb leaves the value as it is
* `constantValue_eq_ok_iff`         when a constant has a value
* `constantValue_of_firstDefect`    how the look-up of a constant fails
* `constant_values_are_found_by_climbing`   both, with the values that are listed for a model
-/

namespace HybridAutomata

namespace Tree

variable {κ : Type} {tree : Tree κ} {c d : Handle} {name last : String}
  {passed : List (Handle × String)}

/-- What is wrong with a constant, whatever it is bound to. -/
inductive Defect (tree : Tree κ) (c : Handle) (name : String) : ModelError κ → Prop where
  | undeclared (hown : (tree.get c).constants.get? name = none) :
      Defect tree c name (.unknownConstant name (tree.get c).displayName)
  /-- The network around the component does not know it. -/
  | displaced {own : Option (Interval κ)} {parent : Handle}
      (hown : (tree.get c).constants.get? name = some own)
      (hparent : (tree.get c).parent = some parent) (hinst : tree.instance? c = none) :
      Defect tree c name
        (.unknownInstance (tree.get c).displayName (tree.get parent).displayName)
  | doublyBound {value : Interval κ}
      (hown : (tree.get c).constants.get? name = some (some value))
      (hbound : ¬ tree.IsFree .const c name) :
      Defect tree c name (.doublyBoundConstant name (tree.get c).displayName)
  | unassigned (hown : (tree.get c).constants.get? name = some none) (hplaced : tree.IsPlaced c)
      (hfree : tree.IsFree .const c name) :
      Defect tree c name (.unassignedConstant name (tree.get c).displayName)

/-- A constant has a value that nothing else takes the place of. -/
structure Holds (tree : Tree κ) (c : Handle) (name : String) (value : Interval κ) : Prop where
  own : (tree.get c).constants.get? name = some (some value)
  placed : tree.IsPlaced c
  free : tree.IsFree .const c name

/-- All constants are declared without a value. -/
def AllOpen (tree : Tree κ) (passed : List (Handle × String)) : Prop :=
  ∀ constant ∈ passed, (tree.get constant.1).constants.get? constant.2 = some none

/-- Constants without a value lead to one that holds a value. -/
def Resolves (tree : Tree κ) (c : Handle) (name : String) (value : Interval κ) : Prop :=
  ∃ passed d last, tree.Climb c name passed d last ∧ tree.AllOpen passed ∧ tree.Holds d last value

/-- Constants without a value lead to one with a defect. -/
def FirstDefect (tree : Tree κ) (c : Handle) (name : String) (cause : ModelError κ) : Prop :=
  ∃ passed d last, tree.Climb c name passed d last ∧ tree.AllOpen passed ∧ tree.Defect d last cause

/-- The climb from a constant comes to an end. -/
def ComesToEnd (tree : Tree κ) (c : Handle) (name : String) : Prop :=
  ∃ passed d last, tree.Climb c name passed d last ∧ tree.IsFree .const d last

/-! ## One constant -/

/-- A constant `Holds` a value, has a `Defect`, or has no value and is bound by the instance. -/
theorem holds_or_defect_or_bound (tree : Tree κ) (c : Handle) (name : String) :
    (∃ value, tree.Holds c name value) ∨ (∃ cause, tree.Defect c name cause) ∨
      (tree.get c).constants.get? name = some none ∧
        ∃ inst outer, tree.instance? c = some inst ∧ inst.outerName? .const name = some outer := by
  cases hown : (tree.get c).constants.get? name with
  | none => exact .inr (.inl ⟨_, .undeclared hown⟩)
  | some own =>
    -- the constant is declared, so what decides is whether it is bound and whether it has a value
    rcases tree.outer?_cases c name with ⟨parent, hparent, hinst, -⟩ | ⟨hplaced, hfree, -⟩ |
      ⟨inst, outer, hinst, houter, -⟩
    · exact .inr (.inl ⟨_, .displaced hown hparent hinst⟩)
    · cases own with
      | none => exact .inr (.inl ⟨_, .unassigned hown hplaced hfree⟩)
      | some value => exact .inl ⟨value, hown, hplaced, hfree⟩
    · cases own with
      | none => exact .inr (.inr ⟨rfl, inst, outer, hinst, houter⟩)
      | some value =>
        exact .inr (.inl ⟨_, .doublyBound hown (not_isFree_of_outerName? hinst houter)⟩)

/-- `outer?` leads nowhere from a constant that is free of a placed component. -/
theorem outer?_of_placed (hplaced : tree.IsPlaced c) (hfree : tree.IsFree .const c name) :
    tree.outer? .const c name = .ok none := by
  rcases tree.outer?_cases c name with ⟨parent, hparent, hinst, -⟩ | ⟨-, -, ho⟩ |
    ⟨inst, outer, hinst, houter, -⟩
  · rcases hplaced with hroot | hknown
    · cases hroot.symm.trans hparent
    · rw [hinst] at hknown
      cases hknown
  · exact ho
  · exact absurd hfree (not_isFree_of_outerName? hinst houter)

/-- `outer?` leads from a bound constant to the constant to which the instance binds it. -/
theorem outer?_of_outerName? {inst : Instance} {outer : String}
    (hinst : tree.instance? c = some inst) (houter : inst.outerName? .const name = some outer) :
    tree.outer? .const c name = .ok (some (inst.parent, outer)) := by
  rcases tree.outer?_cases c name with ⟨_, _, hnone, -⟩ | ⟨-, hfree, -⟩ |
    ⟨inst', outer', hinst', houter', ho⟩
  · cases hinst.symm.trans hnone
  · exact absurd hfree (not_isFree_of_outerName? hinst houter)
  · obtain rfl := Option.some.inj (hinst.symm.trans hinst')
    obtain rfl := Option.some.inj (houter.symm.trans houter')
    exact ho

/-- With any number of `steps`, `constantWithin` finds the value of a constant that `Holds` it. -/
theorem Holds.constantWithin_eq {value : Interval κ} (h : tree.Holds c name value) (steps : Nat) :
    tree.constantWithin steps c name = .ok value := by
  rw [constantWithin_of_free (outer?_of_placed h.placed h.free), h.own]

/-- With any number of `steps`, `constantWithin` fails on a constant with a `Defect` as the defect
says. -/
theorem Defect.constantWithin_eq {cause : ModelError κ} (h : tree.Defect c name cause)
    (steps : Nat) : tree.constantWithin steps c name = .error cause := by
  cases h with
  | undeclared hown =>
    rw [constantWithin.eq_def]
    simp only [hown]
  | @displaced own parent hown hparent hinst =>
    have ho : tree.outer? .const c name =
        .error (.unknownInstance (tree.get c).displayName (tree.get parent).displayName) := by
      simp only [outer?, expectInstance, hparent, hinst]
      rfl
    rw [constantWithin.eq_def]
    simp only [hown, ho]
  | doublyBound hown hbound =>
    -- a binding is there, so `outer?` leads to a constant and the value of its own is too much
    rw [constantWithin.eq_def]
    rcases tree.outer?_cases c name with ⟨parent, hparent, hinst, -⟩ | ⟨-, hfree, -⟩ |
      ⟨inst, outer, -, -, ho⟩
    · exact absurd (isFree_of_instance?_eq_none hinst _ _) hbound
    · exact absurd hfree hbound
    · simp only [hown, ho]
  | unassigned hown hplaced hfree =>
    rw [constantWithin_of_free (outer?_of_placed hplaced hfree), hown]

/-! ## Climbing -/

/-- A `Climb` leaves the result of `constantWithin` as it is, if what it passes is `AllOpen`: one
step is used up for each constant that is passed. -/
theorem Climb.constantWithin_eq (h : tree.AllLinked) (hclimb : tree.Climb c name passed d last)
    (hopen : tree.AllOpen passed) (steps : Nat) :
    tree.constantWithin (passed.length + steps) c name = tree.constantWithin steps d last := by
  induction hclimb with
  | here => rw [List.length_nil, Nat.zero_add]
  -- a constant without a value hands the look-up on to the one to which it is bound
  | @up c parent d name outer last inst passed hinst hparent houter _ ih =>
    obtain ⟨hown, hopen⟩ := List.forall_mem_cons.1 hopen
    obtain rfl := Option.some.inj (hparent.symm.trans (h.parent_eq hinst))
    rw [List.length_cons, Nat.add_right_comm,
      constantWithin_of_bound (outer?_of_outerName? hinst houter)]
    simp only [hown]
    exact ih hopen

/-- What decides a `Climb`, a constant that `Holds` a value or has a `Defect`, is not passed before.
-/
theorem not_mem_of_allOpen (hopen : tree.AllOpen passed)
    (hend : (∃ value, tree.Holds d last value) ∨ ∃ cause, tree.Defect d last cause)
    (hclimb : tree.Climb c name passed d last) : (d, last) ∉ passed := by
  intro hm
  have hown := hopen _ hm
  -- a constant without a value that is passed is bound
  obtain ⟨front, back, -, hback⟩ := hclimb.exists_of_mem hm
  have hbound : ¬ tree.IsFree .const d last := by
    cases hback with
    | up hinst _ houter _ => exact not_isFree_of_outerName? hinst houter
  rcases hend with ⟨value, hholds⟩ | ⟨cause, hdefect⟩
  · exact hbound hholds.free
  · cases hdefect with
    | undeclared hown' => cases hown.symm.trans hown'
    | displaced _ _ hinst => exact hbound (isFree_of_instance?_eq_none hinst _ _)
    | doublyBound hown' _ => cases hown.symm.trans hown'
    | unassigned _ _ hfree => exact hbound hfree

/-- A `Climb` to what decides it is within the bindings of the arena, so `constantValue` gets there.
-/
theorem Climb.constantValue_eq (h : tree.AllLinked) (hclimb : tree.Climb c name passed d last)
    (hopen : tree.AllOpen passed)
    (hend : (∃ value, tree.Holds d last value) ∨ ∃ cause, tree.Defect d last cause) :
    ∃ steps, tree.constantValue c name = tree.constantWithin steps d last := by
  -- a climb that does not come back to its end is not longer than there are bindings
  have hle := hclimb.length_le (not_mem_of_allOpen hopen hend hclimb)
  refine ⟨tree.bindingCount .const - passed.length, ?_⟩
  rw [← hclimb.constantWithin_eq h hopen, Nat.add_sub_cancel' hle, constantValue]

/-- A constant that `Resolves` to a value has it as its `constantValue`. -/
theorem Resolves.constantValue_eq (h : tree.AllLinked) {value : Interval κ}
    (hvalue : tree.Resolves c name value) : tree.constantValue c name = .ok value := by
  obtain ⟨passed, d, last, hclimb, hopen, hholds⟩ := hvalue
  obtain ⟨steps, heq⟩ := hclimb.constantValue_eq h hopen (.inl ⟨value, hholds⟩)
  rw [heq, hholds.constantWithin_eq]

/-- The `FirstDefect` decides how `constantValue` fails. -/
theorem constantValue_of_firstDefect (h : tree.AllLinked) {cause : ModelError κ}
    (hcause : tree.FirstDefect c name cause) : tree.constantValue c name = .error cause := by
  obtain ⟨passed, d, last, hclimb, hopen, hdefect⟩ := hcause
  obtain ⟨steps, heq⟩ := hclimb.constantValue_eq h hopen (.inr ⟨cause, hdefect⟩)
  rw [heq, hdefect.constantWithin_eq]

/-- A constant that `Holds` a value resolves to it by the climb that stays where it is. -/
theorem Holds.resolves {value : Interval κ} (h : tree.Holds c name value) :
    tree.Resolves c name value :=
  ⟨[], c, name, .here c name, by simp [AllOpen], h⟩

/-- A constant with a `Defect` has it as its `FirstDefect`, by the climb that stays where it is. -/
theorem Defect.firstDefect {cause : ModelError κ} (h : tree.Defect c name cause) :
    tree.FirstDefect c name cause :=
  ⟨[], c, name, .here c name, by simp [AllOpen], h⟩

/-- A constant without a value `Resolves` to what the constant does to which it is bound. -/
theorem Resolves.up {parent : Handle} {inst : Instance} {outer : String} {value : Interval κ}
    (hown : (tree.get c).constants.get? name = some none) (hinst : tree.instance? c = some inst)
    (hparent : (tree.get c).parent = some parent)
    (houter : inst.outerName? .const name = some outer)
    (h : tree.Resolves parent outer value) : tree.Resolves c name value := by
  obtain ⟨passed, d, last, hclimb, hopen, hholds⟩ := h
  exact ⟨_, d, last, .up hinst hparent houter hclimb, List.forall_mem_cons.2 ⟨hown, hopen⟩, hholds⟩

/-- A constant without a value has the `FirstDefect` of the constant to which it is bound. -/
theorem FirstDefect.up {parent : Handle} {inst : Instance} {outer : String} {cause : ModelError κ}
    (hown : (tree.get c).constants.get? name = some none) (hinst : tree.instance? c = some inst)
    (hparent : (tree.get c).parent = some parent)
    (houter : inst.outerName? .const name = some outer)
    (h : tree.FirstDefect parent outer cause) : tree.FirstDefect c name cause := by
  obtain ⟨passed, d, last, hclimb, hopen, hdefect⟩ := h
  exact ⟨_, d, last, .up hinst hparent houter hclimb, List.forall_mem_cons.2 ⟨hown, hopen⟩, hdefect⟩

/-- A value that `constantWithin` finds is held by the constant itself, or it is found one step
further up. -/
theorem holds_or_bound_of_constantWithin {steps : Nat} {value : Interval κ}
    (hv : tree.constantWithin steps c name = .ok value) :
    tree.Holds c name value ∨ ∃ rest inst outer, steps = rest + 1 ∧
      (tree.get c).constants.get? name = some none ∧ tree.instance? c = some inst ∧
      inst.outerName? .const name = some outer ∧
      tree.constantWithin rest inst.parent outer = .ok value := by
  rcases tree.holds_or_defect_or_bound c name with ⟨own, hholds⟩ | ⟨cause, hdefect⟩ |
    ⟨hown, inst, outer, hinst, houter⟩
  · rw [hholds.constantWithin_eq] at hv
    cases hv
    exact .inl hholds
  · cases (hdefect.constantWithin_eq _).symm.trans hv
  · have ho := outer?_of_outerName? hinst houter
    -- the constant is bound, and with no step left the look-up would have failed
    cases steps with
    | zero =>
      rw [constantWithin.eq_def] at hv
      simp only [hown, ho] at hv
      cases hv
    | succ rest =>
      rw [constantWithin_of_bound ho] at hv
      simp only [hown] at hv
      exact .inr ⟨rest, inst, outer, rfl, hown, hinst, houter, hv⟩

/-- A value that `constantWithin` finds comes from a constant that `Holds` it at the end of a climb.
-/
theorem resolves_of_constantWithin (h : tree.AllLinked) {steps : Nat} {value : Interval κ}
    (hv : tree.constantWithin steps c name = .ok value) : tree.Resolves c name value := by
  -- by induction on the steps: each one that is used is one constant that the climb passes
  induction steps generalizing c name with
  | zero =>
    rcases holds_or_bound_of_constantWithin hv with hholds | ⟨_, _, _, hsteps, -⟩
    · exact hholds.resolves
    · cases hsteps
  | succ steps ih =>
    rcases holds_or_bound_of_constantWithin hv with hholds |
      ⟨rest, inst, outer, hsteps, hown, hinst, houter, hrest⟩
    · exact hholds.resolves
    · obtain rfl := Nat.succ.inj hsteps
      exact (ih hrest).up hown hinst (h.parent_eq hinst) houter

/-- `constantValue` finds a value just if the climb passes constants without a value only and ends
at one that `Holds` the value. -/
theorem constantValue_eq_ok_iff (h : tree.AllLinked) {value : Interval κ} :
    tree.constantValue c name = .ok value ↔ tree.Resolves c name value :=
  ⟨resolves_of_constantWithin h, fun hvalue => hvalue.constantValue_eq h⟩

/-- On a climb that `ComesToEnd`, either a value is found or there is a `FirstDefect`. -/
theorem ComesToEnd.resolves_or_firstDefect (h : tree.ComesToEnd c name) :
    (∃ value, tree.Resolves c name value) ∨ ∃ cause, tree.FirstDefect c name cause := by
  obtain ⟨passed, d, last, hclimb, hfree⟩ := h
  -- by induction on the climb: the first constant that decides anything ends it
  induction hclimb with
  | here c name =>
    rcases tree.holds_or_defect_or_bound c name with ⟨value, hholds⟩ | ⟨cause, hdefect⟩ |
      ⟨-, inst, outer, hinst, houter⟩
    · exact .inl ⟨value, hholds.resolves⟩
    · exact .inr ⟨cause, hdefect.firstDefect⟩
    · exact absurd hfree (not_isFree_of_outerName? hinst houter)
  | @up c parent d name outer last inst passed hinst hparent houter hrest ih =>
    rcases tree.holds_or_defect_or_bound c name with ⟨value, hholds⟩ | ⟨cause, hdefect⟩ |
      ⟨hown, -⟩
    · exact .inl ⟨value, hholds.resolves⟩
    · exact .inr ⟨cause, hdefect.firstDefect⟩
    · -- nothing is decided here, so what is found further up decides
      rcases ih hfree with ⟨value, hvalue⟩ | ⟨cause, hcause⟩
      · exact .inl ⟨value, hvalue.up hown hinst hparent houter⟩
      · exact .inr ⟨cause, hcause.up hown hinst hparent houter⟩

/-- On a climb that `ComesToEnd`, `constantValue` fails just as the `FirstDefect` says. -/
theorem constantValue_eq_error_iff (h : tree.AllLinked) (hend : tree.ComesToEnd c name)
    {cause : ModelError κ} :
    tree.constantValue c name = .error cause ↔ tree.FirstDefect c name cause := by
  refine ⟨fun hcause => ?_, constantValue_of_firstDefect h⟩
  rcases hend.resolves_or_firstDefect with ⟨value, hvalue⟩ | ⟨cause', hcause'⟩
  · cases (hvalue.constantValue_eq h).symm.trans hcause
  · rwa [← Except.error.inj ((constantValue_of_firstDefect h hcause').symm.trans hcause)]

/-- If `AllLinked` then every climb from a reachable component `ComesToEnd`. -/
theorem AllLinked.comesToEnd (h : tree.AllLinked) (hc : tree.Reachable c) (name : String) :
    tree.ComesToEnd c name := by
  obtain ⟨steps, d, last, hchain, -⟩ := h.linked.exists_chain hc .const name
  obtain ⟨passed, hclimb⟩ := hchain.exists_climb h
  exact ⟨passed, d, last, hclimb, hchain.isFree⟩

/-- In a tree that is `WellFormed`, a reachable constant has the value that `allConstants` lists for
the end of its climb. -/
theorem WellFormed.listed_value (h : tree.WellFormed) (hlinks : tree.AllLinked)
    (hc : tree.Reachable c) (hname : name ∈ (tree.get c).constants.keys) :
    ∃ passed d last value, tree.Climb c name passed d last ∧ tree.IsFree .const d last ∧
      tree.constantValue c name = .ok value ∧
      (tree.allConstants tree.root).get? (qualify (tree.path d) last) = some (some value) := by
  obtain ⟨names, hf⟩ := hc
  obtain ⟨value, hvalue⟩ := (h.nodeOk hf).values name hname
  -- what a well-formed component declares has a value, and the climb to it is the chain of bindings
  obtain ⟨passed, d, last, hclimb, hopen, hholds⟩ := (constantValue_eq_ok_iff hlinks).1 hvalue
  obtain ⟨names', hf'⟩ := hclimb.reachable h.linked ⟨names, hf⟩
  exact ⟨passed, d, last, value, hclimb, hholds.free, hvalue,
    h.get?_allConstants_iff.2 ⟨names', d, last, hf', rfl, hholds.free, hholds.own⟩⟩

end Tree

/-- Whatever constant is asked for, it has a value just if its climb passes constants without a
value only and ends at one that holds the value. Else the first thing that is wrong on the climb
decides the failure; climbs from reachable components come to an end. If the model passes its check
then the values are those that are listed for it. -/
theorem constant_values_are_found_by_climbing {κ : Type} (model : Model κ)
    (hlinks : model.tree.AllLinked) :
    (∀ c name,
      (∀ value, model.tree.constantValue c name = .ok value ↔ model.tree.Resolves c name value) ∧
      (∀ cause, model.tree.FirstDefect c name cause →
        model.tree.constantValue c name = .error cause) ∧
      (model.tree.ComesToEnd c name → ∀ cause, model.tree.constantValue c name = .error cause →
        model.tree.FirstDefect c name cause)) ∧
    (∀ c, model.tree.Reachable c → ∀ name, model.tree.ComesToEnd c name) ∧
    (model.checks = {} → model.check = .ok () → ∀ c, model.tree.Reachable c →
      ∀ name ∈ (model.tree.get c).constants.keys,
        ∃ passed d last value, model.tree.Climb c name passed d last ∧
          model.tree.IsFree .const d last ∧ model.tree.constantValue c name = .ok value ∧
          model.allConstants.get? (Tree.qualify (model.tree.path d) last) = some (some value)) := by
  -- what is found, what is missed and what is missed first
  refine ⟨fun c name => ⟨fun value => Tree.constantValue_eq_ok_iff hlinks,
    fun cause => Tree.constantValue_of_firstDefect hlinks,
    fun hend cause => (Tree.constantValue_eq_error_iff hlinks hend).1⟩,
    fun c hc name => hlinks.comesToEnd hc name, fun hchecks hcheck c hc name hname => ?_⟩
  obtain ⟨vars, hrules⟩ := (Model.check_eq_ok_iff hchecks).1 hcheck
  exact hrules.tree.listed_value hlinks hc hname

/-- The rate of the clock is that of the model, two networks further up. -/
theorem clockAndLamp_rate_is_found_by_climbing :
    clockAndLamp.tree.AllLinked ∧ clockAndLamp.checks = {} ∧ clockAndLamp.check = .ok () ∧
      clockAndLamp.tree.constantValue ⟨3⟩ "k" = .ok (.point 3) ∧
      clockAndLamp.tree.constantValue ⟨3⟩ "m" = .error (.unknownConstant "m" "clock") ∧
      ∃ passed d last value, clockAndLamp.tree.Climb ⟨3⟩ "k" passed d last ∧
        clockAndLamp.tree.IsFree .const d last ∧
        clockAndLamp.tree.constantValue ⟨3⟩ "k" = .ok value ∧
        clockAndLamp.allConstants.get? (Tree.qualify (clockAndLamp.tree.path d) last) =
          some (some value) := by
  have hlinks : clockAndLamp.tree.AllLinked :=
    .of_arena (by decide) (by decide) (by decide +kernel)
  have hcheck : clockAndLamp.check = .ok () := Except.eq_ok_of_isOk (by decide +kernel)
  -- the constant of the clock is bound to that of the box, and that one to the rate of the model
  have hclimb : clockAndLamp.tree.Climb ⟨3⟩ "k" [(⟨3⟩, "k"), (⟨1⟩, "rate")] ⟨0⟩ "rate" :=
    .up rfl rfl rfl (.up rfl rfl rfl (.here _ _))
  have hopen : clockAndLamp.tree.AllOpen [(⟨3⟩, "k"), (⟨1⟩, "rate")] :=
    List.forall_mem_cons.2 ⟨rfl, List.forall_mem_cons.2 ⟨rfl, by simp⟩⟩
  obtain ⟨hdecided, -, hlisted⟩ := constant_values_are_found_by_climbing clockAndLamp hlinks
  exact ⟨hlinks, rfl, hcheck,
    ((hdecided ⟨3⟩ "k").1 _).2 ⟨_, _, _, hclimb, hopen, rfl, .inl rfl, rfl⟩,
    (hdecided ⟨3⟩ "m").2.1 _ (Tree.Defect.undeclared rfl).firstDefect,
    hlisted rfl hcheck ⟨3⟩ ⟨["box", "clock"], rfl⟩ "k" (by decide)⟩

/-- A network that has dropped its only instance. The component stays in the arena and goes on
naming the network. -/
def droppedTimer : Tree Int where
  components := #[
    { body := .network ∅ },
    { parent := some ⟨0⟩
      instanceName := some "timer"
      constants := .ofList [("k", some (.point 1))]
      body := .base .empty }]
  root := ⟨0⟩

/-- A dropped component has a constant with a value of its own, and nothing is bound. Still the
look-up fails, since the network does not know the component. -/
theorem value_of_a_dropped_component_is_not_found :
    droppedTimer.AllLinked ∧
      droppedTimer.Climb ⟨1⟩ "k" [] ⟨1⟩ "k" ∧ droppedTimer.IsFree .const ⟨1⟩ "k" ∧
      (droppedTimer.get ⟨1⟩).constants.get? "k" = some (some (.point 1)) ∧
      droppedTimer.constantValue ⟨1⟩ "k" = .error (.unknownInstance "timer" "<root>") := by
  refine ⟨.of_arena (by decide) (by decide) (by decide +kernel), .here _ _, rfl, rfl, ?_⟩
  have hown : (droppedTimer.get ⟨1⟩).constants.get? "k" = some (some (.point 1)) := rfl
  have hparent : (droppedTimer.get ⟨1⟩).parent = some ⟨0⟩ := rfl
  -- the component names a network that has no entry for it
  have hdefect : droppedTimer.Defect ⟨1⟩ "k" (.unknownInstance "timer" "<root>") :=
    .displaced hown hparent rfl
  exact hdefect.constantWithin_eq _

end HybridAutomata
