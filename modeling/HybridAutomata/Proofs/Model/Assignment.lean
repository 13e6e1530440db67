import HybridAutomata.Proofs.Model.ConstantValues
import HybridAutomata.Proofs.Tree.Built
import HybridAutomata.Proofs.Tree.DottedNames
import HybridAutomata.Proofs.Tree.Outline
import HybridAutomata.Proofs.Tree.QualifiedNames
/-!
# Assigning constants by dotted names

An assignment changes the own value of one constant. What bindings lead to is not changed, so the
constants that lead to it get the new value, and all others keep theirs.

* `entries_constants_assign`        the own values after an assignment
* `constantWithin_assign_of_ends`, `constantWithin_assign_of_not_ends`   what is looked up
* `WellFormed.allConstants_assign`  the constants that are listed
* `dotted_assignment_reaches_the_named_constant`   all of this for texts
-/

namespace HybridAutomata

namespace Tree

variable {κ : Type}

/-- `setConstant` succeeds just if the text leads to a constant, and then it is the assignment. -/
theorem runOn_setConstant_eq_ok_iff {tree changed : Tree κ} {b : Handle} {text : String}
    {value : Interval κ} :
    (setConstant b text value).runOn tree = (.ok (), changed) ↔
      ∃ c constant, tree.locate b text = .ok (c, constant) ∧
        changed = tree.assign c constant value := by
  rw [runOn_setConstant]
  -- the text is looked up first, and a text that leads nowhere is refused
  rcases tree.locate b text with cause | ⟨c, constant⟩
  · constructor
    · intro h
      cases h
    · rintro ⟨c, constant, h, -⟩
      cases h
  · constructor
    · intro h
      exact ⟨c, constant, rfl, (congrArg Prod.snd h).symm⟩
    · rintro ⟨c, constant, h, rfl⟩
      cases h
      rfl

/-! ## What is not changed -/

section

variable (tree : Tree κ) (c : Handle) (constant : String) (value : Interval κ) (d : Handle)

@[simp] theorem root_assign : (tree.assign c constant value).root = tree.root := rfl

@[simp] theorem size_assign : (tree.assign c constant value).size = tree.size :=
  size_modify ..

theorem outline_assign : (tree.assign c constant value).outline = tree.outline :=
  outline_modify fun _ => rfl

/-- `assign` changes nothing of a component but its constants. -/
theorem exists_get_assign :
    ∃ constants, (tree.assign c constant value).get d = { tree.get d with constants } := by
  by_cases hd : d = c
  · subst hd
    -- outside of the arena a change has no effect
    by_cases hlt : d.index < tree.size
    · exact ⟨_, get_modify_self hlt _⟩
    · have hle : tree.size ≤ d.index := Nat.le_of_not_lt hlt
      have hle' : (tree.assign d constant value).size ≤ d.index := by rwa [size_assign]
      exact ⟨_, (get_eq_default hle').trans (get_eq_default hle).symm⟩
  · exact ⟨_, get_modify_of_ne hd _⟩

/-- `assign` leaves the parent of every component. -/
theorem parent_assign : ((tree.assign c constant value).get d).parent = (tree.get d).parent := by
  obtain ⟨constants, hget⟩ := tree.exists_get_assign c constant value d
  rw [hget]

/-- `assign` leaves the name that messages use. -/
theorem displayName_assign :
    ((tree.assign c constant value).get d).displayName = (tree.get d).displayName := by
  obtain ⟨constants, hget⟩ := tree.exists_get_assign c constant value d
  rw [hget]
  rfl

/-- `assign` leaves the instances of every component. -/
theorem children_get_assign :
    ((tree.assign c constant value).get d).children = (tree.get d).children := by
  obtain ⟨constants, hget⟩ := tree.exists_get_assign c constant value d
  rw [hget]
  rfl

/-- `assign` leaves the instance of a component in its parent. -/
theorem instance?_assign : (tree.assign c constant value).instance? d = tree.instance? d := by
  obtain ⟨constants, hget⟩ := tree.exists_get_assign c constant value d
  simp only [instance?, hget, childNamed?, children_get_assign]

/-- `assign` leaves the look-up of outer names, which goes through bindings only. -/
theorem outer?_assign (kind : NameKind) (name : String) :
    (tree.assign c constant value).outer? kind d name = tree.outer? kind d name := by
  simp only [outer?, expectInstance, parent_assign, displayName_assign, instance?_assign]

/-- `assign` leaves names free or bound. -/
theorem isFree_assign (kind : NameKind) (name : String) :
    (tree.assign c constant value).IsFree kind d name ↔ tree.IsFree kind d name := by
  rw [IsFree, IsFree, instance?_assign]

/-- `assign` leaves the number of bindings, which bounds the look-up of values. -/
theorem bindingCount_assign (kind : NameKind) :
    (tree.assign c constant value).bindingCount kind = tree.bindingCount kind := by
  simp only [bindingCount_eq_sum, bindingsIn, size_assign, children_get_assign]

theorem path_assign : (tree.assign c constant value).path d = tree.path d := by
  rw [← path_outline, outline_assign, path_outline]

/-- `assign` leaves the components below a component, and their order. -/
theorem descendants_assign :
    (tree.assign c constant value).descendants d = tree.descendants d := by
  rw [← descendants_outline, outline_assign, descendants_outline]

end

/-! ## What is changed -/

variable {tree : Tree κ} {c d : Handle} {constant name text : String} {value : Interval κ}
    {steps : Nat}

/-- `assign` replaces the own value of one constant and leaves the places of all. -/
theorem entries_constants_assign (hlt : c.index < tree.size)
    (hk : constant ∈ (tree.get c).constants.keys) (d : Handle) :
    ((tree.assign c constant value).get d).constants.entries =
      (tree.get d).constants.entries.map fun entry =>
        (entry.1, if d = c ∧ entry.1 = constant then some value else entry.2) := by
  -- the constant is declared, so its entry is replaced and none is added
  by_cases hd : d = c
  · subst hd
    rw [assign, get_modify_self hlt]
    simp only [NameMap.insert_eq_modify hk, true_and]
    rfl
  · rw [assign, get_modify_of_ne hd]
    simp [hd]

/-- `assign` gives the constant the value. -/
theorem get?_constants_assign_self (hlt : c.index < tree.size) :
    ((tree.assign c constant value).get c).constants.get? constant = some (some value) := by
  rw [assign, get_modify_self hlt, NameMap.get?_insert, if_pos rfl]

/-- `assign` leaves the own values of all other constants. -/
theorem get?_constants_assign_of_ne (h : ¬ (d = c ∧ name = constant)) :
    ((tree.assign c constant value).get d).constants.get? name =
      (tree.get d).constants.get? name := by
  by_cases hd : d = c
  -- another component, or the same one with another name
  · subst hd
    have hname : name ≠ constant := fun e => h ⟨rfl, e⟩
    by_cases hlt : d.index < tree.size
    · rw [assign, get_modify_self hlt, NameMap.get?_insert, if_neg hname]
    · rw [get_eq_default (Nat.le_of_not_lt hlt), get_eq_default]
      rw [size_assign]
      exact Nat.le_of_not_lt hlt
  · rw [assign, get_modify_of_ne hd]

/-- `EndsAt` holds of a free constant and itself, so a constant that does not lead to it is not it.
-/
theorem not_eq_of_not_endsAt (hfree : tree.IsFree .const c constant)
    (h : ¬ tree.EndsAt .const d name c constant) : ¬ (d = c ∧ name = constant) := by
  rintro ⟨rfl, rfl⟩
  exact h ⟨0, .free hfree⟩

/-- `assign` leaves the value of a constant that does not lead to the assigned one. -/
theorem constantWithin_assign_of_not_ends (hfree : tree.IsFree .const c constant)
    (h : ¬ tree.EndsAt .const d name c constant) :
    (tree.assign c constant value).constantWithin steps d name =
      tree.constantWithin steps d name := by
  -- induction on the steps of the look-up; at each step the constant is not the assigned one
  induction steps generalizing d name with
  | zero =>
    have hne := not_eq_of_not_endsAt hfree h
    rw [constantWithin.eq_def, constantWithin.eq_def]
    simp only [get?_constants_assign_of_ne hne, outer?_assign, displayName_assign]
    cases (tree.get d).constants.get? name with
    | none => rfl
    | some own => rcases tree.outer? .const d name with _ | _ | _ <;> cases own <;> rfl
  | succ steps ih =>
    have hne := not_eq_of_not_endsAt hfree h
    rw [constantWithin.eq_def, constantWithin.eq_def]
    simp only [get?_constants_assign_of_ne hne, outer?_assign, displayName_assign]
    cases (tree.get d).constants.get? name with
    | none => rfl
    | some own =>
      -- the look-up fails, ends at a free name or goes on to the parent
      rcases tree.outer?_cases d name with ⟨_, -, -, ho⟩ | ⟨-, -, ho⟩ |
        ⟨inst, outer, hinst, houter, ho⟩
      · simp only [ho]
      · cases own <;> simp only [ho]
      · -- the next constant on the chain does not lead to the assigned one either
        have hnext : ¬ tree.EndsAt .const inst.parent outer c constant := by
          rintro ⟨rest, hrest⟩
          exact h ⟨rest + 1, .bound hinst houter hrest⟩
        cases own <;> simp only [ho, ih hnext]

/-- `assign` gives its value to the constants that lead to the assigned one, if they had a value
before. -/
theorem constantWithin_assign_of_ends {old : Interval κ} (hlt : c.index < tree.size)
    (h : tree.EndsAt .const d name c constant) (hv : tree.constantWithin steps d name = .ok old) :
    (tree.assign c constant value).constantWithin steps d name = .ok value := by
  obtain ⟨links, hchain⟩ := h
  -- induction along the chain, which the look-up follows
  induction hchain generalizing steps with
  | @free c constant hfree =>
    have ho : tree.outer? .const c constant = .ok none := by
      -- the name is free, so the look-up that succeeded did not go on
      rcases constantWithin_eq_ok_iff.1 hv with ⟨ho, -⟩ | ⟨b, outer, -, ho, -⟩
      · exact ho
      · rcases tree.outer?_cases c constant with ⟨_, -, -, ho'⟩ | ⟨-, -, ho'⟩ |
          ⟨_, _, hinst, houter, -⟩
        · cases ho.symm.trans ho'
        · exact ho'
        · exact absurd hfree (not_isFree_of_outerName? hinst houter)
    have ho' : (tree.assign c constant value).outer? .const c constant = .ok none := by
      rw [outer?_assign, ho]
    rw [constantWithin_of_free ho', get?_constants_assign_self hlt]
  | @bound d c name outer constant inst links hinst houter hrest ih =>
    have ho := outer?_of_outerName? hinst houter
    have hne : ¬ (d = c ∧ name = constant) := by
      rintro ⟨rfl, rfl⟩
      exact not_isFree_of_outerName? hinst houter hrest.isFree
    -- the look-up went on, because the name is bound
    rcases constantWithin_eq_ok_iff.1 hv with ⟨ho', -⟩ | ⟨b, outer', rest, ho', hown, rfl, hv'⟩
    · cases ho.symm.trans ho'
    · obtain ⟨rfl, rfl⟩ := Prod.mk.inj (Option.some.inj (Except.ok.inj (ho.symm.trans ho')))
      have ho'' : (tree.assign c constant value).outer? .const d name =
          .ok (some (inst.parent, outer)) := by
        rw [outer?_assign, ho]
      rw [constantWithin_of_bound ho'', get?_constants_assign_of_ne hne, hown]
      exact ih hlt hv'

namespace WellFormed

/-- `freeConstants` of a component after an assignment: the entry of the assigned constant has the
value, the others are as before. -/
theorem freeConstants_assign (h : tree.WellFormed) (hc : tree.Denotes text c constant)
    (hd : tree.Reachable d) :
    (tree.assign c constant value).freeConstants d =
      (tree.freeConstants d).map fun entry =>
        (entry.1, if entry.1 = text then some value else entry.2) := by
  have hlt := h.linked.index_lt hc.reachable
  simp only [freeConstants, entries_constants_assign hlt hc.declared, isFree_assign, path_assign,
    List.filter_map, List.map_map]
  refine List.map_congr_left fun entry he => ?_
  have hentry : entry.1 ∈ (tree.get d).constants.keys :=
    NameMap.mem_keys_of_mem (List.mem_of_mem_filter he)
  -- only the assigned constant has the qualified name
  have hiff : d = c ∧ entry.1 = constant ↔ qualify (tree.path d) entry.1 = text := by
    constructor
    · rintro ⟨rfl, heq⟩
      rw [hc.text_eq, heq]
    · intro heq
      exact h.denotes_unique ⟨hd, hentry, heq.symm⟩ hc
  simp only [Function.comp_apply, hiff]

/-- `allConstants` after an assignment: the entry under the text has the value, the others are as
before. -/
theorem allConstants_assign (h : tree.WellFormed) (hc : tree.Denotes text c constant) :
    (tree.assign c constant value).allConstants (tree.assign c constant value).root =
      (tree.allConstants tree.root).modify text fun _ => some value := by
  -- component by component, in the order of the tree, which has not changed
  have hflat : ((tree.assign c constant value).descendants tree.root).flatMap
      (tree.assign c constant value).freeConstants =
        ((tree.descendants tree.root).flatMap tree.freeConstants).map fun entry =>
          (entry.1, if entry.1 = text then some value else entry.2) := by
    rw [descendants_assign, List.map_flatMap]
    refine congrArg List.flatten (List.map_congr_left fun d hd => ?_)
    exact h.freeConstants_assign hc (h.linked.mem_descendants_iff.1 hd)
  have hnodup : ((((tree.assign c constant value).descendants tree.root).flatMap
      (tree.assign c constant value).freeConstants).map Prod.fst).Nodup := by
    rw [hflat, List.map_map]
    exact h.nodup_freeConstants
  rw [descendants_eq] at hflat hnodup
  apply NameMap.ext
  rw [root_assign, allConstants, entries_constantsWithin hnodup, hflat, ← h.entries_allConstants]
  rfl

end WellFormed

/-! ## Assignments -/

/-- A tree in which the own value of one constant is set, and nothing else is different. -/
structure Sets (tree : Tree κ) (c : Handle) (constant : String) (value : Interval κ)
    (changed : Tree κ) : Prop where
  root : changed.root = tree.root
  size : changed.size = tree.size
  others : ∀ d, d ≠ c → changed.get d = tree.get d
  owner : changed.get c = { tree.get c with
    constants := (tree.get c).constants.modify constant fun _ => some value }

/-- The values of constants after an assignment: those that lead to the assigned constant have its
value, and all others are as before. -/
structure Revalues (tree : Tree κ) (text : String) (c : Handle) (constant : String)
    (value : Interval κ)
    (changed : Tree κ) : Prop where
  listed : changed.allConstants changed.root =
    (tree.allConstants tree.root).modify text fun _ => some value
  bound : ∀ d, tree.Reachable d → ∀ name ∈ (tree.get d).constants.keys,
    tree.EndsAt .const d name c constant → changed.constantValue d name = .ok value
  others : ∀ d name, ¬ tree.EndsAt .const d name c constant →
    changed.constantValue d name = tree.constantValue d name

namespace WellFormed

/-- `assign` through a text that denotes a constant sets this constant. -/
theorem sets_assign (h : tree.WellFormed) (hc : tree.Denotes text c constant) :
    tree.Sets c constant value (tree.assign c constant value) where
  root := rfl
  size := size_assign ..
  others d hd := get_modify_of_ne hd _
  owner := by
    rw [assign, get_modify_self (h.linked.index_lt hc.reachable),
      NameMap.insert_eq_modify hc.declared]

/-- `IsFree` holds of a constant that is listed: what is listed is not bound. -/
theorem isFree_of_denotes (h : tree.WellFormed) (hc : tree.Denotes text c constant)
    (hlisted : text ∈ (tree.allConstants tree.root).keys) : tree.IsFree .const c constant := by
  obtain ⟨d, hd, name, hname, hfree, heq⟩ := h.mem_keys_allConstants_iff.1 hlisted
  obtain ⟨rfl, rfl⟩ := h.denotes_unique hc ⟨hd, hname, heq⟩
  exact hfree

/-- `assign` through a text that is listed gives the value to the constants that lead to the
constant, and to no others. -/
theorem revalues_assign (h : tree.WellFormed) (hc : tree.Denotes text c constant)
    (hlisted : text ∈ (tree.allConstants tree.root).keys) :
    tree.Revalues text c constant value (tree.assign c constant value) where
  listed := h.allConstants_assign hc
  -- a bound constant ends at the one that is set, and any other one does not
  bound d hd name hname hends := by
    obtain ⟨names, hf⟩ := hd
    obtain ⟨old, hold⟩ := (h.nodeOk hf).values name hname
    rw [constantValue, bindingCount_assign]
    exact constantWithin_assign_of_ends (h.linked.index_lt hc.reachable) hends hold
  others d name hends := by
    rw [constantValue, bindingCount_assign]
    exact constantWithin_assign_of_not_ends (h.isFree_of_denotes hc hlisted) hends

end WellFormed

end Tree

/-- In a model that passes its check, an assignment through a text succeeds just if the text is the
qualified name of a constant. It sets the own value of that constant only, and a refused one leaves
the tree behind as it was. If the constant is listed for the model then its entry is the only one
that is different, and just the constants that lead to it get the new value. -/
theorem dotted_assignment_reaches_the_named_constant {κ : Type} [Scalar κ] {model : Model κ}
    (hchecks : model.checks = {}) (hcheck : model.check = .ok ()) (text : String)
    (value : Interval κ) :
    ((∃ changed, (Tree.setConstant model.tree.root text value).runOn model.tree =
        (.ok (), changed)) ↔
      ∃ c constant, model.tree.Denotes text c constant) ∧
    (∀ cause after, (Tree.setConstant model.tree.root text value).runOn model.tree =
        (.error cause, after) → after = model.tree) ∧
    ∀ c constant, model.tree.Denotes text c constant → ∀ changed,
      (Tree.setConstant model.tree.root text value).runOn model.tree = (.ok (), changed) →
        model.tree.Sets c constant value changed ∧
          (text ∈ model.allConstants.keys → model.tree.Revalues text c constant value changed) := by
  obtain ⟨vars, hrules⟩ := (Model.check_eq_ok_iff hchecks).1 hcheck
  have hlocate {c : Handle} {constant : String} :
      model.tree.locate model.tree.root text = .ok (c, constant) ↔
        model.tree.Denotes text c constant := hrules.tree.locate_eq_ok_iff
  -- all three parts are about the constant that the text denotes
  simp only [Tree.runOn_setConstant_eq_ok_iff, hlocate]
  refine ⟨⟨?_, ?_⟩, ?_, ?_⟩
  · rintro ⟨changed, c, constant, hc, -⟩
    exact ⟨c, constant, hc⟩
  · rintro ⟨c, constant, hc⟩
    exact ⟨_, c, constant, hc, rfl⟩
  · intro cause after hcause
    exact Tree.setConstant_atomicOn model.tree.root text value model.tree cause after hcause
  · rintro c constant hc changed ⟨d, other, hd, rfl⟩
    obtain ⟨rfl, rfl⟩ := hrules.tree.denotes_unique hc hd
    exact ⟨hrules.tree.sets_assign hc, hrules.tree.revalues_assign hc⟩

/-- The lamp follows the power of the box, and the clock does not. -/
theorem power_of_the_box_is_assigned :
    clockAndLamp.checks = {} ∧ clockAndLamp.check = .ok () ∧
      clockAndLamp.tree.Denotes "box.power" ⟨1⟩ "power" ∧
      ∃ changed, (Tree.setConstant ⟨0⟩ "box.power" (.point 7)).runOn clockAndLamp.tree =
          (.ok (), changed) ∧
        clockAndLamp.tree.Sets ⟨1⟩ "power" (.point 7) changed ∧
        changed.constantValue ⟨2⟩ "watts" = .ok (.point 7) ∧
        changed.constantValue ⟨3⟩ "k" = .ok (.point 3) := by
  have hcheck : clockAndLamp.check = .ok () := Except.eq_ok_of_isOk (by decide +kernel)
  have hdenotes : clockAndLamp.tree.Denotes "box.power" ⟨1⟩ "power" :=
    ⟨⟨["box"], rfl⟩, by decide, by decide +kernel⟩
  have hlisted : "box.power" ∈ clockAndLamp.allConstants.keys := by decide +kernel
  obtain ⟨hiff, -, hset⟩ :=
    dotted_assignment_reaches_the_named_constant rfl hcheck "box.power" (.point 7)
  obtain ⟨changed, hchanged⟩ := hiff.2 ⟨⟨1⟩, "power", hdenotes⟩
  obtain ⟨hsets, hrevalues⟩ := hset ⟨1⟩ "power" hdenotes changed hchanged
  have hwatts : clockAndLamp.tree.EndsAt .const ⟨2⟩ "watts" ⟨1⟩ "power" :=
    ⟨1, .bound rfl rfl (.free rfl)⟩
  -- the clock follows the rate of the root, in two steps
  have hrate : clockAndLamp.tree.Chain .const ⟨3⟩ "k" 2 ⟨0⟩ "rate" :=
    .bound rfl rfl (.bound rfl rfl (.free rfl))
  have hk : ¬ clockAndLamp.tree.EndsAt .const ⟨3⟩ "k" ⟨1⟩ "power" := by
    rintro ⟨steps, hchain⟩
    cases (hrate.unique hchain).2.1
  refine ⟨rfl, hcheck, hdenotes, changed, hchanged, hsets, ?_, ?_⟩
  · exact (hrevalues hlisted).bound ⟨2⟩ ⟨["box", "lamp"], rfl⟩ "watts" (by decide) hwatts
  · rw [(hrevalues hlisted).others ⟨3⟩ "k" hk]
    rfl

end HybridAutomata
