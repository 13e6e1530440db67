import HybridAutomata.Proofs.CopyInstance.Preparation
import HybridAutomata.Proofs.NameMap.Lookup
import HybridAutomata.Proofs.Text.Dotted
import HybridAutomata.Proofs.Tree.Arena
/-!
# What successful preparations say

The names that were claimed are new, and a mode that was split names one mode of every instance, so
all instances of the root are automata. `Prepared` gathers what the changes of a run rely on.

* `claimNames_eq_ok_iff`, `claimPlans_eq_ok_iff`   which names can be claimed
* `splitModes_eq_ok`                               which modes a mode is split into
* `singleState_eq_ok`                              what a split mode says about the instances
* `plans_distinct`                                 the copies have different names
* `prepared_of_prepare`                            a run that gets to its changes is prepared
-/

namespace HybridAutomata.CopyInstance

variable {κ : Type}

/-! ## Claimed names -/

/-- The outer names of bindings. -/
def outerNames (bindings : List Binding) : List String :=
  bindings.map Binding.outer

/-- `claimNames` succeeds just if the outer names are new and different, and appends them. -/
theorem claimNames_eq_ok_iff {kind : NameKind} {taken names : List String}
    {bindings : List Binding} :
    claimNames (κ := κ) kind taken bindings = .ok names ↔
      names = taken ++ outerNames bindings ∧ (outerNames bindings).Nodup ∧
        ∀ name ∈ outerNames bindings, name ∉ taken := by
  -- a claimed name is taken for those behind it, so the taken names vary
  induction bindings generalizing taken with
  | nil => simp [claimNames, outerNames, eq_comm]
  | cons binding rest ih =>
    have hcons : outerNames (binding :: rest) = binding.outer :: outerNames rest := rfl
    rw [claimNames, hcons]
    split
    · next h =>
      have hm : binding.outer ∈ taken := by simpa using h
      constructor
      · intro h
        cases h
      · exact fun h => absurd hm (h.2.2 _ List.mem_cons_self)
    · next h =>
      have hm : binding.outer ∉ taken := by simpa using h
      rw [ih, List.append_assoc, List.singleton_append, List.nodup_cons, List.forall_mem_cons]
      constructor
      · -- the first name is taken for the others, so it does not come again
        rintro ⟨rfl, hn, hnew⟩
        refine ⟨rfl, ⟨fun hr => ?_, hn⟩, hm, fun name hr ht => ?_⟩
        · exact hnew _ hr (List.mem_append_right _ (List.mem_singleton.2 rfl))
        · exact hnew _ hr (List.mem_append_left _ ht)
      · rintro ⟨rfl, ⟨hr, hn⟩, -, hnew⟩
        refine ⟨rfl, hn, fun name hname ht => ?_⟩
        rcases List.mem_append.1 ht with ht | ht
        · exact hnew name hname ht
        · exact hr (List.mem_singleton.1 ht ▸ hname)

/-- The new variables of all copies. -/
def freshVars (plans : List Plan) : List String :=
  plans.flatMap fun plan => outerNames plan.vars

/-- The new labels of all copies. -/
def freshLabels (plans : List Plan) : List String :=
  plans.flatMap fun plan => outerNames plan.labels

/-- Claiming names in two steps is claiming them at once. -/
theorem append_claimed_iff {taken first rest : List String} :
    ((first.Nodup ∧ ∀ name ∈ first, name ∉ taken) ∧
        rest.Nodup ∧ ∀ name ∈ rest, name ∉ taken ++ first) ↔
      (first ++ rest).Nodup ∧ ∀ name ∈ first ++ rest, name ∉ taken := by
  simp only [List.nodup_append, List.mem_append, not_or]
  -- the second step also compares with the names of the first, which is what appending asks for
  constructor
  · rintro ⟨⟨hf, hft⟩, hr, hrt⟩
    refine ⟨⟨hf, hr, fun a ha b hb hab => (hrt b hb).2 (hab ▸ ha)⟩, ?_⟩
    rintro name (h | h)
    · exact hft name h
    · exact (hrt name h).1
  · rintro ⟨⟨hf, hr, hd⟩, h⟩
    exact ⟨⟨hf, fun name hn => h name (.inl hn)⟩, hr,
      fun name hn => ⟨h name (.inr hn), fun hn' => hd name hn' name hn rfl⟩⟩

/-- `claimPlans` succeeds just if the instances, variables and labels of all plans are new, and the
variables and the labels are different from each other. Names of different kinds are not compared.
-/
theorem claimPlans_eq_ok_iff {root : Component κ} {plans : List Plan} {vars labels : List String} :
    claimPlans root plans = .ok (vars, labels) ↔
      (∀ plan ∈ plans, plan.name ∉ root.children.keys) ∧
      (vars = root.vars ++ freshVars plans ∧
        (freshVars plans).Nodup ∧ ∀ name ∈ freshVars plans, name ∉ root.vars) ∧
      labels = root.labels ++ freshLabels plans ∧
        (freshLabels plans).Nodup ∧ ∀ name ∈ freshLabels plans, name ∉ root.labels := by
  rw [claimPlans]
  generalize root.vars = takenVars
  generalize root.labels = takenLabels
  -- each plan claims its names behind those of the plans before it
  induction plans generalizing takenVars takenLabels with
  | nil => simp [freshVars, freshLabels, @eq_comm _ vars, @eq_comm _ labels]
  | cons plan rest ih =>
    have hvars : freshVars (plan :: rest) = outerNames plan.vars ++ freshVars rest :=
      List.flatMap_cons
    have hlabels : freshLabels (plan :: rest) = outerNames plan.labels ++ freshLabels rest :=
      List.flatMap_cons
    rw [List.foldlM_cons, hvars, hlabels, List.forall_mem_cons, ← append_claimed_iff,
      ← append_claimed_iff]
    dsimp only
    by_cases hc : root.children.contains plan.name = true
    · rw [if_pos hc, Except.throw_eq_error, Except.error_bind, Except.error_bind]
      constructor
      · intro h
        cases h
      · exact fun h => absurd (NameMap.contains_iff.1 hc) h.1.1
    · have hm : plan.name ∉ root.children.keys := fun h => hc (NameMap.contains_iff.2 h)
      rw [if_neg hc, Except.bind_eq_ok_iff]
      constructor
      · rintro ⟨_, hplan, hrest⟩
        obtain ⟨_, hv, hplan⟩ := Except.bind_eq_ok_iff.1 hplan
        obtain ⟨_, hl, hplan⟩ := Except.bind_eq_ok_iff.1 hplan
        obtain rfl := Except.ok.inj hplan
        obtain ⟨rfl, hv'⟩ := claimNames_eq_ok_iff.1 hv
        obtain ⟨rfl, hl'⟩ := claimNames_eq_ok_iff.1 hl
        obtain ⟨hn, ⟨rfl, hvr⟩, rfl, hlr⟩ := (ih _ _).1 hrest
        exact ⟨⟨hm, hn⟩, ⟨List.append_assoc .., hv', hvr⟩, List.append_assoc .., hl', hlr⟩
      · rintro ⟨⟨-, hn⟩, ⟨rfl, hv, hvr⟩, rfl, hl, hlr⟩
        refine ⟨(takenVars ++ outerNames plan.vars, takenLabels ++ outerNames plan.labels), ?_,
          (ih _ _).2 ⟨hn, ⟨(List.append_assoc ..).symm, hvr⟩, (List.append_assoc ..).symm, hlr⟩⟩
        simp only [claimNames_eq_ok_iff.2 ⟨rfl, hv⟩, claimNames_eq_ok_iff.2 ⟨rfl, hl⟩,
          Except.ok_bind, Except.pure_eq_ok]

/-! ## Names of copies -/

/-- The start of all new names of the copy with a number. -/
def startOf (stem : String) (number : Nat) : String :=
  stem ++ String.ofList (Nat.toDigits 10 number) ++ "_"

/-- `startOf` can be taken apart again: its number ends at the first underscore behind the stem. -/
theorem startOf_append_inj {stem left right : String} {m n : Nat}
    (h : startOf stem m ++ left = startOf stem n ++ right) : m = n ∧ left = right := by
  have hunderscore : "_".toList = ['_'] := rfl
  have hlist := congrArg String.toList h
  simp only [startOf, String.toList_append, String.toList_ofList, hunderscore, List.append_assoc,
    List.append_cancel_left_eq, List.singleton_append] at hlist
  -- digits hold no underscore, so both texts are cut behind the number
  have hcut := congrArg (Text.cutChars? '_') hlist
  rw [Text.cutChars?_append Nat.underscore_not_in_toDigits,
    Text.cutChars?_append Nat.underscore_not_in_toDigits] at hcut
  obtain ⟨hdigits, hrest⟩ := Prod.mk.inj (Option.some.inj hcut)
  exact ⟨Text.toDigits_inj hdigits, String.toList_inj.1 hrest⟩

/-- `plans` in terms of `startOf`, by definition. -/
theorem plans_eq (prototype : Instance) (name stem : String) (count : Int) :
    plans prototype name stem count = (List.range (count - 1).toNat).map fun i =>
      Plan.make prototype name (startOf stem (i + 2)) := rfl

/-- `plans` have different names, whatever the stem and the prototype are called. -/
theorem plans_distinct (prototype : Instance) (name stem : String) (count : Int) :
    ((plans prototype name stem count).map Plan.name).Nodup := by
  rw [plans_eq, List.map_map]
  refine List.pairwise_map.2 (List.nodup_range.imp ?_)
  -- the names tell the numbers, which are different
  intro i j hij h
  have hnumbers := (startOf_append_inj h).1
  omega

/-! ## Split modes -/

/-- `rootInstance` finds the instances of the root under their names. -/
theorem rootInstance_eq_ok_iff {tree : Tree κ} {name : String} {inst : Instance} :
    rootInstance tree name = .ok inst ↔ (name, inst) ∈ (rootInstances tree).entries := by
  rw [rootInstance, ← NameMap.get?_eq_some_iff]
  cases (rootInstances tree).get? name <;> simp

/-- `checkMode` accepts the modes of an instance that is an automaton. -/
theorem checkMode_eq_ok {tree : Tree κ} {name mode : String}
    (h : checkMode tree name mode = .ok ()) :
    ∃ inst automaton, (name, inst) ∈ (rootInstances tree).entries ∧
      (tree.get inst.child).body = .base automaton ∧ mode ∈ automaton.modes.keys := by
  rw [checkMode] at h
  obtain ⟨inst, hi, hk⟩ := Except.bind_eq_ok_iff.1 h
  refine ⟨inst, ?_⟩
  rw [Component.automaton?] at hk
  -- a network has no modes, so the check would have failed
  cases hb : (tree.get inst.child).body with
  | network children => simp [hb] at hk
  | base automaton =>
    refine ⟨automaton, rootInstance_eq_ok_iff.1 hi, rfl, ?_⟩
    by_cases hc : automaton.modes.contains mode
    · exact NameMap.contains_iff.1 hc
    · simp [hb, hc] at hk

/-- `splitModes` finds as many modes as there are instances. They are joined in the split mode,
which may also be the path to the mode of a single instance. -/
theorem splitModes_eq_ok {instances modes : List String} {mode : String}
    (h : splitModes (κ := κ) instances mode = .ok modes) :
    modes.length = instances.length ∧
      (mode = Text.join "." modes ∨
        ∃ inst own, instances = [inst] ∧ modes = [own] ∧ mode = inst ++ "." ++ own) := by
  -- both branches of the split end with the comparison of lengths
  have key {instances found : List String} {cause : PassError κ}
      (h : (if found.length = instances.length then .ok found else .error cause :
        Except (PassError κ) (List String)) = .ok modes) :
      found = modes ∧ modes.length = instances.length := by
    split at h
    · next hlength =>
      obtain rfl := Except.ok.inj h
      exact ⟨rfl, hlength⟩
    · -- too few or too many modes are an error
      cases h
  have hpieces := Text.join_pieces mode
  unfold splitModes at h
  generalize Text.pieces '.' mode = pieces at h hpieces
  simp only at h
  -- two pieces for one instance may be a path, anything else is a list of modes
  split at h
  · next inst first second =>
    obtain ⟨rfl, hlength⟩ := key h
    refine ⟨hlength, ?_⟩
    split
    · next hfirst => exact .inr ⟨inst, second, rfl, rfl, by rw [← hpieces, hfirst]; rfl⟩
    · exact .inl hpieces.symm
  · obtain ⟨rfl, hlength⟩ := key h
    exact ⟨hlength, .inl hpieces.symm⟩

/-- `singleState` takes the first condition of a family, and its mode names a mode of each instance.
-/
theorem singleState_eq_ok {tree : Tree κ} {states : NameMap (Expr κ)} {modes : List String}
    {condition : Expr κ} (h : singleState tree states = .ok (modes, condition)) :
    ∃ mode rest, states.entries = (mode, condition) :: rest ∧
      splitModes (κ := κ) (rootInstances tree).keys mode = .ok modes ∧
      ∀ pair ∈ (rootInstances tree).keys.zip modes, checkMode tree pair.1 pair.2 = .ok () := by
  rw [singleState] at h
  split at h
  · cases h
  · next mode condition' rest he =>
    -- the modes are split off the first key, and each of them is checked
    obtain ⟨modes', hs, h⟩ := Except.bind_eq_ok_iff.1 h
    obtain ⟨hm, h⟩ := Except.check_bind_eq_ok_iff.1 h
    obtain ⟨rfl, rfl⟩ := Prod.mk.inj (Except.ok.inj h)
    exact ⟨mode, rest, he, hs, List.forM_eq_ok_iff.1 hm⟩

/-- `singleState` finds as many modes as there are instances. -/
theorem length_modes_of_singleState {tree : Tree κ} {states : NameMap (Expr κ)}
    {modes : List String}
    {condition : Expr κ} (h : singleState tree states = .ok (modes, condition)) :
    modes.length = (rootInstances tree).entries.length := by
  obtain ⟨mode, rest, -, hsplit, -⟩ := singleState_eq_ok h
  rw [(splitModes_eq_ok hsplit).1, NameMap.keys, List.length_map]

/-- If `singleState` succeeds then every instance is an automaton of the arena. -/
theorem isBase_of_singleState {tree : Tree κ} {states : NameMap (Expr κ)}
    {modes : List String} {condition : Expr κ}
    (h : singleState tree states = .ok (modes, condition)) {name : String} {inst : Instance}
    (hi : (name, inst) ∈ (rootInstances tree).entries) :
    (tree.get inst.child).isBase ∧ inst.child.index < tree.size := by
  obtain ⟨mode, rest, -, hs, hm⟩ := singleState_eq_ok h
  -- there are as many modes as instances, so the instance has one
  have hname : name ∈ ((rootInstances tree).keys.zip modes).map Prod.fst := by
    rw [List.map_fst_zip (Nat.le_of_eq (splitModes_eq_ok hs).1.symm)]
    exact NameMap.mem_keys_of_mem hi
  obtain ⟨⟨_, own⟩, hp, rfl⟩ := List.mem_map.1 hname
  obtain ⟨inst', automaton, hi', hb, hk⟩ := checkMode_eq_ok (hm _ hp)
  obtain rfl := NameMap.value_unique hi hi'
  refine ⟨by rw [Component.isBase, hb], Nat.lt_of_not_le fun hle => ?_⟩
  -- the component of a handle outside the arena has no modes
  rw [Tree.get_eq_default hle] at hb
  obtain rfl : Automaton.empty = automaton := Body.base.inj hb
  cases hk

/-! ## What a run relies on when it starts to change the model -/

/-- The outcome of a successful preparation. -/
structure Prepared (model : Model κ) (options : Options) (prep : Preparation κ) : Prop where
  chosen : chooseInstance (κ := κ) (rootInstances model.tree).keys options.name = .ok prep.name
  prototype : (prep.name, prep.prototype) ∈ (rootInstances model.tree).entries
  count : 2 ≤ options.count
  copies : prep.copies = plans prep.prototype prep.name options.stem options.count
  claimed : claimPlans model.tree.rootComponent prep.copies = .ok (prep.vars, prep.labels)
  /-- The conditions are those on the prototype, and the modes are extended by its mode. -/
  states : ∃ position initial forbidden,
    (rootInstances model.tree).keys.findIdx? (· = prep.name) = some position ∧
    singleState model.tree model.initial = .ok initial ∧
    findForbidden model = .ok forbidden ∧
    prep.initial = (extendMode initial.1 position prep.copies.length, initial.2) ∧
    prep.forbidden = forbidden.map fun states =>
      (extendMode states.1 position prep.copies.length, states.2)

/-- `prepare` succeeds with copies that are `Prepared`, unless there are none to be made. -/
theorem prepare_eq_ok {model : Model κ} {options : Options} {found : Option (Preparation κ)}
    (h : prepare model options = .ok found) :
    (options.count = 1 ∧ found = none) ∨
      ∃ prep, found = some prep ∧ Prepared model options prep := by
  rw [prepare] at h
  obtain ⟨name, hname, h⟩ := Except.bind_eq_ok_iff.1 h
  -- the hypothesis rules out every check that fails
  cases hp : (rootInstances model.tree).keys.findIdx? (· = name) with
  | none => simp [hp] at h
  | some position =>
    simp only [hp] at h
    by_cases hc : options.count < 1
    · simp [hc] at h
    rw [if_neg hc] at h
    obtain ⟨initial, hi, h⟩ := Except.bind_eq_ok_iff.1 h
    obtain ⟨forbidden, hf, h⟩ := Except.bind_eq_ok_iff.1 h
    by_cases h1 : options.count = 1
    · rw [if_pos h1] at h
      exact .inl ⟨h1, (Except.ok.inj h).symm⟩
    rw [if_neg h1] at h
    obtain ⟨prototype, hpr, h⟩ := Except.bind_eq_ok_iff.1 h
    obtain ⟨⟨vars, labels⟩, hn, h⟩ := Except.bind_eq_ok_iff.1 h
    refine .inr ⟨_, (Except.ok.inj h).symm, ?_⟩
    exact {
      chosen := hname
      prototype := rootInstance_eq_ok_iff.1 hpr
      count := by omega
      copies := rfl
      claimed := hn
      states := ⟨position, initial, forbidden, hp, hi, hf, rfl, rfl⟩ }

/-- A preparation that `prepare` has found is `Prepared`. -/
theorem prepared_of_prepare {model : Model κ} {options : Options} {prep : Preparation κ}
    (h : prepare model options = .ok (some prep)) : Prepared model options prep := by
  rcases prepare_eq_ok h with ⟨-, hnone⟩ | ⟨found, hsome, hprep⟩
  · cases hnone
  · exact Option.some.inj hsome ▸ hprep

end HybridAutomata.CopyInstance
