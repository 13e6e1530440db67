import HybridAutomata.Proofs.CopyInstance.Conditions
import HybridAutomata.Proofs.CopyInstance.Layout
import HybridAutomata.Proofs.Model.Check
/-!
# Whether the result is well-formed

The names that are claimed for copies are compared with names of their own kind only, and a
condition may mention a variable that only a shadowed binding of the prototype leads to. These are
the two ways in which copying can spoil a well-formed model, and there is no other.

* `Prepared.mem_vars_result_iff`   the variables of the result
* `Prepared.names_result_iff`      whether the new conditions mention known names only
* `Prepared.rules_result_iff`      whether the result is well-formed
-/

namespace HybridAutomata

namespace Tree

/-- `globalName` without dots is the name of a variable of the root. -/
theorem outerName?_of_globalName {name inner : String} {inst : Instance}
    (h : '.' ∉ (globalName name inst inner).toList) :
    inst.outerName? .var inner = some (globalName name inst inner) := by
  rw [globalName] at h ⊢
  -- the name of a local variable would have a dot behind the name of the instance
  cases ho : inst.outerName? .var inner with
  | some outer => rfl
  | none =>
    rw [ho, Option.getD_none] at h
    exact absurd (Text.mem_toList_dotted name inner) h

/-- `qualify` puts a dot before a name that stands behind a path. -/
theorem dot_mem_qualify {path : String} (h : path ≠ "") (name : String) :
    '.' ∈ (qualify path name).toList := by
  rw [qualify, if_neg (by rwa [String.isEmpty_iff])]
  exact Text.mem_toList_dotted path name

end Tree

namespace CopyInstance

variable {κ : Type}

/-- A condition mentions a variable of the root to which the prototype is bound, but only by
bindings that do not count because an earlier one binds the same name. -/
def MentionsShadowed (prototype : Instance) (condition : Expr κ) : Prop :=
  ∃ binding ∈ prototype.vars, binding.outer ∈ condition.vars ∧
    ∀ other ∈ prototype.vars, prototype.outerName? .var other.inner ≠ some binding.outer

instance (prototype : Instance) (condition : Expr κ) :
    Decidable (MentionsShadowed prototype condition) := by
  unfold MentionsShadowed
  infer_instance

/-- A mentioned variable to which the prototype is bound is reached through a binding, unless the
condition `MentionsShadowed` variables. -/
theorem exists_reached {prototype : Instance} {condition : Expr κ}
    (hshadowed : ¬ MentionsShadowed prototype condition) {outer : String}
    (ho : outer ∈ outerNames prototype.vars) (hmentioned : outer ∈ condition.vars) :
    ∃ binding ∈ prototype.vars, prototype.outerName? .var binding.inner = some outer := by
  obtain ⟨binding, hb, rfl⟩ := List.mem_map.1 ho
  -- otherwise this binding is one that nothing leads to
  exact Decidable.byContradiction fun hno =>
    hshadowed ⟨binding, hb, hmentioned, fun other ho hi => hno ⟨other, ho, hi⟩⟩

/-- What a run does not find out before it changes the model, though the result suffers from it. -/
def Preparation.Overlooks (prep : Preparation κ) (model : Model κ) : Prop :=
  KindClash model.tree.rootComponent prep.copies ∨
    ∃ given ∈ prep.given .initial ++ prep.given .forbidden,
      MentionsShadowed prep.prototype given.2

instance (prep : Preparation κ) (model : Model κ) : Decidable (prep.Overlooks model) :=
  inferInstanceAs (Decidable (_ ∨ _))

namespace Prepared

variable {model : Model κ} {options : Options} {prep : Preparation κ} {vars vars' : List String}

/-! ## Known names -/

/-- `allVariables` of the result are those of the model, and those of the prototype once more for
each copy. -/
theorem mem_vars_result_iff (h : Prepared model options prep) (htree : model.tree.WellFormed)
    (hvars : model.allVariables = .ok vars) (hvars' : (prep.result model).allVariables = .ok vars')
    (listed : String) :
    listed ∈ vars' ↔ listed ∈ vars ∨ ∃ start ∈ starts options,
      ∃ inner ∈ (model.tree.get prep.prototype.child).vars,
        listed = start ++ Tree.globalName prep.name prep.prototype inner := by
  -- in a shallow tree variables are listed instance by instance, before and after
  obtain ⟨old, hold, hmem⟩ := (h.shallow htree).exists_allVariables
  obtain rfl : old = vars := Except.ok.inj (hold.symm.trans hvars)
  obtain ⟨new, hnew, hmem'⟩ := (h.shallow_result htree).exists_allVariables
  obtain rfl : new = vars' := Except.ok.inj (hnew.symm.trans hvars')
  rw [hmem, hmem']
  constructor
  -- instances of the result are old ones or copies
  · rintro ⟨entry, he, inner, hi, rfl⟩
    rcases h.mem_entries_iff.1 he with ho | ⟨plan, place, hp, rfl⟩
    · rw [h.get_result_child ho] at hi
      exact .inl ⟨entry, ho, inner, hi, rfl⟩
    · -- a variable of a copy is called like its counterpart, behind a start
      have hplan : plan ∈ prep.copies := List.fst_mem_of_mem_zipIdx hp
      rw [h.copies_eq_map] at hplan
      obtain ⟨start, hs, rfl⟩ := List.mem_map.1 hplan
      have hget := h.get_result_copy hp
      dsimp only [entryOf] at hi
      rw [hget] at hi
      exact .inr ⟨start, hs, inner, hi, globalName_entryOf ..⟩
  · rintro (⟨entry, ho, inner, hi, rfl⟩ | ⟨start, hs, inner, hi, rfl⟩)
    · refine ⟨entry, h.mem_entries_iff.2 (.inl ho), inner, ?_, rfl⟩
      rwa [h.get_result_child ho]
    · obtain ⟨place, hp⟩ := h.exists_place hs
      refine ⟨_, h.mem_entries_iff.2 (.inr ⟨_, place, hp, rfl⟩), inner, ?_,
        (globalName_entryOf ..).symm⟩
      have hget := h.get_result_copy hp
      dsimp only [entryOf]
      rw [hget]
      exact hi

/-- A name that conditions may mention in the model they may mention in `result`. -/
theorem known_result (h : Prepared model options prep) (htree : model.tree.WellFormed)
    (hvars : model.allVariables = .ok vars) (hvars' : (prep.result model).allVariables = .ok vars')
    {name : String} (hname : name ∈ vars ∨ name ∈ model.allConstants.keys) :
    name ∈ vars' ∨ name ∈ (prep.result model).allConstants.keys := by
  rcases hname with hv | hc
  · exact .inl ((h.mem_vars_result_iff htree hvars hvars' _).2 (.inl hv))
  -- constants belong to the root or to an old instance, and neither of them has changed
  · refine .inr ((h.shallow_result htree).mem_allConstants_iff.2 ?_)
    rcases (h.shallow htree).mem_allConstants_iff.1 hc with hroot | ⟨entry, he, inner, hi, hb, rfl⟩
    · rw [h.constants_result]
      exact .inl hroot
    · refine .inr ⟨entry, h.mem_entries_iff.2 (.inl he), inner, ?_, hb, rfl⟩
      rwa [h.get_result_child he]

/-- A name of `freshVars` is not the name of a variable of the model. -/
theorem not_mem_of_mem_freshVars (h : Prepared model options prep) (htree : model.tree.WellFormed)
    (hvars : model.allVariables = .ok vars) {name : String} (hdot : '.' ∉ name.toList)
    (hname : name ∈ freshVars prep.copies) : name ∉ vars := by
  intro hmem
  have hshallow := h.shallow htree
  obtain ⟨old, hold, hlisted⟩ := hshallow.exists_allVariables
  obtain rfl : old = vars := Except.ok.inj (hold.symm.trans hvars)
  obtain ⟨entry, hentry, inner, -, he⟩ := (hlisted _).1 hmem
  -- without a dot it would be a variable of the root, and those are not claimed again
  rw [he] at hdot
  have hbound := Tree.outerName?_of_globalName hdot
  have hdeclared := (hshallow.instances entry hentry).declares_outer hbound
  rw [← he, Component.declares_var_iff] at hdeclared
  exact (claimPlans_eq_ok_iff.1 h.claimed).2.1.2.2 _ hname hdeclared

/-- The counterpart of a variable of the root is known in `result` just if some variable of the
prototype leads to it. -/
theorem known_counterpart_iff (h : Prepared model options prep) (htree : model.tree.WellFormed)
    (hstem : Text.isIdentifier options.stem = true)
    (hclash : ¬ KindClash model.tree.rootComponent prep.copies)
    (hvars : model.allVariables = .ok vars) (hvars' : (prep.result model).allVariables = .ok vars')
    {start outer : String} (hs : start ∈ starts options)
    (ho : outer ∈ outerNames prep.prototype.vars) :
    (start ++ outer ∈ vars' ∨ start ++ outer ∈ (prep.result model).allConstants.keys) ↔
      ∃ binding ∈ prep.prototype.vars,
        prep.prototype.outerName? .var binding.inner = some outer := by
  have hshallow := h.shallow htree
  have hresult := h.shallow_result htree
  have hfresh : start ++ outer ∈ freshVars prep.copies := by
    rw [h.freshVars_eq]
    exact mem_startedNames_iff.2 ⟨start, hs, outer, ho, rfl⟩
  -- no new name has a dot, so it can only be known as a name of the root
  have hdot : '.' ∉ (start ++ outer).toList :=
    Text.not_mem_of_isIdentifier (h.isIdentifier_of_mem_fresh htree hstem (.inl hfresh))
  constructor
  -- the name may be listed as a variable or as a constant, old or new
  · rintro (hv | hc)
    · rcases (h.mem_vars_result_iff htree hvars hvars' _).1 hv with
        hold | ⟨start', hs', inner, -, he⟩
      · exact absurd hold (h.not_mem_of_mem_freshVars htree hvars hdot hfresh)
      · -- so it belongs to a copy, and without the start it is a bound name of the prototype
        obtain ⟨i, -, rfl⟩ := List.mem_map.1 hs
        obtain ⟨j, -, rfl⟩ := List.mem_map.1 hs'
        obtain ⟨-, rfl⟩ := startOf_append_inj he
        rw [String.toList_append, List.mem_append, not_or] at hdot
        have hbound := Tree.outerName?_of_globalName hdot.2
        obtain ⟨binding, hbinding, rfl, -⟩ := Tree.exists_binding_of_outerName? hbound
        exact ⟨binding, hbinding, hbound⟩
    · rcases hresult.mem_allConstants_iff.1 hc with hroot | ⟨entry, he, inner, -, -, heq⟩
      · -- a constant of the root would be a clash
        rw [h.constants_result] at hroot
        exact absurd (.inl ⟨_, hfresh, .inr hroot⟩) hclash
      · -- a constant of an automaton has a dot in its listed name
        have hname := h.isIdentifier_instance htree hstem he
        rw [heq] at hdot
        exact absurd (Tree.dot_mem_qualify (Text.ne_empty_of_isIdentifier hname) inner) hdot
  · rintro ⟨binding, hbinding, hb⟩
    have hinner := ((hshallow.instances _ h.prototype).binding .var binding hbinding).2.2
    refine .inl ((h.mem_vars_result_iff htree hvars hvars' _).2 (.inr ⟨start, hs, binding.inner,
      Component.declares_var_iff.1 hinner, ?_⟩))
    rw [Tree.globalName, hb, Option.getD_some]

/-- `extendCondition` mentions known names only just if the condition mentions no shadowed variable.
-/
theorem names_result_iff (h : Prepared model options prep) (htree : model.tree.WellFormed)
    (hstem : Text.isIdentifier options.stem = true)
    (hclash : ¬ KindClash model.tree.rootComponent prep.copies)
    (hvars : model.allVariables = .ok vars) (hvars' : (prep.result model).allVariables = .ok vars')
    {join : Expr κ → Expr κ → Expr κ} {op : Operator} (hjoin : Expr.IsConnective join op)
    {condition : Expr κ}
    (hnames : ∀ name ∈ condition.vars, name ∈ vars ∨ name ∈ model.allConstants.keys) :
    (∀ name ∈ (extendCondition join condition prep.copies).vars,
        name ∈ vars' ∨ name ∈ (prep.result model).allConstants.keys) ↔
      ¬ MentionsShadowed prep.prototype condition := by
  rw [extendCondition_eq, h.copies_eq_map, List.map_map]
  simp only [mem_vars_joinRenamed_iff hjoin, List.mem_map, Function.comp_apply]
  -- one copy is enough to tell that a shadowed variable is mentioned
  constructor
  · rintro hall ⟨binding, hb, hmentioned, hshadowed⟩
    obtain ⟨start, hs⟩ := h.exists_start
    have houter : binding.outer ∈ outerNames prep.prototype.vars := List.mem_map_of_mem hb
    have hknown := hall _ (.inr ⟨_, ⟨start, hs, rfl⟩, binding.outer, hmentioned, rfl⟩)
    rw [newName_make, if_pos houter] at hknown
    obtain ⟨other, ho, hi⟩ :=
      (h.known_counterpart_iff htree hstem hclash hvars hvars' hs houter).1 hknown
    exact hshadowed other ho hi
  -- a name of the joined condition is an old one or one that was renamed for a copy
  · rintro hshadowed name (hname | ⟨_, ⟨start, hs, rfl⟩, old, hold, rfl⟩)
    · exact h.known_result htree hvars hvars' (hnames name hname)
    · rw [newName_make]
      split
      · next houter =>
        exact (h.known_counterpart_iff htree hstem hclash hvars hvars' hs houter).2
          (exists_reached hshadowed houter hold)
      · exact h.known_result htree hvars hvars' (hnames old hold)

/-! ## Modes -/

/-- Modes that `singleState` has split belong to the instances, one to each. -/
theorem mode_of_mem_zip (h : Prepared model options prep) (htree : model.tree.WellFormed)
    {states : NameMap (Expr κ)} {modes : List String} {condition : Expr κ}
    (hstates : singleState model.tree states = .ok (modes, condition))
    {pair : (String × Instance) × String}
    (hp : pair ∈ (rootInstances model.tree).entries.zip modes) :
    ∃ automaton, (model.tree.get pair.1.2.child).body = .base automaton ∧
      pair.2 ∈ automaton.modes.keys ∧ '.' ∉ pair.2.toList := by
  obtain ⟨mode, rest, -, -, hchecked⟩ := singleState_eq_ok hstates
  have hentry : pair.1 ∈ (rootInstances model.tree).entries := (List.of_mem_zip hp).1
  have hkeys : (pair.1.1, pair.2) ∈ (rootInstances model.tree).keys.zip modes := by
    rw [NameMap.keys, List.zip_map_left]
    exact List.mem_map_of_mem hp
  -- the preparation has looked up each mode in its instance
  obtain ⟨inst, automaton, hi, hb, hk⟩ := checkMode_eq_ok (hchecked _ hkeys)
  obtain rfl : pair.1.2 = inst := NameMap.value_unique hentry hi
  have hok := ((h.shallow htree).wellFormed_iff.1 htree).2 _ hentry
  exact ⟨automaton, hb, hk, Text.not_mem_of_isIdentifier
    ((hok.automaton automaton hb).isIdentifier_of_mem_keys hk)⟩

/-- The mode at the position of the prototype belongs to the prototype. -/
theorem mem_zip_prototype (h : Prepared model options prep) {modes : List String} {position : Nat}
    (hlength : modes.length = (rootInstances model.tree).entries.length)
    (hposition : (rootInstances model.tree).keys.findIdx? (· = prep.name) = some position) :
    ((prep.name, prep.prototype), modes.getD position "") ∈
      (rootInstances model.tree).entries.zip modes := by
  -- the position is found among the names, and serves as an index of entries and modes
  obtain ⟨hlt, hname, -⟩ := List.findIdx?_eq_some_iff_getElem.1 hposition
  have hentries : position < (rootInstances model.tree).entries.length := by
    rwa [NameMap.keys, List.length_map] at hlt
  have hmodes : position < modes.length := hlength ▸ hentries
  have hname' : (rootInstances model.tree).entries[position].1 = prep.name := by
    simpa [NameMap.keys] using hname
  have hentry : (rootInstances model.tree).entries[position] = (prep.name, prep.prototype) := by
    have hmem := List.getElem_mem hentries
    rcases he : (rootInstances model.tree).entries[position] with ⟨name, inst⟩
    rw [he] at hmem hname'
    obtain rfl : name = prep.name := hname'
    rw [NameMap.value_unique hmem h.prototype]
  have hzip : position < ((rootInstances model.tree).entries.zip modes).length := by
    rw [List.length_zip]
    exact Nat.lt_min.2 ⟨hentries, hmodes⟩
  -- what stands at the position in both lists stands there in the list of pairs
  have hpair : ((rootInstances model.tree).entries.zip modes)[position] =
      ((prep.name, prep.prototype), modes.getD position "") := by
    rw [List.getElem_zip, hentry, List.getD_eq_getElem?_getD, List.getElem?_eq_getElem hmodes,
      Option.getD_some]
  rw [← hpair]
  exact List.getElem_mem hzip

/-- `resultTree` has as many instances as there are modes in an extended list. -/
theorem length_modes_result (h : Prepared model options prep) {modes : List String}
    (hlength : modes.length = (rootInstances model.tree).entries.length) (own : String) :
    (modes ++ List.replicate prep.copies.length own).length =
      (prep.resultTree model.tree).rootComponent.children.entries.length := by
  rw [h.entries_result, newEntries, List.length_append, List.length_append, List.length_replicate,
    List.length_map, List.length_zipIdx, hlength]

/-- Every instance of `resultTree` has the mode that the extended list pairs it with, and the mode
has no dots. -/
theorem mode_of_mem_zip_result (h : Prepared model options prep) (htree : model.tree.WellFormed)
    {states : NameMap (Expr κ)} {modes : List String} {condition : Expr κ}
    (hstates : singleState model.tree states = .ok (modes, condition)) {own : String}
    (hown : ((prep.name, prep.prototype), own) ∈ (rootInstances model.tree).entries.zip modes)
    {pair : (String × Instance) × String}
    (hp : pair ∈ (prep.resultTree model.tree).rootComponent.children.entries.zip
      (modes ++ List.replicate prep.copies.length own)) :
    ∃ automaton, ((prep.resultTree model.tree).get pair.1.2.child).body = .base automaton ∧
      pair.2 ∈ automaton.modes.keys ∧ '.' ∉ pair.2.toList := by
  -- the old modes go with the old instances, and the repeated mode with the copies
  rw [h.entries_result, List.zip_append (length_modes_of_singleState hstates).symm,
    List.mem_append] at hp
  rcases hp with hold | hcopy
  · obtain ⟨automaton, hb, hmode⟩ := h.mode_of_mem_zip htree hstates hold
    refine ⟨automaton, ?_, hmode⟩
    rw [h.get_result_child (List.of_mem_zip hold).1]
    exact hb
  · -- a copy has the modes of the prototype
    obtain ⟨automaton, hb, hmode⟩ := h.mode_of_mem_zip htree hstates hown
    obtain ⟨hentry, hreplicate⟩ := List.of_mem_zip hcopy
    obtain ⟨⟨plan, place⟩, hplan, he⟩ := List.mem_map.1 hentry
    have hget := h.get_result_copy hplan
    refine ⟨automaton, ?_, ?_⟩
    · rw [← he]
      dsimp only [entryOf]
      rw [hget]
      exact hb
    · rw [List.eq_of_mem_replicate hreplicate]
      exact hmode

/-- `modeExists` of the extended mode in `resultTree`, and the mode has dots. -/
theorem modeExists_result (h : Prepared model options prep) (htree : model.tree.WellFormed)
    {states : NameMap (Expr κ)} {modes : List String} {condition : Expr κ}
    (hstates : singleState model.tree states = .ok (modes, condition)) {position : Nat}
    (hposition : (rootInstances model.tree).keys.findIdx? (· = prep.name) = some position) :
    (prep.resultTree model.tree).modeExists (prep.resultTree model.tree).root
        (extendMode modes position prep.copies.length) = true ∧
      '.' ∈ (extendMode modes position prep.copies.length).toList := by
  have hlength := length_modes_of_singleState hstates
  have hprototype := h.mem_zip_prototype hlength hposition
  constructor
  · exact (h.shallow_result htree).modeExists_join
      (h.length_modes_result hlength _)
      fun pair hp => h.mode_of_mem_zip_result htree hstates hprototype hp
  · -- there is a mode of the prototype, and a mode of a copy behind it
    obtain ⟨start, hs⟩ := h.exists_start
    obtain ⟨first, others, hmodes⟩ := List.exists_cons_of_ne_nil
      (List.ne_nil_of_mem (List.of_mem_zip hprototype).2)
    have hcopies : prep.copies ≠ [] := by
      rw [h.copies_eq_map]
      exact List.ne_nil_of_mem (List.mem_map_of_mem hs)
    rw [extendMode, hmodes, List.cons_append]
    refine Text.mem_toList_join_of_ne_nil fun he => hcopies ?_
    have hzero := congrArg List.length (List.append_eq_nil_iff.1 he).2
    rwa [List.length_replicate, List.length_nil, List.length_eq_zero_iff] at hzero

/-! ## The result -/

/-- The conditions of a family of `result` mention known names only just if none of those `given`
mentions a shadowed variable. -/
theorem names_states_iff (h : Prepared model options prep) (hrules : model.Rules vars)
    (hstem : Text.isIdentifier options.stem = true)
    (hclash : ¬ KindClash model.tree.rootComponent prep.copies)
    (hvars' : (prep.result model).allVariables = .ok vars') (states : StateSet) :
    (∀ entry ∈ ((prep.result model).states states).entries, ∀ name ∈ entry.2.vars,
        name ∈ vars' ∨ name ∈ (prep.result model).allConstants.keys) ↔
      ∀ given ∈ prep.given states, ¬ MentionsShadowed prep.prototype given.2 := by
  -- both families are joined by a connective, so they need no case distinction
  obtain ⟨op, hjoin⟩ := isConnective_connective (κ := κ) states
  rw [h.entries_states_result states, List.forall_mem_map]
  refine forall_congr' fun given => forall_congr' fun hg => ?_
  -- the condition on the prototype is one of the model
  obtain ⟨modes, position, -, hstates, -⟩ := h.exists_of_mem_given hg
  obtain ⟨mode, rest, hentries, -⟩ := singleState_eq_ok hstates
  have hentry : (mode, given.2) ∈ (model.states states).entries := by
    rw [hentries]
    exact List.mem_cons_self
  exact h.names_result_iff hrules.tree hstem hclash hrules.listed hvars' hjoin
    (hrules.names states (mode, given.2) hentry)

/-- The variables of the model are listed in `result` as well. -/
theorem vars_subset_result (h : Prepared model options prep) (hrules : model.Rules vars)
    (hvars' : (prep.result model).allVariables = .ok vars') {name : String} (hname : name ∈ vars) :
    name ∈ vars' :=
  (h.mem_vars_result_iff hrules.tree hrules.listed hvars' _).2 (.inl hname)

/-- `result` has no variables if the model has none. -/
theorem vars_result_eq_nil (h : Prepared model options prep) (hrules : model.Rules vars)
    (hvars' : (prep.result model).allVariables = .ok vars') (hempty : vars = []) : vars' = [] := by
  have hiff (listed : String) := h.mem_vars_result_iff hrules.tree hrules.listed hvars' listed
  obtain ⟨old, hold, hmem⟩ := (h.shallow hrules.tree).exists_allVariables
  obtain rfl : old = vars := Except.ok.inj (hold.symm.trans hrules.listed)
  subst hempty
  refine List.eq_nil_iff_forall_not_mem.2 fun listed hl => ?_
  -- a variable of a copy comes from a variable of the prototype, which is listed itself
  rcases (hiff listed).1 hl with hl | ⟨start, -, inner, hi, -⟩
  · cases hl
  · cases (hmem _).2 ⟨_, h.prototype, inner, hi, rfl⟩

/-- `Rules` hold of `result` just if nothing was overlooked. -/
theorem rules_result_iff (h : Prepared model options prep) (hrules : model.Rules vars)
    (hstem : Text.isIdentifier options.stem = true) :
    (∃ vars', (prep.result model).Rules vars') ↔ ¬ prep.Overlooks model := by
  rw [Preparation.Overlooks, not_or]
  constructor
  · rintro ⟨vars', hresult⟩
    -- a well-formed tree has no clash, and names that are known leave no shadowed variable
    have hclash := (h.wellFormed_iff hrules.tree hstem).1 hresult.tree
    refine ⟨hclash, ?_⟩
    rintro ⟨given, hg, hshadowed⟩
    have hnames (states : StateSet) (hg : given ∈ prep.given states) : False :=
      (h.names_states_iff hrules hstem hclash hresult.listed states).1
        (hresult.names states) given hg hshadowed
    exact (List.mem_append.1 hg).elim (hnames .initial) (hnames .forbidden)
  · rintro ⟨hclash, hshadowed⟩
    obtain ⟨vars', hvars', -⟩ := (h.shallow_result hrules.tree).exists_allVariables
    have hroot : (prep.result model).tree.root = model.tree.root := root_result prep model.tree
    have hlisted : (prep.result model).allVariables = .ok vars' := hvars'
    -- the rules that could be broken are those of the tree and of the names in conditions
    refine ⟨vars', ?_⟩
    constructor
    case tree => exact (h.wellFormed_iff hrules.tree hstem).2 hclash
    case listed => exact hlisted
    case nonempty => rfl
    case modes =>
      intro states entry he
      rw [h.entries_states_result states] at he
      obtain ⟨given, hg, rfl⟩ := List.mem_map.1 he
      obtain ⟨modes, position, hp, hstates, hmode⟩ := h.exists_of_mem_given hg
      rw [hmode]
      exact (h.modeExists_result hrules.tree hstates hp).1
    case names =>
      intro states
      refine (h.names_states_iff hrules hstem hclash hlisted states).2 fun given hg hm =>
        hshadowed ⟨given, List.mem_append.2 ?_, hm⟩
      cases states with
      | initial => exact .inl hg
      | forbidden => exact .inr hg
    case settings =>
      obtain ⟨hplots, hset⟩ := Settings.check_eq_ok_iff.1 hrules.settings
      refine Settings.check_eq_ok_iff.2
        ⟨fun name hname => h.vars_subset_result hrules hlisted (hplots name hname), ?_⟩
      exact hset.imp_left fun hempty => h.vars_result_eq_nil hrules hlisted hempty
    case dots =>
      intro _ states mode hm
      rw [NameMap.keys, h.entries_states_result states, List.map_map] at hm
      obtain ⟨given, hg, rfl⟩ := List.mem_map.1 hm
      obtain ⟨modes, position, hp, hstates, hmode⟩ := h.exists_of_mem_given hg
      simp only [Function.comp_apply, hmode]
      exact (h.modeExists_result hrules.tree hstates hp).2

end Prepared

end CopyInstance
end HybridAutomata
