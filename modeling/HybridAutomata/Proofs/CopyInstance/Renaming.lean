import HybridAutomata.Proofs.CopyInstance.Soundness
/-!
# How copies are constrained

The conditions of a result are the conditions on the prototype, joined with one renaming for each
copy. It would constrain every copy like the prototype to rename all variables of the prototype,
`renamingTo`. What is renamed instead are the variables of the root that the prototype is bound to,
and this is the same unless a condition mentions a variable that the prototype keeps to itself:
`copies_are_constrained_alike_iff`.
-/

namespace HybridAutomata

namespace CopyInstance

variable {κ : Type}

/-- The renaming from one automaton to another with the same variables: global names go to global
names. -/
def renamingTo (before after : Tree κ) (original copy : Handle) : NameMap String :=
  .ofList ((before.get original).vars.filterMap fun inner =>
    match before.variableName original inner, after.variableName copy inner with
    | .ok old, .ok new => some (old, new)
    | _, _ => none)

/-- What was copied and where the copies are: the chosen instance of the root, and the components of
the new instances by number. -/
structure IsCopied (before after : Model κ) (options : Options) (name : String)
    (original : Instance) (copy : Nat → Handle) : Prop where
  chosen : chooseInstance (κ := κ) (rootInstances before.tree).keys options.name = .ok name
  original : (name, original) ∈ (rootInstances before.tree).entries
  copy : ∀ number : Nat, 2 ≤ number → (number : Int) ≤ options.count → ∃ inst,
    (startOf options.stem number ++ name, inst) ∈ (rootInstances after.tree).entries ∧
      inst.child = copy number

/-- The renamings to all copies, in the order of their numbers. -/
def renamingsTo (before after : Model κ) (options : Options) (original : Instance)
    (copy : Nat → Handle) : List (NameMap String) :=
  (List.range (options.count - 1).toNat).map fun i =>
    renamingTo before.tree after.tree original.child (copy (i + 2))

/-- The conditions of a family constrain every copy like the original: there is one left, and it is
the old one joined with its renamings to all copies. -/
def ConstrainsAlike (before after : Model κ) (options : Options) (original : Instance)
    (copy : Nat → Handle) (states : StateSet) : Prop :=
  ∀ entry ∈ (before.states states).entries, ∃ mode, (after.states states).entries =
    [(mode, joinRenamed (connective states) entry.2
      (renamingsTo before after options original copy))]

/-- A condition mentions a variable that an instance of the root keeps to itself. -/
def MentionsLocal (tree : Tree κ) (name : String) (inst : Instance) (condition : Expr κ) : Prop :=
  ∃ inner ∈ (tree.get inst.child).vars, inst.outerName? .var inner = none ∧
    name ++ "." ++ inner ∈ condition.vars

instance (tree : Tree κ) (name : String) (inst : Instance) (condition : Expr κ) :
    Decidable (MentionsLocal tree name inst condition) := by
  unfold MentionsLocal
  infer_instance

/-! ## The renaming of a copy -/

/-- The global names of the variables of the prototype. -/
def prototypeNames (tree : Tree κ) (name : String) (prototype : Instance) : List String :=
  (tree.get prototype.child).vars.map (Tree.globalName name prototype)

/-- An outer name of the prototype that a condition mentions is one of the `prototypeNames`, unless
the condition `MentionsShadowed` variables. -/
theorem mem_prototypeNames_of_mem_outerNames {tree : Tree κ} {name old : String}
    {prototype : Instance} {condition : Expr κ}
    (hdeclared : ∀ binding ∈ prototype.vars, binding.inner ∈ (tree.get prototype.child).vars)
    (hshadowed : ¬ MentionsShadowed prototype condition) (hmentioned : old ∈ condition.vars)
    (ho : old ∈ outerNames prototype.vars) : old ∈ prototypeNames tree name prototype := by
  -- a name that is not shadowed is reached from the inner side of a binding
  obtain ⟨binding, hb, hi⟩ := exists_reached hshadowed ho hmentioned
  refine List.mem_map.2 ⟨binding.inner, hdeclared binding hb, ?_⟩
  rw [Tree.globalName, hi, Option.getD_some]

/-- A name of the prototype that a condition mentions is an outer name, unless the condition
`MentionsLocal` variables. -/
theorem mem_outerNames_of_mem_prototypeNames {tree : Tree κ} {name old : String}
    {prototype : Instance} {condition : Expr κ}
    (hlocal : ¬ MentionsLocal tree name prototype condition) (hmentioned : old ∈ condition.vars)
    (hp : old ∈ prototypeNames tree name prototype) : old ∈ outerNames prototype.vars := by
  obtain ⟨inner, hi, rfl⟩ := List.mem_map.1 hp
  -- the prototype binds the variable, or it keeps a name of its own
  cases ho : prototype.outerName? .var inner with
  | none =>
    rw [Tree.globalName, ho, Option.getD_none] at hmentioned
    exact absurd ⟨inner, hi, ho, hmentioned⟩ hlocal
  | some outer =>
    rw [Tree.globalName, ho, Option.getD_some]
    obtain ⟨binding, hb, -, rfl⟩ := Tree.exists_binding_of_outerName? ho
    exact List.mem_map_of_mem hb

/-- `startOf` a stem changes every name that it is put before, because the name gets longer. -/
theorem startOf_append_ne {stem name : String} {number : Nat} :
    startOf stem number ++ name ≠ name := by
  intro he
  have hlength := congrArg (fun text : String => text.toList.length) he
  simp [startOf] at hlength
  omega

namespace Prepared

variable {model : Model κ} {options : Options} {prep : Preparation κ}

/-- `renamingTo` a copy puts the start of the copy before the global names of the prototype. -/
theorem renamingTo_eq (h : Prepared model options prep) (htree : model.tree.WellFormed)
    {start : String} {place : Nat}
    (hp : (Plan.make prep.prototype prep.name start, place) ∈ prep.copies.zipIdx model.tree.size) :
    renamingTo model.tree (prep.resultTree model.tree) prep.prototype.child ⟨place⟩ =
      .ofList ((prototypeNames model.tree prep.name prep.prototype).map fun name =>
        (name, start ++ name)) := by
  -- the copy is an instance of the result, so global names are determined in both trees
  have hentry := h.mem_entries_iff.2 (.inr ⟨_, place, hp, rfl⟩)
  have hold (inner : String) := (h.shallow htree).variableName_eq h.prototype inner
  have hnew (inner : String) : (prep.resultTree model.tree).variableName ⟨place⟩ inner =
      .ok (start ++ Tree.globalName prep.name prep.prototype inner) := by
    rw [← globalName_entryOf model.tree.root prep.prototype prep.name start place inner]
    exact (h.shallow_result htree).variableName_eq hentry inner
  -- every variable has a global name in both trees, so none is left out
  rw [renamingTo, prototypeNames, List.map_map]
  simp only [hold, hnew, Function.comp_def, List.filterMap_eq_map']

/-- `renamingsTo` the copies are alike, each with its own start. -/
theorem renamingsTo_eq (h : Prepared model options prep) (htree : model.tree.WellFormed)
    {copy : Nat → Handle}
    (hcopied : IsCopied model (prep.result model) options prep.name prep.prototype copy) :
    renamingsTo model (prep.result model) options prep.prototype copy =
      (starts options).map fun start =>
        .ofList ((prototypeNames model.tree prep.name prep.prototype).map fun name =>
          (name, start ++ name)) := by
  rw [renamingsTo, starts, List.map_map]
  refine List.map_congr_left fun i hi => ?_
  have hcount := h.count
  have hlt := List.mem_range.1 hi
  obtain ⟨inst, hinst, hchild⟩ := hcopied.copy (i + 2) (by omega) (by omega)
  -- the instance that bears the name is the copy with that number
  obtain ⟨place, hp⟩ := h.exists_place (List.mem_map_of_mem hi)
  obtain rfl := NameMap.value_unique hinst (h.mem_entries_iff.2 (.inr ⟨_, place, hp, rfl⟩))
  rw [← hchild]
  exact h.renamingTo_eq htree hp

/-- `extendCondition` joins a condition with the renamings to all copies just if the condition does
not mention a local variable of the prototype. -/
theorem extendCondition_eq_iff (h : Prepared model options prep) (htree : model.tree.WellFormed)
    {join : Expr κ → Expr κ → Expr κ} {op : Operator} (hjoin : Expr.IsConnective join op)
    {condition : Expr κ} (hshadowed : ¬ MentionsShadowed prep.prototype condition) :
    extendCondition join condition prep.copies =
        joinRenamed join condition ((starts options).map fun start =>
          .ofList ((prototypeNames model.tree prep.name prep.prototype).map fun name =>
            (name, start ++ name))) ↔
      ¬ MentionsLocal model.tree prep.name prep.prototype condition := by
  -- both sides join one renaming for each start, so the question is which names change
  have hok := (h.shallow htree).instances _ h.prototype
  rw [extendCondition_eq, h.copies_eq_map, List.map_map, joinRenamed_eq_iff hjoin (by simp),
    List.zip_map', List.forall_mem_map]
  simp only [Function.comp_apply, newName_make, newName_ofList]
  -- a local variable tells the two renamings apart, since only one of them changes it
  constructor
  · rintro hall ⟨inner, hi, hfree, hmentioned⟩
    obtain ⟨start, hs⟩ := h.exists_start
    have hprototype : prep.name ++ "." ++ inner ∈
        prototypeNames model.tree prep.name prep.prototype := by
      refine List.mem_map.2 ⟨inner, hi, ?_⟩
      rw [Tree.globalName, hfree, Option.getD_none]
    -- a local variable has a dot in its name, which no variable of the root has
    have houter : prep.name ++ "." ++ inner ∉ outerNames prep.prototype.vars := fun ho =>
      htree.not_mem_of_mem_vars (Tree.follow_nil model.tree model.tree.root)
        (Component.declares_var_iff.1 (h.declares_of_mem_outerNames htree .var ho))
        (Text.mem_toList_dotted prep.name inner)
    have heq := hall start hs _ hmentioned
    rw [if_neg houter, if_pos hprototype] at heq
    obtain ⟨i, -, rfl⟩ := List.mem_map.1 hs
    exact startOf_append_ne heq.symm
  -- without local variables the outer names and the names of the prototype agree where it matters
  · intro hlocal start hs old hold
    have hdeclared : ∀ binding ∈ prep.prototype.vars,
        binding.inner ∈ (model.tree.get prep.prototype.child).vars := fun binding hb =>
      Component.declares_var_iff.1 (hok.binding .var binding hb).2.2
    by_cases houter : old ∈ outerNames prep.prototype.vars
    · have hprototype : old ∈ prototypeNames model.tree prep.name prep.prototype :=
        mem_prototypeNames_of_mem_outerNames hdeclared hshadowed hold houter
      rw [if_pos houter, if_pos hprototype]
    · have hprototype : old ∉ prototypeNames model.tree prep.name prep.prototype := fun hp =>
        houter (mem_outerNames_of_mem_prototypeNames hlocal hold hp)
      rw [if_neg houter, if_neg hprototype]

end Prepared

/-! ## Runs -/

/-- `isIdentifier` of a name with a start tells that the stem is an identifier. -/
theorem isIdentifier_stem {stem name : String} {number : Nat}
    (h : Text.isIdentifier (startOf stem number ++ name) = true) :
    Text.isIdentifier stem = true := by
  obtain ⟨first, rest, hlist, hfirst, hrest⟩ := Text.isIdentifier_iff.1 h
  simp only [startOf, String.toList_append, String.toList_ofList] at hlist
  cases hs : stem.toList with
  | nil =>
    -- without a stem, the name starts with a digit
    obtain ⟨digit, digits, hdigits⟩ :=
      List.exists_cons_of_ne_nil (Nat.toDigits_ne_nil : Nat.toDigits 10 number ≠ [])
    have hdigit : digit.isDigit = true :=
      Nat.isDigit_of_mem_toDigits (by decide) (by decide) (hdigits ▸ List.mem_cons_self)
    rw [hs, hdigits] at hlist
    obtain ⟨rfl, -⟩ := List.cons.inj hlist
    exact absurd hfirst (Text.not_isInitial_of_isDigit hdigit)
  | cons c others =>
    rw [hs] at hlist
    obtain ⟨rfl, rfl⟩ := List.cons.inj hlist
    refine Text.isIdentifier_iff.2 ⟨_, others, hs, hfirst, fun d hd => hrest d ?_⟩
    simp [hd]

section

variable [Scalar κ] {model : Model κ} {options : Options} {prep : Preparation κ}

/-- `Pass.check` of this pass admits one condition of each family at most. -/
theorem size_states_le_one (hrequired : Pass.check .copyInstance model = .ok ())
    (states : StateSet) : (model.states states).size ≤ 1 := by
  rw [Pass.check] at hrequired
  obtain ⟨-, hcopying⟩ := Except.check_bind_eq_ok_iff.1 hrequired
  -- every `split` discards a complaint, and two of the complaints are about the number of
  -- conditions
  rw [Pass.checkCopying] at hcopying
  split at hcopying
  · cases hcopying
  split at hcopying
  · cases hcopying
  split at hcopying
  · cases hcopying
  next hinitial =>
  split at hcopying
  · cases hcopying
  next hforbidden =>
  cases states with
  | initial => exact Nat.le_of_eq (Decidable.not_not.1 hinitial)
  | forbidden => exact Nat.le_of_not_lt hforbidden

/-- A condition of a model that `Pass.check` accepts is the only one of its family. -/
theorem entries_eq_of_mem (hrequired : Pass.check .copyInstance model = .ok ()) {states : StateSet}
    {entry : String × Expr κ} (he : entry ∈ (model.states states).entries) :
    (model.states states).entries = [entry] := by
  have hsize := size_states_le_one hrequired states
  rw [NameMap.size] at hsize
  obtain ⟨only, honly⟩ := List.length_eq_one_iff.1
    (Nat.le_antisymm hsize (List.length_pos_of_mem he))
  rw [honly, List.mem_singleton] at he
  rw [honly, he]

omit [Scalar κ] in
/-- A family that has a condition is extended: `given` is a single entry. -/
theorem Prepared.exists_given (h : Prepared model options prep) {states : StateSet}
    {entry : String × Expr κ} (he : entry ∈ (model.states states).entries) :
    ∃ given, prep.given states = [given] := by
  -- an initial condition is always there, a forbidden one only if the search has found it
  cases states with
  | initial => exact ⟨_, rfl⟩
  | forbidden =>
    obtain ⟨position, initial, forbidden, -, -, hf, -, hforbidden⟩ := h.states
    rw [findForbidden] at hf
    split at hf
    · next hempty =>
      have hnil : model.forbidden.entries = [] := List.isEmpty_iff.1 hempty
      rw [Model.states, hnil] at he
      cases he
    · obtain ⟨found, -, hsome⟩ := Except.bind_eq_ok_iff.1 hf
      obtain rfl := Except.ok.inj hsome
      rw [Preparation.given, hforbidden]
      exact ⟨_, rfl⟩

/-- In a model that `Pass.check` accepts, what is `given` is the one condition of the family. -/
theorem Prepared.exists_given_eq (h : Prepared model options prep)
    (hrequired : Pass.check .copyInstance model = .ok ()) {states : StateSet}
    {entry : String × Expr κ} (he : entry ∈ (model.states states).entries) :
    ∃ mode, prep.given states = [(mode, entry.2)] := by
  obtain ⟨given, hgiven⟩ := h.exists_given he
  -- what is extended is the first condition, and there is no second one
  obtain ⟨modes, position, -, hstates, -⟩ :=
    h.exists_of_mem_given (hgiven ▸ List.mem_singleton.2 rfl)
  obtain ⟨mode, rest, hentries, -⟩ := singleState_eq_ok hstates
  rw [entries_eq_of_mem hrequired he] at hentries
  rw [(List.cons.inj hentries).1]
  exact ⟨given.1, hgiven⟩

omit [Scalar κ] in
/-- There are copies for the result to be about: `IsCopied` holds of the instances behind the
starts. -/
theorem Prepared.exists_isCopied (h : Prepared model options prep) :
    ∃ copy, IsCopied model (prep.result model) options prep.name prep.prototype copy := by
  refine ⟨fun number => (((rootInstances (prep.result model).tree).get?
    (startOf options.stem number ++ prep.name)).map Instance.child).getD ⟨0⟩, ?_⟩
  constructor
  case chosen => exact h.chosen
  case original => exact h.prototype
  case copy =>
    -- the number belongs to a start, the start to a copy, and the copy to an instance
    intro number hlow hhigh
    have hs : startOf options.stem number ∈ starts options := by
      refine List.mem_map.2 ⟨number - 2, List.mem_range.2 (by omega), ?_⟩
      rw [Nat.sub_add_cancel hlow]
    obtain ⟨place, hp⟩ := h.exists_place hs
    have hentry := h.mem_entries_iff.2 (.inr ⟨_, place, hp, rfl⟩)
    refine ⟨_, hentry, ?_⟩
    have hget := NameMap.get?_eq_some_iff.2 hentry
    have hname : (Plan.make prep.prototype prep.name (startOf options.stem number)).name =
        startOf options.stem number ++ prep.name := rfl
    rw [hname] at hget
    have hinstances : rootInstances (prep.result model).tree =
        (prep.resultTree model.tree).rootComponent.children := rfl
    rw [hinstances, hget]
    rfl

omit [Scalar κ] in
/-- `IsCopied` determines what was copied, since the options choose one instance. -/
theorem Prepared.eq_of_isCopied (h : Prepared model options prep) {after : Model κ} {name : String}
    {original : Instance} {copy : Nat → Handle}
    (hcopied : IsCopied model after options name original copy) :
    name = prep.name ∧ original = prep.prototype := by
  obtain rfl : name = prep.name := Except.ok.inj (hcopied.chosen.symm.trans h.chosen)
  exact ⟨rfl, NameMap.value_unique hcopied.original h.prototype⟩

omit [Scalar κ] in
/-- If the result is well-formed then the stem is an identifier, because the names of the copies
are. -/
theorem Prepared.isIdentifier_stem (h : Prepared model options prep)
    (hresult : (prep.resultTree model.tree).WellFormed) :
    Text.isIdentifier options.stem = true := by
  -- a copy has been checked by its own name
  obtain ⟨start, hs⟩ := h.exists_start
  obtain ⟨place, hp⟩ := h.exists_place hs
  have hentry := h.mem_entries_iff.2 (.inr ⟨_, place, hp, rfl⟩)
  have hroot := hresult.nodeOk (Tree.follow_nil (prep.resultTree model.tree) _)
  have hok := hroot.instances _ hentry
  have hfollow : (prep.resultTree model.tree).follow (prep.resultTree model.tree).root
      [(Plan.make prep.prototype prep.name start).name] = some ⟨place⟩ :=
    Tree.follow_cons_iff.2 ⟨_, hentry, rfl⟩
  have hname := (hresult.nodeOk hfollow).ownName _ hok.childName
  obtain ⟨i, -, rfl⟩ := List.mem_map.1 hs
  exact CopyInstance.isIdentifier_stem hname

/-- `ConstrainsAlike` holds of a well-formed result just if no condition of the family does
`MentionsLocal`. -/
theorem Prepared.constrainsAlike_iff (h : Prepared model options prep)
    (htree : model.tree.WellFormed) (hrequired : Pass.check .copyInstance model = .ok ())
    (hclear : ¬ prep.Overlooks model) {copy : Nat → Handle}
    (hcopied : IsCopied model (prep.result model) options prep.name prep.prototype copy)
    (states : StateSet) :
    ConstrainsAlike model (prep.result model) options prep.prototype copy states ↔
      ∀ entry ∈ (model.states states).entries,
        ¬ MentionsLocal model.tree prep.name prep.prototype entry.2 := by
  obtain ⟨op, hjoin⟩ := isConnective_connective (κ := κ) states
  refine forall_congr' fun entry => forall_congr' fun he => ?_
  obtain ⟨mode, hgiven⟩ := h.exists_given_eq hrequired he
  have hshadowed : ¬ MentionsShadowed prep.prototype entry.2 := by
    refine fun hm => hclear (.inr ⟨(mode, entry.2), List.mem_append.2 ?_, hm⟩)
    cases states with
    | initial => exact .inl (hgiven ▸ List.mem_singleton.2 rfl)
    | forbidden => exact .inr (hgiven ▸ List.mem_singleton.2 rfl)
  -- the only condition is the extended one, so the two have to be compared
  rw [h.entries_states_result states, hgiven, h.renamingsTo_eq htree hcopied,
    ← h.extendCondition_eq_iff htree hjoin hshadowed]
  simp

end

end CopyInstance

/-- After a successful run, every copy is constrained like the original just if no condition
mentions a variable that the original keeps to itself: what is renamed are the variables of the
root. -/
theorem copies_are_constrained_alike_iff {κ : Type} [Scalar κ] (w w' : Workspace κ)
    (params : String) (options : CopyInstance.Options)
    (hchecks : w.model.checks = {}) (hvalid : w.model.check = .ok ())
    (hrequired : Pass.check .copyInstance w.model = .ok ())
    (hparams : Pass.copyGrammar.read (Arguments.split params) = .ok options)
    (hcount : 2 ≤ options.count)
    (hrun : (Pass.run .copyInstance params).runOn w = (.ok (), w')) :
    (∃ name original copy, CopyInstance.IsCopied w.model w'.model options name original copy) ∧
      ∀ name original copy, CopyInstance.IsCopied w.model w'.model options name original copy →
        ((∀ states, CopyInstance.ConstrainsAlike w.model w'.model options original copy states) ↔
          ∀ states, ∀ entry ∈ (w.model.states states).entries,
            ¬ CopyInstance.MentionsLocal w.model.tree name original entry.2) := by
  obtain ⟨vars, hrules⟩ := (Model.check_eq_ok_iff hchecks).1 hvalid
  obtain ⟨herror, -, hchange⟩ := CopyInstance.eq_of_prepare hrequired hparams hrun
  cases hp : CopyInstance.prepare w.model options with
  | error cause => cases (herror cause hp).1
  | ok found =>
    -- with at least two instances asked for there is something to copy
    rcases CopyInstance.prepare_eq_ok hp with ⟨hone, -⟩ | ⟨prep, rfl, hprep⟩
    · omega
    · obtain ⟨houtcome, hmodel⟩ := hchange prep hp
      have hchecks' : (prep.result w.model).checks = {} := hchecks
      have hresult := (Model.check_eq_ok_iff hchecks').1 (Pass.check_of_outcomeOf houtcome.symm)
      obtain ⟨vars', hrules'⟩ := hresult
      have hstem := hprep.isIdentifier_stem hrules'.tree
      -- the run has succeeded, so nothing was overlooked
      have hclear := (hprep.rules_result_iff hrules hstem).1 ⟨vars', hrules'⟩
      rw [hmodel]
      obtain ⟨copy, hcopied⟩ := hprep.exists_isCopied
      refine ⟨⟨_, _, copy, hcopied⟩, fun name original copy hcopied => ?_⟩
      obtain ⟨rfl, rfl⟩ := hprep.eq_of_isCopied hcopied
      exact forall_congr' fun states =>
        hprep.constrainsAlike_iff hrules.tree hrequired hclear hcopied states

/-- The copies of a timer whose clock is a variable of the network start like the timer. -/
theorem copies_of_timer_are_constrained_alike :
    ∃ w', (Pass.run .copyInstance "--num 3").runOn { model := timerBeside "rate" } = (.ok (), w') ∧
      ∃ name original copy,
        CopyInstance.IsCopied (timerBeside "rate") w'.model { count := 3 } name original copy ∧
        ∀ states, CopyInstance.ConstrainsAlike (timerBeside "rate") w'.model { count := 3 } original
          copy states := by
  have hvalid : (timerBeside "rate").check = .ok () := Except.eq_ok_of_isOk (by decide +kernel)
  have hrequired : Pass.check .copyInstance (timerBeside "rate") = .ok () :=
    Except.eq_ok_of_isOk (by decide +kernel)
  obtain ⟨prep, hprepare, hclear, hlocal⟩ : ∃ prep,
      CopyInstance.prepare (timerBeside "rate") { count := 3 } = .ok (some prep) ∧
        ¬ prep.Overlooks (timerBeside "rate") ∧
        ∀ entry ∈ (timerBeside "rate").initial.entries ++ (timerBeside "rate").forbidden.entries,
          ¬ CopyInstance.MentionsLocal (timerBeside "rate").tree prep.name prep.prototype entry.2 :=
    CopyInstance.exists_prepare (by decide +kernel)
  obtain ⟨w', hrun, hmodel⟩ := CopyInstance.exists_runOn_eq_ok { model := timerBeside "rate" }
    "--num 3" rfl hvalid hrequired rfl (by decide) hprepare hclear
  obtain ⟨⟨name, original, copy, hcopied⟩, halike⟩ := copies_are_constrained_alike_iff
    { model := timerBeside "rate" } w' "--num 3" { count := 3 } rfl hvalid hrequired rfl (by decide)
    hrun
  refine ⟨w', hrun, name, original, copy, hcopied, (halike name original copy hcopied).2 ?_⟩
  -- the instance that is meant is the one that the run has chosen
  obtain ⟨rfl, rfl⟩ := (CopyInstance.prepared_of_prepare hprepare).eq_of_isCopied hcopied
  rintro (_ | _) entry he
  · exact hlocal entry (List.mem_append_left _ he)
  · exact hlocal entry (List.mem_append_right _ he)

/-- A network of one timer that keeps its clock to itself. -/
def localTimer : Model Int where
  tree := {
    components := #[
      { body := .network (.ofList [("T", { parent := ⟨0⟩, child := ⟨1⟩ })]) },
      { parent := some ⟨0⟩
        instanceName := some "T"
        vars := ["t"]
        body := .base {
          modes := .ofList [("run", {
            name := "run"
            invariant := .bool true
            urgent := false
            flows := some (.ofList [("t", { expr := .const 1 })]) })]
          transitions := [] } }]
    root := ⟨0⟩ }
  initial := .ofList [("T.run", .binary .equal (.var "T.t") (.const 0))]
  forbidden := ∅
  settings := { Settings.standard with plotX := some "T.t", plotY := some "T.t" }
  checks := {}

/-- The copy of a timer that keeps its clock to itself may start at any time. -/
theorem copy_of_localTimer_is_not_constrained :
    localTimer.check = .ok () ∧ Pass.check .copyInstance localTimer = .ok () ∧
      ∃ w', (Pass.run .copyInstance "").runOn { model := localTimer } = (.ok (), w') ∧
        ∃ name original copy, CopyInstance.IsCopied localTimer w'.model {} name original copy ∧
          ¬ CopyInstance.ConstrainsAlike localTimer w'.model {} original copy .initial := by
  have hvalid : localTimer.check = .ok () := Except.eq_ok_of_isOk (by decide +kernel)
  have hrequired : Pass.check .copyInstance localTimer = .ok () :=
    Except.eq_ok_of_isOk (by decide +kernel)
  obtain ⟨prep, hprepare, hclear, hlocal⟩ : ∃ prep,
      CopyInstance.prepare localTimer {} = .ok (some prep) ∧ ¬ prep.Overlooks localTimer ∧
        ∃ entry ∈ localTimer.initial.entries,
          CopyInstance.MentionsLocal localTimer.tree prep.name prep.prototype entry.2 :=
    CopyInstance.exists_prepare (by decide +kernel)
  -- the run is followed up to its result, where the condition turns out to be left alone
  have hprep := CopyInstance.prepared_of_prepare hprepare
  obtain ⟨w', hrun, hmodel⟩ := CopyInstance.exists_runOn_eq_ok { model := localTimer } "" rfl
    hvalid hrequired rfl (by decide) hprepare hclear
  obtain ⟨vars, hrules⟩ := (Model.check_eq_ok_iff rfl).1 hvalid
  obtain ⟨copy, hcopied⟩ := hprep.exists_isCopied
  refine ⟨hvalid, hrequired, w', hrun, prep.name, prep.prototype, copy, ?_⟩
  rw [hmodel]
  refine ⟨hcopied, fun halike => ?_⟩
  obtain ⟨entry, he, hmentions⟩ := hlocal
  exact (hprep.constrainsAlike_iff hrules.tree hrequired hclear hcopied .initial).1 halike entry he
    hmentions

end HybridAutomata
