import HybridAutomata.Proofs.Expr.Evaluation
import HybridAutomata.Proofs.Model.Check
import HybridAutomata.Proofs.Pass.Course
import HybridAutomata.Proofs.Scalar.Integer
import HybridAutomata.Proofs.SubstituteConstants.Components
/-!
# Substituting constants is total and keeps the meaning

On a well-formed model whose listed constants are points, the pass succeeds and leaves a well-formed
model without constants. Expressions of automata are the old ones with the values put in, and
conditions have the values they had when the constants were read as their values.

* `ValuesOf.rules_result`            the changed model obeys the rules
* `ValuesOf.eval_condition`          conditions keep their values
* `substituteConstants_is_total`     all of this for a run of the pass
-/

namespace HybridAutomata

variable {κ : Type} [Scalar κ]

/-- The values that a component's constants stand for, as expressions. -/
def IsValuesOf (tree : Tree κ) (c : Handle) (values : NameMap (Expr κ)) : Prop :=
  ∀ name e, values.get? name = some e ↔
    name ∈ (tree.get c).constants.keys ∧ ∃ interval number,
      tree.constantValue c name = .ok interval ∧ interval.value? = some number ∧ e = .const number

/-- Every qualified constant is read as the value that it stands for. -/
def ReadsConstants (tree : Tree κ) (env : String → Option (Value κ)) : Prop :=
  ∀ c ∈ tree.descendants tree.root, ∀ name ∈ (tree.get c).constants.keys, ∀ interval number,
    tree.constantValue c name = .ok interval → interval.value? = some number →
      env (Tree.qualify (tree.path c) name) = some (.number number)

/-- The second model is the first one with values in the place of constants, and nothing else. -/
structure WithoutConstants (before after : Model κ) : Prop where
  settings : after.settings = before.settings
  checks : after.checks = before.checks
  root : after.tree.root = before.tree.root
  size : after.tree.size = before.tree.size
  reachable : after.tree.descendants after.tree.root = before.tree.descendants before.tree.root
  detached : ∀ c, c ∉ before.tree.descendants before.tree.root →
    after.tree.get c = before.tree.get c
  base : ∀ c ∈ before.tree.descendants before.tree.root, ∀ automaton,
    (before.tree.get c).body = .base automaton →
    ∃ values, IsValuesOf before.tree c values ∧
      after.tree.get c = { before.tree.get c with
        constants := ∅
        body := .base (automaton.mapExprs fun e => e.substitute values) }
  network : ∀ c ∈ before.tree.descendants before.tree.root, ∀ children,
    (before.tree.get c).body = .network children →
    after.tree.get c = { before.tree.get c with
      constants := ∅
      body := .network (children.mapValues fun inst => { inst with consts := [] }) }
  noConstants : ∀ c ∈ after.tree.descendants after.tree.root, (after.tree.get c).constants = ∅
  noBindings : ∀ c ∈ after.tree.descendants after.tree.root,
    ∀ entry ∈ (after.tree.get c).children.entries, entry.2.consts = []
  modes : ∀ states, (after.states states).keys = (before.states states).keys
  conditions : ∀ states, ∀ entry ∈ (after.states states).entries, ∀ mentioned ∈ entry.2.vars,
    ∀ c ∈ before.tree.descendants before.tree.root, ∀ name ∈ (before.tree.get c).constants.keys,
      mentioned ≠ Tree.qualify (before.tree.path c) name

/-- Conditions keep their values. Whatever values the variables have, constants can be read as what
they stand for, and then a condition that has a value has it without the constants as well. -/
structure SameMeaning (before after : Model κ) : Prop where
  readable : ∀ vars, before.allVariables = .ok vars → ∀ valuation : String → Option (Value κ),
    ∃ env, ReadsConstants before.tree env ∧ ∀ name ∈ vars, env name = valuation name
  value : ∀ vars, before.allVariables = .ok vars → ∀ env env' : String → Option (Value κ),
    ReadsConstants before.tree env → (∀ name ∈ vars, env' name = env name) →
    ∀ states mode old new, (before.states states).get? mode = some old →
      (after.states states).get? mode = some new →
      ∀ value, old.eval env = some value → new.eval env' = some value

namespace SubstituteConstants

variable {model : Model κ} {values : List (Handle × NameMap (Expr κ))} {vars : List String}

/-- The conditions of the `result` have the values put in and are simplified. -/
theorem states_result (model : Model κ) (values : List (Handle × NameMap (Expr κ)))
    (states : StateSet) :
    (result model values).states states = (model.states states).mapValues fun e =>
      (e.substitute (qualifiedValues model.tree values)).simplify := by
  cases states <;> rfl

/-- The `qualifiedValues` are numbers. -/
theorem ValuesOf.qualified_eq_const (h : ValuesOf model.tree values)
    (htree : model.tree.WellFormed) {listed : String} {e : Expr κ}
    (hg : (qualifiedValues model.tree values).get? listed = some e) :
    ∃ number, e = .const number := by
  obtain ⟨-, c, name, -, -, -, hv⟩ := (h.get?_qualifiedValues_iff htree).1 hg
  obtain ⟨-, number, -, -, rfl⟩ := pointValue_eq_ok_iff.1 hv
  exact ⟨number, rfl⟩

/-- A name of a changed condition was there before and has no value among the `qualifiedValues`. -/
theorem ValuesOf.mem_vars_result (h : ValuesOf model.tree values) (htree : model.tree.WellFormed)
    {e : Expr κ} {name : String}
    (hname : name ∈ ((e.substitute (qualifiedValues model.tree values)).simplify).vars) :
    name ∈ e.vars ∧ (qualifiedValues model.tree values).get? name = none :=
  Expr.mem_vars_substitute_of_const (fun _ _ hg => h.qualified_eq_const htree hg)
    (Expr.mem_vars_of_simplify hname)

/-- Constants that `allConstants` lists have values among the `qualifiedValues`. -/
theorem ValuesOf.exists_of_mem_allConstants (h : ValuesOf model.tree values)
    (htree : model.tree.WellFormed) {name : String} (hname : name ∈ model.allConstants.keys) :
    ∃ e, (qualifiedValues model.tree values).get? name = some e := by
  obtain ⟨value, hv⟩ := NameMap.mem_keys_iff.1 hname
  obtain ⟨names, c, own, hf, rfl, -, hown⟩ := htree.get?_allConstants_iff.1 hv
  have hkey := NameMap.mem_keys_iff.2 ⟨value, hown⟩
  obtain ⟨map, hmem⟩ := h.exists_mem (htree.linked.mem_descendants_iff.2 ⟨names, hf⟩)
  obtain ⟨e, he⟩ := exists_get?_of_pointValues (h.values _ hmem) hkey
  exact ⟨e, (h.get?_qualifiedValues_iff htree).2
    ⟨names, c, own, hf, hkey, rfl, ((get?_of_pointValues (h.values _ hmem)).1 he).2⟩⟩

/-- A name of a condition that has no value among the `qualifiedValues` is a variable. -/
theorem ValuesOf.mem_vars_of_get?_eq_none (h : ValuesOf model.tree values)
    (hrules : model.Rules vars) {states : StateSet} {entry : String × Expr κ}
    (he : entry ∈ (model.states states).entries) {name : String} (hname : name ∈ entry.2.vars)
    (hnone : (qualifiedValues model.tree values).get? name = none) : name ∈ vars := by
  -- a condition mentions variables and listed constants, and the latter have values
  rcases hrules.names states entry he name hname with hv | hc
  · exact hv
  · obtain ⟨e, hg⟩ := h.exists_of_mem_allConstants hrules.tree hc
    cases hnone.symm.trans hg

/-- The `result` obeys the `Rules` of the model. -/
theorem ValuesOf.rules_result (h : ValuesOf model.tree values) (hrules : model.Rules vars) :
    (result model values).Rules vars := by
  have htree := hrules.tree
  obtain ⟨own, -, hroot⟩ := h.get_resultTree htree (Tree.follow_nil model.tree model.tree.root)
  constructor
  case tree => exact h.wellFormed_resultTree htree
  case listed =>
    have hlisted := hrules.listed
    rw [Model.allVariables] at hlisted ⊢
    -- what the variables are called can be seen in the outline, which is the same
    rw [← hlisted, ← Tree.allVariables_outline model.tree, ← outline_resultTree model.tree values,
      Tree.allVariables_outline]
    exact congrArg _ (root_resultTree ..)
  case nonempty =>
    rw [← hrules.nonempty]
    simp [result, Model.mapConditions, NameMap.isEmpty, NameMap.mapValues]
  case modes =>
    intro states entry he
    rw [states_result] at he
    obtain ⟨old, ho, rfl⟩ := List.mem_map.1 he
    have hmode := hrules.modes states old ho
    rw [← Tree.modeExists_outline, ← outline_resultTree model.tree values,
      Tree.modeExists_outline] at hmode
    exact (congrArg (fun root => (resultTree model.tree values).modeExists root old.1)
      (root_resultTree ..)).trans hmode
  case names =>
    intro states entry he name hname
    rw [states_result] at he
    obtain ⟨old, ho, rfl⟩ := List.mem_map.1 he
    obtain ⟨hold, hnone⟩ := h.mem_vars_result htree hname
    exact .inl (h.mem_vars_of_get?_eq_none hrules ho hold hnone)
  case settings => exact hrules.settings
  case dots =>
    intro hnetwork states mode hm
    rw [states_result, NameMap.keys_mapValues] at hm
    refine hrules.dots ?_ states mode hm
    have hget : (result model values).tree.rootComponent =
        replaceConstants model.tree.rootComponent own :=
      (congrArg (resultTree model.tree values).get (root_resultTree ..)).trans hroot
    rwa [hget, isNetwork_replaceConstants] at hnetwork

/-- What is listed for a component are the values of its constants, as `IsValuesOf` says. -/
theorem ValuesOf.isValuesOf {tree : Tree κ} (h : ValuesOf tree values)
    {entry : Handle × NameMap (Expr κ)} (he : entry ∈ values) :
    IsValuesOf tree entry.1 entry.2 := by
  intro name e
  rw [get?_of_pointValues (h.values entry he), pointValue_eq_ok_iff]

/-- The `result` is the model `WithoutConstants`. -/
theorem ValuesOf.withoutConstants (h : ValuesOf model.tree values) (htree : model.tree.WellFormed) :
    WithoutConstants model (result model values) := by
  have hroot : (resultTree model.tree values).root = model.tree.root := root_resultTree ..
  have hreach : (result model values).tree.descendants (result model values).tree.root =
      model.tree.descendants model.tree.root := by
    rw [← descendants_resultTree model.tree values, ← hroot]
    rfl
  -- every reachable component is changed, and just once
  have hget {c : Handle} (hc : c ∈ model.tree.descendants model.tree.root) :
      ∃ own, (c, own) ∈ values ∧
        (result model values).tree.get c = replaceConstants (model.tree.get c) own := by
    obtain ⟨names, hf⟩ := htree.linked.mem_descendants_iff.1 hc
    exact h.get_resultTree htree hf
  constructor
  case settings => rfl
  case checks => rfl
  case root => exact hroot
  case size => exact size_resultTree ..
  case reachable => exact hreach
  case detached =>
    intro c hc
    exact get_resultTree_of_not_mem (h.handles ▸ hc)
  case base =>
    intro c hc automaton hb
    obtain ⟨own, ho, hget⟩ := hget hc
    exact ⟨own, h.isValuesOf ho, hget.trans (replaceConstants_base hb own)⟩
  case network =>
    intro c hc children hb
    obtain ⟨own, -, hget⟩ := hget hc
    exact hget.trans (replaceConstants_network hb own)
  case noConstants =>
    intro c hc
    obtain ⟨own, -, hget⟩ := hget (hreach ▸ hc)
    rw [hget, constants_replaceConstants]
  case noBindings =>
    intro c hc entry he
    obtain ⟨own, -, hget⟩ := hget (hreach ▸ hc)
    rw [hget, children_replaceConstants] at he
    obtain ⟨old, -, rfl⟩ := List.mem_map.1 he
    rfl
  case modes =>
    intro states
    rw [states_result, NameMap.keys_mapValues]
  case conditions =>
    rintro states entry he mentioned hm c hc name hname rfl
    rw [states_result] at he
    obtain ⟨old, ho, rfl⟩ := List.mem_map.1 he
    obtain ⟨-, hnone⟩ := h.mem_vars_result htree hm
    -- the name of a constant would have been replaced
    obtain ⟨names, hf⟩ := htree.linked.mem_descendants_iff.1 hc
    obtain ⟨own, hown⟩ := h.exists_mem hc
    obtain ⟨e, hg⟩ := exists_get?_of_pointValues (h.values _ hown) hname
    have hv := ((get?_of_pointValues (h.values _ hown)).1 hg).2
    cases hnone.symm.trans
      ((h.get?_qualifiedValues_iff htree).2 ⟨names, c, name, hf, hname, rfl, hv⟩)

/-! ## The meaning of conditions -/

/-- A reading of names in which constants stand for their values and variables have given values. -/
def readingOf (tree : Tree κ) (values : List (Handle × NameMap (Expr κ)))
    (valuation : String → Option (Value κ)) (name : String) : Option (Value κ) :=
  match (qualifiedValues tree values).get? name with
  | some (.const number) => some (.number number)
  | _ => valuation name

/-- The `readingOf` a tree reads constants as their values. -/
theorem ValuesOf.readsConstants_readingOf {tree : Tree κ} (h : ValuesOf tree values)
    (htree : tree.WellFormed) (valuation : String → Option (Value κ)) :
    ReadsConstants tree (readingOf tree values valuation) := by
  intro c hc name hname interval number hv hn
  obtain ⟨names, hf⟩ := htree.linked.mem_descendants_iff.1 hc
  have hg := (h.get?_qualifiedValues_iff htree).2 ⟨names, c, name, hf, hname, rfl,
    pointValue_eq_ok_iff.2 ⟨interval, number, hv, hn, rfl⟩⟩
  rw [readingOf, hg]

/-- The `readingOf` a tree reads no variable as a constant. -/
theorem ValuesOf.readingOf_eq {tree : Tree κ} (h : ValuesOf tree values) (htree : tree.WellFormed)
    (hvars : tree.allVariables tree.root = .ok vars) (valuation : String → Option (Value κ))
    {name : String} (hname : name ∈ vars) :
    readingOf tree values valuation name = valuation name := by
  rw [readingOf]
  -- a constant with the qualified name of a variable would be declared twice
  cases hg : (qualifiedValues tree values).get? name with
  | none => rfl
  | some e =>
    obtain ⟨names, c, own, hf, hown, rfl, -⟩ := (h.get?_qualifiedValues_iff htree).1 hg
    obtain ⟨names', d, var, hf', -, hvar, heq⟩ := htree.exists_free_of_mem_allVariables hvars hname
    exact absurd heq.symm (htree.qualify_var_ne_qualify_const hf' hf hvar hown)

/-- A condition keeps its value when constants have theirs put in and it is simplified. -/
theorem ValuesOf.eval_condition (hlawful : Scalar.Lawful κ) (h : ValuesOf model.tree values)
    (hrules : model.Rules vars) {env env' : String → Option (Value κ)}
    (henv : ReadsConstants model.tree env) (hvars : ∀ name ∈ vars, env' name = env name)
    {states : StateSet} {entry : String × Expr κ} (he : entry ∈ (model.states states).entries)
    {value : Value κ} (hvalue : entry.2.eval env = some value) :
    ((entry.2.substitute (qualifiedValues model.tree values)).simplify).eval env' = some value := by
  have htree := hrules.tree
  apply Expr.eval_simplify hlawful
  rw [← hvalue]
  apply Expr.eval_substitute
  intro name hname
  -- a name without a value is a variable, on which both readings agree
  cases hg : (qualifiedValues model.tree values).get? name with
  | none =>
    rw [Option.getD_none, Expr.eval]
    exact (hvars name (h.mem_vars_of_get?_eq_none hrules he hname hg)).symm
  | some e =>
    obtain ⟨names, c, own, hf, hown, rfl, hv⟩ := (h.get?_qualifiedValues_iff htree).1 hg
    obtain ⟨interval, number, hc, hn, rfl⟩ := pointValue_eq_ok_iff.1 hv
    rw [Option.getD_some, Expr.eval]
    exact henv c (htree.linked.mem_descendants_iff.2 ⟨names, hf⟩) own hown interval number hc hn

/-- Conditions of the `result` mean what they meant in the model. -/
theorem ValuesOf.sameMeaning (hlawful : Scalar.Lawful κ) (h : ValuesOf model.tree values)
    (hrules : model.Rules vars) : SameMeaning model (result model values) := by
  -- the variables of a model are determined
  have hlisted {vars' : List String} (hv : model.allVariables = .ok vars') : vars' = vars :=
    Except.ok.inj (hv.symm.trans hrules.listed)
  constructor
  case readable =>
    intro vars' hv valuation
    obtain rfl := hlisted hv
    exact ⟨readingOf model.tree values valuation,
      h.readsConstants_readingOf hrules.tree valuation,
      fun name hname => h.readingOf_eq hrules.tree hv valuation hname⟩
  case value =>
    intro vars' hv env env' henv henv' states mode old new hold hnew value hvalue
    obtain rfl := hlisted hv
    rw [states_result, NameMap.get?_mapValues, hold] at hnew
    obtain rfl := Option.some.inj hnew
    exact h.eval_condition hlawful hrules henv henv' (NameMap.get?_eq_some_iff.1 hold) hvalue

end SubstituteConstants

/-! ## Runs -/

/-- `mutate` of a run with readable parameters is `SubstituteConstants.run`. -/
theorem runOn_mutate_substituteConstants {tokens : List String}
    (htokens : (Pass.emptyGrammar .substituteConstants).read tokens = .ok ()) (w : Workspace κ) :
    (Pass.mutate .substituteConstants tokens).runOn w = SubstituteConstants.run.runOn w :=
  Change.runOn_bind_ok (Pass.runOn_readParameters htokens .substituteConstants w)

/-- On a well-formed model whose listed constants are points, the pass always succeeds. The model is
well-formed afterwards and has no constants; where equality of numbers is identity and the order
fits it, its conditions mean what they meant before. -/
theorem substituteConstants_is_total (w : Workspace κ) (params : String)
    (hchecks : w.model.checks = {}) (hvalid : w.model.check = .ok ())
    (hrequired : Pass.check .substituteConstants w.model = .ok ())
    (hparams : (Pass.emptyGrammar .substituteConstants).read (Arguments.split params) = .ok ()) :
    ∃ w', (Pass.run .substituteConstants params).runOn w = (.ok (), w') ∧
      w'.model.check = .ok () ∧ WithoutConstants w.model w'.model ∧
      (Scalar.Lawful κ → SameMeaning w.model w'.model) := by
  obtain ⟨vars, hrules⟩ := (Model.check_eq_ok_iff hchecks).1 hvalid
  -- the look-up cannot fail, and nothing after it can
  obtain ⟨values, hvalues, hof⟩ := SubstituteConstants.exists_allValues hrules.tree
    -- what the pass requires is what makes every look-up end at a point
    fun listed interval hl => Pass.isPoint_of_check hrequired hl
  have hafter : (SubstituteConstants.result w.model values).check = .ok () := by
    have hchecks' : (SubstituteConstants.result w.model values).checks = {} := hchecks
    exact (Model.check_eq_ok_iff hchecks').2 ⟨vars, hof.rules_result hrules⟩
  have hmutate (before : Workspace κ) (hbefore : before.model = w.model) :
      ∃ w', (Pass.mutate .substituteConstants (Arguments.split params)).runOn before =
        (.ok (), w') ∧ w'.model = SubstituteConstants.result w.model values := by
    rw [runOn_mutate_substituteConstants hparams, SubstituteConstants.runOn_run, hbefore, hvalues]
    exact ⟨_, rfl, rfl⟩
  obtain ⟨outcome, w', hrun, hcourse⟩ := Pass.course_of_start .substituteConstants params true w
  obtain ⟨hout, hmodel⟩ := hcourse.eq_of_mutate hrequired hmutate
  rw [Except.ok_bind, Pass.outcomeOf, hafter] at hout
  subst hout
  refine ⟨w', hrun, ?_, ?_, ?_⟩
  · rw [hmodel]
    exact hafter
  · rw [hmodel]
    exact hof.withoutConstants hrules.tree
  · intro hlawful
    rw [hmodel]
    exact hof.sameMeaning hlawful hrules

/-- A network of one timer whose rate is bound to a constant of the network. -/
def boundTimer : Model Int where
  tree := {
    components := #[
      { constants := .ofList [("rate", some (.point 3))]
        body := .network (.ofList [("timer", {
          parent := ⟨0⟩
          child := ⟨1⟩
          consts := [⟨"k", "rate"⟩] })]) },
      { parent := some ⟨0⟩
        instanceName := some "timer"
        vars := ["x"]
        constants := .ofList [("k", none)]
        body := .base {
          modes := .ofList [("on", {
            name := "on"
            invariant := .binary .lessEqual (.var "x") (.var "k")
            urgent := false
            flows := some (.ofList [("x", { expr := .var "k" })]) })]
          transitions := [] } }]
    root := ⟨0⟩ }
  initial := .ofList [("timer.on", .binary .equal (.var "timer.x") (.var "rate"))]
  forbidden := ∅
  settings := { Settings.standard with plotX := some "timer.x", plotY := some "timer.x" }
  checks := {}

/-- The rate of the timer is put in everywhere. -/
theorem substituteConstants_boundTimer :
    ∃ w', (Pass.run .substituteConstants "").runOn { model := boundTimer } = (.ok (), w') ∧
      w'.model.check = .ok () ∧ WithoutConstants boundTimer w'.model ∧
      SameMeaning boundTimer w'.model := by
  obtain ⟨w', hrun, hcheck, hwithout, hmeaning⟩ :=
    substituteConstants_is_total { model := boundTimer } "" rfl
      (Except.eq_ok_of_isOk (by decide +kernel)) (Except.eq_ok_of_isOk (by decide +kernel))
      (Except.eq_ok_of_isOk (by decide +kernel))
  exact ⟨w', hrun, hcheck, hwithout, hmeaning lawful_int⟩

end HybridAutomata
