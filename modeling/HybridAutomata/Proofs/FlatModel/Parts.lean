import HybridAutomata.Proofs.Model.Check
import HybridAutomata.Proofs.Pass.Requirement
import HybridAutomata.Proofs.Tree.Flat
/-!
# Models with a single automaton

A model whose root is an automaton can be taken apart: `FlatModel` holds what the passes for such
models read and change, and nothing that they leave alone. Every constant has a value, and there are
no links that could be wrong.

`Acceptable` gathers what the check of a model and all requirements of passes together ask of these
parts, with conditions for modes of the automaton only. A model that passes its check has such parts
(`exists_acceptable`), and a model that is put together from such parts passes it
(`Represents.rules`, `Represents.check_eq_ok`).
-/

namespace HybridAutomata

variable {κ : Type}

/-! ## Parts -/

/-- The root of a model with a single automaton, all of whose constants have values, and the
conditions of the model. -/
structure FlatModel (κ : Type) where
  vars : List String
  constants : NameMap (Interval κ)
  labels : List String
  template : Option TemplateLink
  automaton : Automaton κ
  states : StateSet → NameMap (Expr κ)

/-- The root, put together again. -/
def FlatModel.component (flat : FlatModel κ) : Component κ where
  vars := flat.vars
  constants := flat.constants.mapValues some
  labels := flat.labels
  template := flat.template
  body := .base flat.automaton

/-- The model with other parts. -/
def Model.withFlat (model : Model κ) (flat : FlatModel κ) : Model κ :=
  { model with
    tree := model.tree.modify model.tree.root fun _ => flat.component
    initial := flat.states .initial
    forbidden := flat.states .forbidden }

/-- The parts are those of a model. -/
structure FlatModel.Represents (flat : FlatModel κ) (model : Model κ) : Prop where
  root_lt : model.tree.root.index < model.tree.size
  root : model.tree.rootComponent = flat.component
  states : model.states = flat.states

/-- `withFlat` replaces the conditions of both families. -/
theorem Model.states_withFlat (model : Model κ) (flat : FlatModel κ) :
    (model.withFlat flat).states = flat.states := by
  funext states
  cases states <;> rfl

/-- `withFlat` gives a model that the parts represent. -/
theorem FlatModel.represents_withFlat {model : Model κ}
    (h : model.tree.root.index < model.tree.size) (flat : FlatModel κ) :
    flat.Represents (model.withFlat flat) where
  root_lt := by
    rw [Model.withFlat, Tree.size_modify, Tree.root_modify]
    exact h
  root := by
    rw [Model.withFlat, Tree.rootComponent, Tree.root_modify, Tree.get_modify_self h]
  states := model.states_withFlat flat

/-- `withFlat` twice leaves the parts that are put in last. -/
theorem Model.withFlat_withFlat (model : Model κ) (flat flat' : FlatModel κ) :
    (model.withFlat flat).withFlat flat' = model.withFlat flat' := by
  simp only [withFlat, Tree.modify_modify, Tree.root_modify]
  rfl

/-! ## What is asked of the parts -/

variable [Scalar κ]

/-- The rules of models and all requirements of passes, for the parts of a model with conditions for
modes of the automaton. -/
structure FlatModel.Acceptable (flat : FlatModel κ) : Prop where
  distinct : (flat.component.checkedNames {}).Nodup
  identifiers : ∀ name ∈ flat.component.checkedNames {}, Text.isIdentifier name = true
  automaton : flat.component.AutomatonOk flat.automaton
  nonempty : (flat.states .initial).isEmpty = false
  keys : ∀ states, ∀ mode ∈ (flat.states states).keys, mode ∈ flat.automaton.modes.keys
  names : ∀ states, ∀ entry ∈ (flat.states states).entries, ∀ name ∈ entry.2.vars,
    name ∈ flat.vars ∨ name ∈ flat.constants.keys
  points : ∀ entry ∈ flat.constants.entries, entry.2.isPoint = true
  noDisjunctions : ∀ states, ∀ entry ∈ (flat.states states).entries, entry.2.uses .or = false
  oneVariable : flat.vars ≠ []
  deterministic : flat.automaton.isNondeterministic = false
  noUrgentModes : flat.automaton.hasUrgentMode = false

namespace FlatModel

variable {flat : FlatModel κ} {model : Model κ}

omit [Scalar κ] in
/-- `component` declares the constants of the parts, all of them with values. -/
theorem keys_constants_component (flat : FlatModel κ) :
    flat.component.constants.keys = flat.constants.keys :=
  NameMap.keys_mapValues ..

/-- `Acceptable` parts have no variable that is a constant. -/
theorem Acceptable.not_mem_constants (h : flat.Acceptable) {name : String}
    (hname : name ∈ flat.vars) : name ∉ flat.constants.keys := by
  -- all declared names are different, whatever their kind
  have hdistinct := h.distinct
  rw [Component.checkedNames, if_pos rfl, keys_constants_component, List.nodup_append] at hdistinct
  exact fun hc => hdistinct.2.2 name (List.mem_append_left _ hname) name hc rfl

/-- `Acceptable` parts have different variables. -/
theorem Acceptable.nodup_vars (h : flat.Acceptable) : flat.vars.Nodup := by
  have hdistinct := h.distinct
  rw [Component.checkedNames, List.append_assoc] at hdistinct
  exact (List.nodup_append.1 hdistinct).1

/-! ## Parts of a model -/

namespace Represents

omit [Scalar κ] in
/-- `Represents` holds of models whose tree is `Flat`. -/
theorem flat_tree (h : flat.Represents model) : model.tree.Flat where
  root_lt := h.root_lt
  rootName := by rw [h.root]; rfl
  rootParent := by rw [h.root]; rfl
  isBase := by rw [h.root]; rfl

omit [Scalar κ] in
/-- `Represents` determines the body of the root. -/
theorem body_root (h : flat.Represents model) :
    model.tree.rootComponent.body = .base flat.automaton := by
  rw [h.root]
  rfl

omit [Scalar κ] in
theorem initial_eq (h : flat.Represents model) : model.initial = flat.states .initial :=
  congrFun h.states .initial

omit [Scalar κ] in
theorem forbidden_eq (h : flat.Represents model) : model.forbidden = flat.states .forbidden :=
  congrFun h.states .forbidden

omit [Scalar κ] in
/-- `allConstants` are those of the parts, since nothing is qualified in the root. -/
theorem allConstants_eq (h : flat.Represents model) :
    model.allConstants = flat.constants.mapValues some := by
  rw [Model.allConstants, h.flat_tree.allConstants_eq, h.root]
  rfl

omit [Scalar κ] in
/-- `allVariables` are those of the parts, each of them once. -/
theorem allVariables_eq (h : flat.Represents model) :
    model.allVariables = .ok (firstOccurrences flat.vars) := by
  rw [Model.allVariables, h.flat_tree.allVariables_eq, h.root]
  rfl

omit [Scalar κ] in
/-- A change of the root that leads to a component puts this component in. -/
theorem modify_root (h : flat.Represents model) {f : Component κ → Component κ}
    {component : Component κ} (hf : f flat.component = component) :
    model.tree.modify model.tree.root f = model.tree.modify model.tree.root fun _ => component :=
  Tree.modify_congr ((congrArg f h.root).trans hf)

omit [Scalar κ] in
/-- `withFlat` of parts with the same conditions replaces the root only. -/
theorem withFlat_eq_of_states (h : flat.Represents model) (other : FlatModel κ)
    (hstates : other.states = flat.states) :
    model.withFlat other =
      { model with tree := model.tree.modify model.tree.root fun _ => other.component } := by
  rw [Model.withFlat, hstates, ← h.initial_eq, ← h.forbidden_eq]

omit [Scalar κ] in
/-- `withFlat` of the parts that represent a model gives the model back. -/
theorem withFlat_eq_self (h : flat.Represents model) : model.withFlat flat = model := by
  have htree : model.tree.modify model.tree.root (fun _ => flat.component) = model.tree :=
    Tree.modify_eq_self h.root.symm
  rw [h.withFlat_eq_of_states flat rfl, htree]

/-- `Rules` hold of a model that is put together from `Acceptable` parts, if its settings fit. -/
theorem rules (h : flat.Represents model) (hok : flat.Acceptable)
    (hsettings : model.settings.check flat.vars = .ok ()) : model.Rules flat.vars := by
  -- there is one component, so the rules of the tree are those of the root
  have hnode : model.tree.NodeOk model.tree.root := by
    refine (h.flat_tree.nodeOk_iff h.body_root).2 ?_
    rw [h.root]
    refine ⟨hok.distinct, hok.identifiers, fun entry he => ?_, hok.automaton⟩
    obtain ⟨old, -, rfl⟩ := List.mem_map.1 he
    rfl
  constructor
  case tree => exact h.flat_tree.wellFormed_iff.2 hnode
  -- variables are different, so they are listed as they are
  case listed => rw [h.allVariables_eq, firstOccurrences_eq_self hok.nodup_vars]
  case nonempty =>
    rw [← hok.nonempty, ← h.states]
    rfl
  case modes =>
    intro states entry he
    rw [h.states] at he
    exact Tree.Flat.modeExists_of_mem h.body_root (hok.keys states _ (NameMap.mem_keys_of_mem he))
  case names =>
    intro states entry he name hn
    rw [h.states] at he
    rw [h.allConstants_eq, NameMap.keys_mapValues]
    exact hok.names states entry he name hn
  case settings => exact hsettings
  -- the rule of dots is about networks
  case dots =>
    intro hnetwork
    rw [Component.isNetwork, h.flat_tree.isBase] at hnetwork
    cases hnetwork

omit [Scalar κ] in
/-- `baseComponents` of a model with parts are the root alone, so a question about all automata is
one about the automaton of the parts. -/
theorem any_baseComponents (h : flat.Represents model) (p : Automaton κ → Bool) :
    (model.tree.baseComponents.any fun c => (model.tree.get c).automaton?.any p) =
      p flat.automaton := by
  have hautomaton : (model.tree.get model.tree.root).automaton? = some flat.automaton := by
    have hb := h.body_root
    rw [Tree.rootComponent] at hb
    rw [Component.automaton?, hb]
  rw [h.flat_tree.baseComponents_eq, List.any_cons, List.any_nil, hautomaton, Bool.or_false]
  rfl

/-- `checkOne` finds every requirement met by a model that is put together from `Acceptable` parts.
-/
theorem checkOne_eq_ok (h : flat.Represents model) (hok : flat.Acceptable)
    (requirement : Requirement) : Requirements.checkOne model requirement = .ok () := by
  -- a constant that is listed comes from the parts, and has a value
  have hconstants (entry : String × Option (Interval κ)) (he : entry ∈ model.allConstants.entries) :
      ∃ old ∈ flat.constants.entries, entry = (old.1, some old.2) := by
    rw [h.allConstants_eq] at he
    obtain ⟨old, ho, heq⟩ := List.mem_map.1 he
    exact ⟨old, ho, heq.symm⟩
  -- one case for each requirement; the parts are acceptable because they meet it
  cases requirement with
  | flat => exact Requirements.checkOne_flat_iff.2 h.flat_tree.isBase
  | pointConstants =>
    refine Requirements.checkOne_pointConstants_iff.2 fun entry he interval hi => ?_
    obtain ⟨old, ho, rfl⟩ := hconstants entry he
    obtain rfl := Option.some.inj hi
    exact hok.points old ho
  | noDisjunctions =>
    rw [Requirements.checkOne_noDisjunctions_iff, h.states]
    exact hok.noDisjunctions
  | oneVariable =>
    rw [Requirements.checkOne_oneVariable_iff, h.allVariables_eq,
      firstOccurrences_eq_self hok.nodup_vars]
    exact ⟨_, rfl, hok.oneVariable⟩
  | deterministic =>
    rw [Requirements.checkOne_deterministic_iff, Tree.isNondeterministic, h.any_baseComponents]
    exact hok.deterministic
  | noUrgentModes =>
    rw [Requirements.checkOne_noUrgentModes_iff, Tree.hasUrgentMode, h.any_baseComponents]
    exact hok.noUrgentModes
  | constantsDefined =>
    refine Requirements.checkOne_constantsDefined_iff.2 fun entry he => ?_
    obtain ⟨old, -, rfl⟩ := hconstants entry he
    rfl

/-- `Pass.check` accepts a model that is put together from `Acceptable` parts, but for copying,
which asks for a network. -/
theorem check_eq_ok (h : flat.Represents model) (hok : flat.Acceptable) {pass : Pass}
    (hpass : pass ≠ .copyInstance) : pass.check model = .ok () := by
  rw [Pass.check_eq hpass, Requirements.check_eq_ok_iff]
  exact fun requirement _ => h.checkOne_eq_ok hok requirement

/-- `Rules` and requirements together make the parts of a model `Acceptable`, if the conditions are
given for modes of the automaton. -/
theorem acceptable {vars : List String} (h : flat.Represents model) (hrules : model.Rules vars)
    (hrequired : ∀ requirement, Requirements.checkOne model requirement = .ok ())
    (hkeys : ∀ states, ∀ mode ∈ (model.states states).keys, mode ∈ flat.automaton.modes.keys) :
    flat.Acceptable ∧ vars = flat.vars := by
  have hnode := (h.flat_tree.nodeOk_iff h.body_root).1 (h.flat_tree.wellFormed_iff.1 hrules.tree)
  rw [h.root] at hnode
  obtain ⟨hdistinct, hidentifiers, -, hautomaton⟩ := hnode
  have hnodup : flat.vars.Nodup := by
    rw [Component.checkedNames, List.append_assoc] at hdistinct
    exact (List.nodup_append.1 hdistinct).1
  -- the listed variables are those of the parts, since these are different
  have hlisted : model.allVariables = .ok flat.vars := by
    rw [h.allVariables_eq, firstOccurrences_eq_self hnodup]
  have hvars : vars = flat.vars := Except.ok.inj (hrules.listed.symm.trans hlisted)
  refine ⟨?_, hvars⟩
  constructor
  case distinct => exact hdistinct
  case identifiers => exact hidentifiers
  case automaton => exact hautomaton
  case nonempty =>
    rw [← hrules.nonempty, ← h.states]
    rfl
  case keys =>
    rw [← h.states]
    exact hkeys
  case names =>
    intro states entry he name hn
    rw [← h.states] at he
    have hknown := hrules.names states entry he name hn
    rwa [hvars, h.allConstants_eq, NameMap.keys_mapValues] at hknown
  case points =>
    intro entry he
    -- requirements are read off the constants that are listed for the model
    have hpoints := Requirements.checkOne_pointConstants_iff.1 (hrequired .pointConstants)
    rw [h.allConstants_eq] at hpoints
    exact hpoints _ (List.mem_map_of_mem he) entry.2 rfl
  case noDisjunctions =>
    rw [← h.states]
    exact Requirements.checkOne_noDisjunctions_iff.1 (hrequired .noDisjunctions)
  case oneVariable =>
    obtain ⟨listed, hl, hne⟩ := Requirements.checkOne_oneVariable_iff.1 (hrequired .oneVariable)
    rwa [Except.ok.inj (hlisted.symm.trans hl)]
  case deterministic =>
    have hdeterministic := Requirements.checkOne_deterministic_iff.1 (hrequired .deterministic)
    rwa [Tree.isNondeterministic, h.any_baseComponents] at hdeterministic
  case noUrgentModes =>
    have hurgent := Requirements.checkOne_noUrgentModes_iff.1 (hrequired .noUrgentModes)
    rwa [Tree.hasUrgentMode, h.any_baseComponents] at hurgent

end Represents

/-! ## Taking a model apart -/

omit [Scalar κ] in
/-- Constants that all have a value are a map of values, with `some` around each of them. -/
theorem exists_mapValues_some {constants : NameMap (Option (Interval κ))}
    (h : ∀ entry ∈ constants.entries, entry.2.isSome = true) :
    ∃ values : NameMap (Interval κ), constants = values.mapValues some := by
  have key (entries : List (String × Option (Interval κ)))
      (h : ∀ entry ∈ entries, entry.2.isSome = true) :
      ∃ values : List (String × Interval κ),
        entries = values.map fun entry => (entry.1, some entry.2) := by
    -- induction on the entries; every one of them has a value
    induction entries with
    | nil => exact ⟨[], rfl⟩
    | cons entry rest ih =>
      obtain ⟨values, rfl⟩ := ih fun other ho => h other (List.mem_cons_of_mem _ ho)
      obtain ⟨value, hv⟩ := Option.isSome_iff_exists.1 (h entry List.mem_cons_self)
      exact ⟨(entry.1, value) :: values, by rw [List.map_cons, ← hv]⟩
  obtain ⟨values, hvalues⟩ := key constants.entries h
  -- keys are not changed, so they are different as before
  have hnodup : (values.map Prod.fst).Nodup := by
    have hkeys := constants.nodup_keys
    rwa [hvalues, List.map_map] at hkeys
  exact ⟨⟨values, hnodup⟩, NameMap.ext hvalues⟩

omit [Scalar κ] in
/-- A model whose root is an automaton is represented by parts, if all of its constants have values.
-/
theorem exists_represents {automaton : Automaton κ} (h : model.tree.Flat)
    (hb : model.tree.rootComponent.body = .base automaton)
    (hdefined : ∀ entry ∈ model.tree.rootComponent.constants.entries, entry.2.isSome = true) :
    ∃ flat : FlatModel κ, flat.Represents model ∧ flat.automaton = automaton := by
  obtain ⟨constants, hconstants⟩ := exists_mapValues_some hdefined
  let flat : FlatModel κ := {
    vars := model.tree.rootComponent.vars
    constants
    labels := model.tree.rootComponent.labels
    template := model.tree.rootComponent.template
    automaton
    states := model.states }
  -- name and parent of the root are missing, as they are in a component of parts
  have hroot : model.tree.rootComponent = flat.component := by
    unfold FlatModel.component
    dsimp only [flat]
    rw [← hconstants, ← hb, ← h.rootName, ← h.rootParent]
  exact ⟨flat, ⟨h.root_lt, hroot, rfl⟩, rfl⟩

/-- A model that passes its check and meets all requirements has `Acceptable` parts, if its root is
an automaton and the conditions are given for the modes of the root. -/
theorem exists_acceptable {automaton : Automaton κ} (hchecks : model.checks = {})
    (hvalid : model.check = .ok ()) (hrequired : Requirements.all.check model = .ok ())
    (hb : model.tree.rootComponent.body = .base automaton)
    (hkeys : ∀ states, ∀ mode ∈ (model.states states).keys, mode ∈ automaton.modes.keys) :
    ∃ flat : FlatModel κ, flat.Represents model ∧ flat.Acceptable ∧
      model.settings.check flat.vars = .ok () := by
  obtain ⟨vars, hrules⟩ := (Model.check_eq_ok_iff hchecks).1 hvalid
  have hone (requirement : Requirement) : Requirements.checkOne model requirement = .ok () :=
    Requirements.check_eq_ok_iff.1 hrequired requirement rfl
  have hflat : model.tree.Flat := {
    root_lt := hrules.tree.linked.root_lt
    rootName := hrules.tree.rootName
    rootParent := hrules.tree.rootParent
    isBase := Requirements.checkOne_flat_iff.1 (hone .flat) }
  -- every constant of the root has a value, because it has no parent that could give one
  obtain ⟨-, -, hdefined, -⟩ := (hflat.nodeOk_iff hb).1 (hflat.wellFormed_iff.1 hrules.tree)
  obtain ⟨flat, hrepresents, rfl⟩ := exists_represents hflat hb hdefined
  obtain ⟨hok, rfl⟩ := hrepresents.acceptable hrules hone hkeys
  exact ⟨flat, hrepresents, hok, hrules.settings⟩

end FlatModel

end HybridAutomata
