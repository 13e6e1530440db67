import HybridAutomata.Proofs.CopyInstance.Checks
import HybridAutomata.Proofs.CopyInstance.Placement
/-!
# The result of copying

The changes of a prepared run as one function of the model. `runOn_carryOut` says that these changes
are made, all of them and without a failure, in whatever state the model was found.
-/

namespace HybridAutomata.CopyInstance

variable {κ : Type}

/-- The tree whose root declares the given variables and labels. -/
def declared (tree : Tree κ) (vars labels : List String) : Tree κ :=
  tree.modify tree.root fun component => { component with vars, labels }

@[simp] theorem root_declared (tree : Tree κ) (vars labels : List String) :
    (declared tree vars labels).root = tree.root := rfl

@[simp] theorem size_declared (tree : Tree κ) (vars labels : List String) :
    (declared tree vars labels).size = tree.size := Tree.size_modify ..

/-- `declared` changes the root only. -/
theorem get_declared_of_ne {tree : Tree κ} {c : Handle} (h : c ≠ tree.root)
    (vars labels : List String) : (declared tree vars labels).get c = tree.get c :=
  Tree.get_modify_of_ne h _

/-- `declared` replaces the variables and labels of the root, if the root is in the arena. -/
theorem rootComponent_declared {tree : Tree κ} (h : tree.root.index < tree.size)
    (vars labels : List String) :
    (declared tree vars labels).rootComponent = { tree.rootComponent with vars, labels } :=
  Tree.get_modify_self h _

namespace Preparation

/-- The tree with the new names and all copies. -/
def resultTree (prep : Preparation κ) (tree : Tree κ) : Tree κ :=
  placedAll (declared tree prep.vars prep.labels) prep.prototype prep.copies

/-- The model with all copies, each constrained like the prototype. -/
def result (prep : Preparation κ) (model : Model κ) : Model κ :=
  { model with
    tree := prep.resultTree model.tree
    initial := .ofList [(prep.initial.1, extendCondition .conj prep.initial.2 prep.copies)]
    forbidden := match prep.forbidden with
      | some (mode, condition) => .ofList [(mode, extendCondition .disj condition prep.copies)]
      | none => model.forbidden }

/-- The modes with their conditions that are to be extended. -/
def given (prep : Preparation κ) : StateSet → List (String × Expr κ)
  | .initial => [prep.initial]
  | .forbidden => prep.forbidden.toList

end Preparation

/-- How the conditions of a family are extended: all copies have to start as the prototype does, and
none of them may get where the prototype must not. -/
def connective : StateSet → Expr κ → Expr κ → Expr κ
  | .initial => .conj
  | .forbidden => .disj

namespace Prepared

variable {model : Model κ} {options : Options} {prep : Preparation κ}

/-- The root of a `Prepared` model is a network: a component without instances has no instance to
copy. -/
theorem isNetwork (h : Prepared model options prep) : model.tree.rootComponent.isNetwork := by
  have hp := h.prototype
  rw [rootInstances, Component.children] at hp
  -- an automaton would have no entry for the prototype
  cases hb : model.tree.rootComponent.body with
  | network children => rw [Component.isNetwork, Component.isBase, hb]; rfl
  | base automaton =>
    rw [Component.network?, hb] at hp
    cases hp

theorem root_lt (h : Prepared model options prep) : model.tree.root.index < model.tree.size :=
  Tree.index_lt_of_isNetwork h.isNetwork

/-- What is `given` to be extended is a condition of the model, and its mode is the one that
`singleState` has split. -/
theorem exists_of_mem_given (h : Prepared model options prep) {states : StateSet}
    {given : String × Expr κ} (hg : given ∈ prep.given states) :
    ∃ modes position, (rootInstances model.tree).keys.findIdx? (· = prep.name) = some position ∧
      singleState model.tree (model.states states) = .ok (modes, given.2) ∧
      given.1 = extendMode modes position prep.copies.length := by
  -- the two families are prepared alike, but that the forbidden one may be missing
  obtain ⟨position, initial, forbidden, hp, hi, hf, hinitial, hforbidden⟩ := h.states
  cases states with
  | initial =>
    rw [Preparation.given, List.mem_singleton] at hg
    rw [hg, hinitial]
    exact ⟨initial.1, position, hp, hi, rfl⟩
  | forbidden =>
    rw [Preparation.given, Option.mem_toList, hforbidden] at hg
    obtain ⟨found, rfl, rfl⟩ := Option.map_eq_some_iff.1 hg
    rw [findForbidden] at hf
    split at hf
    · -- a family that is extended is not empty
      cases hf
    · obtain ⟨found', hs, hsome⟩ := Except.bind_eq_ok_iff.1 hf
      obtain rfl : found' = found := Option.some.inj (Except.ok.inj hsome)
      exact ⟨found'.1, position, hp, hs, rfl⟩

/-- The conditions of `result` are those that were `given`, each of them extended. -/
theorem entries_states_result (h : Prepared model options prep) (states : StateSet) :
    ((prep.result model).states states).entries = (prep.given states).map fun given =>
      (given.1, extendCondition (connective states) given.2 prep.copies) := by
  cases states with
  | initial => rfl
  | forbidden =>
    obtain ⟨position, initial, forbidden, hp, hi, hf, hinitial, hforbidden⟩ := h.states
    rw [Preparation.given, Model.states, Preparation.result]
    -- the result keeps the forbidden conditions if none of them was given
    cases hgiven : prep.forbidden with
    | some given => rfl
    | none =>
      -- a family that is not extended was empty
      rw [hforbidden, Option.map_eq_none_iff] at hgiven
      rw [findForbidden, hgiven] at hf
      split at hf
      · next hempty => exact List.isEmpty_iff.1 hempty
      · obtain ⟨_, -, hsome⟩ := Except.bind_eq_ok_iff.1 hf
        cases hsome

/-- All instances of the root of a `Prepared` model are automata of the arena. -/
theorem isBase_child (h : Prepared model options prep) {name : String} {inst : Instance}
    (hi : (name, inst) ∈ (rootInstances model.tree).entries) :
    (model.tree.get inst.child).isBase ∧ inst.child.index < model.tree.size := by
  -- there is an initial condition, and its mode names a mode of each instance
  obtain ⟨-, initial, -, -, hs, -⟩ := h.states
  exact isBase_of_singleState hs hi

/-- No instance of the root leads back to the root. -/
theorem child_ne_root (h : Prepared model options prep) {name : String} {inst : Instance}
    (hi : (name, inst) ∈ (rootInstances model.tree).entries) :
    inst.child ≠ model.tree.root :=
  Tree.ne_root_of_isBase (h.isBase_child hi).1 h.isNetwork

/-- `declared` of the names of a preparation. -/
theorem rootComponent_declared (h : Prepared model options prep) :
    (declared model.tree prep.vars prep.labels).rootComponent =
      { model.tree.rootComponent with vars := prep.vars, labels := prep.labels } :=
  CopyInstance.rootComponent_declared h.root_lt _ _

/-- The tree is `Placeable` once the preparation has succeeded, even if the model is not
well-formed. -/
theorem placeable (h : Prepared model options prep) :
    Placeable (declared model.tree prep.vars prep.labels) prep.prototype prep.copies where
  -- what the declarations have changed concerns neither the prototype nor its place
  isNetwork := by
    rw [h.rootComponent_declared]
    exact h.isNetwork
  child_lt := by
    rw [size_declared]
    exact (h.isBase_child h.prototype).2
  isBase := by
    rw [get_declared_of_ne (h.child_ne_root h.prototype)]
    exact (h.isBase_child h.prototype).1
  fresh := by
    rw [h.rootComponent_declared]
    exact (claimPlans_eq_ok_iff.1 h.claimed).1
  distinct := by
    rw [h.copies]
    exact plans_distinct ..

variable [Scalar κ]

/-- `carryOut` of a prepared run cannot fail, and leads to `result`. -/
theorem runOn_carryOut {w : Workspace κ} (h : Prepared w.model options prep) :
    prep.carryOut.runOn w =
      (.ok (), {
        model := prep.result w.model
        phase := w.phase
        log := w.log ++ placeReports prep.name prep.copies }) := by
  have hplace := runOn_forM_place
    { w with model := { w.model with tree := declared w.model.tree prep.vars prep.labels } }
    prep.name h.placeable
  -- declare the names, place the copies, extend the conditions
  rw [Preparation.carryOut, Change.runOn_bind_ok (PassM.runOn_modifyTree _ _)]
  refine (Change.runOn_bind_ok hplace).trans ?_
  rw [Change.runOn_bind_ok (PassM.runOn_modifyModel _ _), Preparation.result]
  cases prep.forbidden <;> rfl

end Prepared

/-- `run` fails without a change, has nothing to copy, or makes all the changes of a `Prepared` run.
-/
theorem run_cases [Scalar κ] (options : Options) (w : Workspace κ) :
    (∃ cause, prepare w.model options = .error cause ∧ (run options).runOn w = (.error cause, w)) ∨
    (prepare w.model options = .ok none ∧ (run options).runOn w = (.ok (), w)) ∨
    ∃ prep, Prepared w.model options prep ∧
      (run options).runOn w =
        (.ok (), {
          model := prep.result w.model
          phase := w.phase
          log := w.log ++ placeReports prep.name prep.copies }) := by
  rw [runOn_run]
  cases hp : prepare w.model options with
  | error cause => exact .inl ⟨cause, rfl, rfl⟩
  -- nothing to copy is a run that does nothing
  | ok outcome =>
    cases outcome with
    | none => exact .inr (.inl ⟨rfl, rfl⟩)
    | some prep =>
      have hprep := prepared_of_prepare hp
      exact .inr (.inr ⟨prep, hprep, hprep.runOn_carryOut⟩)

end HybridAutomata.CopyInstance
