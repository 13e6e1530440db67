import HybridAutomata.Pass.CopyInstance
import HybridAutomata.Proofs.ForStd.Except
import HybridAutomata.Proofs.Pass.Outcome
/-!
# Preparing copies

A run of the pass that copies an instance first finds out all it needs to know and fails if
something is in the way; only then it changes the model. `prepare` is the first part as a function
of the model, `Preparation.carryOut` the second one, and `runOn_run` says that a run is the one
after the other.
-/

namespace HybridAutomata.CopyInstance

variable {κ : Type}

/-- What a run has found out before it changes anything. -/
structure Preparation (κ : Type) where
  /-- The name of the instance to copy. -/
  name : String
  prototype : Instance
  copies : List Plan
  /-- The variables of the root with those of the copies. -/
  vars : List String
  /-- The labels of the root with those of the copies. -/
  labels : List String
  /-- The mode of the copied root, and the condition on the prototype. -/
  initial : String × Expr κ
  forbidden : Option (String × Expr κ)

/-- The forbidden mode and condition, if there is one to be extended. -/
def findForbidden (model : Model κ) :
    Except (PassError κ) (Option (List String × Expr κ)) :=
  if model.forbidden.isEmpty then pure none else some <$> singleState model.tree model.forbidden

/-- Everything that a run does before it changes the model. There is nothing to carry out if one
instance is asked for. -/
def prepare (model : Model κ) (options : Options) :
    Except (PassError κ) (Option (Preparation κ)) := do
  let instances := (rootInstances model.tree).keys
  let name ← chooseInstance instances options.name
  let some position := instances.findIdx? (· = name)
    | throw (.unsupported (.unknownInstance name instances))
  if options.count < 1 then throw (.unsupported (.tooFewInstances options.count))
  let initial ← singleState model.tree model.initial
  let forbidden ← findForbidden model
  if options.count = 1 then return none
  let prototype ← rootInstance model.tree name
  let copies := plans prototype name options.stem options.count
  let (vars, labels) ← claimPlans model.tree.rootComponent copies
  pure (some {
    name, prototype, copies, vars, labels
    initial := (extendMode initial.1 position copies.length, initial.2)
    forbidden := forbidden.map fun states =>
      (extendMode states.1 position copies.length, states.2) })

namespace Preparation

variable [Scalar κ]

/-- The changes of a run. -/
def carryOut (prep : Preparation κ) : PassM κ Unit := do
  PassM.modifyTree fun tree => tree.modify tree.root fun component =>
    { component with vars := prep.vars, labels := prep.labels }
  prep.copies.forM (place prep.prototype prep.name)
  PassM.modifyModel fun model =>
    { model with
      initial := .ofList
        [(prep.initial.1, extendCondition .conj prep.initial.2 prep.copies)] }
  match prep.forbidden with
  | some (mode, condition) =>
    PassM.modifyModel fun model =>
      { model with forbidden := .ofList [(mode, extendCondition .disj condition prep.copies)] }
  | none => pure ()

end Preparation

/-- `findForbidden` is what a run does in line before it goes on with `next`. -/
theorem runOn_findForbidden (model : Model κ) (w : Workspace κ)
    (next : Option (List String × Expr κ) → PassM κ Unit) :
    (if model.forbidden.isEmpty then pure none >>= next
      else (some <$> liftM (singleState model.tree model.forbidden)) >>= next : PassM κ Unit).runOn
        w =
      match findForbidden model with
      | .ok forbidden => (next forbidden).runOn w
      | .error cause => (.error cause, w) := by
  rw [findForbidden]
  split
  · rfl
  -- the state of the workspace plays no part in the search
  · cases singleState model.tree model.forbidden <;> rfl

/-- A run does what `prepare` says: it ends with its refusal, with nothing to do, or with
`carryOut`. -/
theorem runOn_run [Scalar κ] (options : Options) (w : Workspace κ) :
    (run options).runOn w =
      match prepare w.model options with
      | .error cause => (.error cause, w)
      | .ok none => (.ok (), w)
      | .ok (some prep) => prep.carryOut.runOn w := by
  -- both sides make the same decisions in the same order, and a failure ends both
  simp only [run, prepare, Change.runOn_bind, PassM.runOn_model, Change.runOn_liftM]
  cases chooseInstance (κ := κ) (rootInstances w.model.tree).keys options.name with
  | error cause => rfl
  | ok name =>
  simp only [Except.ok_bind]
  cases hp : (rootInstances w.model.tree).keys.findIdx? (· = name) with
  | none => simp
  | some position =>
  -- the count is tested twice, for too few instances and later for nothing to do
  by_cases hc : options.count < 1
  · simp [hc]
  simp only [hc, if_false, Change.runOn_bind, Change.runOn_liftM]
  cases singleState w.model.tree w.model.initial with
  | error cause => rfl
  | ok initial =>
  simp only [Except.ok_bind, runOn_findForbidden]
  cases findForbidden w.model with
  | error cause => rfl
  | ok forbidden =>
  simp only [Except.ok_bind]
  by_cases h1 : options.count = 1
  · simp [h1]
  simp only [h1, if_false, Change.runOn_bind, Change.runOn_liftM]
  cases rootInstance w.model.tree name with
  | error cause => rfl
  | ok prototype =>
  simp only [Except.ok_bind]
  cases claimPlans w.model.tree.rootComponent
      (plans prototype name options.stem options.count) with
  | error cause => rfl
  | ok names =>
    -- what is left is to change the model
    cases forbidden <;>
      simp only [Except.ok_bind, Except.pure_eq_ok, Preparation.carryOut, Change.runOn_bind,
        Option.map_none, Option.map_some]

end HybridAutomata.CopyInstance
