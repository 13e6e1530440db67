import HybridAutomata.Pass.SubstituteConstants
import HybridAutomata.Proofs.ForStd.Except
import HybridAutomata.Proofs.Pass.Outcome
/-!
# The result of substituting constants

A run first looks up the values of all constants, which may fail, and then makes changes that cannot
fail. `allValues` is the first part as a function of the tree, `result` the second one as a function
of the model, and `runOn_run` says that a run is the one after the other.
-/

namespace HybridAutomata.SubstituteConstants

variable {κ : Type}

/-- The values of the constants of all components that are reachable from the root. -/
def allValues [Scalar κ] (tree : Tree κ) :
    Except (ModelError κ) (List (Handle × NameMap (Expr κ))) :=
  (tree.descendants tree.root).mapM fun c => do
    pure (c, ← pointValues tree c)

/-- The tree without the constants of the given components. -/
def resultTree (tree : Tree κ) (values : List (Handle × NameMap (Expr κ))) : Tree κ :=
  values.foldl
    (fun tree (c, values) => tree.modify c fun component => replaceConstants component values)
    tree

/-- The model without constants, given their values. -/
def result [Scalar κ] (model : Model κ) (values : List (Handle × NameMap (Expr κ))) : Model κ :=
  let global := qualifiedValues model.tree values
  { model.mapConditions fun e => (e.substitute global).simplify with
    tree := resultTree model.tree values }

/-- Taking the constants out of one component after the other cannot fail, and gives the
`resultTree`. -/
theorem runOn_forM_replace (values : List (Handle × NameMap (Expr κ))) (w : Workspace κ) :
    (values.forM fun (c, values) =>
        PassM.modifyTree fun tree => tree.modify c fun component =>
          replaceConstants component values).runOn w =
      (.ok (), { w with model := { w.model with tree := resultTree w.model.tree values } }) := by
  -- by induction on the components: each step changes one of them
  induction values generalizing w with
  | nil => rfl
  | cons entry rest ih =>
    rw [List.forM_eq_forM, List.forM_cons, ← List.forM_eq_forM,
      Change.runOn_bind_ok (PassM.runOn_modifyTree ..), ih]
    rfl

/-- `run` looks up all values and then makes all its changes. -/
theorem runOn_run [Scalar κ] (w : Workspace κ) :
    run.runOn w =
      match allValues w.model.tree with
      | .error cause => (.error (.model cause), w)
      | .ok values => (.ok (), { w with model := result w.model values }) := by
  -- the look-up only reads; after it there are just changes
  rw [run, Change.runOn_bind_ok (PassM.runOn_model w)]
  have hvalues : (w.model.tree.descendants w.model.tree.root).mapM (fun c => do
      pure (c, ← pointValues w.model.tree c)) = allValues w.model.tree := rfl
  simp only [hvalues]
  cases allValues w.model.tree with
  | error cause => rfl
  | ok values =>
    rw [Change.runOn_bind_ok (PassM.runOn_ofModel_ok ..),
      Change.runOn_bind_ok (PassM.runOn_modifyModel ..), runOn_forM_replace]
    rfl

end HybridAutomata.SubstituteConstants
