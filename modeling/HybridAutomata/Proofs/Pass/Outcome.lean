import HybridAutomata.Pass.Workspace
import HybridAutomata.Proofs.Change
/-!
# Outcomes of pass computations

A pass computation is a `Change` of a workspace. The lemmas `runOn_…` say what its own building
blocks do. Most of them keep the model: what is said of `Change.Keeps` and `Change.AtomicOn` is used
with `Workspace.model` for the part of the state.
-/

namespace HybridAutomata.PassM

variable {κ α β : Type}

/-! ## Building blocks -/

@[simp] theorem runOn_model (w : Workspace κ) :
    (model : PassM κ (Model κ)).runOn w = (.ok w.model, w) := rfl

@[simp] theorem runOn_modifyModel (f : Model κ → Model κ) (w : Workspace κ) :
    (modifyModel f).runOn w = (.ok (), { w with model := f w.model }) := rfl

@[simp] theorem runOn_modifyTree (f : Tree κ → Tree κ) (w : Workspace κ) :
    (modifyTree f).runOn w =
      (.ok (), { w with model := { w.model with tree := f w.model.tree } }) := rfl

@[simp] theorem runOn_report (level : LogLevel) (message : String) (w : Workspace κ) :
    (report level message).runOn w = (.ok (), { w with log := w.log ++ [⟨level, message⟩] }) := rfl

@[simp] theorem runOn_ofModel_ok (value : α) (w : Workspace κ) :
    (ofModel (.ok value) : PassM κ α).runOn w = (.ok value, w) := rfl

@[simp] theorem runOn_ofModel_error (cause : ModelError κ) (w : Workspace κ) :
    (ofModel (.error cause) : PassM κ α).runOn w = (.error (.model cause), w) := rfl

/-- `onTree` gives the model the tree that a successful change of the tree has made. -/
theorem runOn_onTree_ok {change : TreeM κ α} {w : Workspace κ} {value : α} {tree : Tree κ}
    (h : change.runOn w.model.tree = (.ok value, tree)) :
    (onTree change).runOn w = (.ok value, { w with model := { w.model with tree } }) := by
  rw [onTree, Change.runOn_bind_ok (runOn_model w), h]
  rfl

/-! ## Keeping the model -/

/-- Reading the model keeps it. -/
theorem keeps_model : Change.Keeps Workspace.model (model : PassM κ (Model κ)) := fun _ => rfl

/-- A `report` keeps the model. -/
theorem keeps_report (level : LogLevel) (message : String) :
    Change.Keeps Workspace.model (report level message : PassM κ Unit) := fun _ => rfl

/-- A `report` for each of the items does nothing to the model. -/
theorem runOn_forM_report (level : LogLevel) (message : α → String) (items : List α)
    (w : Workspace κ) :
    ∃ w', (items.forM fun item => (report level (message item) : PassM κ Unit)).runOn w =
      (.ok (), w') ∧ w'.model = w.model := by
  induction items generalizing w with
  | nil => exact ⟨w, rfl, rfl⟩
  | cons item rest ih =>
    rw [List.forM_eq_forM, List.forM_cons, Change.runOn_bind_ok (runOn_report ..)]
    exact ih _

end HybridAutomata.PassM
