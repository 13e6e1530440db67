import HybridAutomata.Proofs.Model.Queries
import HybridAutomata.Proofs.Tree.QualifiedNames
/-!
# The names of a checked model

Conditions and plots name variables and constants of the whole model by qualified names. In a model
that passes the check these names denote unique things, `UniqueNames`, although they are put
together and listed by recursions that know nothing of each other.

* `Tree.WellFormed.uniqueNames`    a well-formed tree has unique names
* `qualified_names_are_unique`     so a model that passes has
-/

namespace HybridAutomata

variable {κ : Type}

namespace Tree

/-- Qualified names denote unique things. -/
structure UniqueNames (tree : Tree κ) : Prop where
  /-- A qualified name is the way to a component followed by a name of the component. -/
  spelled : ∀ names c, tree.follow tree.root names = some c →
    ∀ name, qualify (tree.path c) name = Text.join "." (names ++ [name])
  /-- No two names of whatever components and kinds share a qualified name. -/
  distinct : ∀ c d, tree.Reachable c → tree.Reachable d → ∀ kind kind' name name',
    (tree.get c).declares kind name = true → (tree.get d).declares kind' name' = true →
      qualify (tree.path c) name = qualify (tree.path d) name' →
        c = d ∧ kind = kind' ∧ name = name'
  /-- The constants of the tree are those that are not bound, with their own values. -/
  constants : ∀ listed value, (listed, value) ∈ (tree.allConstants tree.root).entries ↔
    ∃ c, tree.Reachable c ∧ ∃ name, (name, value) ∈ (tree.get c).constants.entries ∧
      tree.IsFree .const c name ∧ listed = qualify (tree.path c) name
  /-- None of them is overwritten: they are listed one behind the other. -/
  constantsOnce : (tree.allConstants tree.root).entries =
    (tree.descendants tree.root).flatMap tree.freeConstants
  /-- Variables share a global name just if they are bound to one variable in the end. -/
  globalNames : ∀ c d, tree.Reachable c → tree.Reachable d →
    ∀ name ∈ (tree.get c).vars, ∀ name' ∈ (tree.get d).vars,
      tree.variableName c name = tree.variableName d name' ↔
        ∃ e last, last ∈ (tree.get e).vars ∧ tree.EndsAt .var c name e last ∧
          tree.EndsAt .var d name' e last
  /-- Variables and constants are told apart, and a network sorts its variables. -/
  listing : ∃ vars, tree.allVariables tree.root = .ok vars ∧
    (∀ listed, listed ∈ vars ↔ tree.IsVariable listed) ∧
    (∀ listed ∈ vars, listed ∉ (tree.allConstants tree.root).keys) ∧
    (tree.rootComponent.isNetwork = true → vars.Pairwise (· < ·))

/-- A `WellFormed` tree has `UniqueNames`. -/
theorem WellFormed.uniqueNames {tree : Tree κ} (h : tree.WellFormed) : tree.UniqueNames where
  spelled _ _ hf name := h.qualify_path_eq hf name
  distinct _ _ hc hd _ _ _ _ hn hn' he := h.qualify_inj_of_declares hc hd hn hn' he
  constants listed value := by
    -- the entries are those of the free constants of the components that a walk lists
    simp only [h.entries_allConstants, List.mem_flatMap, h.linked.mem_descendants_iff,
      mem_freeConstants_iff]
  constantsOnce := h.entries_allConstants
  globalNames _ _ hc hd _ hn _ hn' := h.variableName_eq_iff hc hd hn hn'
  listing := by
    obtain ⟨vars, hvars⟩ := h.linked.exists_allVariables tree.reachable_root
    have hlisted (listed : String) : listed ∈ vars ↔ tree.IsVariable listed :=
      h.linked.mem_allVariables_iff hvars
    refine ⟨vars, hvars, hlisted, fun listed hl => ?_, fun hn => pairwise_variablesWithin hn hvars⟩
    rw [h.mem_keys_allConstants_iff]
    exact h.not_isConstant_of_isVariable ((hlisted listed).1 hl)

end Tree

/-- In a model that passes with all checks on, qualified names denote unique things. -/
theorem qualified_names_are_unique (model : Model κ) (hchecks : model.checks = {})
    (hcheck : model.check = .ok ()) : model.tree.UniqueNames := by
  obtain ⟨vars, hrules⟩ := (Model.check_eq_ok_iff hchecks).1 hcheck
  exact hrules.tree.uniqueNames

/-- The names of the clock and the lamp are unique. -/
theorem clockAndLamp_has_uniqueNames : clockAndLamp.tree.UniqueNames :=
  qualified_names_are_unique clockAndLamp rfl (Except.eq_ok_of_isOk (by decide +kernel))

end HybridAutomata
