import HybridAutomata.Proofs.Model.Agreement
import HybridAutomata.Proofs.Model.Copy
import HybridAutomata.Proofs.Tree.LiteralValues
import Mathlib
/-!
# Copies resolve literals

Copying a tree fails if a constant is bound to a literal that does not read as a number, and then
only. In the copy no constant is bound to a literal: the numbers are values of constants, which
further bindings lead to as before. A model that passes its check has a copy that passes it.

* `check_withLiterals`          a model still passes its check when all literals are in place
* `copying_resolves_literals`   copying a tree, and a model
-/

namespace HybridAutomata

variable {κ : Type} [Scalar κ]

namespace Tree

/-! ## Models with literals in place -/

theorem path_inlined (tree : Tree κ) (c : Handle) : tree.inlined.path c = tree.path c := by
  rw [← path_outline, outline_inlined, path_outline]

/-- With its literals in place a tree has the same modes. -/
theorem modeExists_inlined (tree : Tree κ) (c : Handle) (mode : String) :
    tree.inlined.modeExists c mode = tree.modeExists c mode := by
  rw [← modeExists_outline, outline_inlined, modeExists_outline]

/-- With its literals in place a tree lists the same variables. -/
theorem allVariables_inlined (tree : Tree κ) (c : Handle) :
    tree.inlined.allVariables c = tree.allVariables c := by
  rw [← allVariables_outline, outline_inlined, allVariables_outline]

/-- What `IsConstant` of a tree is still listed when all literals are in place. -/
theorem IsConstant.inlined {tree : Tree κ} {listed : String} (h : tree.IsConstant listed)
    (hlinked : tree.Linked) (honce : tree.BindsConstantsOnce) : tree.inlined.IsConstant listed := by
  obtain ⟨c, hc, name, hname, hfree, rfl⟩ := h
  refine ⟨c, reachable_inlined_iff.2 hc, name, ?_, ?_, by rw [path_inlined]⟩
  · rwa [keys_constants_inlined hlinked honce hc]
  · rw [IsFree, instance?_inlined]
    -- a constant was free because nothing binds it, and such a binding has not come in
    cases hi : tree.instance? c with
    | none => rfl
    | some inst => exact outerName?_inlined_of_none ((isFree_iff_of_instance? hi).1 hfree)

/-- A model that passes its check still passes it on the tree with all literals in place, `inlined`.
-/
theorem check_withLiterals {model : Model κ} (hlinked : model.tree.Linked)
    (honce : model.tree.BindsConstantsOnce)
    (hliterals : ∀ name literal, ¬ model.tree.HasMalformed name literal)
    (hcheck : model.check = .ok ()) :
    { model with tree := model.tree.inlined }.check = .ok () := by
  cases henabled : model.checks.enabled with
  | false => simp [Model.check, henabled]
  | true =>
    obtain ⟨-, htree, vars, hfits⟩ := (Model.check_eq_ok_iff_of_enabled henabled).1 hcheck
    have henabled' : { model with tree := model.tree.inlined }.checks.enabled = true := henabled
    refine (Model.check_eq_ok_iff_of_enabled henabled').2
      -- links and entries are as before; what the conditions mention is listed as before
      ⟨⟨hlinked.inlined.rootName, hlinked.inlined.rootParent⟩,
        check_inlined hlinked honce hliterals htree, vars, {
          listed := (allVariables_inlined ..).trans hfits.listed
          nonempty := hfits.nonempty
          modes := fun states entry he =>
            (modeExists_inlined ..).trans (hfits.modes states entry he)
          names := fun states entry he name hn => ?_
          settings := hfits.settings
          dots := fun hnetwork => hfits.dots ?_ }⟩
    · refine (hfits.names states entry he name hn).imp_right fun hlisted => ?_
      exact hlinked.inlined.mem_keys_allConstants_iff.2
        ((hlinked.mem_keys_allConstants_iff.1 hlisted).inlined hlinked honce)
    · rw [← hnetwork]
      show _ = (model.tree.inlined.get model.tree.root).isNetwork
      rw [get_inlined]
      rcases hroot : model.tree.get model.tree.root with ⟨_, _, _, _, _, _, _ | _⟩ <;>
        simp [rootComponent, hroot, Component.isNetwork, Component.isBase, Component.inlined]

/-! ## Copies -/

/-- A copy of a tree in which the bindings to literals are resolved. -/
structure ResolvedCopy (copy tree : Tree κ) : Prop where
  linked : copy.Linked
  /-- The same ways lead down, and everything in the copy can be reached. -/
  ways : ∀ names, (copy.follow copy.root names).isSome = (tree.follow tree.root names).isSome
  reachable : ∀ d, d.index < copy.size → copy.Reachable d
  noLiterals : ∀ d, ∀ entry ∈ (copy.get d).children.entries, ∀ binding ∈ entry.2.consts,
    binding.literal? = none
  /-- Constants that lead to a number have it as their value. -/
  literal : ∀ c d, tree.Counterparts copy c d → ∀ name value, tree.LeadsToLiteral c name value →
    copy.constantValue d name = .ok (.point value)
  /-- The other constants are looked up as before. -/
  other : ∀ c d, tree.Counterparts copy c d → ∀ name,
    (∀ value, ¬ tree.LeadsToLiteral c name value) →
      copy.constantValue d name = tree.constantValue c name

/-- The copy of `inlined`, the tree with all literals in place, is a `ResolvedCopy`. -/
theorem resolvedCopy_compact {tree : Tree κ} {f : Handle → Handle} (hlinked : tree.Linked)
    (honce : tree.BindsConstantsOnce)
    (hliterals : ∀ name literal, ¬ tree.HasMalformed name literal)
    (hf : Numbered f 0 (tree.inlined.descendants tree.inlined.root)) :
    (tree.inlined.compact f).ResolvedCopy tree := by
  have hmirrors := mirrors_compact hlinked.inlined hf
  -- what lies on the same way lies at the place of the component
  have hvalue {c d : Handle} (hcd : tree.Counterparts (tree.inlined.compact f) c d)
      (name : String) :
      tree.Reachable c ∧
        (tree.inlined.compact f).constantValue d name = tree.inlined.constantValue c name := by
    obtain ⟨names, hc, hd⟩ := hcd
    rw [hmirrors.follow_root_eq, follow_inlined, root_inlined, hc, Option.map_some] at hd
    rw [← Option.some.inj hd, hmirrors.constantValue_eq (reachable_inlined_iff.2 ⟨names, hc⟩)]
    exact ⟨⟨names, hc⟩, rfl⟩
  exact {
    linked := hmirrors.linked'
    ways := fun names => by
      rw [hmirrors.follow_root_eq, follow_inlined, root_inlined, Option.isSome_map]
    reachable := fun d hd => reachable_compact hlinked.inlined hf hd
    noLiterals := fun d entry he =>
      hmirrors.noLiterals tree.noLiterals_inlined d
        (reachable_compact hlinked.inlined hf (index_lt_of_mem_children he)) entry he
    literal := fun c d hcd name value hleads => by
      obtain ⟨hc, hvalue⟩ := hvalue hcd name
      rw [hvalue, hleads.constantValue_inlined hlinked honce hc]
    other := fun c d hcd name hother => by
      obtain ⟨hc, hvalue⟩ := hvalue hcd name
      rw [hvalue, constantValue_inlined_of_forall_not hlinked honce hliterals hc hother] }

end Tree

/-- Copying a tree with consistent links, whose instances bind declared constants and none of them
twice, fails if a literal does not read as a number, and then only. Otherwise the copy resolves the
literals, and the copy of a model with this tree passes the check of the model if the model does. -/
theorem copying_resolves_literals (tree : Tree κ) (hlinked : tree.Linked)
    (honce : tree.BindsConstantsOnce) :
    ((∃ name literal, tree.copy = .error (.malformedLiteral name literal)) ↔
      ∃ name literal, tree.HasMalformed name literal) ∧
    ((∀ name literal, ¬ tree.HasMalformed name literal) →
      ∃ copy, tree.copy = .ok copy ∧ copy.ResolvedCopy tree ∧
        ∀ model : Model κ, model.tree = tree →
          model.copy = .ok { model with tree := copy } ∧
            (model.check = .ok () → { model with tree := copy }.check = .ok ())) := by
  refine ⟨hlinked.exists_malformedLiteral_iff, fun hliterals => ?_⟩
  -- copying is copying the tree with its literals in place
  have hf := Tree.numbered_idxOf hlinked.inlined.nodup_descendants
  have hcopy := Tree.copy_eq hlinked.inlined tree.noLiterals_inlined hf
  rw [← Tree.copy_inlined hlinked hliterals] at hcopy
  refine ⟨_, hcopy, Tree.resolvedCopy_compact hlinked honce hliterals hf, ?_⟩
  rintro model rfl
  refine ⟨by rw [Model.copy, hcopy]; rfl, fun hcheck => ?_⟩
  have hinlined := Tree.check_withLiterals hlinked honce hliterals hcheck
  have hmirrors : ({ model with tree := model.tree.inlined } : Model κ).tree.Mirrors _ _ :=
    Tree.mirrors_compact hlinked.inlined hf
  exact hmirrors.check_eq.trans hinlined

/-- The clock and the lamp, with the rate of the box bound to a literal, and constants left alone.
-/
def clockAtSeven : Model Int :=
  { clockAndLamp with
    tree := clockAndLamp.tree.modifyChild ⟨0⟩ "box" fun box =>
      { box with consts := [⟨"rate", "~ 7"⟩] }
    checks := { constants := false } }

/-- In a copy the clock goes at seven, which is what the box around it is told. -/
theorem clockAtSeven_copy_goes_at_seven :
    clockAtSeven.tree.Linked ∧ clockAtSeven.tree.BindsConstantsOnce ∧
      clockAtSeven.check = .ok () ∧
      ∃ copy d, clockAtSeven.tree.copy = .ok copy ∧ copy.ResolvedCopy clockAtSeven.tree ∧
        copy.follow copy.root ["box", "clock"] = some d ∧
        copy.constantValue d "k" = .ok (.point 7) ∧
        { clockAtSeven with tree := copy }.check = .ok () := by
  have hlinked : clockAtSeven.tree.Linked :=
    (Tree.AllLinked.of_arena (by decide) (by decide) (by decide +kernel)).linked
  have honce : clockAtSeven.tree.BindsConstantsOnce := .of_arena (by decide +kernel)
  have hcheck : clockAtSeven.check = .ok () := Except.eq_ok_of_isOk (by decide +kernel)
  obtain ⟨hfails, hcopies⟩ := copying_resolves_literals clockAtSeven.tree hlinked honce
  have hok : clockAtSeven.tree.copy.isOk = true := by cbv
  obtain ⟨copy, hcopy, hresolved, hmodel⟩ := hcopies fun name literal hm => by
    obtain ⟨_, _, herror⟩ := hfails.2 ⟨name, literal, hm⟩
    rw [herror] at hok
    cases hok
  have hclock : clockAtSeven.tree.follow clockAtSeven.tree.root ["box", "clock"] = some ⟨3⟩ := by
    decide +kernel
  obtain ⟨d, hd⟩ : ∃ d, copy.follow copy.root ["box", "clock"] = some d :=
    Option.isSome_iff_exists.1 (by rw [hresolved.ways, hclock]; rfl)
  -- the constant of the clock is bound to that of the box, and that one to the literal
  have hbox : clockAtSeven.tree.instance? ⟨1⟩ =
      some
        { parent := ⟨0⟩, child := ⟨1⟩, vars := [⟨"time", "time"⟩], consts := [⟨"rate", "~ 7"⟩] } := by
    decide +kernel
  have hinst : clockAtSeven.tree.instance? ⟨3⟩ =
      some { parent := ⟨1⟩, child := ⟨3⟩, vars := [⟨"x", "time"⟩], consts := [⟨"k", "rate"⟩] } := by
    decide +kernel
  have hrate : clockAtSeven.tree.LeadsToLiteral ⟨1⟩ "rate" 7 :=
    .literal hbox List.mem_cons_self (by cbv)
  have hseven : clockAtSeven.tree.LeadsToLiteral ⟨3⟩ "k" 7 :=
    .bound hinst List.mem_cons_self (by decide +kernel) (by cbv) hrate
  exact ⟨hlinked, honce, hcheck, copy, d, hcopy, hresolved, hd,
    hresolved.literal ⟨3⟩ d ⟨_, hclock, hd⟩ "k" 7 hseven, (hmodel clockAtSeven rfl).2 hcheck⟩

end HybridAutomata
