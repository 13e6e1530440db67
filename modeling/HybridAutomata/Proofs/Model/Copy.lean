import HybridAutomata.Model.Basic
import HybridAutomata.Proofs.Model.Queries
import HybridAutomata.Proofs.Tree.Copy
import HybridAutomata.Proofs.Tree.Mirror
/-!
# What a copy shows

A copy holds what is reachable from the root and nothing else, at other places. Nobody who asks for
values, names or texts, or for the outcome of a check, can tell it from the original.

* `Mirrors.check_eq`         a model ends its check alike on a mirror of its tree
* `Linked.copyOf`            what a copy of a tree is
* `copying_is_invisible`     copying a tree, and a model
-/

namespace HybridAutomata

variable {κ : Type}

namespace Tree

/-! ## Models on a mirror -/

/-- `Model.check` ends alike on a tree that `Mirrors` the one of the model, with the same violation
if it fails. -/
theorem Mirrors.check_eq {model : Model κ} {tree' : Tree κ} {f : Handle → Handle}
    (h : model.tree.Mirrors tree' f) : { model with tree := tree' }.check = model.check := by
  cases henabled : model.checks.enabled with
  | false => rw [Model.check, Model.check, henabled]; rfl
  | true =>
    have henabled' : { model with tree := tree' }.checks.enabled = true := henabled
    -- each part of the check asks the tree something, and the mirror gives the same answer
    have hroot := model.tree.reachable_root
    have htree : tree'.check model.checks = model.tree.check model.checks := by
      rw [Tree.check, Tree.check, h.root, h.checkComponent_eq hroot]
    have hvars : { model with tree := tree' }.allVariables = model.allVariables := by
      rw [Model.allVariables, Model.allVariables, h.root, h.allVariables_eq hroot]
    have hnames : { model with tree := tree' }.conditionNames = model.conditionNames := by
      funext vars
      rw [Model.conditionNames, Model.conditionNames, Model.allConstants, Model.allConstants,
        h.root,
        h.allConstants_eq hroot]
    have hstates : { model with tree := tree' }.checkStates = model.checkStates := by
      funext states known
      simp only [Model.checkStates, h.root, h.modeExists_eq hroot]
      rfl
    have hnetwork : tree'.rootComponent.isNetwork = model.tree.rootComponent.isNetwork := by
      rw [rootComponent, rootComponent, h.root, h.get _ hroot, Component.isNetwork,
        Component.isNetwork, Component.isBase_relabel]
    rw [Model.check_eq henabled', Model.check_eq henabled]
    simp only [h.linked.rootName, h.linked.rootParent, h.linked'.rootName, h.linked'.rootParent,
      htree, hvars, hnames, hstates, hnetwork]
    rfl

/-- `Model.render` shows a model alike on a tree that `Mirrors` its own. -/
theorem Mirrors.renderModel_eq [Scalar κ] {model : Model κ} {tree' : Tree κ} {f : Handle → Handle}
    (h : model.tree.Mirrors tree' f) : { model with tree := tree' }.render = model.render := by
  rw [Model.render, Model.render, Model.lines, Model.lines, h.lines_eq]
  rfl

/-! ## Copies -/

/-- A tree is a copy of another one, with the places that `f` gives to the components. -/
structure CopyOf [Scalar κ] (copy tree : Tree κ) (f : Handle → Handle) : Prop where
  /-- The copy holds one component for each one that is reachable, in preorder. -/
  root : copy.root = ⟨0⟩
  listed : ∀ c, c ∈ tree.descendants tree.root ↔ tree.Reachable c
  once : (tree.descendants tree.root).Nodup
  places : (tree.descendants tree.root).map f = (List.range copy.size).map Handle.mk
  /-- Components differ in the handles only, and these correspond one to one. -/
  get : ∀ c, tree.Reachable c → copy.get (f c) = (tree.get c).relabel f
  injective : ∀ c d, tree.Reachable c → tree.Reachable d → f c = f d → c = d
  /-- Everything looks alike. -/
  answers : ∀ c, tree.Reachable c → tree.SameAnswers copy c (f c)
  render : copy.render = tree.render
  /-- Copying once more changes nothing. -/
  copyAgain : copy.copy = .ok copy

/-- What `compact` puts together at `Numbered` places is a `CopyOf` the tree. -/
theorem Linked.copyOf [Scalar κ] {tree : Tree κ} {f : Handle → Handle} (h : tree.Linked)
    (hliteral : tree.NoLiterals) (hf : Numbered f 0 (tree.descendants tree.root)) :
    (tree.compact f).CopyOf tree f := by
  have hmirrors := mirrors_compact h hf
  -- a compact arena mirrors the tree, and this answers all questions about it
  exact {
    root := rfl
    listed := fun _ => h.mem_descendants_iff
    once := h.nodup_descendants
    places := by rw [hf.map_eq, size_compact, List.range_eq_range']
    get := hmirrors.get
    injective := fun _ _ hc hd he => hmirrors.injective hc hd he
    answers := fun _ hc => hmirrors.sameAnswers hc
    render := hmirrors.render_eq
    copyAgain := copy_compact h hliteral hf }

end Tree

/-- Copying a tree with consistent links and without bindings to literals succeeds, and the copy
cannot be told from the tree; nor can the copy of any model with this tree be told from the model.
-/
theorem copying_is_invisible [Scalar κ] (tree : Tree κ) (hlinked : tree.Linked)
    (hliteral : tree.NoLiterals) :
    ∃ copy f, tree.copy = .ok copy ∧ copy.CopyOf tree f ∧
      ∀ model : Model κ, model.tree = tree →
        model.copy = .ok { model with tree := copy } ∧
          { model with tree := copy }.check = model.check ∧
          { model with tree := copy }.render = model.render := by
  have hf := Tree.numbered_idxOf hlinked.nodup_descendants
  have hcopy := Tree.copy_eq hlinked hliteral hf
  refine ⟨_, _, hcopy, hlinked.copyOf hliteral hf, ?_⟩
  rintro model rfl
  -- the check and the text of a model are those of its tree
  have hmirrors := Tree.mirrors_compact hlinked hf
  refine ⟨?_, hmirrors.check_eq, hmirrors.renderModel_eq⟩
  rw [Model.copy, hcopy]
  rfl

/-- The copy of the clock and the lamp cannot be told from them. -/
theorem clockAndLamp_copy_is_invisible :
    ∃ copy f, clockAndLamp.tree.copy = .ok copy ∧ copy.CopyOf clockAndLamp.tree f ∧
      clockAndLamp.copy = .ok { clockAndLamp with tree := copy } ∧
        { clockAndLamp with tree := copy }.check = .ok () := by
  have hcheck : clockAndLamp.check = .ok () := Except.eq_ok_of_isOk (by decide +kernel)
  have hlinked := Model.linked_of_check rfl hcheck
  have hliteral : clockAndLamp.tree.NoLiterals := by
    -- there are four components, and none of them binds a constant to a literal
    rintro ⟨i⟩ hc
    have hi : i < 4 := hlinked.index_lt hc
    have hcases : i = 0 ∨ i = 1 ∨ i = 2 ∨ i = 3 := by omega
    rcases hcases with rfl | rfl | rfl | rfl <;> decide +kernel
  obtain ⟨copy, f, hcopy, hof, hmodel⟩ :=
    copying_is_invisible clockAndLamp.tree hlinked hliteral
  obtain ⟨hmodelCopy, hsame, -⟩ := hmodel clockAndLamp rfl
  exact ⟨copy, f, hcopy, hof, hmodelCopy, hsame.trans hcheck⟩

end HybridAutomata
