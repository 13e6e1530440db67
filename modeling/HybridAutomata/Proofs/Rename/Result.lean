import HybridAutomata.Proofs.Model.Check
import HybridAutomata.Proofs.Pass.Course
import HybridAutomata.Proofs.Pass.Requirement
import HybridAutomata.Proofs.Rename.Choices
import HybridAutomata.Proofs.Rename.Image
import HybridAutomata.Proofs.Scalar.Integer
import Mathlib.Data.List.Nodup
/-!
# What renaming leaves behind

A run replaces names at all places of the model at once. The result is the image of the model under
the new names as long as no two keys of a map become one key, for then an entry is lost.

New names are chosen beside the declared names and beside each other, but not beside the other names
that occur: labels that are not exported, and what guards, invariants and resets mention beyond the
declarations. So a new name may already stand for something else, which is not renamed. This is the
only way in which names are merged.

* `Model.isImage_renameNames`      if no entry is lost then the result is an image
* `Model.IsImage.keepsEntries`     whatever the result is an image under, no entry is lost
* `Rename.runOn_run`               a run as a function
* `renaming_merges_no_names_iff`   when no names are merged
-/

namespace HybridAutomata

variable {κ : Type}

/-- Renames the names of a model with a single automaton. -/
def Model.renameNames (model : Model κ) (names : NameMap String) : Model κ :=
  { model with
    tree := model.tree.modify model.tree.root fun component => component.renameNames names
    initial := model.initial.mapValues fun e => e.rename names
    forbidden := model.forbidden.mapValues fun e => e.rename names
    settings := model.settings.renamePlotVariables (Expr.newName names) }

/-- The keys of a map stay different when names are renamed. -/
def KeepsKeys {α : Type} (names : NameMap String) (map : NameMap α) : Prop :=
  (map.keys.map (Expr.newName names)).Nodup

/-- No constant, flow or reset of a component is lost when names are renamed. -/
structure Component.KeepsEntries (names : NameMap String) (component : Component κ) : Prop where
  constants : KeepsKeys names component.constants
  flows : ∀ automaton, component.body = .base automaton → ∀ mode ∈ automaton.modes.values,
    KeepsKeys names mode.flowMap
  resets : ∀ automaton, component.body = .base automaton →
    ∀ transition ∈ automaton.transitions, KeepsKeys names transition.resets

variable {names : NameMap String} {f : String → String}

/-! ## Renamed updates -/

/-- Renaming an update with `mapNames` is renaming its expression. -/
theorem Update.mapNames_newName (update : Update κ) (names : NameMap String) :
    update.mapNames (Expr.newName names) = { update with expr := update.expr.rename names } := by
  rw [mapNames, Expr.rename_eq_mapNames]

/-- If `KeepsKeys` holds of updates then the renamed ones are their image. -/
theorem KeepsKeys.updatesAreImage {updates : NameMap (Update κ)} (h : KeepsKeys names updates) :
    UpdatesAreImage (Expr.newName names) updates
      ((updates.mapValues fun update => { update with expr := update.expr.rename names }).rekey
        (Expr.newName names)) := by
  simp only [UpdatesAreImage, Update.mapNames_newName]
  rw [NameMap.IsImage, NameMap.entries_rekey (by rwa [NameMap.keys_mapValues]), NameMap.mapValues,
    List.map_map]
  rfl

/-- An image has as many entries as the map, so `KeepsKeys` holds of a map whose renamed version is
an image. -/
theorem keepsKeys_of_isImage {α β : Type} {map : NameMap α} {g : α → β} {renamed : NameMap β}
    (h : map.IsImage f g (renamed.rekey (Expr.newName names))) (hkeys : renamed.keys = map.keys) :
    KeepsKeys names map := by
  have hsize : renamed.size = map.size := by
    have hlength := congrArg List.length hkeys
    rwa [NameMap.keys, NameMap.keys, List.length_map, List.length_map] at hlength
  have hrekey : (renamed.rekey (Expr.newName names)).size = map.size :=
    (congrArg List.length h).trans (List.length_map _)
  rw [KeepsKeys, ← hkeys]
  exact NameMap.nodup_of_size_le_size_rekey (Nat.le_of_eq (hsize.trans hrekey.symm))

/-! ## Renamed modes and transitions -/

/-- If `KeepsKeys` holds of its flows then a renamed mode is an image. -/
theorem Mode.isImage_renameNames {mode : Mode κ} (h : KeepsKeys names mode.flowMap) :
    mode.IsImage (Expr.newName names) (mode.renameNames names) where
  name := rfl
  invariant := Expr.rename_eq_mapNames ..
  urgent := rfl
  flows := by
    obtain ⟨_, _, _, flows⟩ := mode
    cases flows with
    | none => exact .none
    | some flows => exact .some h.updatesAreImage

/-- If a renamed mode is an image then `KeepsKeys` holds of its flows. -/
theorem Mode.IsImage.keepsKeys {mode : Mode κ} (h : mode.IsImage f (mode.renameNames names)) :
    KeepsKeys names mode.flowMap := by
  have hflows := h.flows
  obtain ⟨_, _, _, flows⟩ := mode
  cases flows with
  | none => exact List.nodup_nil
  | some flows =>
    cases hflows with
    | some hflows => exact keepsKeys_of_isImage hflows (NameMap.keys_mapValues ..)

/-- If `KeepsKeys` holds of its resets then a renamed transition is an image. -/
theorem Transition.isImage_renameNames {transition : Transition κ}
    (h : KeepsKeys names transition.resets) :
    transition.IsImage (Expr.newName names) (transition.renameNames names) where
  source := rfl
  target := rfl
  label := rfl
  guard := Expr.rename_eq_mapNames ..
  resets := h.updatesAreImage

/-- If a renamed transition is an image then `KeepsKeys` holds of its resets. -/
theorem Transition.IsImage.keepsKeys {transition : Transition κ}
    (h : transition.IsImage f (transition.renameNames names)) :
    KeepsKeys names transition.resets :=
  keepsKeys_of_isImage h.resets (NameMap.keys_mapValues ..)

/-! ## Renamed components -/

/-- The body of a renamed automaton has the renamed modes and transitions. -/
theorem Component.body_renameNames {component : Component κ} {automaton : Automaton κ}
    (hb : component.body = .base automaton) :
    (component.renameNames names).body = .base
      ⟨automaton.modes.mapValues fun mode => mode.renameNames names,
        automaton.transitions.map fun transition => transition.renameNames names⟩ := by
  rw [renameNames, mapAutomaton, hb]

/-- If a component `KeepsEntries` then the renamed automaton is an image. -/
theorem Component.isImage_renameNames {component : Component κ} (hbase : component.isBase = true)
    (h : component.KeepsEntries names) :
    component.IsImage (Expr.newName names) (component.renameNames names) := by
  obtain ⟨automaton, hb⟩ := exists_automaton hbase
  have hparent : (component.renameNames names).parent = component.parent := by
    rw [renameNames, mapAutomaton, hb]
  have hname : (component.renameNames names).instanceName = component.instanceName := by
    rw [renameNames, mapAutomaton, hb]
  have htemplate : (component.renameNames names).template = component.template := by
    rw [renameNames, mapAutomaton, hb]
  refine ⟨hparent, hname, htemplate, rfl, NameMap.entries_rekey h.constants, rfl,
    automaton, _, hb, body_renameNames hb, ?_, ?_⟩
  -- each mode and each transition is renamed in its place
  · rw [NameMap.mapValues, List.forall₂_map_right_iff, List.forall₂_same]
    intro entry he
    exact ⟨rfl, Mode.isImage_renameNames (h.flows automaton hb _ (List.mem_map_of_mem he))⟩
  · rw [List.forall₂_map_right_iff, List.forall₂_same]
    intro transition ht
    exact Transition.isImage_renameNames (h.resets automaton hb transition ht)

/-- Whatever a renamed automaton is the image under, it `KeepsEntries`. -/
theorem Component.IsImage.keepsEntries {component : Component κ}
    (h : component.IsImage f (component.renameNames names)) : component.KeepsEntries names := by
  -- the image has the automaton with renamed modes and transitions, one for each in its place
  obtain ⟨automaton, automaton', hb, hb', hmodes, htransitions⟩ := h.automaton
  obtain rfl := Body.base.inj ((body_renameNames hb).symm.trans hb')
  rw [NameMap.mapValues, List.forall₂_map_right_iff, List.forall₂_same] at hmodes
  rw [List.forall₂_map_right_iff, List.forall₂_same] at htransitions
  constructor
  case constants => exact keepsKeys_of_isImage h.constants rfl
  case flows =>
    intro other ho mode hm
    obtain rfl := Body.base.inj (hb.symm.trans ho)
    obtain ⟨entry, he, rfl⟩ := List.mem_map.1 hm
    exact (hmodes entry he).2.keepsKeys
  case resets =>
    intro other ho transition ht
    obtain rfl := Body.base.inj (hb.symm.trans ho)
    exact (htransitions transition ht).keepsKeys

/-- If the names of a component stay different then it `KeepsEntries`. -/
theorem Component.keepsEntries_of_injective {component : Component κ}
    (h : ∀ left ∈ component.names, ∀ right ∈ component.names,
      Expr.newName names left = Expr.newName names right → left = right) :
    component.KeepsEntries names := by
  -- every key that is renamed is one of the names of the component
  have hkeep {α : Type} {map : NameMap α} (hmap : ∀ name ∈ map.keys, name ∈ component.names) :
      KeepsKeys names map :=
    List.Nodup.map_on (fun left hl right hr => h left (hmap left hl) right (hmap right hr))
      map.nodup_keys
  have hupdates {updates : NameMap (Update κ)} {name : String} (hn : name ∈ updates.keys) :
      name ∈ updateNames updates := by
    obtain ⟨entry, he, rfl⟩ := List.mem_map.1 hn
    exact List.mem_flatMap.2 ⟨entry, he, List.mem_cons_self⟩
  have hautomaton {automaton : Automaton κ} (hb : component.body = .base automaton) {name : String}
      (hn : name ∈ automaton.names) : name ∈ component.names := by
    rw [Component.names, automaton?, hb]
    exact List.mem_append_right _ hn
  constructor
  case constants =>
    refine hkeep fun name hn => List.mem_append_left _ ?_
    exact List.mem_append_left _ (List.mem_append_right _ hn)
  case flows =>
    intro automaton hb mode hm
    refine hkeep fun name hn => hautomaton hb (List.mem_append_left _ ?_)
    exact List.mem_flatMap.2 ⟨mode, hm, List.mem_append_right _ (hupdates hn)⟩
  case resets =>
    intro automaton hb transition ht
    refine hkeep fun name hn => hautomaton hb (List.mem_append_right _ ?_)
    exact List.mem_flatMap.2 ⟨transition, ht, List.mem_append_right _ (hupdates hn)⟩

/-! ## Renamed models -/

/-- `renameNames` of a model renames the root of its tree. -/
theorem Model.rootComponent_renameNames {model : Model κ}
    (hroot : model.tree.root.index < model.tree.size) :
    (model.renameNames names).tree.rootComponent = model.tree.rootComponent.renameNames names :=
  Tree.get_modify_self hroot _

/-- If the root `KeepsEntries` then the renamed model is an image. -/
theorem Model.isImage_renameNames {model : Model κ}
    (hroot : model.tree.root.index < model.tree.size)
    (hflat : model.tree.isFlat = true) (h : model.tree.rootComponent.KeepsEntries names) :
    model.IsImage (Expr.newName names) (model.renameNames names) where
  root := rfl
  size := Tree.size_modify ..
  component := by
    rw [rootComponent_renameNames hroot]
    exact Component.isImage_renameNames hflat h
  -- only the root is changed
  others c hc := Tree.get_modify_of_ne hc _
  initial := by simp only [renameNames, Expr.rename_eq_mapNames]
  forbidden := by simp only [renameNames, Expr.rename_eq_mapNames]
  settings := rfl
  checks := rfl

/-- Whatever a renamed model is the image under, its root `KeepsEntries`. -/
theorem Model.IsImage.keepsEntries {model : Model κ}
    (hroot : model.tree.root.index < model.tree.size)
    (h : model.IsImage f (model.renameNames names)) :
    model.tree.rootComponent.KeepsEntries names := by
  have hcomponent := h.component
  rw [rootComponent_renameNames hroot] at hcomponent
  exact hcomponent.keepsEntries

/-- A renamed model is the image of the model under a map that keeps names apart, just if the new
names do. -/
theorem Model.exists_isImage_iff {model : Model κ}
    (hroot : model.tree.root.index < model.tree.size) (hflat : model.tree.isFlat = true) :
    (∃ f : String → String,
        (∀ left ∈ model.names, ∀ right ∈ model.names, f left = f right → left = right) ∧
          model.IsImage f (model.renameNames names)) ↔
      ∀ left ∈ model.names, ∀ right ∈ model.names,
        Expr.newName names left = Expr.newName names right → left = right := by
  constructor
  · rintro ⟨f, hf, himage⟩ left hl right hr heq
    -- the map can be read off the result, where every name has its new name
    have hsame := himage.eq_of_isImage
      (isImage_renameNames hroot hflat (himage.keepsEntries hroot))
    refine hf left hl right hr ?_
    rw [hsame left hl, hsame right hr, heq]
  · intro h
    refine ⟨Expr.newName names, h, isImage_renameNames hroot hflat ?_⟩
    apply Component.keepsEntries_of_injective
    have hmem {name : String} (hn : name ∈ model.tree.rootComponent.names) : name ∈ model.names :=
      List.mem_append_left _ (List.mem_append_left _ hn)
    exact fun left hl right hr => h left (hmem hl) right (hmem hr)

/-! ## Runs -/

namespace Rename

/-- What is done on a model with a single automaton: the choices are reported and all names are
replaced. -/
theorem runOn_run (pairs : List (String × String)) (w : Workspace κ)
    (hflat : w.model.tree.isFlat = true) :
    ∃ w', (run pairs).runOn w = (.ok (), w') ∧
      w'.model =
        w.model.renameNames (newNames w.model.tree.rootComponent.declaredNames pairs) := by
  -- a flat tree is not refused
  have hbase : w.model.tree.rootComponent.isNetwork = false := by
    rw [Component.isNetwork, ← Tree.isFlat, hflat]
    rfl
  rw [run, Change.runOn_bind_ok (PassM.runOn_model w)]
  simp only [hbase, Bool.false_eq_true, if_false]
  obtain ⟨w', hw', hmodel⟩ := PassM.runOn_forM_report .info
    (fun choice : String × String => s!"Renaming {choice.1} to {choice.2}")
    (choices w.model.tree.rootComponent.declaredNames ∅ pairs) w
  rw [Change.runOn_bind_ok hw', PassM.runOn_modifyModel, hmodel]
  exact ⟨_, rfl, rfl⟩

/-- The change that `mutate` makes on a model with a single automaton is that of `run`. -/
theorem runOn_mutate [Scalar κ] {tokens : List String} {pairs : List (String × String)}
    (hparams : Pass.renameGrammar.read tokens = .ok pairs) (w : Workspace κ)
    (hflat : w.model.tree.isFlat = true) :
    ∃ w', (Pass.mutate .rename tokens).runOn w = (.ok (), w') ∧
      w'.model =
        w.model.renameNames (newNames w.model.tree.rootComponent.declaredNames pairs) := by
  rw [Pass.mutate, Change.runOn_bind_ok (Pass.runOn_readParameters hparams .rename w)]
  exact runOn_run pairs w hflat

/-- What a run does on a model with a single automaton: the check of the renamed model decides. -/
theorem eq_of_runOn [Scalar κ] {params : String} {pairs : List (String × String)}
    (hparams : Pass.renameGrammar.read (Arguments.split params) = .ok pairs) {w w' : Workspace κ}
    {outcome : Except (PassError κ) Unit} (hflat : w.model.tree.isFlat = true)
    (hrun : (Pass.run .rename params).runOn w = (outcome, w')) :
    outcome = Pass.outcomeOf .rename
        (w.model.renameNames (newNames w.model.tree.rootComponent.declaredNames pairs)) ∧
      w'.model =
        w.model.renameNames (newNames w.model.tree.rootComponent.declaredNames pairs) := by
  -- the rename itself never fails, so the outcome is that of the final check
  have hfound := (Pass.Course.of_runOn hrun).eq_of_mutate (Pass.check_rename_of_isFlat hflat)
    fun before hbefore => by
      obtain ⟨w', hw', hm⟩ := runOn_mutate hparams before (by rwa [hbefore])
      rw [hbefore] at hm
      exact ⟨w', hw', hm⟩
  rwa [Except.ok_bind] at hfound

/-- The model that a run leaves behind, on a model with a single automaton. -/
theorem model_runOn [Scalar κ] {params : String} {pairs : List (String × String)}
    (hparams : Pass.renameGrammar.read (Arguments.split params) = .ok pairs) (w : Workspace κ)
    (hflat : w.model.tree.isFlat = true) :
    ((Pass.run .rename params).runOn w).2.model =
      w.model.renameNames (newNames w.model.tree.rootComponent.declaredNames pairs) :=
  (eq_of_runOn hparams hflat rfl).2

/-- A name gets a new name that occurs for something else and is not renamed itself. -/
structure Captures (model : Model κ) (pairs : List (String × String)) (old new : String) :
    Prop where
  old_mem : old ∈ model.names
  new_mem : new ∈ model.names
  renamed : (newNames model.tree.rootComponent.declaredNames pairs).get? old = some new
  kept : new ∉ (newNames model.tree.rootComponent.declaredNames pairs).keys

/-- `newNames` keep names apart just if none of them `Captures` a name. -/
theorem injective_iff {model : Model κ} {pairs : List (String × String)} :
    (∀ left ∈ model.names, ∀ right ∈ model.names,
        Expr.newName (newNames model.tree.rootComponent.declaredNames pairs) left =
          Expr.newName (newNames model.tree.rootComponent.declaredNames pairs) right →
        left = right) ↔
      ∀ old new, ¬ Captures model pairs old new := by
  constructor
  · intro h old new hc
    -- both names become the new one
    have hold : Expr.newName (newNames model.tree.rootComponent.declaredNames pairs) old = new := by
      rw [Expr.newName, hc.renamed, Option.getD_some]
    have hnew : Expr.newName (newNames model.tree.rootComponent.declaredNames pairs) new = new := by
      rw [Expr.newName, NameMap.get?_eq_none_iff.2 hc.kept, Option.getD_none]
    have heq := h old hc.old_mem new hc.new_mem (hold.trans hnew.symm)
    exact hc.kept (heq ▸ NameMap.mem_keys_iff.2 ⟨new, hc.renamed⟩)
  · intro h left hl right hr heq
    -- names that get the same new name are both renamed, or one of them was captured
    rcases newName_cases (newNames model.tree.rootComponent.declaredNames pairs) left with
      hleft | ⟨hleft, hkept⟩ <;>
    rcases newName_cases (newNames model.tree.rootComponent.declaredNames pairs) right with
      hright | ⟨hright, hkept'⟩
    · rw [heq] at hleft
      exact distinct_newNames _ _ _ _ _ hleft hright
    · rw [heq, hkept'] at hleft
      exact absurd ⟨hl, hr, hleft, hright⟩ (h left right)
    · rw [← heq, hkept] at hright
      exact absurd ⟨hr, hl, hright, hleft⟩ (h right left)
    · rw [← hkept, heq, hkept']

end Rename

/-- A run of renaming on a well-formed model with a single automaton leaves the image of the model
under a map that keeps its names apart, just if no new name captures a name that occurs. -/
theorem renaming_merges_no_names_iff [Scalar κ] (w : Workspace κ) (params : String)
    (pairs : List (String × String)) (hchecks : w.model.checks = {})
    (hvalid : w.model.check = .ok ()) (hflat : w.model.tree.isFlat = true)
    (hparams : Pass.renameGrammar.read (Arguments.split params) = .ok pairs) :
    (∃ f : String → String,
        (∀ left ∈ w.model.names, ∀ right ∈ w.model.names, f left = f right → left = right) ∧
          w.model.IsImage f ((Pass.run .rename params).runOn w).2.model) ↔
      ∀ old new, ¬ Rename.Captures w.model pairs old new := by
  obtain ⟨vars, hrules⟩ := (Model.check_eq_ok_iff hchecks).1 hvalid
  -- what the run makes of the model is the model under the chosen names
  rw [Rename.model_runOn hparams w hflat,
    Model.exists_isImage_iff hrules.tree.linked.root_lt hflat, Rename.injective_iff]

/-! ## An automaton with two labels -/

/-- An automaton with the label `a`, and with the label `b` that is not exported. -/
def twoLabels : Model Int where
  tree := .ofRoot {
    vars := ["x"]
    labels := ["a"]
    body := .base {
      modes := .ofList [("run", {
        name := "run"
        invariant := .bool true
        urgent := false
        flows := some (.ofList [("x", { expr := .const 1 })]) })]
      transitions := [
        ⟨"run", "run", some "a", .bool true, ∅⟩,
        ⟨"run", "run", some "b", .bool true, ∅⟩] } }
  initial := .ofList [("run", .bool true)]
  forbidden := ∅
  settings := { Settings.standard with plotX := some "x", plotY := some "x" }
  checks := {}

/-- If the other label is renamed as well then its name can be taken over. -/
theorem renaming_both_labels_merges_no_names :
    ∃ f : String → String,
      (∀ left ∈ twoLabels.names, ∀ right ∈ twoLabels.names, f left = f right → left = right) ∧
        twoLabels.IsImage f
          ((Pass.run .rename "b:c:a:b").runOn { model := twoLabels }).2.model := by
  have hnames : Rename.newNames twoLabels.tree.rootComponent.declaredNames
      [("b", "c"), ("a", "b")] = .ofList [("b", "c"), ("a", "b")] := by
    apply NameMap.ext
    decide +kernel
  refine (renaming_merges_no_names_iff { model := twoLabels } "b:c:a:b" [("b", "c"), ("a", "b")] rfl
    (Except.eq_ok_of_isOk (by decide +kernel)) rfl rfl).2 fun old new hc => ?_
  -- the new names are `c`, which does not occur, and `b`, which is renamed
  obtain ⟨-, hnew, hrenamed, hkept⟩ := hc
  rw [hnames] at hrenamed hkept
  rcases NameMap.get?_insertAll_eq_some hrenamed with h | h
  · cases h
  · rcases List.mem_cons.1 h with h | h
    · cases h
      exact absurd hnew (by decide +kernel)
    · cases List.mem_singleton.1 h
      exact hkept (by decide)

/-- A declared label takes over the name of the other one. -/
theorem renaming_to_undeclared_label_merges_names :
    twoLabels.check = .ok () ∧ twoLabels.tree.isFlat = true ∧
      Pass.renameGrammar.read (Arguments.split "a:b") = .ok [("a", "b")] ∧
      ¬ ∃ f : String → String,
        (∀ left ∈ twoLabels.names, ∀ right ∈ twoLabels.names, f left = f right → left = right) ∧
          twoLabels.IsImage f
            ((Pass.run .rename "a:b").runOn { model := twoLabels }).2.model := by
  -- the label b is used by a transition, but the component does not declare it
  have hread : Pass.renameGrammar.read (Arguments.split "a:b") = .ok [("a", "b")] := rfl
  refine ⟨Except.eq_ok_of_isOk (by decide +kernel), rfl, hread, ?_⟩
  rw [Rename.model_runOn hread { model := twoLabels } rfl,
    Model.exists_isImage_iff (by decide) rfl, Rename.injective_iff]
  intro h
  exact h "a" "b" ⟨by decide +kernel, by decide +kernel, by decide +kernel, by decide +kernel⟩

end HybridAutomata
