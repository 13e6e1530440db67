import HybridAutomata.Proofs.Component.Rules
import HybridAutomata.Proofs.Rename.Reversal
import HybridAutomata.Proofs.Tree.Flat
import HybridAutomata.Proofs.Tree.QualifiedNames
/-!
# Renamed models are valid

New names may do harm to names that are not declared, but a check asks for declared names only.
These are kept apart and stay identifiers. So no constant and no flow is lost, every rule holds of
the renamed automaton, and a model that passes its check passes it again under the new names.

* `Rename.suits_newNames`                 what the chosen names are good for
* `Component.WellNamed.renameNames`, `Component.WellBehaved.renameNames`   the rules of a component
* `Model.check_renameNames`               a renamed model passes its check
* `renaming_keeps_models_valid`           how names are chosen, and what a run leaves behind
-/

namespace HybridAutomata

variable {κ : Type} {names : NameMap String}

/-- Renames the names that an automaton mentions. -/
def Automaton.renameNames (automaton : Automaton κ) (names : NameMap String) : Automaton κ :=
  ⟨automaton.modes.mapValues fun mode => mode.renameNames names,
    automaton.transitions.map fun transition => transition.renameNames names⟩

/-! ## Suitable names -/

/-- New names that keep the declared names of a component apart and that can be declared themselves.
-/
structure Rename.Suits (names : NameMap String) (component : Component κ) : Prop where
  apart : ∀ left ∈ component.declaredNames, ∀ right ∈ component.declaredNames,
    Expr.newName names left = Expr.newName names right → left = right
  identifiers : ∀ name, Text.isIdentifier name = true →
    Text.isIdentifier (Expr.newName names name) = true
  nonempty : ∀ name, name ≠ "" → Expr.newName names name ≠ ""

/-- The `newNames` that are chosen for identifiers `Suits` the component. -/
theorem Rename.suits_newNames {pairs : List (String × String)}
    (h : ∀ pair ∈ pairs, Text.isIdentifier pair.2 = true) (component : Component κ) :
    Suits (newNames component.declaredNames pairs) component where
  apart _ hl _ hr heq := newName_inj_of_mem hl hr heq
  identifiers name hname := by
    -- a declared name gets a chosen one, or keeps its own
    rcases newName_cases (newNames component.declaredNames pairs) name with hget | ⟨-, hkept⟩
    · exact isIdentifier_of_get?_newNames h hget
    · rwa [hkept]
  nonempty name hname := by
    rcases newName_cases (newNames component.declaredNames pairs) name with hget | ⟨-, hkept⟩
    · exact Text.ne_empty_of_isIdentifier (isIdentifier_of_get?_newNames h hget)
    · rwa [hkept]

namespace Rename.Suits

variable {component : Component κ} {automaton : Automaton κ}

/-- If names `Suits` a component then `KeepsKeys` holds of a map whose keys are declared. -/
theorem keepsKeys {α : Type} {map : NameMap α} (h : Suits names component)
    (hmap : ∀ name ∈ map.keys, name ∈ component.declaredNames) : KeepsKeys names map :=
  List.Nodup.map_on (fun left hl right hr => h.apart left (hmap left hl) right (hmap right hr))
    map.nodup_keys

theorem keepsKeys_constants (h : Suits names component) : KeepsKeys names component.constants :=
  h.keepsKeys fun _ hn => List.mem_append_left _ (List.mem_append_right _ hn)

/-- If names `Suits` a component then `KeepsKeys` holds of its flows, which are for declared
variables. -/
theorem keepsKeys_flowMap (h : Suits names component) (hautomaton : component.AutomatonOk automaton)
    {mode : Mode κ} (hm : mode ∈ automaton.modes.values) : KeepsKeys names mode.flowMap :=
  h.keepsKeys fun name hn =>
    List.mem_append_left _ (List.mem_append_left _ ((hautomaton.mode mode hm).flowVars name hn))

end Rename.Suits

/-! ## Components -/

section

variable {component : Component κ} {automaton : Automaton κ}

/-- If `KeepsKeys` holds of the constants then `declaredNames` stay in their places. -/
theorem Component.declaredNames_renameNames (h : KeepsKeys names component.constants) :
    (component.renameNames names).declaredNames =
      component.declaredNames.map (Expr.newName names) := by
  have hkeys : (component.constants.rekey (Expr.newName names)).keys =
      component.constants.keys.map (Expr.newName names) := by
    rw [NameMap.keys, NameMap.entries_rekey h, NameMap.keys, List.map_map, List.map_map]
    rfl
  rw [declaredNames, declaredNames, List.map_append, List.map_append, ← hkeys]
  rfl

/-- A component that is `WellNamed` is so under names that suit it. -/
theorem Component.WellNamed.renameNames (h : component.WellNamed)
    (hnames : Rename.Suits names component) : (component.renameNames names).WellNamed where
  distinct := by
    rw [declaredNames_renameNames hnames.keepsKeys_constants]
    exact List.Nodup.map_on hnames.apart h.distinct
  identifiers := by
    rw [declaredNames_renameNames hnames.keepsKeys_constants, List.forall_mem_map]
    exact fun name hn => hnames.identifiers name (h.identifiers name hn)

/-- A renamed mode has flows for the new names of its variables. -/
theorem Mode.mem_keys_flowMap_renameNames {mode : Mode κ} {name : String} :
    name ∈ (mode.renameNames names).flowMap.keys ↔
      ∃ old ∈ mode.flowMap.keys, Expr.newName names old = name := by
  rcases mode with ⟨_, _, _, _ | flows⟩
  · simp [renameNames, mapExprs, flowMap, NameMap.keys]
  · show name ∈ (NameMap.rekey _ _).keys ↔ _
    rw [NameMap.mem_keys_rekey, NameMap.keys_mapValues]
    rfl

/-- What a renamed mode has as a flow in its `flowMap` is a renamed flow. -/
theorem Mode.exists_of_mem_flowMap_renameNames {mode : Mode κ} {flow : Update κ}
    (h : flow ∈ (mode.renameNames names).flowMap.values) :
    ∃ old ∈ mode.flowMap.values, flow.expr = old.expr.rename names := by
  rcases mode with ⟨_, _, _, _ | flows⟩
  · cases h
  · have hvalue := NameMap.mem_values_of_mem_rekey h
    rw [NameMap.values_mapValues] at hvalue
    obtain ⟨old, ho, rfl⟩ := List.mem_map.1 hvalue
    exact ⟨old, ho, rfl⟩

/-- The new name of a declared variable or constant is declared. -/
theorem Component.newName_mem_renameNames {name : String}
    (h : name ∈ component.vars ∨ name ∈ component.constants.keys) :
    Expr.newName names name ∈ (component.renameNames names).vars ∨
      Expr.newName names name ∈ (component.renameNames names).constants.keys := by
  rcases h with hvar | hconstant
  · exact .inl (List.mem_map_of_mem hvar)
  · exact .inr (NameMap.mem_keys_rekey.2 ⟨name, hconstant, rfl⟩)

/-- An automaton that is `WellBehaved` is so under names that suit its component. -/
theorem Component.WellBehaved.renameNames (h : component.WellBehaved automaton)
    (hnames : Rename.Suits names component) :
    (component.renameNames names).WellBehaved (automaton.renameNames names) := by
  have hmode {mode : Mode κ} (hm : mode ∈ (automaton.renameNames names).modes.values) :
      ∃ old ∈ automaton.modes.values, old.renameNames names = mode := by
    rw [Automaton.renameNames, NameMap.values_mapValues] at hm
    exact List.mem_map.1 hm
  have hkeys : (automaton.renameNames names).modes.keys = automaton.modes.keys :=
    NameMap.keys_mapValues ..
  constructor
  case nonempty => simpa [Automaton.renameNames, NameMap.mapValues] using h.nonempty
  case filed =>
    intro entry he
    obtain ⟨old, ho, rfl⟩ := List.mem_map.1 he
    exact h.filed old ho
  case invariant =>
    intro mode hm hfalse
    obtain ⟨old, ho, rfl⟩ := hmode hm
    exact h.invariant old ho (Expr.rename_eq_bool_iff.1 hfalse)
  case flows =>
    intro mode hm
    obtain ⟨old, ho, rfl⟩ := hmode hm
    simpa [Mode.renameNames, Mode.mapExprs] using h.flows old ho
  -- what drives all modes are the new names of what drove them before
  case driven =>
    obtain ⟨driven, hdriven, hdrive⟩ := h.driven
    refine ⟨driven.map (Expr.newName names), ?_, fun mode hm hurgent name => ?_⟩
    · rw [List.forall_mem_map]
      exact fun name hn => List.mem_map_of_mem (hdriven name hn)
    · obtain ⟨old, ho, rfl⟩ := hmode hm
      rw [Mode.mem_keys_flowMap_renameNames, List.mem_map]
      simp only [hdrive old ho hurgent]
  case symbols =>
    intro mode hm hurgent flow hf symbol hs
    obtain ⟨old, ho, rfl⟩ := hmode hm
    obtain ⟨oldFlow, hof, hexpr⟩ := Mode.exists_of_mem_flowMap_renameNames hf
    rw [hexpr, Expr.mem_vars_rename_iff] at hs
    obtain ⟨oldSymbol, hos, rfl⟩ := hs
    exact newName_mem_renameNames (h.symbols old ho hurgent oldFlow hof oldSymbol hos)
  case ends =>
    intro transition ht
    obtain ⟨old, ho, rfl⟩ := List.mem_map.1 ht
    rw [hkeys]
    exact h.ends old ho
  case labels =>
    intro transition ht
    obtain ⟨old, ho, rfl⟩ := List.mem_map.1 ht
    intro hempty
    obtain ⟨label, hl, hnew⟩ := Option.map_eq_some_iff.1 hempty
    refine hnames.nonempty label ?_ hnew
    rintro rfl
    exact h.labels old ho hl
  case used =>
    intro label hl
    obtain ⟨old, ho, rfl⟩ := List.mem_map.1 hl
    obtain ⟨transition, ht, hlabel⟩ := h.used old ho
    refine ⟨transition.renameNames names, List.mem_map_of_mem ht, ?_⟩
    show transition.label.map _ = _
    rw [hlabel, Option.map_some]

/-- If `KeepsKeys` holds of the constants then they keep their values. -/
theorem Component.isSome_of_mem_constants_renameNames (h : KeepsKeys names component.constants)
    (hvalues : ∀ entry ∈ component.constants.entries, entry.2.isSome = true) :
    ∀ entry ∈ (component.renameNames names).constants.entries, entry.2.isSome = true := by
  show ∀ entry ∈ (component.constants.rekey _).entries, _
  rw [NameMap.entries_rekey h, List.forall_mem_map]
  exact hvalues

end

/-! ## Models -/

/-- A renamed automaton at the root is an automaton at the root, so the tree is still `Flat`. -/
theorem Tree.Flat.renameNames {model : Model κ} (h : model.tree.Flat) (names : NameMap String) :
    (model.renameNames names).tree.Flat := by
  -- renaming changes the declarations and the automaton, not the links
  have hroot := Rename.rootComponent_renameNames_model model names
  obtain ⟨automaton, hb⟩ := Component.exists_automaton h.isBase
  constructor
  case root_lt =>
    show _ < (Tree.modify ..).size
    rw [Tree.size_modify]
    exact h.root_lt
  case rootName =>
    rw [hroot, Component.renameNames, Component.mapAutomaton, hb]
    exact h.rootName
  case rootParent =>
    rw [hroot, Component.renameNames, Component.mapAutomaton, hb]
    exact h.rootParent
  case isBase =>
    rw [hroot, Rename.isBase_renameNames]
    exact h.isBase

namespace Model

variable {model : Model κ}

/-- The root of a renamed model holds the renamed automaton. -/
theorem body_rootComponent_renameNames {automaton : Automaton κ}
    (hb : model.tree.rootComponent.body = .base automaton) :
    (model.renameNames names).tree.rootComponent.body = .base (automaton.renameNames names) := by
  rw [Rename.rootComponent_renameNames_model]
  exact Component.body_renameNames hb

/-- The tree of a model that is `Flat` and `WellFormed` is so under suitable names. -/
theorem wellFormed_renameNames (h : model.tree.WellFormed) (hflat : model.tree.Flat)
    (hnames : Rename.Suits names model.tree.rootComponent) :
    (model.renameNames names).tree.WellFormed := by
  -- the rules of a tree with an automaton at the root are those of the root alone
  obtain ⟨automaton, hb⟩ := Component.exists_automaton hflat.isBase
  obtain ⟨hdistinct, hidentifiers, hvalues, hautomaton⟩ :=
    (hflat.nodeOk_iff hb).1 (hflat.wellFormed_iff.1 h)
  have hwellNamed := (Component.wellNamed_iff.2 ⟨hdistinct, hidentifiers⟩).renameNames hnames
  have hwellBehaved := (Component.automatonOk_iff.1 hautomaton).renameNames hnames
  obtain ⟨hdistinct', hidentifiers'⟩ := Component.wellNamed_iff.1 hwellNamed
  have hflat' := hflat.renameNames names
  refine hflat'.wellFormed_iff.2 ((hflat'.nodeOk_iff (body_rootComponent_renameNames hb)).2 ?_)
  rw [Rename.rootComponent_renameNames_model]
  exact ⟨hdistinct', hidentifiers',
    Component.isSome_of_mem_constants_renameNames hnames.keepsKeys_constants hvalues,
    Component.automatonOk_iff.2 hwellBehaved⟩

/-- The conditions of a renamed model are the renamed conditions. -/
theorem states_renameNames (model : Model κ) (names : NameMap String) (states : StateSet) :
    (model.renameNames names).states states =
      (model.states states).mapValues fun e => e.rename names := by
  cases states <;> rfl

/-- `Settings.check` accepts the new names of plot variables beside the new names of variables. -/
theorem settings_renameNames {settings : Settings κ} {vars : List String}
    (h : settings.check vars = .ok ()) :
    (settings.renamePlotVariables (Expr.newName names)).check (vars.map (Expr.newName names)) =
      .ok () := by
  rw [Settings.check_eq_ok_iff] at h ⊢
  obtain ⟨hknown, hset⟩ := h
  -- the plotted variables are renamed like the others
  have hplot : (settings.renamePlotVariables (Expr.newName names)).plotVariables =
      settings.plotVariables.map (Expr.newName names) := by
    simp [Settings.plotVariables, Settings.renamePlotVariables, Option.toList_map]
  rw [hplot, List.forall_mem_map]
  refine ⟨fun name hn => List.mem_map_of_mem (hknown name hn), ?_⟩
  simpa [Settings.renamePlotVariables] using hset

/-- `allVariables` of a well-formed tree with an automaton as its root lists those of the root. -/
theorem allVariables_eq_of_flat (h : model.tree.WellFormed) (hflat : model.tree.Flat) :
    model.allVariables = .ok model.tree.rootComponent.vars := by
  have hdistinct := (h.wellNamed model.tree.reachable_root).distinct
  rw [Component.declaredNames, List.append_assoc] at hdistinct
  have hnodup : model.tree.rootComponent.vars.Nodup := (List.nodup_append.1 hdistinct).1
  rw [allVariables, hflat.allVariables_eq, firstOccurrences_eq_self hnodup]

/-- A model with an automaton as its root passes `check` under names that suit it. -/
theorem check_renameNames [Scalar κ] (hchecks : model.checks = {}) (hcheck : model.check = .ok ())
    (hisFlat : model.tree.isFlat = true)
    (hnames : Rename.Suits names model.tree.rootComponent) :
    (model.renameNames names).check = .ok () := by
  -- the model and the renamed one are both flat, so the rules are those of their roots
  obtain ⟨vars, hrules⟩ := (check_eq_ok_iff hchecks).1 hcheck
  obtain ⟨automaton, hb⟩ := Component.exists_automaton hisFlat
  have hflat : model.tree.Flat :=
    ⟨hrules.tree.linked.root_lt, hrules.tree.rootName, hrules.tree.rootParent, hisFlat⟩
  have hflat' := hflat.renameNames names
  have htree' := wellFormed_renameNames hrules.tree hflat hnames
  have hroot := Rename.rootComponent_renameNames_model model names
  obtain rfl : vars = model.tree.rootComponent.vars :=
    Except.ok.inj (hrules.listed.symm.trans (allVariables_eq_of_flat hrules.tree hflat))
  have hlisted := allVariables_eq_of_flat htree' hflat'
  rw [hroot] at hlisted
  have hchecks' : (model.renameNames names).checks = {} := hchecks
  refine (check_eq_ok_iff hchecks').2 ⟨(model.tree.rootComponent.renameNames names).vars, ?_⟩
  constructor
  case tree => exact htree'
  case listed => exact hlisted
  case nonempty =>
    have hnonempty := hrules.nonempty
    rw [NameMap.isEmpty] at hnonempty ⊢
    show (List.map _ _).isEmpty = false
    rwa [List.isEmpty_map]
  -- modes keep their names
  case modes =>
    intro states entry he
    rw [states_renameNames] at he
    obtain ⟨old, ho, rfl⟩ := List.mem_map.1 he
    rw [Tree.Flat.modeExists_congr hb (body_rootComponent_renameNames hb) (Tree.size_modify ..)
      (NameMap.keys_mapValues ..)]
    exact hrules.modes states old ho
  -- a name in a condition is a variable or a constant, and its new name is declared
  case names =>
    intro states entry he name hn
    rw [states_renameNames] at he
    obtain ⟨old, ho, rfl⟩ := List.mem_map.1 he
    obtain ⟨oldName, hon, rfl⟩ := Expr.mem_vars_rename_iff.1 hn
    have hknown := hrules.names states old ho oldName hon
    rw [allConstants, hflat.allConstants_eq] at hknown
    rw [allConstants, hflat'.allConstants_eq, hroot]
    exact Component.newName_mem_renameNames hknown
  case settings => exact settings_renameNames hrules.settings
  -- a flat model is no network
  case dots =>
    intro hnetwork
    rw [Component.isNetwork, hflat'.isBase] at hnetwork
    cases hnetwork

end Model

/-! ## Runs -/

/-- Two automata that declare the same things in the same order, the second one under new names, and
whose modes have the same flows under these names. -/
structure Component.SameUnderNames (names : NameMap String) (old new : Component κ) : Prop where
  vars : new.vars = old.vars.map (Expr.newName names)
  constants : new.constants.entries =
    old.constants.entries.map fun entry => (Expr.newName names entry.1, entry.2)
  labels : new.labels = old.labels.map (Expr.newName names)
  modes : ∃ automaton automaton', old.body = .base automaton ∧ new.body = .base automaton' ∧
    List.Forall₂ (fun old new => new.1 = old.1 ∧ Mode.IsImage (Expr.newName names) old.2 new.2)
      automaton.modes.entries automaton'.modes.entries

/-- Suitable names lose no constant and no flow, so the component is the `SameUnderNames`. -/
theorem Component.sameUnderNames_renameNames {component : Component κ} {automaton : Automaton κ}
    (hb : component.body = .base automaton) (h : component.AutomatonOk automaton)
    (hnames : Rename.Suits names component) :
    component.SameUnderNames names (component.renameNames names) where
  vars := rfl
  constants := NameMap.entries_rekey hnames.keepsKeys_constants
  labels := rfl
  modes := by
    refine ⟨automaton, automaton.renameNames names, hb, body_renameNames hb, ?_⟩
    show List.Forall₂ _ _ (List.map _ _)
    rw [List.forall₂_map_right_iff, List.forall₂_same]
    -- mode by mode, since the order is kept
    intro entry he
    exact ⟨rfl, Mode.isImage_renameNames (hnames.keepsKeys_flowMap h (List.mem_map_of_mem he))⟩

/-- On a valid automaton, and with identifiers as the desired names: each new name is the first one
that is free beside the declared names and those that stand when it is chosen. It is not declared,
and different names get different new names. The run succeeds, every declaration and every flow
stays where it was, and the model is valid again. -/
theorem renaming_keeps_models_valid [Scalar κ] {w : Workspace κ} {pairs : List (String × String)}
    (hchecks : w.model.checks = {}) (hcheck : w.model.check = .ok ())
    (hflat : w.model.tree.isFlat = true)
    (hnew : ∀ pair ∈ pairs, Text.isIdentifier pair.2 = true) :
    let declared := w.model.tree.rootComponent.declaredNames
    let names := Rename.newNames declared pairs
    (∀ place old desired, pairs[place]? = some (old, desired) →
        ∃ new, (Rename.choices declared ∅ pairs)[place]? = some (old, new) ∧
          Text.IsFirstFree desired
            (declared ++ (Rename.newNames declared (pairs.take place)).values) new) ∧
      (∀ choice ∈ Rename.choices declared ∅ pairs, choice.2 ∉ declared) ∧
      Rename.Distinct names ∧
      ∃ w', (Rename.run pairs).runOn w = (.ok (), w') ∧ w'.model = w.model.renameNames names ∧
        w.model.tree.rootComponent.SameUnderNames names w'.model.tree.rootComponent ∧
        w'.model.check = .ok () := by
  intro declared names
  -- the chosen names suit the root, and this is all that the rules ask for
  have hnames := Rename.suits_newNames hnew w.model.tree.rootComponent
  obtain ⟨vars, hrules⟩ := (Model.check_eq_ok_iff hchecks).1 hcheck
  obtain ⟨automaton, hb⟩ := Component.exists_automaton hflat
  have hautomaton :=
    (hrules.tree.nodeOk (Tree.follow_nil w.model.tree w.model.tree.root)).automaton automaton hb
  obtain ⟨w', hrun, hmodel⟩ := Rename.runOn_run pairs w hflat
  refine ⟨fun _ _ _ h => Rename.exists_choice h,
    fun _ hc => Rename.not_mem_declared_of_mem_choices hc, Rename.distinct_newNames declared pairs,
    w', hrun, hmodel, ?_, ?_⟩
  · rw [hmodel, Rename.rootComponent_renameNames_model]
    exact Component.sameUnderNames_renameNames hb hautomaton hnames
  · rw [hmodel]
    exact Model.check_renameNames hchecks hcheck hflat hnames

/-- A mass on a spring, which bounces. -/
def oscillator : Model Int where
  tree := .ofRoot {
    vars := ["x", "v"]
    constants := .ofList [("k", some (.point 2))]
    labels := ["bounce"]
    body := .base {
      modes := .ofList [("on", {
        name := "on"
        invariant := .bool true
        urgent := false
        flows := some (.ofList [
          ("x", { expr := .var "v" }),
          ("v", { expr := .binary .multiply (.var "k") (.var "x") })]) })]
      transitions := [
        ⟨"on", "on", some "bounce", .bool true, .ofList [("v", { expr := .var "x" })]⟩] } }
  initial := .ofList [("on", .binary .equal (.var "v") (.var "k"))]
  forbidden := ∅
  settings := { Settings.standard with plotX := some "x", plotY := some "v" }
  checks := {}

/-- The position and the speed swap their names as far as these are free. Of the two names for the
constant the last one counts, and the speed cannot have it. -/
theorem oscillator_is_valid_under_new_names :
    ∃ w' : Workspace Int,
      (Rename.run [("k", "a"), ("x", "v"), ("v", "x"), ("k", "v2")]).runOn { model := oscillator } =
        (.ok (), w') ∧
      w'.model.tree.rootComponent.declaredNames = ["v2", "x2", "v22", "bounce"] ∧
      w'.model.check = .ok () := by
  -- the new names are spelled as names
  have hnew : ∀ pair ∈ [("k", "a"), ("x", "v"), ("v", "x"), ("k", "v2")],
      Text.isIdentifier pair.2 = true := by
    decide +kernel
  obtain ⟨-, -, -, w', hrun, hmodel, -, hvalid⟩ := renaming_keeps_models_valid
    (w := { model := oscillator }) rfl (Except.eq_ok_of_isOk (by decide +kernel)) rfl hnew
  refine ⟨w', hrun, ?_, hvalid⟩
  rw [hmodel]
  decide +kernel

end HybridAutomata
