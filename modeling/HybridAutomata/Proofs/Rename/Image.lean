import HybridAutomata.Pass.Rename
import HybridAutomata.Proofs.Expr.Variables
import HybridAutomata.Proofs.NameMap.Rekey
import Mathlib.Data.List.Forall2
/-!
# Images under a map of names

The image of a model under a map of names has the same shape, and at every place where the model has
a name the image has the name to which it is mapped. Maps keep all their entries in order, so this
is stated entry by entry.

* `Model.IsImage`                 one model is the image of another
* `Model.IsImage.eq_of_isImage`   the map can be read off the image
-/

namespace HybridAutomata

variable {κ : Type}

/-! ## The names of a model -/

/-- The variables that updates belong to, and the names that they mention. -/
def updateNames (updates : NameMap (Update κ)) : List String :=
  updates.entries.flatMap fun entry => entry.1 :: entry.2.expr.vars

/-- The names in the invariant and in the flows of a mode. -/
def Mode.names (mode : Mode κ) : List String :=
  mode.invariant.vars ++ updateNames mode.flowMap

/-- The label of a transition, and the names in its guard and its resets. -/
def Transition.names (transition : Transition κ) : List String :=
  transition.label.toList ++ transition.guard.vars ++ updateNames transition.resets

/-- The names in all modes and transitions. -/
def Automaton.names (automaton : Automaton κ) : List String :=
  automaton.modes.values.flatMap Mode.names ++ automaton.transitions.flatMap Transition.names

/-- The names that an automaton declares, and those in its modes and transitions. -/
def Component.names (component : Component κ) : List String :=
  component.declaredNames ++
    match component.automaton? with
    | some automaton => automaton.names
    | none => []

/-- The names that occur in a model with a single automaton, declared or not. -/
def Model.names (model : Model κ) : List String :=
  model.tree.rootComponent.names ++
    (model.initial.values ++ model.forbidden.values).flatMap Expr.vars ++
    model.settings.plotVariables

/-! ## Images -/

/-- The same entries in the same order, with changed names and changed values. -/
def NameMap.IsImage {α β : Type} (f : String → String) (g : α → β) (old : NameMap α)
    (new : NameMap β) : Prop :=
  new.entries = old.entries.map fun entry => (f entry.1, g entry.2)

/-- Replaces all names of an update. -/
def Update.mapNames (update : Update κ) (f : String → String) : Update κ :=
  { update with expr := update.expr.mapNames f }

/-- Updates of other variables, which mention other names. -/
abbrev UpdatesAreImage (f : String → String) (old new : NameMap (Update κ)) : Prop :=
  old.IsImage f (fun update => update.mapNames f) new

/-- The same mode about other names. -/
structure Mode.IsImage (f : String → String) (old new : Mode κ) : Prop where
  name : new.name = old.name
  invariant : new.invariant = old.invariant.mapNames f
  urgent : new.urgent = old.urgent
  flows : Option.Rel (UpdatesAreImage f) old.flows new.flows

/-- The same transition about other names, under another label. -/
structure Transition.IsImage (f : String → String) (old new : Transition κ) : Prop where
  source : new.source = old.source
  target : new.target = old.target
  label : new.label = old.label.map f
  guard : new.guard = old.guard.mapNames f
  resets : UpdatesAreImage f old.resets new.resets

/-- Mode by mode and transition by transition the same about other names. -/
structure Automaton.IsImage (f : String → String) (old new : Automaton κ) : Prop where
  modes : List.Forall₂ (fun old new => new.1 = old.1 ∧ Mode.IsImage f old.2 new.2)
    old.modes.entries new.modes.entries
  transitions : List.Forall₂ (Transition.IsImage f) old.transitions new.transitions

/-- The same component with other names, which is an automaton. -/
structure Component.IsImage (f : String → String) (old new : Component κ) : Prop where
  parent : new.parent = old.parent
  instanceName : new.instanceName = old.instanceName
  template : new.template = old.template
  vars : new.vars = old.vars.map f
  constants : old.constants.IsImage f id new.constants
  labels : new.labels = old.labels.map f
  automaton : ∃ automaton automaton', old.body = .base automaton ∧ new.body = .base automaton' ∧
    Automaton.IsImage f automaton automaton'

/-- The same model with other names in its root. Modes keep their names, and the other components of
the arena are the same. -/
structure Model.IsImage (f : String → String) (old new : Model κ) : Prop where
  root : new.tree.root = old.tree.root
  size : new.tree.size = old.tree.size
  component : Component.IsImage f old.tree.rootComponent new.tree.rootComponent
  others : ∀ c, c ≠ old.tree.root → new.tree.get c = old.tree.get c
  initial : new.initial = old.initial.mapValues fun e => e.mapNames f
  forbidden : new.forbidden = old.forbidden.mapValues fun e => e.mapNames f
  settings : new.settings = old.settings.renamePlotVariables f
  checks : new.checks = old.checks

/-! ## Reading the map off an image -/

variable {f g : String → String}

/-- What holds at all places of two correspondences of the same lists holds of all items. -/
theorem forall_mem_of_forall₂ {α β : Type} {R S : α → β → Prop} {p : α → Prop} {left : List α}
    {right : List β} (hr : List.Forall₂ R left right) (hs : List.Forall₂ S left right)
    (h : ∀ a b, R a b → S a b → p a) : ∀ a ∈ left, p a := by
  induction hr with
  | nil => simp
  | cons hab _ ih =>
    cases hs with
    | cons hab' hs => exact List.forall_mem_cons.2 ⟨h _ _ hab hab', ih hs⟩

/-- Two maps under which updates have the same image agree on the `updateNames`. -/
theorem eq_of_updatesAreImage {old new : NameMap (Update κ)} (hf : UpdatesAreImage f old new)
    (hg : UpdatesAreImage g old new) : ∀ name ∈ updateNames old, f name = g name := by
  intro name hname
  obtain ⟨entry, he, hn⟩ := List.mem_flatMap.1 hname
  obtain ⟨hkey, hvalue⟩ := Prod.mk.inj (List.map_inj_left.1 (hf.symm.trans hg) entry he)
  rcases List.mem_cons.1 hn with rfl | hn
  · exact hkey
  · exact Expr.mapNames_eq_mapNames_iff.1 (congrArg Update.expr hvalue) name hn

/-- Two maps under which a mode has the same image agree on the names of the mode. -/
theorem Mode.IsImage.eq_of_isImage {old new : Mode κ} (hf : old.IsImage f new)
    (hg : old.IsImage g new) : ∀ name ∈ old.names, f name = g name := by
  intro name hname
  rcases List.mem_append.1 hname with hn | hn
  · exact Expr.mapNames_eq_mapNames_iff.1 (hf.invariant.symm.trans hg.invariant) name hn
  · rw [Mode.flowMap] at hn
    obtain ⟨_, _, _, flows⟩ := old
    obtain ⟨_, _, _, flows'⟩ := new
    -- without flows there are no names
    cases hf.flows with
    | none => cases hn
    | some hflows =>
      cases hg.flows with
      | some hflows' => exact eq_of_updatesAreImage hflows hflows' name hn

/-- Two maps under which a transition has the same image agree on the names of the transition. -/
theorem Transition.IsImage.eq_of_isImage {old new : Transition κ} (hf : old.IsImage f new)
    (hg : old.IsImage g new) : ∀ name ∈ old.names, f name = g name := by
  intro name hname
  rcases List.mem_append.1 hname with hname | hn
  · rcases List.mem_append.1 hname with hn | hn
    · have hlabel := hf.label.symm.trans hg.label
      rw [Option.mem_toList.1 hn] at hlabel
      exact Option.some.inj hlabel
    · exact Expr.mapNames_eq_mapNames_iff.1 (hf.guard.symm.trans hg.guard) name hn
  · exact eq_of_updatesAreImage hf.resets hg.resets name hn

/-- Two maps under which an automaton has the same image agree on the names of the automaton. -/
theorem Automaton.IsImage.eq_of_isImage {old new : Automaton κ} (hf : old.IsImage f new)
    (hg : old.IsImage g new) : ∀ name ∈ old.names, f name = g name := by
  intro name hname
  -- a name of the automaton is in a mode or in a transition
  rcases List.mem_append.1 hname with hn | hn
  · obtain ⟨mode, hm, hn⟩ := List.mem_flatMap.1 hn
    obtain ⟨entry, he, rfl⟩ := List.mem_map.1 hm
    exact forall_mem_of_forall₂ hf.modes hg.modes
      (fun _ _ h h' => Mode.IsImage.eq_of_isImage h.2 h'.2) entry he name hn
  · obtain ⟨transition, ht, hn⟩ := List.mem_flatMap.1 hn
    exact forall_mem_of_forall₂ hf.transitions hg.transitions
      (fun _ _ => Transition.IsImage.eq_of_isImage) transition ht name hn

/-- Two maps under which a component has the same image agree on the names of the component. -/
theorem Component.IsImage.eq_of_isImage {old new : Component κ} (hf : old.IsImage f new)
    (hg : old.IsImage g new) : ∀ name ∈ old.names, f name = g name := by
  intro name hname
  rcases List.mem_append.1 hname with hname | hn
  · rcases List.mem_append.1 hname with hname | hn
    · rcases List.mem_append.1 hname with hn | hn
      · exact List.map_inj_left.1 (hf.vars.symm.trans hg.vars) name hn
      · obtain ⟨entry, he, rfl⟩ := List.mem_map.1 hn
        exact (Prod.mk.inj
          (List.map_inj_left.1 (hf.constants.symm.trans hg.constants) entry he)).1
    · exact List.map_inj_left.1 (hf.labels.symm.trans hg.labels) name hn
  -- both images have the same automaton before and after
  · obtain ⟨automaton, automaton', hb, hb', ha⟩ := hf.automaton
    obtain ⟨other, other', ho, ho', ha'⟩ := hg.automaton
    obtain rfl := Body.base.inj (hb.symm.trans ho)
    obtain rfl := Body.base.inj (hb'.symm.trans ho')
    rw [Component.automaton?, hb] at hn
    exact ha.eq_of_isImage ha' name hn

/-- Two maps under which a model has the same image agree on the names of the model, so the map can
be read off. -/
theorem Model.IsImage.eq_of_isImage {old new : Model κ} (hf : old.IsImage f new)
    (hg : old.IsImage g new) : ∀ name ∈ old.names, f name = g name := by
  have hconditions {conditions conditions' : NameMap (Expr κ)}
      (h : conditions' = conditions.mapValues fun e => e.mapNames f)
      (h' : conditions' = conditions.mapValues fun e => e.mapNames g) {e : Expr κ}
      (he : e ∈ conditions.values) : ∀ name ∈ e.vars, f name = g name := by
    obtain ⟨entry, hm, rfl⟩ := List.mem_map.1 he
    have hentries := congrArg NameMap.entries (h.symm.trans h')
    exact Expr.mapNames_eq_mapNames_iff.1
      (Prod.mk.inj (List.map_inj_left.1 hentries entry hm)).2
  have hplot {name : String} {axis : Option String} (h : axis.map f = axis.map g)
      (hn : name ∈ axis.toList) : f name = g name := by
    rw [Option.mem_toList.1 hn] at h
    exact Option.some.inj h
  intro name hname
  -- a name stands in the root, in a condition, or on an axis of the plot
  rcases List.mem_append.1 hname with hname | hn
  · rcases List.mem_append.1 hname with hn | hn
    · exact hf.component.eq_of_isImage hg.component name hn
    · obtain ⟨e, he, hn⟩ := List.mem_flatMap.1 hn
      rcases List.mem_append.1 he with he | he
      · exact hconditions hf.initial hg.initial he name hn
      · exact hconditions hf.forbidden hg.forbidden he name hn
  · have hsettings := hf.settings.symm.trans hg.settings
    rcases List.mem_append.1 hn with hn | hn
    · exact hplot (congrArg Settings.plotX hsettings) hn
    · exact hplot (congrArg Settings.plotY hsettings) hn

end HybridAutomata
