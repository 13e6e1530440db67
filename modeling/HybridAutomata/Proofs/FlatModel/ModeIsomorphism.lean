import HybridAutomata.Proofs.FlatModel.ShortModes
import HybridAutomata.Proofs.Scalar.Integer
import Mathlib.Data.List.Find
import Mathlib.Data.Set.Function
/-!
# Short mode names as an isomorphism

Shortening replaces all mode names of an automaton at once. The new names may be old names of other
modes, and still nothing is renamed twice: the automaton is the same up to a bijection of mode
names, and so are the conditions. This holds of every model that refers to modes of its automaton
only, whether or not it passes its check.

* `Isomorphic.get?_modes`, `Isomorphic.findTransition?`   what is found in an isomorphic automaton
* `isomorphic_renameModes`                different new names give an isomorphic automaton
* `short_mode_names_are_an_isomorphism`   a run of the pass
-/

namespace HybridAutomata

variable {κ : Type}

/-! ## Isomorphic automata -/

/-- An automaton and the same one with other mode names: every mode and every transition is in its
place, and the two have their modes in bijection. -/
structure Automaton.Isomorphic (rename : String → String) (old new : Automaton κ) : Prop where
  bijective : Set.BijOn rename {mode | mode ∈ old.modes.keys} {mode | mode ∈ new.modes.keys}
  modes : new.modes.entries = old.modes.entries.map fun entry =>
    (rename entry.1, { entry.2 with name := rename entry.1 })
  transitions : new.transitions = old.transitions.map fun transition =>
    { transition with source := rename transition.source, target := rename transition.target }
  ends : ∀ transition ∈ new.transitions,
    transition.source ∈ new.modes.keys ∧ transition.target ∈ new.modes.keys

namespace Automaton

variable {automaton old new : Automaton κ} {rename : String → String} {mode source target : String}

namespace Isomorphic

/-- `Isomorphic` automata have corresponding modes under corresponding names. -/
theorem get?_modes (h : old.Isomorphic rename new) (hm : mode ∈ old.modes.keys) :
    new.modes.get? (rename mode) =
      (old.modes.get? mode).map fun found => { found with name := rename mode } := by
  obtain ⟨found, hfound⟩ := NameMap.mem_keys_iff.1 hm
  rw [hfound, Option.map_some, NameMap.get?_eq_some_iff, h.modes]
  -- the entry of the mode is mapped to the one under the new name
  exact List.mem_map.2 ⟨(mode, found), NameMap.get?_eq_some_iff.1 hfound, rfl⟩

/-- `Isomorphic` automata have corresponding first transitions between corresponding modes. -/
theorem findTransition? (h : old.Isomorphic rename new)
    (hends : ∀ transition ∈ old.transitions,
      transition.source ∈ old.modes.keys ∧ transition.target ∈ old.modes.keys)
    (hs : source ∈ old.modes.keys) (ht : target ∈ old.modes.keys) :
    new.findTransition? (rename source) (rename target) =
      (old.findTransition? source target).map fun transition =>
        { transition with
          source := rename transition.source
          target := rename transition.target } := by
  rw [Automaton.findTransition?, Automaton.findTransition?, h.transitions, List.find?_map]
  refine congrArg _ (List.find?_congr fun transition hmem => ?_)
  -- different modes have different new names
  have hsource := h.bijective.injOn.eq_iff (hends transition hmem).1 hs
  have htarget := h.bijective.injOn.eq_iff (hends transition hmem).2 ht
  simp only [Function.comp_apply, hsource, htarget]

end Isomorphic

/-- `renameModes` by names that are different for all modes gives an isomorphic automaton. -/
theorem isomorphic_renameModes {names : NameMap String}
    (hnodup : (automaton.modes.keys.map (Expr.newName names)).Nodup)
    (hends : ∀ transition ∈ automaton.transitions,
      transition.source ∈ automaton.modes.keys ∧ transition.target ∈ automaton.modes.keys) :
    automaton.Isomorphic (Expr.newName names) (automaton.renameModes names) where
  bijective := by
    rw [keys_renameModes hnodup]
    -- the modes of the new automaton are the new names of the old ones, by definition
    refine ⟨fun mode hm => List.mem_map_of_mem hm, fun left hl right hr => ?_, fun mode hm => ?_⟩
    · exact List.inj_on_of_nodup_map hnodup hl hr
    · exact List.mem_map.1 hm
  modes := entries_renameModes hnodup
  transitions := rfl
  ends := by
    intro transition ht
    obtain ⟨old, ho, rfl⟩ := List.mem_map.1 ht
    rw [keys_renameModes hnodup]
    exact ⟨List.mem_map_of_mem (hends old ho).1, List.mem_map_of_mem (hends old ho).2⟩

end Automaton

/-! ## Isomorphic models -/

/-- A model and the same one with another automaton as its root, in which the modes have other
names. The conditions are in their places, under the new names of their modes, and nothing else is
different. -/
structure Model.Isomorphic (rename : String → String) (automaton : Automaton κ)
    (old new : Model κ) :
    Prop where
  root : new.tree.rootComponent = { old.tree.rootComponent with body := .base automaton }
  others : ∀ c, c ≠ old.tree.root → new.tree.get c = old.tree.get c
  rootHandle : new.tree.root = old.tree.root
  size : new.tree.size = old.tree.size
  states : ∀ states, (new.states states).entries =
    (old.states states).entries.map fun entry => (rename entry.1, entry.2)
  settings : new.settings = old.settings
  checks : new.checks = old.checks

namespace ShortenModes

/-- `run` on a model whose root is an automaton replaces the names of modes in the automaton and in
the conditions. -/
theorem runOn_run {w : Workspace κ} {automaton : Automaton κ}
    (hbody : w.model.tree.rootComponent.body = .base automaton) :
    ∃ w', run.runOn w = (.ok (), w') ∧
      w'.model =
        { w.model with
          tree := w.model.tree.modify w.model.tree.root fun component =>
            component.mapAutomaton fun automaton' =>
              automaton'.renameModes (shortNames automaton.modes.keys)
          initial := w.model.initial.rekey (Expr.newName (shortNames automaton.modes.keys))
          forbidden :=
            w.model.forbidden.rekey (Expr.newName (shortNames automaton.modes.keys)) } := by
  have hautomaton : w.model.tree.rootComponent.automaton? = some automaton := by
    rw [Component.automaton?, hbody]
  rw [run, Change.runOn_bind_ok (PassM.runOn_model w)]
  simp only [hautomaton]
  -- the reports do not touch the model
  obtain ⟨w', hw', hmodel⟩ := PassM.runOn_forM_report .info
    (fun entry : String × String => s!"Shortened mode name to {entry.2} from {entry.1}")
    (shortNames automaton.modes.keys).entries w
  refine ⟨_, (Change.runOn_bind_ok hw').trans (PassM.runOn_modifyModel _ w'), ?_⟩
  rw [← hmodel]

/-- `shortNames` of modes are different, since their numbers are. -/
theorem nodup_newNames (modes : NameMap (Mode κ)) :
    (modes.keys.map (Expr.newName (shortNames modes.keys))).Nodup := by
  have hkeys : modes.keys.Nodup := modes.nodup_keys
  rw [map_newName_shortNames hkeys]
  exact nodup_numbered _

end ShortenModes

open ShortenModes in
/-- Shortening gives every mode the name with the number of its place and changes nothing else, up
to this bijection of names. -/
theorem short_mode_names_are_an_isomorphism {w : Workspace κ} {automaton : Automaton κ}
    (hbody : w.model.tree.rootComponent.body = .base automaton)
    (hends : ∀ transition ∈ automaton.transitions,
      transition.source ∈ automaton.modes.keys ∧ transition.target ∈ automaton.modes.keys)
    (hstates : ∀ states, ∀ mode ∈ (w.model.states states).keys, mode ∈ automaton.modes.keys) :
    ∃ w' rename shortened,
      run.runOn w = (.ok (), w') ∧
        (∀ place mode, automaton.modes.keys[place]? = some mode → rename mode = shortName place) ∧
          automaton.Isomorphic rename shortened ∧
            w.model.Isomorphic rename shortened w'.model := by
  obtain ⟨w', hrun, hmodel⟩ := runOn_run hbody
  have hnodup := nodup_newNames automaton.modes
  -- conditions are for modes of the automaton, whose new names are different
  have hrekey {conditions : NameMap (Expr κ)}
      (hkeys : ∀ mode ∈ conditions.keys, mode ∈ automaton.modes.keys) :
      (conditions.rekey (Expr.newName (shortNames automaton.modes.keys))).entries =
        conditions.entries.map fun entry =>
          (Expr.newName (shortNames automaton.modes.keys) entry.1, entry.2) :=
    NameMap.entries_rekey (List.Nodup.map_on
      (fun left hl right hr => List.inj_on_of_nodup_map hnodup (hkeys left hl) (hkeys right hr))
      conditions.nodup_keys)
  refine ⟨w', Expr.newName (shortNames automaton.modes.keys),
    automaton.renameModes (shortNames automaton.modes.keys), hrun,
    fun place mode hm => newName_shortNames automaton.modes.nodup_keys hm,
    Automaton.isomorphic_renameModes hnodup hends, ?_⟩
  rw [hmodel]
  constructor
  case root =>
    rw [Tree.rootComponent, Tree.root_modify, Tree.get_modify_self_of_default rfl,
      ← Tree.rootComponent, Component.mapAutomaton, hbody]
  case others => exact fun c hc => Tree.get_modify_of_ne hc _
  case rootHandle => rfl
  case size => exact Tree.size_modify ..
  case states =>
    -- both families are renamed in the same way
    intro states
    cases states with
    | initial => exact hrekey (hstates .initial)
    | forbidden => exact hrekey (hstates .forbidden)
  case settings => rfl
  case checks => rfl

/-- Three modes, of which the first has the short name of the second. -/
def overlappingModes : Model Int where
  tree := .ofRoot {
    vars := ["t"]
    body := .base {
      modes := .ofList (["mode_1", "waiting", "mode_0"].map fun mode => (mode, {
        name := mode
        invariant := .bool true
        urgent := false
        flows := some (.ofList [("t", { expr := .const 1 })]) }))
      transitions := [
        ⟨"mode_1", "mode_0", none, .bool true, ∅⟩,
        ⟨"mode_0", "waiting", none, .bool true, ∅⟩] } }
  initial := .ofList [("waiting", .bool true), ("mode_1", .bool false)]
  forbidden := .ofList [("mode_0", .bool false)]
  settings := .standard
  checks := {}

/-- The first mode takes the name with number 0 and the second one takes the name of the first, and
nothing is lost. -/
theorem short_names_of_overlapping_modes_are_an_isomorphism :
    ∃ w' rename shortened,
      ShortenModes.run.runOn { model := overlappingModes } = (.ok (), w') ∧
        (∀ place mode, ["mode_1", "waiting", "mode_0"][place]? = some mode →
          rename mode = ShortenModes.shortName place) ∧
          (overlappingModes.tree.rootComponent.automaton?.getD .empty).Isomorphic rename shortened ∧
            overlappingModes.Isomorphic rename shortened w'.model := by
  refine short_mode_names_are_an_isomorphism (w := { model := overlappingModes }) rfl ?_ ?_
  · decide
  -- the remaining premise is about the conditions, and they name modes of the automaton
  · intro states
    cases states <;> decide

end HybridAutomata
