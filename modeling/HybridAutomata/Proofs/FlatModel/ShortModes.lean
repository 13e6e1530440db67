import HybridAutomata.Pass.ShortenModes
import HybridAutomata.Proofs.Component.Rules
import HybridAutomata.Proofs.FlatModel.Parts
import HybridAutomata.Proofs.Pass.Outcome
import Mathlib.Data.List.Nodup
/-!
# Short mode names of a single automaton

The modes of an automaton are numbered, whatever they were called before. Their short names are
different identifiers, so no mode is lost, and modes that are numbered already keep their names.

* `map_newName_shortNames`       the modes under their short names
* `renameModes_eq_self`          modes that keep their names
* `shortenModes_shortenModes`    shortening twice is shortening once
* `Acceptable.shortenModes`      acceptable parts stay acceptable
* `runOn_shortenModes`           a run of the pass shortens the mode names of the parts
-/

namespace HybridAutomata

variable {κ : Type}

/-! ## Short names -/

namespace ShortenModes

/-- `shortName` tells numbers apart. -/
theorem shortName_inj {m n : Nat} (h : shortName m = shortName n) : m = n := by
  have hlist := congrArg String.toList h
  simp only [shortName, String.toList_append, String.toList_ofList,
    List.append_cancel_left_eq] at hlist
  exact Text.toDigits_inj hlist

theorem isIdentifier_shortName (place : Nat) : Text.isIdentifier (shortName place) = true :=
  Text.isIdentifier_append_digits (by decide) place

/-- The names of numbered modes. -/
def numbered (count : Nat) : List String :=
  (List.range count).map shortName

theorem nodup_numbered (count : Nat) : (numbered count).Nodup :=
  List.pairwise_map.2 (List.nodup_range.imp fun hne he => hne (shortName_inj he))

variable {modes : List String}

/-- `newName` by `shortNames` is the short name with the number of the place. -/
theorem newName_shortNames (h : modes.Nodup) {mode : String} {place : Nat}
    (hm : modes[place]? = some mode) : Expr.newName (shortNames modes) mode = shortName place := by
  have hkeys : (modes.zipIdx.map fun x => (x.1, shortName x.2)).map Prod.fst = modes := by
    rw [List.map_map]
    exact List.zipIdx_map_fst 0 modes
  -- places are different, so no entry is replaced by a later one
  have hmem : (mode, shortName place) ∈ (shortNames modes).entries := by
    unfold shortNames
    rw [NameMap.entries_ofList (by rwa [hkeys])]
    exact List.mem_map.2 ⟨(mode, place), List.mem_zipIdx_iff_getElem?.2 hm, rfl⟩
  rw [Expr.newName, NameMap.get?_eq_some_iff.2 hmem, Option.getD_some]

/-- `shortNames` number modes in their order. -/
theorem map_newName_shortNames (h : modes.Nodup) :
    modes.map (Expr.newName (shortNames modes)) = numbered modes.length := by
  -- compared place by place, inside and outside of the list
  apply List.ext_getElem?
  intro place
  unfold numbered
  rw [List.getElem?_map, List.getElem?_map]
  by_cases hlt : place < modes.length
  · have hm : modes[place]? = some modes[place] := List.getElem?_eq_getElem hlt
    rw [hm, List.getElem?_range hlt, Option.map_some, Option.map_some, newName_shortNames h hm]
  · rw [List.getElem?_eq_none (by omega), List.getElem?_eq_none (by rw [List.length_range]; omega)]
    rfl

/-- `shortNames` of `numbered` modes are the names that they have. -/
theorem newName_numbered {count : Nat} {mode : String} (h : mode ∈ numbered count) :
    Expr.newName (shortNames (numbered count)) mode = mode := by
  have hmap := map_newName_shortNames (nodup_numbered count)
  have hlength : (numbered count).length = count := by simp [numbered]
  rw [hlength] at hmap
  exact List.map_inj_left.1 (hmap.trans (List.map_id _).symm) mode h

end ShortenModes

/-! ## Automata with other mode names -/

namespace Automaton

variable {automaton : Automaton κ} {names : NameMap String}

/-- `renameModes` files every mode under its new name and in its place, if names stay different. -/
theorem entries_renameModes (h : (automaton.modes.keys.map (Expr.newName names)).Nodup) :
    (automaton.renameModes names).modes.entries = automaton.modes.entries.map fun entry =>
      (Expr.newName names entry.1, { entry.2 with name := Expr.newName names entry.1 }) := by
  refine NameMap.entries_ofList ?_
  rw [List.map_map]
  rwa [NameMap.keys, List.map_map] at h

/-- `renameModes` leads to the new names, in order. -/
theorem keys_renameModes (h : (automaton.modes.keys.map (Expr.newName names)).Nodup) :
    (automaton.renameModes names).modes.keys = automaton.modes.keys.map (Expr.newName names) := by
  rw [NameMap.keys, entries_renameModes h, NameMap.keys, List.map_map, List.map_map]
  rfl

/-- `renameModes` leads to modes that bear the new names. -/
theorem values_renameModes (h : (automaton.modes.keys.map (Expr.newName names)).Nodup) :
    (automaton.renameModes names).modes.values = automaton.modes.entries.map fun entry =>
      { entry.2 with name := Expr.newName names entry.1 } := by
  rw [NameMap.values, entries_renameModes h, List.map_map]
  rfl

/-- `renameModes` makes no mode urgent. -/
theorem hasUrgentMode_renameModes (h : (automaton.modes.keys.map (Expr.newName names)).Nodup) :
    (automaton.renameModes names).hasUrgentMode = automaton.hasUrgentMode := by
  rw [hasUrgentMode, hasUrgentMode, values_renameModes h, NameMap.values]
  simp [Function.comp_def]

/-- `renameModes` adds no disturbance. -/
theorem isNondeterministic_renameModes [Scalar κ]
    (h : (automaton.modes.keys.map (Expr.newName names)).Nodup) :
    (automaton.renameModes names).isNondeterministic = automaton.isNondeterministic := by
  rw [isNondeterministic, isNondeterministic, values_renameModes h, NameMap.values]
  simp [renameModes, Function.comp_def, Mode.flowMap]

/-- `renameModes` may be swapped with `addIdentityResets`: the one is about ends of transitions, the
other about resets. -/
theorem renameModes_addIdentityResets (automaton : Automaton κ) (vars : List String)
    (names : NameMap String) :
    (automaton.addIdentityResets vars).renameModes names =
      (automaton.renameModes names).addIdentityResets vars := by
  simp [renameModes, addIdentityResets, Transition.addIdentityResets]

/-- `renameModes` may be swapped with a change of expressions. -/
theorem renameModes_mapExprs (automaton : Automaton κ) (f : Expr κ → Expr κ)
    (names : NameMap String) :
    (automaton.mapExprs f).renameModes names = (automaton.renameModes names).mapExprs f := by
  -- modes are filed again after renaming, so both sides are compared as lists of entries
  have hmodes : ((automaton.mapExprs f).renameModes names).modes =
      ((automaton.renameModes names).mapExprs f).modes := by
    simp only [renameModes, mapExprs, NameMap.mapValues_ofList, List.map_map]
    simp [NameMap.mapValues, Mode.mapExprs, Function.comp_def]
  have htransitions : ((automaton.mapExprs f).renameModes names).transitions =
      ((automaton.renameModes names).mapExprs f).transitions := by
    simp [renameModes, mapExprs, Transition.mapExprs]
  exact congrArg₂ Automaton.mk hmodes htransitions

end Automaton

namespace Component.AutomatonOk

variable {component : Component κ} {automaton : Automaton κ} {names : NameMap String}

/-- `AutomatonOk` is kept by `renameModes` if the new names are different identifiers. -/
theorem renameModes (h : component.AutomatonOk automaton)
    (hnodup : (automaton.modes.keys.map (Expr.newName names)).Nodup)
    (hidentifier : ∀ mode ∈ automaton.modes.keys,
      Text.isIdentifier (Expr.newName names mode) = true) :
    component.AutomatonOk (automaton.renameModes names) := by
  -- the rules that do not mention an order of modes are easier to carry over
  have hok := automatonOk_iff.1 h
  -- every mode is an old one with another name
  have hvalues {mode : Mode κ} (hm : mode ∈ (automaton.renameModes names).modes.values) :
      ∃ old ∈ automaton.modes.values, { old with name := mode.name } = mode := by
    rw [Automaton.values_renameModes hnodup] at hm
    obtain ⟨entry, he, rfl⟩ := List.mem_map.1 hm
    exact ⟨entry.2, List.mem_map_of_mem he, rfl⟩
  refine automatonOk_iff.2 ?_
  constructor
  case nonempty =>
    rw [Automaton.entries_renameModes hnodup]
    simpa using hok.nonempty
  case filed =>
    intro entry he
    rw [Automaton.entries_renameModes hnodup] at he
    obtain ⟨old, ho, rfl⟩ := List.mem_map.1 he
    exact ⟨rfl, hidentifier old.1 (NameMap.mem_keys_of_mem ho)⟩
  case invariant =>
    intro mode hm
    obtain ⟨old, ho, heq⟩ := hvalues hm
    rw [← heq]
    exact hok.invariant old ho
  case flows =>
    intro mode hm
    obtain ⟨old, ho, heq⟩ := hvalues hm
    rw [← heq]
    exact hok.flows old ho
  case driven =>
    obtain ⟨driven, hdriven, hkeys⟩ := hok.driven
    refine ⟨driven, hdriven, fun mode hm => ?_⟩
    obtain ⟨old, ho, heq⟩ := hvalues hm
    rw [← heq]
    exact hkeys old ho
  case symbols =>
    intro mode hm
    obtain ⟨old, ho, heq⟩ := hvalues hm
    rw [← heq]
    exact hok.symbols old ho
  case ends =>
    intro transition ht
    obtain ⟨old, ho, rfl⟩ := List.mem_map.1 ht
    rw [Automaton.keys_renameModes hnodup]
    exact ⟨List.mem_map_of_mem (hok.ends old ho).1, List.mem_map_of_mem (hok.ends old ho).2⟩
  case labels =>
    intro transition ht
    obtain ⟨old, ho, rfl⟩ := List.mem_map.1 ht
    exact hok.labels old ho
  case used =>
    intro label hl
    obtain ⟨old, ho, he⟩ := hok.used label hl
    exact ⟨_, List.mem_map_of_mem ho, he⟩

/-- `renameModes` changes nothing if all modes keep their names. -/
theorem renameModes_eq_self (h : component.AutomatonOk automaton)
    (hkeep : ∀ mode ∈ automaton.modes.keys, Expr.newName names mode = mode) :
    automaton.renameModes names = automaton := by
  have hmodes : (automaton.renameModes names).modes = automaton.modes := by
    have hkeys : automaton.modes.keys.map (Expr.newName names) = automaton.modes.keys :=
      List.map_eq_self hkeep
    apply NameMap.ext
    rw [Automaton.entries_renameModes (by rw [hkeys]; exact automaton.modes.nodup_keys)]
    refine List.map_eq_self fun entry he => ?_
    -- a mode is filed under its name
    rw [hkeep entry.1 (NameMap.mem_keys_of_mem he), h.filed entry he]
    exact Prod.ext (h.filed entry he).symm rfl
  have htransitions : (automaton.renameModes names).transitions = automaton.transitions := by
    refine List.map_eq_self fun transition ht => ?_
    obtain ⟨⟨hsource, htarget⟩, -⟩ := h.transition transition ht
    rw [hkeep _ hsource, hkeep _ htarget]
  show Automaton.mk (automaton.renameModes names).modes
    (automaton.renameModes names).transitions = _
  rw [hmodes, htransitions]

end Component.AutomatonOk

/-! ## Models with a single automaton -/

namespace FlatModel

/-- The short names of the modes. -/
def shortNames (flat : FlatModel κ) : NameMap String :=
  ShortenModes.shortNames flat.automaton.modes.keys

/-- Modes go by their short names, in the automaton and in the conditions. -/
def shortenModes (flat : FlatModel κ) : FlatModel κ :=
  { flat with
    automaton := flat.automaton.renameModes flat.shortNames
    states := fun states => (flat.states states).rekey (Expr.newName flat.shortNames) }

/-- `shortNames` of the parts number the modes. -/
theorem map_newName_shortNames (flat : FlatModel κ) :
    flat.automaton.modes.keys.map (Expr.newName flat.shortNames) =
      ShortenModes.numbered flat.automaton.modes.size := by
  have hlength : flat.automaton.modes.keys.length = flat.automaton.modes.size := List.length_map _
  rw [← hlength]
  exact ShortenModes.map_newName_shortNames flat.automaton.modes.nodup_keys

/-- `shortNames` of the parts are different. -/
theorem nodup_newNames (flat : FlatModel κ) :
    (flat.automaton.modes.keys.map (Expr.newName flat.shortNames)).Nodup := by
  rw [flat.map_newName_shortNames]
  exact ShortenModes.nodup_numbered _

/-- `shortenModes` leads to numbered modes. -/
theorem keys_shortenModes (flat : FlatModel κ) :
    flat.shortenModes.automaton.modes.keys =
      ShortenModes.numbered flat.automaton.modes.size :=
  (Automaton.keys_renameModes flat.nodup_newNames).trans flat.map_newName_shortNames

/-- A run of the pass makes the change `shortenModes` of the parts. -/
theorem Represents.runOn_shortenModes {flat : FlatModel κ} {w : Workspace κ}
    (h : flat.Represents w.model) :
    ∃ w', ShortenModes.run.runOn w = (.ok (), w') ∧
      w'.model = w.model.withFlat flat.shortenModes := by
  have hautomaton : w.model.tree.rootComponent.automaton? = some flat.automaton := by
    rw [Component.automaton?, h.body_root]
  -- the change of the root of the model is the change of the parts
  have htree : w.model.tree.modify w.model.tree.root (fun component =>
      component.mapAutomaton fun automaton => automaton.renameModes flat.shortNames) =
      w.model.tree.modify w.model.tree.root fun _ => flat.shortenModes.component :=
    h.modify_root rfl
  rw [ShortenModes.run, Change.runOn_bind_ok (PassM.runOn_model w)]
  simp only [hautomaton]
  -- there is a report for each mode, and none of them touches the model
  obtain ⟨w', hw', hmodel⟩ := PassM.runOn_forM_report .info
    (fun entry : String × String => s!"Shortened mode name to {entry.2} from {entry.1}")
    flat.shortNames.entries w
  refine ⟨_, (Change.runOn_bind_ok hw').trans (PassM.runOn_modifyModel _ w'), ?_⟩
  rw [Model.withFlat, ← htree]
  simp only [hmodel, h.initial_eq, h.forbidden_eq]
  rfl

variable [Scalar κ] {flat : FlatModel κ}

namespace Acceptable

/-- `shortenModes` leaves a condition in its place, under the new name of its mode. -/
theorem entries_states_shortenModes (h : flat.Acceptable) (states : StateSet) :
    (flat.shortenModes.states states).entries = (flat.states states).entries.map fun entry =>
      (Expr.newName flat.shortNames entry.1, entry.2) := by
  refine NameMap.entries_rekey (List.Nodup.map_on ?_ (flat.states states).nodup_keys)
  intro left hl right hr heq
  -- conditions are given for modes of the automaton
  exact List.inj_on_of_nodup_map flat.nodup_newNames (h.keys states left hl)
    (h.keys states right hr) heq

/-- `shortenModes` keeps parts acceptable. -/
theorem shortenModes (h : flat.Acceptable) : flat.shortenModes.Acceptable := by
  have hstates {states : StateSet} {entry : String × Expr κ}
      (he : entry ∈ (flat.shortenModes.states states).entries) :
      ∃ old ∈ (flat.states states).entries,
        (Expr.newName flat.shortNames old.1, old.2) = entry := by
    rw [h.entries_states_shortenModes] at he
    exact List.mem_map.1 he
  constructor
  case distinct => exact h.distinct
  case identifiers => exact h.identifiers
  case automaton =>
    -- the rules of automata ask for identifiers, and short names are identifiers
    have hautomaton := h.automaton.renameModes flat.nodup_newNames fun mode hm => by
      have hshort := List.mem_map_of_mem (f := Expr.newName flat.shortNames) hm
      rw [flat.map_newName_shortNames] at hshort
      obtain ⟨place, -, hplace⟩ := List.mem_map.1 hshort
      rw [← hplace]
      exact ShortenModes.isIdentifier_shortName place
    exact hautomaton.congr rfl rfl rfl
  case nonempty =>
    have hnonempty := h.nonempty
    rw [NameMap.isEmpty] at hnonempty
    rw [NameMap.isEmpty, h.entries_states_shortenModes, List.isEmpty_map]
    exact hnonempty
  case keys =>
    intro states mode hm
    obtain ⟨entry, he, rfl⟩ := List.mem_map.1 hm
    obtain ⟨old, ho, rfl⟩ := hstates he
    rw [flat.keys_shortenModes, ← flat.map_newName_shortNames]
    exact List.mem_map_of_mem (h.keys states _ (NameMap.mem_keys_of_mem ho))
  case names =>
    intro states entry he
    obtain ⟨old, ho, rfl⟩ := hstates he
    exact h.names states old ho
  case points => exact h.points
  case noDisjunctions =>
    intro states entry he
    obtain ⟨old, ho, rfl⟩ := hstates he
    exact h.noDisjunctions states old ho
  case oneVariable => exact h.oneVariable
  case deterministic =>
    exact (Automaton.isNondeterministic_renameModes flat.nodup_newNames).trans h.deterministic
  case noUrgentModes =>
    exact (Automaton.hasUrgentMode_renameModes flat.nodup_newNames).trans h.noUrgentModes

/-- `shortenModes` leaves modes alone that are `numbered` already. -/
theorem shortenModes_eq_self (h : flat.Acceptable)
    (hkeys : flat.automaton.modes.keys = ShortenModes.numbered flat.automaton.modes.size) :
    flat.shortenModes = flat := by
  -- modes that are numbered already keep their names
  have hkeep (mode : String) (hm : mode ∈ flat.automaton.modes.keys) :
      Expr.newName flat.shortNames mode = mode := by
    unfold shortNames
    rw [hkeys] at hm ⊢
    exact ShortenModes.newName_numbered hm
  have hstates : (fun states => (flat.states states).rekey (Expr.newName flat.shortNames)) =
      flat.states :=
    funext fun states => NameMap.rekey_eq_self fun mode hm => hkeep mode (h.keys states mode hm)
  rw [FlatModel.shortenModes, h.automaton.renameModes_eq_self hkeep, hstates]

/-- `shortenModes` twice is `shortenModes` once: after the first time the modes are numbered. -/
theorem shortenModes_shortenModes (h : flat.Acceptable) :
    flat.shortenModes.shortenModes = flat.shortenModes := by
  refine h.shortenModes.shortenModes_eq_self ?_
  -- no mode is lost, so there are as many numbers as before
  have hsize : flat.shortenModes.automaton.modes.size = flat.automaton.modes.size := by
    have hlength := congrArg List.length (Automaton.entries_renameModes flat.nodup_newNames)
    rwa [List.length_map] at hlength
  rw [hsize, flat.keys_shortenModes]

end Acceptable

end FlatModel

end HybridAutomata
