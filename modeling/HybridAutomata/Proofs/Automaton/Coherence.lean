import HybridAutomata.Automaton.Edit
import HybridAutomata.Proofs.Change
import HybridAutomata.Proofs.ForStd.List
import HybridAutomata.Proofs.NameMap.Rekey
import HybridAutomata.Proofs.Scalar.Integer
/-!
# Automata that are built step by step

An automaton starts without modes and is changed by four edits: `Edit`. An edit asks for the names
of modes before it changes anything, so the automaton that a refused one leaves behind is the one
before it.

Every automaton that is built this way is coherent: its modes are filed under their names, just the
modes that are not urgent have flows, and transitions lead from modes to modes. A coherent automaton
loses nothing when a mode is renamed, because the new name occurs nowhere in it, so the mode can get
its old name back.

* `Edit.atomicOn`                    a refused edit leaves the automaton as it is
* `Coherent.apply`                   an edit keeps an automaton coherent
* `runOn_renameMode`                 which modes can be renamed, and what becomes of the automaton
* `Coherent.renameMode_renameMode`   a mode gets its old name back
* `edited_automata_are_coherent`   all together
-/

namespace HybridAutomata.Automaton

variable {κ : Type}

/-! ## Edits -/

/-- The ways in which an automaton is built. -/
inductive Edit (κ : Type) where
  | createMode (name : String) (invariant : Expr κ) (flows : NameMap (Update κ))
  | createUrgentMode (name : String) (invariant : Expr κ)
  | createTransition (source target : String)
  | renameMode (old new : String)

namespace Edit

/-- Carries an edit out. The component is named in a refusal. -/
def run (component : String) : Edit κ → AutomatonM κ Unit
  | createMode name invariant flows => Automaton.createMode name invariant flows component
  | createUrgentMode name invariant => Automaton.createUrgentMode name invariant component
  | createTransition source target => Automaton.createTransition source target component
  | renameMode old new => Automaton.renameMode old new component

/-- The automaton that an edit leaves behind, whether it is carried out or refused. -/
def apply (automaton : Automaton κ) (component : String) (edit : Edit κ) : Automaton κ :=
  ((edit.run component).runOn automaton).2

end Edit

/-- The automata to which edits lead, from the one without modes. -/
inductive Edited : Automaton κ → Prop where
  | empty : Edited .empty
  | step (automaton : Automaton κ) (component : String) (edit : Edit κ) (h : Edited automaton) :
    Edited (edit.apply automaton component)

/-! ## What the operations do -/

/-- `addMode` is refused if there is a mode of the name. -/
theorem runOn_addMode (mode : Mode κ) (component : String) (automaton : Automaton κ) :
    (addMode mode component).runOn automaton =
      if automaton.modes.contains mode.name then
        (.error (.duplicateMode mode.name component), automaton)
      else (.ok (), { automaton with modes := automaton.modes.insert mode.name mode }) := by
  rw [addMode, Change.runOn_bind_ok (Change.runOn_get automaton)]
  split <;> rfl

/-- `expectMode` changes nothing. -/
theorem runOn_expectMode (component mode : String) (automaton : Automaton κ) :
    (expectMode component mode).runOn automaton =
      if automaton.modes.contains mode then (.ok (), automaton)
      else (.error (.unknownMode mode component), automaton) := by
  rw [expectMode, Change.runOn_bind_ok (Change.runOn_get automaton)]
  split <;> rfl

/-- `createTransition` complains about the first end that is no mode. -/
theorem runOn_createTransition (source target component : String) (automaton : Automaton κ) :
    (createTransition source target component).runOn automaton =
      if !automaton.modes.contains source then (.error (.unknownMode source component), automaton)
      else if !automaton.modes.contains target then
        (.error (.unknownMode target component), automaton)
      else (.ok (), { automaton with
        transitions := automaton.transitions ++ [⟨source, target, none, .bool true, ∅⟩] }) := by
  -- the loop over both ends is unrolled
  rw [createTransition, List.forM_eq_forM, List.forM_cons, List.forM_cons, List.forM_nil]
  -- the second end is looked up only if the first one is a mode
  cases hsource : automaton.modes.contains source <;>
    cases htarget : automaton.modes.contains target <;>
    simp [Change.runOn_bind, runOn_expectMode, hsource, htarget]

/-- `renameMode` asks for both names before it changes anything. -/
theorem runOn_renameMode {old new : String} (hne : old ≠ new) (component : String)
    (automaton : Automaton κ) :
    (renameMode old new component).runOn automaton =
      if automaton.modes.contains new then (.error (.duplicateMode new component), automaton)
      else if !automaton.modes.contains old then
        (.error (.unknownMode old component), automaton)
      else (.ok (), swapEnds old new (swapMode old new automaton)) := by
  -- the two refusals leave the automaton as it is
  rw [renameMode, if_neg hne, Change.runOn_bind_ok (Change.runOn_get automaton)]
  split
  · rfl
  · cases hold : automaton.modes.contains old <;>
      simp [Change.runOn_bind, runOn_expectMode, hold]

/-! ## Refused edits -/

section

variable (component : String) (automaton : Automaton κ)

/-- A refused `addMode` leaves the automaton as it is. -/
theorem addMode_atomicOn (mode : Mode κ) : (addMode mode component).AtomicOn id automaton := by
  -- the question for the name comes first, and inserting cannot fail
  refine Change.keeps_get.atomicOn_bind fun _ _ _ => ?_
  split
  · exact (Change.keeps_throw _).atomicOn _
  · exact (Change.succeedsOn_modify _ _).atomicOn

/-- `expectMode` asks and changes nothing, whatever the answer is. -/
theorem keeps_expectMode (mode : String) :
    (expectMode component mode : AutomatonM κ Unit).Keeps id := by
  refine Change.keeps_get.bind fun _ => ?_
  split
  · exact Change.keeps_pure ()
  · exact Change.keeps_throw _

/-- A refused `createTransition` leaves the automaton as it is. -/
theorem createTransition_atomicOn (source target : String) :
    (createTransition source target component).AtomicOn id automaton := by
  -- both ends are looked up before the transition is added
  refine (Change.keeps_forM fun mode _ => keeps_expectMode component mode).atomicOn_bind
    fun _ _ _ => ?_
  exact (Change.succeedsOn_modify _ _).atomicOn

/-- A refused `renameMode` leaves the automaton as it is. -/
theorem renameMode_atomicOn (old new : String) :
    (renameMode old new component).AtomicOn id automaton := by
  rw [renameMode]
  split
  · exact (Change.keeps_pure ()).atomicOn automaton
  refine Change.keeps_get.atomicOn_bind fun _ _ _ => ?_
  split
  · exact (Change.keeps_throw _).atomicOn _
  -- the modes and the ends are changed in two steps, but none of them can fail
  refine (keeps_expectMode component old).atomicOn_bind fun _ _ _ => ?_
  exact ((Change.succeedsOn_modify _ _).bind fun _ _ => Change.succeedsOn_modify _ _).atomicOn

/-- A refused `Edit` leaves the automaton as it is: each of the four operations asks first. -/
theorem Edit.atomicOn (edit : Edit κ) : (edit.run component).AtomicOn id automaton := by
  cases edit with
  | createMode name invariant flows => exact addMode_atomicOn component automaton _
  | createUrgentMode name invariant => exact addMode_atomicOn component automaton _
  | createTransition source target => exact createTransition_atomicOn component automaton _ _
  | renameMode old new => exact renameMode_atomicOn component automaton _ _

end

/-! ## Coherence -/

/-- Modes and transitions of an automaton fit together. -/
structure Coherent (automaton : Automaton κ) : Prop where
  /-- Modes are filed under their names. -/
  filed : ∀ entry ∈ automaton.modes.entries, entry.1 = entry.2.name
  /-- Just the modes that are not urgent have flows. -/
  flows : ∀ entry ∈ automaton.modes.entries, entry.2.flows.isSome = true ↔ entry.2.urgent = false
  /-- Transitions lead from modes to modes. -/
  ends : ∀ transition ∈ automaton.transitions,
    transition.source ∈ automaton.modes.keys ∧ transition.target ∈ automaton.modes.keys

/-- The `empty` automaton has nothing that could be in the wrong place. -/
theorem coherent_empty : (empty : Automaton κ).Coherent where
  filed _ he := nomatch he
  flows _ he := nomatch he
  ends _ ht := nomatch ht

section

variable {automaton changed : Automaton κ} {component : String} {old new : String}

/-! ### New modes and transitions -/

/-- `addMode` files a new mode behind the others, under its name. -/
theorem Coherent.addMode {mode : Mode κ} (h : automaton.Coherent)
    (hmode : mode.flows.isSome = true ↔ mode.urgent = false)
    (hrun : (addMode mode component).runOn automaton = (.ok (), changed)) : changed.Coherent := by
  rw [runOn_addMode] at hrun
  split at hrun
  · cases hrun
  next hnew =>
    cases hrun
    rw [NameMap.contains_iff] at hnew
    -- the name is free, so nothing is replaced
    have hentries := NameMap.entries_insert_of_not_mem hnew mode
    constructor
    case filed =>
      simp only [hentries, List.mem_append, List.mem_singleton]
      rintro entry (he | rfl)
      · exact h.filed entry he
      · rfl
    case flows =>
      simp only [hentries, List.mem_append, List.mem_singleton]
      rintro entry (he | rfl)
      · exact h.flows entry he
      · exact hmode
    case ends =>
      -- no mode is lost
      intro transition ht
      simp only [NameMap.mem_keys_insert]
      exact (h.ends transition ht).imp .inr .inr

/-- `createTransition` adds a transition behind the others, whose ends have been looked up. -/
theorem Coherent.createTransition {source target : String} (h : automaton.Coherent)
    (hrun : (createTransition source target component).runOn automaton = (.ok (), changed)) :
    changed.Coherent := by
  rw [runOn_createTransition] at hrun
  split at hrun
  · cases hrun
  next hsource =>
    -- both ends have been asked for before the transition is added
    split at hrun
    · cases hrun
    next htarget =>
      cases hrun
      have hknown : source ∈ automaton.modes.keys ∧ target ∈ automaton.modes.keys := by
        simpa [NameMap.contains_iff] using And.intro hsource htarget
      refine ⟨h.filed, h.flows, fun transition ht => ?_⟩
      rcases List.mem_append.1 ht with ht | ht
      · exact h.ends transition ht
      · obtain rfl := List.mem_singleton.1 ht
        exact hknown

/-! ### New names for modes -/

/-- An automaton in which a mode has a new name and everything is in its old place: the mode stands
under its new name, the ends of transitions follow it, and nothing else is changed. -/
structure IsRenamed (old new : String) (before after : Automaton κ) : Prop where
  modes : after.modes.entries = before.modes.entries.map fun entry =>
    if entry.1 = old then (new, { entry.2 with name := new }) else entry
  transitions : after.transitions = before.transitions.map fun transition =>
    { transition with
      source := if transition.source = old then new else transition.source
      target := if transition.target = old then new else transition.target }

/-- `swapName` with the names exchanged leads back, but for the name that came in. -/
theorem swapName_swapName {name : String} (h : name ≠ new) :
    swapName new old (swapName old new name) = name := by
  by_cases hold : name = old <;> simp [swapName, hold, h]

/-- A name that is not used yet keeps the names of modes apart. -/
theorem nodup_map_swapName (hnew : new ∉ automaton.modes.keys) :
    (automaton.modes.keys.map (swapName old new)).Nodup := by
  -- names of modes differ from the new one, so they can be swapped back
  refine List.Nodup.map_on (fun left hl right hr he => ?_) automaton.modes.nodup_keys
  have hne {name : String} (hn : name ∈ automaton.modes.keys) : name ≠ new := fun e => hnew (e ▸ hn)
  calc left
      _ = swapName new old (swapName old new left) := (swapName_swapName (hne hl)).symm
      _ = swapName new old (swapName old new right) := by rw [he]
      _ = right := swapName_swapName (hne hr)

/-- `IsRenamed` determines the automaton afterwards. -/
theorem IsRenamed.unique {before after after' : Automaton κ} (h : before.IsRenamed old new after)
    (h' : before.IsRenamed old new after') : after = after' := by
  rcases after with ⟨modes, transitions⟩
  rcases after' with ⟨modes', transitions'⟩
  have hmodes : modes = modes' := NameMap.ext (h.modes.trans h'.modes.symm)
  have htransitions : transitions = transitions' := h.transitions.trans h'.transitions.symm
  rw [hmodes, htransitions]

/-- `renameMode` succeeds on a mode that exists, if the new name is not used. -/
theorem exists_renameMode_eq_ok (hne : old ≠ new) (hold : old ∈ automaton.modes.keys)
    (hnew : new ∉ automaton.modes.keys) (component : String) :
    ∃ renamed, (renameMode old new component).runOn automaton = (.ok (), renamed) ∧
      automaton.IsRenamed old new renamed := by
  -- neither of the two questions is a reason to refuse
  rw [runOn_renameMode hne, if_neg (mt NameMap.contains_iff.1 hnew), NameMap.contains_iff.2 hold]
  refine ⟨_, rfl, ?_, rfl⟩
  -- no entry is lost, so the entries stay in their places
  dsimp only [swapEnds, swapMode]
  rw [NameMap.entries_rekey, NameMap.modify, List.map_map]
  · refine List.map_congr_left fun entry _ => ?_
    by_cases he : entry.1 = old <;> simp [swapName, he]
  · rw [NameMap.keys_modify]
    exact nodup_map_swapName hnew

/-- `renameMode` succeeds only on a mode that exists, and only if the new name is not used. -/
theorem renameMode_eq_ok (hne : old ≠ new)
    (hrun : (renameMode old new component).runOn automaton = (.ok (), changed)) :
    (old ∈ automaton.modes.keys ∧ new ∉ automaton.modes.keys) ∧
      automaton.IsRenamed old new changed := by
  have hmem : old ∈ automaton.modes.keys ∧ new ∉ automaton.modes.keys := by
    -- otherwise one of the two questions before the change is answered by a refusal
    rw [runOn_renameMode hne] at hrun
    split at hrun
    · cases hrun
    next hnew =>
      split at hrun
      · cases hrun
      next hold => simpa [NameMap.contains_iff] using And.intro hold hnew
  obtain ⟨renamed, hrun', hrenamed⟩ := exists_renameMode_eq_ok hne hmem.1 hmem.2 component
  obtain rfl := congrArg Prod.snd (hrun'.symm.trans hrun)
  exact ⟨hmem, hrenamed⟩

/-- The names of the modes after one of them was renamed. -/
theorem IsRenamed.keys_eq (h : automaton.IsRenamed old new changed) :
    changed.modes.keys = automaton.modes.keys.map (swapName old new) := by
  rw [NameMap.keys, h.modes, NameMap.keys, List.map_map, List.map_map]
  refine List.map_congr_left fun entry _ => ?_
  by_cases he : entry.1 = old <;> simp [swapName, he]

/-- A renamed mode is filed under its new name, and the ends of transitions are where it is. -/
theorem Coherent.of_isRenamed (h : automaton.Coherent)
    (hrenamed : automaton.IsRenamed old new changed) : changed.Coherent := by
  constructor
  case filed =>
    rw [hrenamed.modes]
    intro entry he
    obtain ⟨before, hb, rfl⟩ := List.mem_map.1 he
    -- the entry of the renamed mode takes key and name from `new`, the others are as before
    split
    · rfl
    · exact h.filed before hb
  case flows =>
    rw [hrenamed.modes]
    intro entry he
    obtain ⟨before, hb, rfl⟩ := List.mem_map.1 he
    split <;> exact h.flows before hb
  case ends =>
    rw [hrenamed.transitions, hrenamed.keys_eq]
    intro transition ht
    obtain ⟨before, hb, rfl⟩ := List.mem_map.1 ht
    obtain ⟨hsource, htarget⟩ := h.ends before hb
    exact ⟨List.mem_map_of_mem hsource, List.mem_map_of_mem htarget⟩

/-- In a coherent automaton a name that is not used occurs nowhere, so swapping the names once more
leads back. -/
theorem Coherent.isRenamed_symm (h : automaton.Coherent) (hnew : new ∉ automaton.modes.keys)
    (hrenamed : automaton.IsRenamed old new changed) : changed.IsRenamed new old automaton := by
  have hne {name : String} (hn : name ∈ automaton.modes.keys) : name ≠ new := fun e => hnew (e ▸ hn)
  constructor
  case modes =>
    rw [hrenamed.modes, List.map_map]
    refine (List.map_eq_self fun entry he => ?_).symm
    have hkey := hne (NameMap.mem_keys_of_mem he)
    have hname := h.filed entry he
    by_cases hold : entry.1 = old
    · -- the mode bears the name under which it is filed
      have hmode : { entry.2 with name := old } = entry.2 := by rw [← hold, hname]
      simp only [Function.comp_apply, if_pos hold, if_true, hmode]
      exact Prod.ext hold.symm rfl
    · simp only [Function.comp_apply, if_neg hold, if_neg hkey]
  case transitions =>
    rw [hrenamed.transitions, List.map_map]
    refine (List.map_eq_self fun transition ht => ?_).symm
    obtain ⟨hsource, htarget⟩ := h.ends transition ht
    exact congrArg₂ (fun source target => { transition with source, target })
      (swapName_swapName (hne hsource)) (swapName_swapName (hne htarget))

/-- A renamed mode can get its old name back, and then the automaton is what it was. -/
theorem Coherent.renameMode_renameMode (h : automaton.Coherent) (hne : old ≠ new)
    (hrun : (renameMode old new component).runOn automaton = (.ok (), changed))
    (component' : String) :
    (renameMode new old component').runOn changed = (.ok (), automaton) := by
  obtain ⟨⟨hold, hnew⟩, hrenamed⟩ := renameMode_eq_ok hne hrun
  have hmem : new ∈ changed.modes.keys := by
    rw [hrenamed.keys_eq]
    exact List.mem_map.2 ⟨old, hold, if_pos rfl⟩
  have hfree : old ∉ changed.modes.keys := by
    rw [hrenamed.keys_eq]
    intro hm
    -- no name is swapped for the old one, and the old one is swapped away
    obtain ⟨name, -, he⟩ := List.mem_map.1 hm
    rw [swapName] at he
    split at he
    · exact hne he.symm
    · next hno => exact hno he
  obtain ⟨restored, hback, hrestored⟩ :=
    exists_renameMode_eq_ok (Ne.symm hne) hmem hfree component'
  rw [hback, hrestored.unique (h.isRenamed_symm hnew hrenamed)]

/-! ### Histories -/

/-- `Edit.apply` keeps an automaton coherent, whether or not the edit is carried out. -/
theorem Coherent.apply (h : automaton.Coherent) (component : String) (edit : Edit κ) :
    (edit.apply automaton component).Coherent := by
  rw [Edit.apply]
  -- what the refused edit leaves behind is known without looking at the edit
  rcases hrun : (edit.run component).runOn automaton with ⟨cause | ⟨⟩, changed⟩
  case error =>
    obtain rfl : changed = automaton := Edit.atomicOn component automaton edit cause changed hrun
    exact h
  case ok =>
    cases edit with
    | createMode name invariant flows => exact h.addMode (by simp) hrun
    | createUrgentMode name invariant => exact h.addMode (by simp) hrun
    | createTransition source target => exact h.createTransition hrun
    | renameMode old new =>
      by_cases hne : old = new
      · -- nothing is done to a mode that keeps its name
        rw [Edit.run, renameMode, if_pos hne] at hrun
        cases hrun
        exact h
      · exact h.of_isRenamed (renameMode_eq_ok hne hrun).2

/-- A list of edits leads from an `Edited` automaton to an `Edited` one. -/
theorem Edited.foldl (h : automaton.Edited) (component : String) (edits : List (Edit κ)) :
    (edits.foldl (fun automaton edit => edit.apply automaton component) automaton).Edited := by
  -- induction on the edits; the next one starts from what the first leaves behind
  induction edits generalizing automaton with
  | nil => exact h
  | cons edit rest ih => exact ih (.step automaton component edit h)

/-- Every `Edited` automaton is `Coherent`, by induction on its history. -/
theorem Edited.coherent (h : automaton.Edited) : automaton.Coherent := by
  induction h with
  | empty => exact coherent_empty
  | step automaton component edit _ ih => exact ih.apply component edit

end

/-- Every automaton that is built by edits is coherent, and a refused edit leaves it as it is. A
mode of it can be given another name if the mode exists and no mode has that name, and then only;
everything keeps its place, and giving the old name back restores the automaton. -/
theorem edited_automata_are_coherent (automaton : Automaton κ) (h : automaton.Edited) :
    automaton.Coherent ∧
    (∀ component (edit : Edit κ) cause after,
      (edit.run component).runOn automaton = (.error cause, after) → after = automaton) ∧
    ∀ component old new, old ≠ new →
      ((∃ renamed, (renameMode old new component).runOn automaton = (.ok (), renamed)) ↔
        old ∈ automaton.modes.keys ∧ new ∉ automaton.modes.keys) ∧
      ∀ renamed, (renameMode old new component).runOn automaton = (.ok (), renamed) →
        automaton.IsRenamed old new renamed ∧
          ∀ component', (renameMode new old component').runOn renamed = (.ok (), automaton) := by
  refine ⟨h.coherent, fun component edit cause after hrun => ?_,
    fun component old new hne => ⟨⟨?_, ?_⟩, fun renamed hrun => ⟨?_, ?_⟩⟩⟩
  -- a refused edit finds the automaton as it was
  · exact Edit.atomicOn component automaton edit cause after hrun
  · rintro ⟨renamed, hrun⟩
    exact (renameMode_eq_ok hne hrun).1
  · rintro ⟨hold, hnew⟩
    obtain ⟨renamed, hrun, -⟩ := exists_renameMode_eq_ok hne hold hnew component
    exact ⟨renamed, hrun⟩
  · exact (renameMode_eq_ok hne hrun).2
  · exact h.coherent.renameMode_renameMode hne hrun

/-- A kettle with one transition from its mode to itself and one that leads away, after edits of
which two are refused. -/
def kettle : Automaton Int :=
  let edits : List (Edit Int) :=
    [.createMode "on" (.bool true) ∅, .createUrgentMode "on" (.bool true),
      .createUrgentMode "done" (.bool true), .createTransition "on" "on",
      .createTransition "on" "off", .createTransition "on" "done", .renameMode "done" "off"]
  edits.foldl (fun automaton edit => edit.apply automaton "kettle") .empty

/-- The mode of the kettle can be renamed, the transition to itself included, and renamed back. -/
theorem kettle_is_coherent :
    kettle.Edited ∧ kettle.modes.keys = ["on", "off"] ∧ kettle.transitions.length = 2 ∧
      kettle.Coherent ∧
      ∃ renamed, (renameMode "on" "warm" "kettle").runOn kettle = (.ok (), renamed) ∧
        kettle.IsRenamed "on" "warm" renamed ∧
        (renameMode "warm" "on" "kettle").runOn renamed = (.ok (), kettle) := by
  have hedited : kettle.Edited := Edited.empty.foldl "kettle" _
  -- the general theorem, for an automaton that five edits have made
  obtain ⟨hcoherent, -, hrename⟩ := edited_automata_are_coherent kettle hedited
  obtain ⟨hiff, hrenamed⟩ := hrename "kettle" "on" "warm" (by decide)
  obtain ⟨renamed, hrun⟩ := hiff.2 (by decide +kernel)
  obtain ⟨his, hback⟩ := hrenamed renamed hrun
  exact ⟨hedited, by decide +kernel, by decide +kernel, hcoherent, renamed, hrun, his,
    hback "kettle"⟩

end HybridAutomata.Automaton
