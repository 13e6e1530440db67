import HybridAutomata.Proofs.CopyInstance.Renaming
/-!
# What copies add to a model

Copying extends the root and leaves everything else alone. Behind the old instances come the copies
in the order of their numbers, each over the automaton of the prototype in a new place. Behind the
old variables and labels come those to which the copies are bound, and in the mode of a condition
the mode of the prototype comes once more for each copy.

* `IsExtended`                    how a model is extended by copies of an instance
* `Prepared.isExtended_result`    the changes of a prepared run extend the model
* `copying_extends_the_root`      so does every run that succeeds
-/

namespace HybridAutomata

namespace CopyInstance

variable {κ : Type}

/-! ## Extended models -/

/-- An entry of the root is a copy of an instance: its automaton is that of the instance in another
place, and it is bound alike inside, but to names with a start outside. -/
structure IsCopyOf (before after : Tree κ) (name : String) (original : Instance) (start : String)
    (place : Nat) (entry : String × Instance) : Prop where
  name : entry.1 = start ++ name
  parent : entry.2.parent = after.root
  child : entry.2.child = ⟨place⟩
  consts : entry.2.consts = original.consts
  vars : entry.2.vars = original.vars.map fun binding => ⟨binding.inner, start ++ binding.outer⟩
  labels : entry.2.labels = original.labels.map fun binding =>
    ⟨binding.inner, start ++ binding.outer⟩
  component : after.get entry.2.child =
    (before.get original.child).placedAs after.root entry.1

/-- A list has a mode of each instance of the root, in order. -/
def ModesOf (tree : Tree κ) (modes : List String) : Prop :=
  List.Forall₂ (fun entry mode => ∃ automaton, (tree.get entry.2.child).body = .base automaton ∧
    mode ∈ automaton.modes.keys) (rootInstances tree).entries modes

/-- A mode of the root lists the modes of the instances, or it is the path to the mode of the only
one. -/
def NamesModes (tree : Tree κ) (mode : String) (modes : List String) : Prop :=
  mode = Text.join "." modes ∨
    ∃ inst own, (rootInstances tree).keys = [inst] ∧ modes = [own] ∧ mode = inst ++ "." ++ own

/-- A mode of the root is extended by the mode of an instance, once for each copy. -/
structure ExtendsMode (before after : Tree κ) (name : String) (original : Instance) (copies : Nat)
    (mode extended : String) (modes : List String) (own : String) : Prop where
  written : NamesModes before mode modes
  known : ModesOf before modes
  copied : ((name, original), own) ∈ (rootInstances before).entries.zip modes
  joined : extended = Text.join "." (modes ++ List.replicate copies own)
  known' : ModesOf after (modes ++ List.replicate copies own)
  accepted : after.modeExists after.root extended = true

/-- A model is extended by the copies of an instance that are asked for. -/
structure IsExtended (before after : Model κ) (options : Options) (name : String)
    (original : Instance) : Prop where
  chosen : chooseInstance (κ := κ) (rootInstances before.tree).keys options.name = .ok name
  known : (name, original) ∈ (rootInstances before.tree).entries
  /-- The copies stand behind the old instances, and at the end of the arena. -/
  copies : ∃ copies,
    (rootInstances after.tree).entries = (rootInstances before.tree).entries ++ copies ∧
    List.Forall₂
      (fun start entry => IsCopyOf before.tree after.tree name original start.1 start.2 entry)
      ((starts options).zipIdx before.tree.size) copies
  size : after.tree.size = before.tree.size + (starts options).length
  /-- The root declares what the copies are bound to, and keeps everything else. -/
  root : after.tree.root = before.tree.root
  rootComponent : after.tree.rootComponent = { before.tree.rootComponent with
    vars := before.tree.rootComponent.vars ++
      startedNames (starts options) (outerNames original.vars)
    labels := before.tree.rootComponent.labels ++
      startedNames (starts options) (outerNames original.labels)
    body := .network (rootInstances after.tree) }
  vars : (startedNames (starts options) (outerNames original.vars)).Nodup ∧
    ∀ new ∈ startedNames (starts options) (outerNames original.vars),
      new ∉ before.tree.rootComponent.vars
  labels : (startedNames (starts options) (outerNames original.labels)).Nodup ∧
    ∀ new ∈ startedNames (starts options) (outerNames original.labels),
      new ∉ before.tree.rootComponent.labels
  others : ∀ c : Handle, c.index < before.tree.size → c ≠ before.tree.root →
    after.tree.get c = before.tree.get c
  settings : after.settings = before.settings
  checks : after.checks = before.checks
  /-- A family has one condition if it had one, for the extended mode. -/
  states : ∀ states, ∀ entry ∈ (before.states states).entries, ∃ extended condition modes own,
    (after.states states).entries = [(extended, condition)] ∧
    ExtendsMode before.tree after.tree name original (starts options).length entry.1 extended
      modes own
  noStates : ∀ states, (before.states states).entries = [] → (after.states states).entries = []

namespace Prepared

variable {model : Model κ} {options : Options} {prep : Preparation κ}

/-! ## Instances -/

/-- There are as many copies as starts. -/
theorem length_copies (h : Prepared model options prep) :
    prep.copies.length = (starts options).length := by
  rw [h.copies_eq_map, List.length_map]

/-- `newEntries` are in the order of the `starts`, which tell the copies apart. -/
theorem newEntries_eq (h : Prepared model options prep) :
    newEntries model.tree prep.prototype prep.copies =
      ((starts options).zipIdx model.tree.size).map fun start =>
        (start.1 ++ prep.name, entryOf model.tree.root prep.prototype
          (Plan.make prep.prototype prep.name start.1) start.2) := by
  rw [newEntries, h.copies_eq_map, List.zipIdx_map, List.map_map]
  rfl

/-- Every one of the `newEntries` is a copy of the prototype in the sense of `IsCopyOf`. -/
theorem isCopyOf_entryOf (h : Prepared model options prep) {start : String × Nat}
    (hs : start ∈ (starts options).zipIdx model.tree.size) :
    IsCopyOf model.tree (prep.resultTree model.tree) prep.name prep.prototype start.1 start.2
      (start.1 ++ prep.name, entryOf model.tree.root prep.prototype
        (Plan.make prep.prototype prep.name start.1) start.2) := by
  -- all fields but two are read off the definition of `entryOf`
  constructor
  case component =>
    rw [root_result]
    exact h.get_result_copy (h.mem_zipIdx_copies hs)
  case parent => rw [root_result]; rfl
  all_goals rfl

/-! ## Modes -/

/-- `ModesOf` in terms of pairs: there is a mode for each instance, and paired in order each
instance has its mode. -/
theorem modesOf_iff {tree : Tree κ} {modes : List String} :
    ModesOf tree modes ↔ (rootInstances tree).entries.length = modes.length ∧
      ∀ pair ∈ (rootInstances tree).entries.zip modes, ∃ automaton,
        (tree.get pair.1.2.child).body = .base automaton ∧ pair.2 ∈ automaton.modes.keys := by
  -- a relation of two lists is the same as one of all pairs and an equation of lengths
  rw [ModesOf, List.forall₂_iff_zip]
  refine and_congr_right fun _ => ⟨fun h pair hp => h hp, fun h _ _ hp => h _ hp⟩

/-- The mode of an extended condition is related by `ExtendsMode` to the mode of the condition that
it comes from. -/
theorem exists_extendsMode (h : Prepared model options prep) (htree : model.tree.WellFormed)
    {states : StateSet} {entry given : String × Expr κ}
    (hentries : (model.states states).entries = [entry]) (hg : given ∈ prep.given states) :
    ∃ modes own, ExtendsMode model.tree (prep.resultTree model.tree) prep.name prep.prototype
      (starts options).length entry.1 given.1 modes own := by
  -- the mode that was split is the one of the only entry
  obtain ⟨modes, position, hposition, hstates, hextended⟩ := h.exists_of_mem_given hg
  obtain ⟨mode, rest, hfirst, hsplit, -⟩ := singleState_eq_ok hstates
  obtain rfl : entry = (mode, given.2) := (List.cons.inj (hentries.symm.trans hfirst)).1
  have hlength := length_modes_of_singleState hstates
  -- the mode of the prototype is the one at the position of its name
  have hown := h.mem_zip_prototype hlength hposition
  refine ⟨modes, modes.getD position "", ?_⟩
  rw [← h.length_copies]
  constructor
  case written => exact (splitModes_eq_ok hsplit).2
  case known =>
    refine modesOf_iff.2 ⟨hlength.symm, fun pair hp => ?_⟩
    obtain ⟨automaton, hb, hmode, -⟩ := h.mode_of_mem_zip htree hstates hp
    exact ⟨automaton, hb, hmode⟩
  case copied => exact hown
  case joined => exact hextended
  case known' =>
    -- the modes of the copies stand behind, as the copies do among the instances
    refine modesOf_iff.2 ⟨(h.length_modes_result hlength _).symm, fun pair hp => ?_⟩
    obtain ⟨automaton, hb, hmode, -⟩ := h.mode_of_mem_zip_result htree hstates hown hp
    exact ⟨automaton, hb, hmode⟩
  case accepted =>
    rw [hextended]
    exact (h.modeExists_result htree hstates hposition).1

/-! ## The result -/

/-- A family without conditions is not extended: there is nothing that could be `given`. -/
theorem given_eq_nil (h : Prepared model options prep) {states : StateSet}
    (hentries : (model.states states).entries = []) : prep.given states = [] := by
  -- a condition that is given comes from a first entry
  refine List.eq_nil_iff_forall_not_mem.2 fun given hg => ?_
  obtain ⟨modes, position, -, hstates, -⟩ := h.exists_of_mem_given hg
  obtain ⟨mode, rest, hfirst, -⟩ := singleState_eq_ok hstates
  rw [hentries] at hfirst
  cases hfirst

/-- The changes of a prepared run extend the model by the copies: `IsExtended` holds of the result.
-/
theorem isExtended_result [Scalar κ] (h : Prepared model options prep)
    (htree : model.tree.WellFormed) (hrequired : Pass.check .copyInstance model = .ok ()) :
    IsExtended model (prep.result model) options prep.name prep.prototype := by
  -- the names that were claimed are new and different, which is what the rules of the root rest on
  obtain ⟨-, ⟨-, hvars⟩, -, hlabels⟩ := claimPlans_eq_ok_iff.1 h.claimed
  rw [h.freshVars_eq] at hvars
  rw [h.freshLabels_eq] at hlabels
  constructor
  case chosen => exact h.chosen
  case known => exact h.prototype
  case copies =>
    refine ⟨_, h.entries_result, ?_⟩
    rw [h.newEntries_eq, List.forall₂_map_right_iff, List.forall₂_same]
    exact fun start hs => h.isCopyOf_entryOf hs
  case size => rw [← h.length_copies]; exact size_result prep model.tree
  case root => exact root_result prep model.tree
  case rootComponent =>
    obtain ⟨children, hroot⟩ := h.exists_rootComponent_result
    have hchildren : rootInstances (prep.resultTree model.tree) = children := by
      rw [rootInstances, hroot]
      rfl
    show (prep.resultTree model.tree).rootComponent = _
    rw [← h.freshVars_eq, ← h.vars_eq, ← h.freshLabels_eq, ← h.labels_eq, hroot, ← hchildren]
    rfl
  case vars => exact hvars
  case labels => exact hlabels
  case others => exact fun c hlt hne => get_result_of_lt prep hlt hne
  case settings => rfl
  case checks => rfl
  case states =>
    -- an acceptable model has one condition at most, so the given one is that of the entry
    intro states entry he
    obtain ⟨mode, hgiven⟩ := h.exists_given_eq hrequired he
    obtain ⟨modes, own, hmode⟩ := h.exists_extendsMode htree (entries_eq_of_mem hrequired he)
      (hgiven ▸ List.mem_singleton.2 rfl)
    refine ⟨mode, extendCondition (connective states) entry.2 prep.copies, modes, own, ?_, hmode⟩
    rw [h.entries_states_result, hgiven]
    rfl
  case noStates =>
    intro states hentries
    rw [h.entries_states_result, h.given_eq_nil hentries]
    rfl

end Prepared

end CopyInstance

/-- On a valid model that is acceptable, a run that succeeds with at least two instances asked for
extends the model by the copies of one instance and changes nothing else: the root gets instances,
variables and labels behind those that it has, with new names, and the modes of the conditions get
the mode of the instance once more for each copy. -/
theorem copying_extends_the_root {κ : Type} [Scalar κ] {w w' : Workspace κ}
    {options : CopyInstance.Options} (hchecks : w.model.checks = {})
    (hvalid : w.model.check = .ok ())
    (hrequired : Pass.check .copyInstance w.model = .ok ()) (hcount : 2 ≤ options.count)
    (hrun : (CopyInstance.run options).runOn w = (.ok (), w')) :
    ∃ name original, CopyInstance.IsExtended w.model w'.model options name original := by
  -- a run fails, has nothing to do, or is prepared and changes the model
  obtain ⟨vars, hrules⟩ := (Model.check_eq_ok_iff hchecks).1 hvalid
  rcases CopyInstance.run_cases options w with
    ⟨cause, -, hfailed⟩ | ⟨hnothing, -⟩ | ⟨prep, hprep, hdone⟩
  · rw [hrun] at hfailed
    cases hfailed
  · -- there is something to copy
    rcases CopyInstance.prepare_eq_ok hnothing with ⟨hone, -⟩ | ⟨prep, hsome, -⟩
    · omega
    · cases hsome
  · rw [hrun] at hdone
    rw [(Prod.mk.inj hdone).2]
    exact ⟨_, _, hprep.isExtended_result hrules.tree hrequired⟩

/-- A timer and the light that it switches off. -/
def timerAndLight : Model Int where
  tree := {
    components := #[
      { vars := ["time"]
        labels := ["over"]
        body := .network (.ofList [
          ("T", {
            parent := ⟨0⟩
            child := ⟨1⟩
            vars := [⟨"t", "time"⟩]
            labels := [⟨"stop", "over"⟩] }),
          ("L", {
            parent := ⟨0⟩
            child := ⟨2⟩
            labels := [⟨"off", "over"⟩] })]) },
      { parent := some ⟨0⟩
        instanceName := some "T"
        vars := ["t"]
        labels := ["stop"]
        body := .base {
          modes := .ofList [
            ("run", mode "run" (.ofList [("t", { expr := .const 1 })])),
            ("idle", mode "idle" (.ofList [("t", { expr := .const 0 })]))]
          transitions := [⟨"run", "idle", some "stop", .bool true, ∅⟩] } },
      { parent := some ⟨0⟩
        instanceName := some "L"
        labels := ["off"]
        body := .base {
          modes := .ofList [("bright", mode "bright" ∅), ("dark", mode "dark" ∅)]
          transitions := [⟨"bright", "dark", some "off", .bool true, ∅⟩] } }]
    root := ⟨0⟩ }
  initial := .ofList [("run.bright", .binary .equal (.var "time") (.const 0))]
  forbidden := .ofList [("idle.bright", .bool true)]
  settings := { Settings.standard with plotX := some "time", plotY := some "time" }
  checks := {}
where
  /-- A mode with flows. -/
  mode (name : String) (flows : NameMap (Update Int)) : Mode Int :=
    { name
      invariant := .bool true
      urgent := false
      flows := some flows }

/-- Two more timers come behind the light, and they run at the start like the first one. -/
theorem copies_beside_the_light_extend_the_root :
    ∃ w', (CopyInstance.run { name := "T", count := 3 }).runOn { model := timerAndLight } =
        (.ok (), w') ∧
      (CopyInstance.rootInstances w'.model.tree).keys = ["T", "L", "copy2_T", "copy3_T"] ∧
      w'.model.tree.rootComponent.labels = ["over", "copy2_over", "copy3_over"] ∧
      w'.model.initial.keys = ["run.bright.run.run"] ∧
      ∃ name original,
        CopyInstance.IsExtended timerAndLight w'.model { name := "T", count := 3 } name
        original := by
  -- the run is evaluated, and what it makes of the root is read off
  have hok : ((CopyInstance.run { name := "T", count := 3 }).runOn { model := timerAndLight }).1 =
      .ok () := Except.eq_ok_of_isOk (by decide +kernel)
  refine ⟨_, Prod.ext hok rfl, by decide +kernel, by decide +kernel, by decide +kernel, ?_⟩
  exact copying_extends_the_root (w := { model := timerAndLight }) rfl
    (Except.eq_ok_of_isOk (by decide +kernel)) (Except.eq_ok_of_isOk (by decide +kernel))
    (by decide) (Prod.ext hok rfl)

end HybridAutomata
