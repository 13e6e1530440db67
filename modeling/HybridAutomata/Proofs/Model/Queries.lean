import HybridAutomata.Proofs.Component.Violations
import HybridAutomata.Proofs.Model.Check
import HybridAutomata.Proofs.Scalar.Integer
/-!
# Queries on a checked model

The check of a model compares links only locally: each child with the network that it is found in.
Nothing looks for a component that is met twice or for a way that leads round. Still a model that
passes holds a tree in the proper sense, `Proper`, on which every query succeeds; and after the tree
has passed, no look-up fails in the rest of the check.

* `Linked.proper`                consistent links make a proper tree
* `checked_model_is_proper`      so a model that passes holds one, in either mode of the check
-/

namespace HybridAutomata

variable {κ : Type}

namespace Tree

/-- No component is met twice, and what is asked about a reachable component is answered. -/
structure Proper (tree : Tree κ) : Prop where
  /-- A walk lists the reachable components, each of them once. -/
  listed : ∀ c, c ∈ tree.descendants tree.root ↔ tree.Reachable c
  once : (tree.descendants tree.root).Nodup
  /-- No two instances share a component. -/
  unshared : ∀ b b', tree.Reachable b → tree.Reachable b' →
    ∀ entry ∈ (tree.get b).children.entries, ∀ entry' ∈ (tree.get b').children.entries,
      entry.2.child = entry'.2.child → b = b' ∧ entry = entry'
  /-- No way leads back to where it started. -/
  acyclic : ∀ c, tree.Reachable c → ∀ names, tree.follow c names = some c → names = []
  /-- The links of every component but the root lead to the instance that holds it. -/
  placed : ∀ c, tree.Reachable c → c ≠ tree.root →
    ∃ inst, tree.instance? c = some inst ∧ inst.child = c ∧ (tree.get c).parent = some inst.parent
  variableName : ∀ c, tree.Reachable c → ∀ name, ∃ listed, tree.variableName c name = .ok listed
  allVariables : ∀ c, tree.Reachable c → ∃ vars, tree.allVariables c = .ok vars

namespace Linked

variable {tree : Tree κ}

/-- Two instances with one component are one instance of one network. -/
theorem unshared (h : tree.Linked) {b b' : Handle} (hb : tree.Reachable b)
    (hb' : tree.Reachable b') {entry entry' : String × Instance}
    (he : entry ∈ (tree.get b).children.entries) (he' : entry' ∈ (tree.get b').children.entries)
    (hchild : entry.2.child = entry'.2.child) : b = b' ∧ entry = entry' := by
  have hlink := h.link b hb entry he
  have hlink' := h.link b' hb' entry' he'
  -- the component names its network and its instance
  have hparent := hlink.childParent
  rw [hchild, hlink'.childParent] at hparent
  have hname := hlink.childName
  rw [hchild, hlink'.childName] at hname
  obtain rfl := Option.some.inj hparent
  obtain ⟨name, inst⟩ := entry
  obtain ⟨name', inst'⟩ := entry'
  obtain rfl : name' = name := Option.some.inj hname
  exact ⟨rfl, congrArg (Prod.mk name') (NameMap.value_unique he he')⟩

/-- `Linked` components make a `Proper` tree. -/
theorem proper (h : tree.Linked) : tree.Proper where
  -- links lead to one instance for each component but the root
  listed _ := h.mem_descendants_iff
  once := h.nodup_descendants
  unshared b b' hb hb' entry he entry' he' hchild := h.unshared hb hb' he he' hchild
  acyclic _ hc names hf := h.noWayBack hc names hf
  placed c hc hne := by
    rcases h.instance?_cases hc with ⟨rfl, -⟩ | ⟨b, name, inst, -, -, rfl, hlink, hi⟩
    · exact absurd rfl hne
    · exact ⟨inst, hi, rfl, by rw [hlink.parent]; exact hlink.childParent⟩
  variableName _ hc := h.exists_variableName hc
  allVariables _ hc := h.exists_allVariables hc

end Linked

end Tree

/-! ## Look-ups -/

/-- `NeverLooksUp` says that a check does not end with a failed look-up. -/
def NeverLooksUp (check : Except (Violation κ) Unit) : Prop :=
  ∀ cause, check ≠ .error (.lookup cause)

namespace Model

variable {model : Model κ}

/-- `checkStates` looks no constant up, so it never fails as a look-up does. -/
theorem checkStates_avoids (states : StateSet) (known : List String) :
    (model.checkStates states known).Avoids Violation.IsRecursive := by
  rw [checkStates]
  split
  · exact Except.avoids_error not_false
  -- a state is refused for its mode or for its names, never for a circle
  · refine List.avoids_forM fun entry _ => ?_
    dsimp only
    split
    · split
      · exact Except.avoids_error not_false
      · exact Except.avoids_ok
    · exact Except.avoids_error not_false

/-- `Settings.check` looks no constant up, so it never fails as a look-up does. -/
theorem checkSettings_avoids (vars : List String) :
    (model.settings.check vars).Avoids Violation.IsRecursive := by
  rw [Settings.check]
  split
  · exact Except.avoids_error not_false
  · split
    · exact Except.avoids_error not_false
    · exact Except.avoids_ok

/-- `checkDots` looks no constant up, so it never fails as a look-up does. -/
theorem checkDots_avoids (states : StateSet) :
    (model.checkDots states).Avoids Violation.IsRecursive := by
  rw [checkDots]
  split
  · exact Except.avoids_error not_false
  · exact Except.avoids_ok

/-- After the check of the tree has passed, the rest of `Model.check` does not end with a failed
look-up. -/
theorem check_avoids_of_tree (htree : model.tree.check model.checks = .ok ()) :
    model.check.Avoids Violation.IsRecursive := by
  cases henabled : model.checks.enabled with
  | false =>
    rw [check, henabled]
    exact Except.avoids_ok
  | true =>
    rw [check_eq henabled, htree]
    split
    · exact Except.avoids_error not_false
    · exact Except.avoids_error not_false
    · next hname hparent =>
      -- the tree has consistent links, so its variables can be listed
      rw [Tree.check, Tree.checkComponent, henabled, if_pos rfl] at htree
      have hlinked := Tree.linked_of_checkWithin hname hparent htree
      obtain ⟨vars, hvars⟩ := hlinked.exists_allVariables model.tree.reachable_root
      rw [allVariables, hvars]
      -- what is left compares names with lists that are there
      refine (checkStates_avoids .initial _).bind fun _ => ?_
      refine (checkStates_avoids .forbidden _).bind fun _ => ?_
      refine (checkSettings_avoids vars).bind fun _ => ?_
      split
      · exact (checkDots_avoids .initial).bind fun _ => checkDots_avoids .forbidden
      · exact Except.avoids_ok

/-- After the check of the tree has passed, the check of the model `NeverLooksUp`. -/
theorem neverLooksUp_check (htree : model.tree.check model.checks = .ok ()) :
    NeverLooksUp model.check :=
  fun _ h => check_avoids_of_tree htree _ h trivial

/-- A model that passes an enabled check has `Linked` components. -/
theorem linked_of_check (henabled : model.checks.enabled = true) (hcheck : model.check = .ok ()) :
    model.tree.Linked := by
  obtain ⟨⟨hname, hparent⟩, htree⟩ := tree_of_check henabled hcheck
  rw [Tree.check, Tree.checkComponent, henabled, if_pos rfl] at htree
  exact Tree.linked_of_checkWithin hname hparent htree

end Model

/-- A model that passes holds a proper tree, whether or not constants are checked; if they are then
every constant has a value. After the tree has passed, the rest of the check looks everything up. -/
theorem checked_model_is_proper (model : Model κ) :
    (model.checks.enabled = true → model.check = .ok () →
      model.tree.Proper ∧
        (model.checks.constants = true → ∀ c, model.tree.Reachable c →
          ∀ name ∈ (model.tree.get c).constants.keys,
            ∃ value, model.tree.constantValue c name = .ok value)) ∧
      (model.tree.check model.checks = .ok () → ∀ cause, model.check ≠ .error (.lookup cause)) := by
  refine ⟨fun henabled hcheck => ?_, fun htree => Model.neverLooksUp_check htree⟩
  refine ⟨(Model.linked_of_check henabled hcheck).proper, fun hconstants c hc name hname => ?_⟩
  -- with both options on, nothing is left out
  have hchecks : model.checks = {} := by
    cases hoptions : model.checks
    simp_all
  obtain ⟨vars, hrules⟩ := (Model.check_eq_ok_iff hchecks).1 hcheck
  obtain ⟨names, hf⟩ := hc
  exact (hrules.tree.nodeOk hf).values name hname

/-- A clock and a lamp in a box. The time and the rate of the clock are those of the model; the lamp
has a constant of the box. -/
def clockAndLamp : Model Int where
  tree := {
    components := #[
      { vars := ["time"]
        constants := .ofList [("rate", some (.point 3))]
        body := .network (.ofList [("box", {
          parent := ⟨0⟩
          child := ⟨1⟩
          vars := [⟨"time", "time"⟩]
          consts := [⟨"rate", "rate"⟩] })]) },
      { parent := some ⟨0⟩
        instanceName := some "box"
        vars := ["time"]
        constants := .ofList [("rate", none), ("power", some (.point 5))]
        body := .network (.ofList [
          ("clock", {
            parent := ⟨1⟩
            child := ⟨3⟩
            vars := [⟨"x", "time"⟩]
            consts := [⟨"k", "rate"⟩] }),
          ("lamp", { parent := ⟨1⟩, child := ⟨2⟩, consts := [⟨"watts", "power"⟩] })]) },
      { parent := some ⟨1⟩
        instanceName := some "lamp"
        constants := .ofList [("watts", none)]
        labels := ["press"]
        body := .base {
          modes := .ofList [("off", steady "off"), ("on", steady "on")]
          transitions := [⟨"off", "on", some "press", .bool true, ∅⟩] } },
      { parent := some ⟨1⟩
        instanceName := some "clock"
        vars := ["x"]
        constants := .ofList [("k", none)]
        body := .base {
          modes := .ofList [("run", {
            name := "run"
            invariant := .binary .lessEqual (.var "x") (.var "k")
            urgent := false
            flows := some (.ofList [("x", { expr := .var "k" })]) })]
          transitions := [] } }]
    root := ⟨0⟩ }
  initial := .ofList [
    ("run.off", .binary .equal (.var "time") (.var "rate")),
    ("box.lamp.on", .binary .less (.var "time") (.var "box.power"))]
  forbidden := ∅
  settings := { Settings.standard with plotX := some "time", plotY := some "time" }
  checks := {}
where
  /-- A mode in which nothing changes. -/
  steady (name : String) : Mode Int :=
    { name, invariant := .bool true, urgent := false, flows := some ∅ }

/-- The clock and the lamp are held by a proper tree, and the check looks everything up. -/
theorem clockAndLamp_is_proper :
    (clockAndLamp.tree.Proper ∧ ∃ value, clockAndLamp.tree.constantValue ⟨0⟩ "rate" = .ok value) ∧
      ∀ cause, clockAndLamp.check ≠ .error (.lookup cause) := by
  obtain ⟨hproper, hlookup⟩ := checked_model_is_proper clockAndLamp
  obtain ⟨htree, hvalues⟩ := hproper rfl (Except.eq_ok_of_isOk (by decide +kernel))
  exact ⟨⟨htree, hvalues rfl ⟨0⟩ clockAndLamp.tree.reachable_root "rate" (by decide)⟩,
    hlookup (Except.eq_ok_of_isOk (by decide +kernel))⟩

end HybridAutomata
