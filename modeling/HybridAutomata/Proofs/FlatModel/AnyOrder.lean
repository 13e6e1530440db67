import HybridAutomata.Proofs.FlatModel.IdentityResets
import HybridAutomata.Proofs.FlatModel.NoConstants
import HybridAutomata.Proofs.FlatModel.ShortModes
import HybridAutomata.Proofs.ForStd.List
import HybridAutomata.Proofs.Pass.Course
import HybridAutomata.Proofs.Scalar.Integer
import Mathlib.Data.Finset.Dedup
/-!
# Passes in any order

Three passes change a model with a single automaton: one adds identity resets, one shortens mode
names and one substitutes constants. Each of them keeps the model acceptable to all of them, does
nothing the second time, and may be swapped with the others. So every sequence of them succeeds, and
what it leaves behind depends on the set of its members only.

* `anyOrder_apply`               the effects of the passes on the parts of a model
* `Represents.runOn_forM`        a sequence of runs has the effects of its members in turn
* `flat_passes_in_any_order`     what a sequence of runs leaves behind
-/

namespace HybridAutomata

variable {κ : Type}

/-- The passes that change a model with a single automaton, apart from renaming. -/
def Pass.flatPasses : List Pass :=
  [.identityReset, .shortenModes, .substituteConstants]

namespace FlatModel

/-! ## Swapped effects -/

/-- `addResets` and `shortenModes` may be swapped: resets name no modes. -/
theorem addResets_shortenModes (flat : FlatModel κ) :
    flat.addResets.shortenModes = flat.shortenModes.addResets := by
  have hnames : flat.addResets.shortNames = flat.shortNames := rfl
  unfold shortenModes
  rw [hnames]
  unfold addResets
  rw [Automaton.renameModes_addIdentityResets]

/-- `substituteConstants` leaves the names of modes, so the short names are the same. -/
theorem shortNames_substituteConstants [Scalar κ] (flat : FlatModel κ) :
    flat.substituteConstants.shortNames = flat.shortNames := by
  unfold shortNames substituteConstants
  rw [Automaton.mapExprs, NameMap.keys_mapValues]

/-- `shortenModes` and `substituteConstants` may be swapped: expressions name no modes. -/
theorem shortenModes_substituteConstants [Scalar κ] (flat : FlatModel κ) :
    flat.shortenModes.substituteConstants = flat.substituteConstants.shortenModes := by
  have hvalues : flat.shortenModes.values = flat.values := rfl
  unfold shortenModes
  rw [shortNames_substituteConstants]
  unfold substituteConstants
  -- names of modes are keys, and expressions are values under them
  simp only [NameMap.rekey_mapValues, Automaton.renameModes_mapExprs]
  rfl

variable [Scalar κ] {flat : FlatModel κ}

/-- `addResets` and `substituteConstants` may be swapped on acceptable parts: a variable is no
constant, so nothing is put into its identity reset. -/
theorem Acceptable.addResets_substituteConstants (h : flat.Acceptable) :
    flat.addResets.substituteConstants = flat.substituteConstants.addResets := by
  have hvar (name : String) (hn : name ∈ flat.vars) :
      (Expr.var name).substitute flat.values = .var name := by
    apply Expr.substitute_var
    rw [values, NameMap.get?_mapValues, NameMap.get?_eq_none_iff.2 (h.not_mem_constants hn)]
    rfl
  -- the resets are variables, which the substitution leaves alone
  have hautomaton := Automaton.addIdentityResets_mapExprs flat.automaton hvar
  exact congrArg (fun automaton => { flat.substituteConstants with automaton }) hautomaton.symm

/-- What a pass does to the parts of a model. -/
def apply (flat : FlatModel κ) : Pass → FlatModel κ
  | .identityReset => flat.addResets
  | .shortenModes => flat.shortenModes
  | .substituteConstants => flat.substituteConstants
  | .copyInstance => flat
  | .rename => flat

theorem vars_apply (flat : FlatModel κ) (pass : Pass) : (flat.apply pass).vars = flat.vars := by
  cases pass <;> rfl

/-- `apply` does what is asked of effects that may be put in any order and repeated, on acceptable
parts. -/
theorem anyOrder_apply : List.AnyOrder (FlatModel.Acceptable (κ := κ)) FlatModel.apply where
  keeps flat pass h := by
    cases pass with
    | identityReset => exact h.addResets
    | shortenModes => exact h.shortenModes
    | substituteConstants => exact h.substituteConstants
    | copyInstance => exact h
    | rename => exact h
  twice flat pass h := by
    cases pass with
    | identityReset => exact flat.addResets_addResets
    | shortenModes => exact h.shortenModes_shortenModes
    | substituteConstants => exact flat.substituteConstants_substituteConstants
    | copyInstance => rfl
    | rename => rfl
  swap flat pass other h := by
    have hresets := h.addResets_substituteConstants
    -- three swaps have an argument of their own, the others are trivial or the same swap backwards
    cases pass <;> cases other <;>
      simp [apply, addResets_shortenModes, shortenModes_substituteConstants, hresets]

/-! ## Runs -/

namespace Represents

variable {w : Workspace κ} {pass : Pass}

/-- `mutate` of a flat pass makes the change that `apply` says. -/
theorem runOn_mutate (h : flat.Represents w.model) (hok : flat.Acceptable)
    (hpass : pass ∈ Pass.flatPasses) :
    ∃ w', (pass.mutate []).runOn w = (.ok (), w') ∧
      w'.model = w.model.withFlat (flat.apply pass) := by
  have hread (pass : Pass) : (pass.readParameters pass.emptyGrammar [] : PassM κ Unit).runOn w =
      (.ok (), w) := Pass.runOn_readParameters rfl pass w
  -- the passes read no parameters, so only their own steps are left
  cases pass with
  | identityReset =>
    exact ⟨_, (Change.runOn_bind_ok (hread _)).trans h.runOn_identityReset, rfl⟩
  | shortenModes =>
    obtain ⟨w', hw', hmodel⟩ := h.runOn_shortenModes
    exact ⟨w', (Change.runOn_bind_ok (hread _)).trans hw', hmodel⟩
  | substituteConstants =>
    exact ⟨_, (Change.runOn_bind_ok (hread _)).trans (h.runOn_substituteConstants hok), rfl⟩
  | copyInstance => simp [Pass.flatPasses] at hpass
  | rename => simp [Pass.flatPasses] at hpass

/-- `run` of a flat pass succeeds on acceptable parts and makes the change that `apply` says. -/
theorem runOn_run (h : flat.Represents w.model) (hok : flat.Acceptable)
    (hchecks : w.model.checks = {}) (hsettings : w.model.settings.check flat.vars = .ok ())
    (hpass : pass ∈ Pass.flatPasses) :
    ∃ w', (pass.run "").runOn w = (.ok (), w') ∧
      w'.model = w.model.withFlat (flat.apply pass) := by
  -- two passes are not flat, and the requirements of the others are part of being acceptable
  have hcheck : pass.check w.model = .ok () := by
    refine h.check_eq_ok hok fun he => ?_
    rw [he] at hpass
    simp [Pass.flatPasses] at hpass
  have hmutate (before : Workspace κ) (hbefore : before.model = w.model) :
      ∃ w', (pass.mutate (Arguments.split "")).runOn before = (.ok (), w') ∧
        w'.model = w.model.withFlat (flat.apply pass) := by
    rw [← hbefore] at h ⊢
    exact h.runOn_mutate hok hpass
  -- the changed model is put together from acceptable parts as well
  have hafter : (w.model.withFlat (flat.apply pass)).check = .ok () := by
    have hchecks' : (w.model.withFlat (flat.apply pass)).checks = {} := hchecks
    refine (Model.check_eq_ok_iff hchecks').2 ⟨(flat.apply pass).vars, ?_⟩
    refine (represents_withFlat h.root_lt _).rules (anyOrder_apply.keeps flat pass hok) ?_
    rw [vars_apply]
    exact hsettings
  -- requirements, change and final check are known, and they are the course of a run
  obtain ⟨outcome, w', hrun, hcourse⟩ := Pass.course_of_start pass "" true w
  obtain ⟨hout, hmodel⟩ := hcourse.eq_of_mutate hcheck hmutate
  rw [Except.ok_bind, Pass.outcomeOf, hafter] at hout
  exact ⟨w', hrun.trans (congrArg (·, w') hout), hmodel⟩

/-- A sequence of runs succeeds and makes the changes of its members, one after the other. -/
theorem runOn_forM (h : flat.Represents w.model) (hok : flat.Acceptable)
    (hchecks : w.model.checks = {}) (hsettings : w.model.settings.check flat.vars = .ok ())
    {passes : List Pass} (hpasses : ∀ pass ∈ passes, pass ∈ Pass.flatPasses) :
    ∃ w', (passes.forM fun pass => pass.run "").runOn w = (.ok (), w') ∧
      w'.model = w.model.withFlat (passes.foldl apply flat) := by
  -- induction on the sequence; after the first run the parts are acceptable again
  induction passes generalizing flat w with
  | nil => exact ⟨w, rfl, h.withFlat_eq_self.symm⟩
  | cons pass rest ih =>
    obtain ⟨w₁, hrun, hmodel⟩ := h.runOn_run hok hchecks hsettings (hpasses pass List.mem_cons_self)
    have hrest : (flat.apply pass).Represents w₁.model :=
      hmodel ▸ represents_withFlat h.root_lt (flat.apply pass)
    have hsettings₁ : w₁.model.settings.check (flat.apply pass).vars = .ok () := by
      rw [vars_apply, hmodel]
      exact hsettings
    obtain ⟨w', hw', hmodel'⟩ := ih hrest (anyOrder_apply.keeps flat pass hok)
      (by rw [hmodel]; exact hchecks) hsettings₁ fun other ho =>
        hpasses other (List.mem_cons_of_mem _ ho)
    refine ⟨w', ?_, ?_⟩
    · rw [List.forM_eq_forM, List.forM_cons, Change.runOn_bind_ok hrun, ← List.forM_eq_forM, hw']
    · rw [hmodel', hmodel, Model.withFlat_withFlat]
      rfl

end Represents

end FlatModel

/-- The order of the passes for a single automaton does not matter. On a model whose root is an
automaton, that passes its check and meets all requirements, and whose conditions are given for
modes of that automaton, every sequence of runs without parameters succeeds, with any repetitions,
and the model that it leaves behind is a function of the set of passes that occur in it. -/
theorem flat_passes_in_any_order [Scalar κ] (model : Model κ) (automaton : Automaton κ)
    (hbody : model.tree.rootComponent.body = .base automaton) (hchecks : model.checks = {})
    (hvalid : model.check = .ok ()) (hrequired : Requirements.all.check model = .ok ())
    (hkeys : ∀ states, ∀ mode ∈ (model.states states).keys, mode ∈ automaton.modes.keys) :
    ∃ result : Finset Pass → Model κ,
      ∀ passes : List Pass, (∀ pass ∈ passes, pass ∈ Pass.flatPasses) →
        ∀ w : Workspace κ, w.model = model →
          ∃ w', (passes.forM fun pass => pass.run "").runOn w = (.ok (), w') ∧
            w'.model = result passes.toFinset := by
  obtain ⟨flat, hrepresents, hok, hsettings⟩ :=
    FlatModel.exists_acceptable hchecks hvalid hrequired hbody hkeys
  -- a set of passes is run in the order of the list of all
  refine ⟨fun set => model.withFlat ((Pass.all.filter (· ∈ set)).foldl FlatModel.apply flat), ?_⟩
  rintro passes hpasses w rfl
  obtain ⟨w', hrun, hmodel⟩ := hrepresents.runOn_forM hok hchecks hsettings hpasses
  refine ⟨w', hrun, ?_⟩
  have hall (pass : Pass) : pass ∈ Pass.all := by cases pass <;> decide
  have hmem (pass : Pass) : pass ∈ Pass.all.filter (· ∈ passes.toFinset) ↔ pass ∈ passes := by
    -- a pass belongs to the ordered list of the set just if it belongs to the sequence
    simp [hall]
  rw [hmodel, FlatModel.anyOrder_apply.foldl_eq_of_subset hok (fun pass hp => (hmem pass).2 hp)
    fun pass hp => (hmem pass).1 hp]

/-- A heater that is switched on by hand and goes off when it is warm. Nothing is said about the
clock when it goes off. -/
def heater : Model Int where
  tree := .ofRoot {
    vars := ["temp", "clock"]
    constants := .ofList [("rate", some (.point 2)), ("warm", some (.point 20))]
    labels := ["press"]
    body := .base {
      modes := .ofList [("idle", mode "idle" (.const 0)), ("heating", mode "heating" (.var "rate"))]
      transitions := [
        ⟨"idle", "heating", some "press", .bool true, .ofList [("clock", { expr := .const 0 })]⟩,
        ⟨"heating", "idle", none, .binary .lessEqual (.var "warm") (.var "temp"), ∅⟩] } }
  initial := .ofList [("idle", .binary .equal (.var "temp") (.var "warm"))]
  forbidden := .ofList [
    ("heating", .binary .less (.binary .add (.var "warm") (.var "rate")) (.var "temp"))]
  settings := { Settings.standard with plotX := some "clock", plotY := some "temp" }
  checks := {}
where
  /-- A mode in which the temperature changes at a rate. -/
  mode (name : String) (rate : Expr Int) : Mode Int :=
    { name
      invariant := .bool true
      urgent := false
      flows := some (.ofList [("temp", { expr := rate }), ("clock", { expr := .const 1 })]) }

/-- The heater comes out the same with its modes shortened first and again, or last. -/
theorem heater_passes_in_any_order :
    ∃ w w' : Workspace Int,
      ([Pass.shortenModes, .identityReset, .shortenModes, .substituteConstants].forM
          fun pass => pass.run "").runOn { model := heater } = (.ok (), w) ∧
        ([Pass.substituteConstants, .identityReset, .shortenModes].forM
          fun pass => pass.run "").runOn { model := heater } = (.ok (), w') ∧
        w.model = w'.model := by
  -- both orders hold the same passes, so both results are the same function of one set
  obtain ⟨result, hresult⟩ := flat_passes_in_any_order heater _ rfl rfl
    (Except.eq_ok_of_isOk (by decide +kernel)) (Except.eq_ok_of_isOk (by decide +kernel))
    (by intro states; cases states <;> decide +kernel)
  obtain ⟨w, hrun, hmodel⟩ := hresult
    [.shortenModes, .identityReset, .shortenModes, .substituteConstants] (by decide)
    { model := heater } rfl
  obtain ⟨w', hrun', hmodel'⟩ := hresult
    [.substituteConstants, .identityReset, .shortenModes] (by decide) { model := heater } rfl
  refine ⟨w, w', hrun, hrun', ?_⟩
  rw [hmodel, hmodel']
  exact congrArg result (by decide)

end HybridAutomata
