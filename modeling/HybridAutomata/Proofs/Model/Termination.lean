import HybridAutomata.Proofs.Model.Queries
import HybridAutomata.Proofs.Tree.Visits
/-!
# Checks that come to an end

Where the entries of the networks lead down to a finite tree, but links up may lead anywhere, the
check of a model comes to an end if all look-ups do that it gets to. This is so if every component
bears the name of its entry. The check compares the name of a component with that of the entry only
after the component has passed, though, and a component with the name of another entry may send a
look-up round in a circle before.

* `check_isRunaway_iff`       the check of a model runs away if that of its tree does
* `check_comes_to_end_iff`    when the check of a model comes to an end
-/

namespace HybridAutomata

variable {κ : Type}

namespace Model

/-- The constants that the check of a model looks up. -/
def LooksUp (model : Model κ) (c : Handle) (name : String) : Prop :=
  (model.checks.enabled = true ∧ model.tree.rootComponent.instanceName = none ∧
    model.tree.rootComponent.parent = none) ∧ model.tree.LooksUp model.checks c name

/-- `Model.check` runs away just if it gets to the tree and `checkWithin` runs away on the tree. -/
theorem check_isRunaway_iff {model : Model κ} :
    (∃ violation, model.check = .error violation ∧ violation.IsRunaway) ↔
      (model.checks.enabled = true ∧ model.tree.rootComponent.instanceName = none ∧
        model.tree.rootComponent.parent = none) ∧
      ∃ violation, model.tree.checkWithin model.checks model.tree.size model.tree.root =
        .error violation ∧ violation.IsRunaway := by
  cases henabled : model.checks.enabled with
  | false => simp [check, henabled]
  | true =>
    have htree : model.tree.check model.checks =
        model.tree.checkWithin model.checks model.tree.size model.tree.root := by
      rw [Tree.check, Tree.checkComponent, henabled, if_pos rfl]
    rw [← htree]
    constructor
    · rintro ⟨violation, hcheck, hrunaway⟩
      -- a check that has passed the tree ends, so the tree is what it runs away on
      cases hresult : model.tree.check model.checks with
      | ok => exact absurd hrunaway.isRecursive (check_avoids_of_tree hresult _ hcheck)
      | error cause =>
        rw [check_eq henabled, hresult] at hcheck
        split at hcheck
        · cases hcheck
          exact absurd hrunaway not_false
        · cases hcheck
          exact absurd hrunaway not_false
        · next hname hparent =>
          cases hcheck
          exact ⟨⟨rfl, hname, hparent⟩, _, rfl, hrunaway⟩
    · rintro ⟨⟨-, hname, hparent⟩, violation, hresult, hrunaway⟩
      refine ⟨violation, ?_, hrunaway⟩
      rw [check_eq henabled, hname, hparent, hresult]
      rfl

end Model

/-- Where the entries of the networks form a finite tree, whatever else links and bindings are, the
check of a model comes to an end just if every look-up does that it gets to. If every component
bears the name of its entry then the check comes to an end, and every look-up goes from a component
up to the network that holds it. -/
theorem check_comes_to_end_iff (model : Model κ) (hnested : model.tree.Nested) :
    ((∀ violation, model.check = .error violation → ¬ violation.IsRunaway) ↔
      ∀ c name, model.LooksUp c name → model.tree.Settles c name) ∧
    (model.tree.BearsEntryNames →
      (∀ violation, model.check = .error violation → ¬ violation.IsRunaway) ∧
      (model.tree.rootComponent.parent = none →
        ∀ levels c, model.tree.Visits model.checks levels c →
        ∀ name b outer, model.tree.next? (c, name) = some (b, outer) →
          ∃ entry ∈ (model.tree.get b).children.entries, entry.2.child = c)) := by
  -- the check runs away just if it gets to a look-up that does not settle
  have hruns : (∀ violation, model.check = .error violation → ¬ violation.IsRunaway) ↔
      ∀ c name, model.LooksUp c name → model.tree.Settles c name := by
    rw [← not_iff_not]
    simp only [not_forall, not_not, exists_prop]
    rw [Model.check_isRunaway_iff, Tree.checkWithin_isRunaway_iff hnested]
    constructor
    · rintro ⟨hgets, c, name, hlooks, hsettles⟩
      exact ⟨c, name, ⟨hgets, hlooks⟩, hsettles⟩
    · rintro ⟨c, name, ⟨hgets, hlooks⟩, hsettles⟩
      exact ⟨hgets, c, name, hlooks, hsettles⟩
  refine ⟨hruns, fun hnames => ⟨hruns.2 ?_, fun hroot levels c hvisits name b outer hnext =>
    (hvisits.of_next? hnames hroot hnext).2⟩⟩
  -- with the names of entries, each look-up of the check goes up where the check has come from
  rintro c name ⟨⟨-, -, hroot⟩, levels, _, _, hvisits, -⟩
  exact hvisits.settles hnames hroot name

/-- Two timers `a` and `b`. The first one bears the given name, and the entry of the second one
names the given component as the network around it and binds a constant that the second timer does
not have. -/
def crossedTimers (first : String) (parent : Handle) (outer : String) : Model Int where
  tree := {
    components := #[
      { vars := ["t"]
        constants := .ofList [("k", some (.point 1))]
        body := .network (.ofList [
          ("a", { parent := ⟨0⟩, child := ⟨1⟩, vars := [⟨"t", "t"⟩], consts := [⟨"n", "k"⟩] }),
          ("b", { parent, child := ⟨2⟩, vars := [⟨"t", "t"⟩], consts := [⟨"n", outer⟩] })]) },
      timer first (.ofList [("n", none)]),
      timer "b" (.ofList [("m", some (.point 1))])]
    root := ⟨0⟩ }
  initial := .ofList [("run.run", .bool true)]
  forbidden := ∅
  settings := { Settings.standard with plotX := some "t", plotY := some "t" }
  checks := {}
where
  /-- A timer of a given name with given constants. -/
  timer (name : String) (constants : NameMap (Option (Interval Int))) : Component Int :=
    { parent := some ⟨0⟩
      instanceName := some name
      vars := ["t"]
      constants
      body := .base {
        modes := .ofList [("run", {
          name := "run"
          invariant := .bool true
          urgent := false
          flows := some (.ofList [("t", { expr := .const 1 })]) })]
        transitions := [] } }

/-- The entries of the `crossedTimers` lead from the box to the timers and no further. -/
theorem nested_crossedTimers (first : String) (parent : Handle) (outer : String) :
    (crossedTimers first parent outer).tree.Nested := by
  have htimer (child : Handle) (hc : child = ⟨1⟩ ∨ child = ⟨2⟩) :
      (crossedTimers first parent outer).tree.Covers 2 child := by
    -- the timers are automata and have no entries
    refine .of_children fun below hb => ?_
    rcases hc with rfl | rfl <;> cases hb
  refine .of_covers (.of_children fun child hc => htimer child ?_) fun c hc => ?_
  · have hchildren : (crossedTimers first parent outer).tree.children ⟨0⟩ = [⟨1⟩, ⟨2⟩] := rfl
    rw [show (crossedTimers first parent outer).tree.root = ⟨0⟩ from rfl, hchildren] at hc
    simpa using hc
  · have hlisted : (crossedTimers first parent outer).tree.preorder 3 ⟨0⟩ = [⟨0⟩, ⟨1⟩, ⟨2⟩] := rfl
    have hc : c ∈ [⟨0⟩, ⟨1⟩, ⟨2⟩] := hlisted ▸ hc
    simp only [List.mem_cons, List.not_mem_nil, or_false] at hc
    have hsize : (crossedTimers first parent outer).tree.size = 3 := rfl
    rw [hsize]
    rcases hc with rfl | rfl | rfl <;> decide

/-- The check gets to the first of the `crossedTimers`, whatever its name is and wherever the entry
of the second one leads. -/
theorem visits_crossedTimers (first : String) (parent : Handle) (outer : String) :
    (crossedTimers first parent outer).tree.Visits {} 2 ⟨1⟩ := by
  have hroot : (crossedTimers first parent outer).tree.checkDeclarations {} ⟨0⟩ = .ok () := rfl
  have hinst : (crossedTimers first parent outer).tree.checkInstance {} ⟨0⟩
      { parent := ⟨0⟩, child := ⟨1⟩, vars := [⟨"t", "t"⟩], consts := [⟨"n", "k"⟩] } = .ok () := rfl
  exact .child .root hroot rfl (show _ = [] ++ _ :: _ from rfl) nofun hinst

/-- Where the timers bear the names of their entries, the constant of the first one is looked up in
the box, wherever the entry of the second one leads, and the check finds fault with that entry. -/
theorem crossedTimers_with_own_names_come_to_end :
    (crossedTimers "a" ⟨1⟩ "n").tree.Nested ∧ (crossedTimers "a" ⟨1⟩ "n").tree.BearsEntryNames ∧
      (crossedTimers "a" ⟨1⟩ "n").check = .error (.parentMismatch "b" "<root>") ∧
      (∀ violation, (crossedTimers "a" ⟨1⟩ "n").check = .error violation → ¬ violation.IsRunaway) ∧
      (∀ c name, (crossedTimers "a" ⟨1⟩ "n").LooksUp c name →
        (crossedTimers "a" ⟨1⟩ "n").tree.Settles c name) ∧
      (crossedTimers "a" ⟨1⟩ "n").tree.next? (⟨1⟩, "n") = some (⟨0⟩, "k") ∧
      ∃ entry ∈ ((crossedTimers "a" ⟨1⟩ "n").tree.get ⟨0⟩).children.entries,
        entry.2.child = ⟨1⟩ := by
  have hnested := nested_crossedTimers "a" ⟨1⟩ "n"
  have hnames : (crossedTimers "a" ⟨1⟩ "n").tree.BearsEntryNames := .of_arena (by decide)
  obtain ⟨hruns, hends⟩ := check_comes_to_end_iff (crossedTimers "a" ⟨1⟩ "n") hnested
  obtain ⟨hend, hclimbs⟩ := hends hnames
  -- the constant is bound in the network, so the look-up goes on there
  have hnext : (crossedTimers "a" ⟨1⟩ "n").tree.next? (⟨1⟩, "n") = some (⟨0⟩, "k") := by
    decide +kernel
  exact ⟨hnested, hnames, by with_unfolding_all rfl, hend, hruns.1 hend, hnext,
    hclimbs rfl 2 ⟨1⟩ (visits_crossedTimers _ _ _) "n" ⟨0⟩ "k" hnext⟩

/-- Where the first timer bears the name of the second entry, its constant is looked up where that
entry leads, which need not be the network that holds it: in the second timer, or in the first one
again and so for ever. The check compares the names only after that. -/
theorem crossedTimers_with_one_name_run_away :
    ((crossedTimers "b" ⟨1⟩ "n").tree.Nested ∧ (crossedTimers "b" ⟨1⟩ "n").LooksUp ⟨1⟩ "n" ∧
      ¬ (crossedTimers "b" ⟨1⟩ "n").tree.Settles ⟨1⟩ "n" ∧
      ∃ violation, (crossedTimers "b" ⟨1⟩ "n").check = .error violation ∧ violation.IsRunaway) ∧
    (crossedTimers "b" ⟨2⟩ "m").tree.Nested ∧ (crossedTimers "b" ⟨2⟩ "m").LooksUp ⟨1⟩ "n" ∧
      (crossedTimers "b" ⟨2⟩ "m").tree.next? (⟨1⟩, "n") = some (⟨2⟩, "m") ∧
      ((crossedTimers "b" ⟨2⟩ "m").tree.get ⟨2⟩).children.entries = [] ∧
      (crossedTimers "b" ⟨2⟩ "m").check = .error (.instanceNameMismatch "a" "b") := by
  -- the constant is the only one of the first timer
  have hlooks (parent : Handle) (outer : String) :
      (crossedTimers "b" parent outer).LooksUp ⟨1⟩ "n" :=
    ⟨⟨rfl, rfl, rfl⟩, 1, [], [], visits_crossedTimers _ _ _, rfl, rfl, rfl, rfl, nofun⟩
  have hround : ∃ cause, (crossedTimers "b" ⟨1⟩ "n").tree.constantValue ⟨1⟩ "n" = .error cause ∧
      cause.IsCircular := ⟨_, rfl, trivial⟩
  exact ⟨⟨nested_crossedTimers _ _ _, hlooks _ _, Tree.constantValue_isCircular_iff.1 hround,
      _, rfl, trivial⟩,
    nested_crossedTimers _ _ _, hlooks _ _, by decide +kernel, rfl,
    by with_unfolding_all rfl⟩

end HybridAutomata
