import HybridAutomata.Proofs.Component.Body
import HybridAutomata.Proofs.Tree.Constants
/-!
# Global names of variables

A chain of variables ends at a variable that is not bound any more, and the qualified name of that
variable is the global name. The variables of a model are the global names of the variables of its
automata.

* `WellFormed.exists_free_of_variableName`   the end of a chain of variables
* `mem_variablesWithin_iff`                  which variables are listed
-/

namespace HybridAutomata.Tree

variable {κ : Type}

/-- The global name of a variable that is not bound. -/
def freeName (tree : Tree κ) (c : Handle) (name : String) : String :=
  if (tree.get c).parent.isNone then name else tree.path c ++ "." ++ name

/-- `variableWithin` gives a free variable its `freeName`, and a bound one the name of the variable
that it is bound to. -/
theorem variableWithin_eq_ok_iff {tree : Tree κ} {steps : Nat} {c : Handle}
    {name listed : String} :
    tree.variableWithin steps c name = .ok listed ↔
      (tree.outer? .var c name = .ok none ∧ listed = tree.freeName c name) ∨
      ∃ b outer rest, tree.outer? .var c name = .ok (some (b, outer)) ∧ steps = rest + 1 ∧
        tree.variableWithin rest b outer = .ok listed := by
  -- the cases of a step: it fails, ends here, or goes on with one step less
  rw [variableWithin.eq_def]
  cases ho : tree.outer? .var c name with
  | error cause => simp [ho]
  | ok outer =>
    rcases outer with _ | ⟨b, outer⟩
    · -- the chain ends here
      cases hp : (tree.get c).parent.isNone <;> simp [ho, freeName, hp, @eq_comm _ listed]
    · cases steps with
      | zero => simp [ho]
      | succ steps =>
        simp only [ho]
        constructor
        · exact fun h => .inr ⟨b, outer, steps, rfl, rfl, h⟩
        · rintro (⟨hnone, -⟩ | ⟨_, _, _, hsome, hsteps, h⟩)
          · cases hnone
          · cases hsome
            cases hsteps
            exact h

namespace Linked

variable {tree : Tree κ} {c d : Handle} {name last : String} {steps : Nat}

/-- `variableWithin` with enough steps leads along a chain to the free name of its end. -/
theorem variableWithin_eq (h : tree.Linked) (hc : tree.Reachable c)
    (hchain : tree.Chain .var c name steps d last) {steps' : Nat} (hsteps : steps ≤ steps') :
    tree.variableWithin steps' c name = .ok (tree.freeName d last) := by
  -- induction along the chain, with one step used up for each link
  induction hchain generalizing steps' with
  | free hfree => exact variableWithin_eq_ok_iff.2 (.inl ⟨h.outer?_of_isFree hc hfree, rfl⟩)
  | bound hi ho _ ih =>
    obtain ⟨rest, rfl⟩ := Nat.exists_eq_add_of_lt hsteps
    refine variableWithin_eq_ok_iff.2 (.inr ⟨_, _, _, h.outer?_of_bound hc hi ho, rfl, ?_⟩)
    exact ih (h.reachable_parent hc hi) (Nat.le_add_right _ _)

/-- `variableName` is the free name at the end of the chain of a variable. -/
theorem variableName_eq (h : tree.Linked) (hc : tree.Reachable c)
    (hend : tree.EndsAt .var c name d last) :
    tree.variableName c name = .ok (tree.freeName d last) := by
  obtain ⟨steps, hchain⟩ := hend
  obtain ⟨steps', d', last', hchain', hsteps⟩ := h.exists_chain hc .var name
  obtain ⟨rfl, -⟩ := hchain.unique hchain'
  exact h.variableWithin_eq hc hchain hsteps

/-- `freeName` agrees with `qualify` in a `Linked` tree whose instances have names. -/
theorem freeName_eq (h : tree.Linked) {names : List String}
    (hf : tree.follow tree.root names = some c) (hne : ∀ name ∈ names, name ≠ "") (name : String) :
    tree.freeName c name = qualify (tree.path c) name := by
  rw [freeName, h.qualify_path_eq hf hne]
  -- only the root has no parent, and its names are not qualified
  by_cases hn : names = []
  · rw [(h.parent_eq_none_iff hf).2 hn, hn]
    rfl
  · have hp : (tree.get c).parent.isNone = false := by
      rw [← Bool.not_eq_true, Option.isNone_iff_eq_none, h.parent_eq_none_iff hf]
      exact hn
    rw [hp, if_neg Bool.false_ne_true, Text.join_concat hn, h.path_eq hf]

/-- `variableName` never fails in a `Linked` tree. -/
theorem exists_variableName (h : tree.Linked) (hc : tree.Reachable c) (name : String) :
    ∃ listed, tree.variableName c name = .ok listed := by
  obtain ⟨steps, d, last, hchain, -⟩ := h.exists_chain hc .var name
  exact ⟨_, h.variableName_eq hc ⟨steps, hchain⟩⟩

/-- `variablesWithin` never fails in a `Linked` tree, with enough levels. -/
theorem exists_variablesWithin (h : tree.Linked) {levels : Nat} (hc : tree.Reachable c)
    (hl : tree.Covers levels c) : ∃ vars, tree.variablesWithin levels c = .ok vars := by
  -- induction on the levels; no variable and no instance fails
  induction levels generalizing c with
  | zero => exact absurd hl (not_covers_zero tree c)
  | succ levels ih =>
    rw [variablesWithin]
    cases hb : (tree.get c).body with
    | base automaton =>
      obtain ⟨names, hn⟩ := List.exists_mapM_eq_ok
        fun name (_ : name ∈ (tree.get c).vars) => h.exists_variableName hc name
      simp only [hn]
      exact ⟨_, rfl⟩
    | network instances =>
      have hchildren := Component.children_of_network hb
      have hbelow (inst : Instance) (hi : inst ∈ instances.values) :
          ∃ vars, tree.variablesWithin levels inst.child = .ok vars := by
        obtain ⟨entry, he, rfl⟩ := List.mem_map.1 hi
        rw [← hchildren] at he
        exact ih (hc.child he) (hl.child he)
      obtain ⟨lists, hlists⟩ := List.exists_mapM_eq_ok hbelow
      simp only [hlists]
      exact ⟨_, rfl⟩

/-- `allVariables` never fails in a `Linked` tree. -/
theorem exists_allVariables (h : tree.Linked) (hc : tree.Reachable c) :
    ∃ vars, tree.allVariables c = .ok vars :=
  h.exists_variablesWithin hc (h.covers hc)

end Linked

namespace WellFormed

variable {tree : Tree κ} {c : Handle} {names : List String} {name : String}

/-- `freeName` agrees with `qualify` in a `WellFormed` tree. -/
theorem freeName_eq (h : tree.WellFormed) (hf : tree.follow tree.root names = some c)
    (name : String) : tree.freeName c name = qualify (tree.path c) name :=
  h.linked.freeName_eq hf
    (fun _ hn => Text.ne_empty_of_isIdentifier (h.isIdentifier_of_follow hf hn)) name

/-- `variableName` gives the qualified name of a variable that `IsFree`. -/
theorem exists_free_of_variableName (h : tree.WellFormed) {listed : String}
    (hf : tree.follow tree.root names = some c) (hname : name ∈ (tree.get c).vars)
    (hv : tree.variableName c name = .ok listed) :
    ∃ names' d name', tree.follow tree.root names' = some d ∧ tree.IsFree .var d name' ∧
      name' ∈ (tree.get d).vars ∧ listed = qualify (tree.path d) name' := by
  -- the name comes from the end of the chain, and the end is declared
  have hc : tree.Reachable c := ⟨names, hf⟩
  obtain ⟨steps, d, last, hchain, -⟩ := h.linked.exists_chain hc .var name
  obtain ⟨names', hf'⟩ := h.linked.reachable_of_chain hc hchain
  have hlast := h.declares_of_chain hc hchain (Component.declares_var_iff.2 hname)
  rw [h.linked.variableName_eq hc ⟨steps, hchain⟩, h.freeName_eq hf'] at hv
  exact ⟨names', d, last, hf', hchain.isFree, Component.declares_var_iff.1 hlast,
    (Except.ok.inj hv).symm⟩

/-- Variables of a `WellFormed` tree have no dots. -/
theorem not_mem_of_mem_vars (h : tree.WellFormed) (hf : tree.follow tree.root names = some c)
    (hname : name ∈ (tree.get c).vars) : '.' ∉ name.toList :=
  Text.not_mem_of_isIdentifier
    ((h.nodeOk hf).identifiers name (mem_checkedNames_iff.2 (.inl hname)))

/-- `qualify` never gives a variable and a constant one name. -/
theorem qualify_var_ne_qualify_const (h : tree.WellFormed) {names' : List String} {d : Handle}
    {other : String} (hf : tree.follow tree.root names = some c)
    (hf' : tree.follow tree.root names' = some d) (hname : name ∈ (tree.get c).vars)
    (hother : other ∈ (tree.get d).constants.keys) :
    qualify (tree.path c) name ≠ qualify (tree.path d) other := by
  intro he
  -- they would be declared by one component, under one name
  obtain ⟨rfl, rfl⟩ := h.qualify_inj hf hf' (h.not_mem_of_mem_vars hf hname)
    (h.not_mem_of_mem_constants hf' hother) he
  have hd := (h.nodeOk hf).distinct
  simp only [Component.checkedNames, if_true, List.nodup_append, List.mem_append] at hd
  exact hd.2.2 name (.inl hname) name hother rfl

end WellFormed

/-! ## Listed variables -/

/-- `variablesWithin` lists the global names of the variables of the automata. -/
theorem mem_variablesWithin_iff {tree : Tree κ} {levels : Nat} {c : Handle} {vars : List String}
    (h : tree.variablesWithin levels c = .ok vars) {listed : String} :
    listed ∈ vars ↔ ∃ d ∈ tree.preorder levels c, (tree.get d).isBase = true ∧
      ∃ name ∈ (tree.get d).vars, tree.variableName d name = .ok listed := by
  -- induction on the levels, for whatever is listed
  induction levels generalizing c vars with
  | zero => cases h
  | succ levels ih =>
    rw [variablesWithin] at h
    cases hb : (tree.get c).body with
    | base automaton =>
      have hbase : (tree.get c).isBase = true := by rw [Component.isBase, hb]
      have hchildren : tree.children c = [] := by
        rw [children, Component.children_of_base hb]
        rfl
      -- an automaton lists the global names of its own variables
      simp only [hb] at h
      obtain ⟨names, hn, h⟩ := Except.bind_eq_ok_iff.1 h
      obtain rfl := Except.ok.inj h
      rw [mem_firstOccurrences, List.mem_of_mapM_eq_ok hn, preorder, hchildren]
      simp [hbase]
    | network instances =>
      have hbase : (tree.get c).isBase = false := by rw [Component.isBase, hb]
      have hchildren : tree.children c = instances.values.map Instance.child := by
        rw [children, Component.children_of_network hb]
      -- a network lists what its instances list
      simp only [hb] at h
      obtain ⟨lists, hl, h⟩ := Except.bind_eq_ok_iff.1 h
      obtain rfl := Except.ok.inj h
      have hlists (list : List String) :
          list ∈ lists ↔
            ∃ inst ∈ instances.values, tree.variablesWithin levels inst.child = .ok list :=
        List.mem_of_mapM_eq_ok hl
      simp only [mem_firstOccurrences, List.mem_mergeSort, List.mem_flatten, hlists, preorder,
        hchildren, List.mem_cons, List.mem_flatMap, List.mem_map]
      constructor
      · rintro ⟨list, ⟨inst, hi, hlist⟩, hm⟩
        obtain ⟨d, hd, hv⟩ := (ih hlist).1 hm
        exact ⟨d, .inr ⟨inst.child, ⟨inst, hi, rfl⟩, hd⟩, hv⟩
      · rintro ⟨d, rfl | ⟨_, ⟨inst, hi, rfl⟩, hd⟩, hv⟩
        · cases hbase.symm.trans hv.1
        · obtain ⟨list, hlist⟩ := List.exists_of_mapM_eq_ok hl hi
          exact ⟨list, ⟨inst, hi, hlist⟩, (ih hlist).2 ⟨d, hd, hv⟩⟩

/-- A global name of a variable of an automaton. -/
def IsVariable (tree : Tree κ) (listed : String) : Prop :=
  ∃ c, tree.Reachable c ∧ (tree.get c).isBase = true ∧
    ∃ name ∈ (tree.get c).vars, tree.variableName c name = .ok listed

/-- `allVariables` of a `Linked` tree are the names that `IsVariable`. -/
theorem Linked.mem_allVariables_iff {tree : Tree κ} (h : tree.Linked) {vars : List String}
    (hvars : tree.allVariables tree.root = .ok vars) {listed : String} :
    listed ∈ vars ↔ tree.IsVariable listed := by
  simp only [mem_variablesWithin_iff hvars, ← descendants_eq, h.mem_descendants_iff]
  rfl

/-- In a `WellFormed` tree every listed variable is the qualified name of one that `IsFree`. -/
theorem WellFormed.exists_free_of_mem_allVariables {tree : Tree κ} (h : tree.WellFormed)
    {vars : List String} (hvars : tree.allVariables tree.root = .ok vars) {listed : String}
    (hl : listed ∈ vars) :
    ∃ names d name, tree.follow tree.root names = some d ∧ tree.IsFree .var d name ∧
      name ∈ (tree.get d).vars ∧ listed = qualify (tree.path d) name := by
  obtain ⟨c, hc, -, name, hname, hv⟩ := (mem_variablesWithin_iff hvars).1 hl
  obtain ⟨names, -, hf⟩ := mem_preorder_iff.1 hc
  exact h.exists_free_of_variableName hf hname hv

end HybridAutomata.Tree
