import HybridAutomata.Proofs.Component.Rules
import HybridAutomata.Proofs.Model.Queries
/-!
# What is decided

The check of a model decides whether the model is well-formed: `Model.WellFormed` says what this
means without the order in which the check goes, for all components that instance names lead to.

The check goes down the instances and compares links before it follows them. So a model that obeys
the rules is gone through completely, and a model whose links run in a circle is found out.

* `Tree.wellFormed_iff`          what is decided about trees
* `check_decides_wellFormed`     what is decided about models
-/

namespace HybridAutomata

variable {κ : Type}

namespace Tree

/-- The rules of trees. -/
structure WellBuilt (tree : Tree κ) : Prop where
  rootName : tree.rootComponent.instanceName = none
  rootParent : tree.rootComponent.parent = none
  names : ∀ c, tree.Reachable c → (tree.get c).WellNamed
  values : ∀ c, tree.Reachable c → ∀ name ∈ (tree.get c).constants.keys,
    ∃ value, tree.constantValue c name = .ok value
  automata : ∀ c, tree.Reachable c → ∀ automaton, (tree.get c).body = .base automaton →
    (tree.get c).WellBehaved automaton
  networks : ∀ c, tree.Reachable c → ∀ children, (tree.get c).body = .network children →
    children.entries ≠ []
  /-- An entry of a network and its component name the network, and the component bears the name of
  the entry, which is an identifier. -/
  links : ∀ c, tree.Reachable c → ∀ entry ∈ (tree.get c).children.entries,
    tree.LinkOk c entry.1 entry.2 ∧ Text.isIdentifier entry.1 = true
  /-- Both sides of a binding are declared as names of its kind. -/
  bindings : ∀ c, tree.Reachable c → ∀ entry ∈ (tree.get c).children.entries,
    ∀ kind, ∀ binding ∈ entry.2.bindings kind,
      (tree.get c).declares kind binding.outer = true ∧
        (tree.get entry.2.child).declares kind binding.inner = true

namespace WellBuilt

variable {tree : Tree κ} {c : Handle}

/-- A tree that is `WellBuilt` has `Linked` components. -/
theorem linked (h : tree.WellBuilt) : tree.Linked where
  root_lt := by
    -- outside of the arena there are only automata without modes
    apply Nat.lt_of_not_le
    intro hle
    have hbody : (tree.get tree.root).body = .base .empty := by
      rw [get_eq_default hle]
      rfl
    exact (h.automata tree.root tree.reachable_root _ hbody).nonempty rfl
  rootName := h.rootName
  rootParent := h.rootParent
  link c hc entry he := (h.links c hc entry he).1

/-- In a `WellBuilt` tree every reachable component is `NodeOk`: it passes the checks for its own
place. -/
theorem nodeOk (h : tree.WellBuilt) (hc : tree.Reachable c) : tree.NodeOk c := by
  obtain ⟨hdistinct, hidentifiers⟩ := Component.wellNamed_iff.1 (h.names c hc)
  -- what a component is called is an entry of the network around it
  have hown : (∀ own, (tree.get c).instanceName = some own → Text.isIdentifier own = true) ∧
      (tree.get c).instanceName.isSome = (tree.get c).parent.isSome := by
    rcases h.linked.instance?_cases hc with ⟨rfl, -⟩ | ⟨b, name, inst, hb, he, rfl, hlink, -⟩
    · have hname : (tree.get tree.root).instanceName = none := h.rootName
      have hparent : (tree.get tree.root).parent = none := h.rootParent
      simp [hname, hparent]
    · rw [hlink.childName, hlink.childParent]
      refine ⟨fun own ho => ?_, rfl⟩
      obtain rfl := Option.some.inj ho
      exact (h.links b hb _ he).2
  exact {
    ownName := hown.1
    links := hown.2
    distinct := hdistinct
    identifiers := hidentifiers
    values := h.values c hc
    automaton := fun automaton hb => Component.automatonOk_iff.2 (h.automata c hc automaton hb)
    nonempty := fun children hb => by simpa [NameMap.isEmpty] using h.networks c hc children hb
    instances := fun entry he => {
      parent := (h.links c hc entry he).1.parent
      childParent := (h.links c hc entry he).1.childParent
      childName := (h.links c hc entry he).1.childName
      binding := fun kind binding hb => by
        -- declared names are not empty
        obtain ⟨houter, hinner⟩ := h.bindings c hc entry he kind binding hb
        exact ⟨⟨(h.names _ (hc.child he)).ne_empty hinner, (h.names c hc).ne_empty houter⟩,
          houter, hinner⟩ } }

/-- With enough levels to cover what is below, `checkWithin` goes through a `WellBuilt` tree and
accepts it. -/
theorem checkWithin (h : tree.WellBuilt) {levels : Nat} (hc : tree.Reachable c)
    (hl : tree.Covers levels c) : tree.checkWithin {} levels c = .ok () := by
  -- by induction on the levels: the check of a component asks for those below with one level less
  induction levels generalizing c with
  | zero => exact absurd hl (not_covers_zero tree c)
  | succ levels ih =>
    exact checkWithin_succ_eq_ok_iff.2
      ⟨h.nodeOk hc, fun entry he => ih (hc.child he) (hl.child he)⟩

end WellBuilt

/-- The check of a tree decides the rules of trees: a tree is `WellFormed` just if it is
`WellBuilt`. -/
theorem wellFormed_iff {tree : Tree κ} : tree.WellFormed ↔ tree.WellBuilt := by
  constructor
  · intro h
    have hnode (c : Handle) (hc : tree.Reachable c) : tree.NodeOk c := by
      obtain ⟨names, hf⟩ := hc
      exact h.nodeOk hf
    exact {
      rootName := h.rootName
      rootParent := h.rootParent
      names := fun c hc => Component.wellNamed_iff.2
        ⟨(hnode c hc).distinct, (hnode c hc).identifiers⟩
      values := fun c hc => (hnode c hc).values
      automata := fun c hc automaton hb =>
        Component.automatonOk_iff.1 ((hnode c hc).automaton automaton hb)
      networks := fun c hc children hb => by
        simpa [NameMap.isEmpty] using (hnode c hc).nonempty children hb
      links := fun c hc entry he =>
        have hok := (hnode c hc).instances entry he
        ⟨hok.linkOk, (hnode _ (hc.child he)).ownName entry.1 hok.childName⟩
      bindings := fun c hc entry he kind binding hb =>
        (((hnode c hc).instances entry he).binding kind binding hb).2 }
  · intro h
    -- links are consistent, so the components form a finite tree and the levels suffice
    exact ⟨h.rootName, h.rootParent,
      h.checkWithin tree.reachable_root (h.linked.covers tree.reachable_root)⟩

end Tree

namespace Model

/-- The rules of models. -/
structure WellFormed (model : Model κ) : Prop where
  tree : model.tree.WellBuilt
  initial : model.initial.entries ≠ []
  /-- Conditions are given for modes of the model; those of a network are dotted. -/
  modes : ∀ states, ∀ mode ∈ (model.states states).keys,
    model.tree.modeExists model.tree.root mode = true
  dots : model.tree.rootComponent.isNetwork = true →
    ∀ states, ∀ mode ∈ (model.states states).keys, '.' ∈ mode.toList
  /-- Conditions mention variables and constants of the model. -/
  names : ∀ states, ∀ condition ∈ (model.states states).values, ∀ name ∈ condition.vars,
    model.tree.IsVariable name ∨ model.tree.IsConstant name
  plotted : ∀ name ∈ model.settings.plotVariables, model.tree.IsVariable name
  /-- Both plot variables are set, unless there are no variables. -/
  plots : (∃ name, model.tree.IsVariable name) →
    model.settings.plotX.isSome = true ∧ model.settings.plotY.isSome = true

/-- The `Rules` that the check goes through, with the variables that it lists, say that a model is
`WellFormed`. -/
theorem exists_rules_iff {model : Model κ} : (∃ vars, model.Rules vars) ↔ model.WellFormed := by
  constructor
  · rintro ⟨vars, h⟩
    have hvars {name : String} : name ∈ vars ↔ model.tree.IsVariable name :=
      h.tree.linked.mem_allVariables_iff h.listed
    obtain ⟨hplotted, hplots⟩ := Settings.check_eq_ok_iff.1 h.settings
    exact {
      tree := Tree.wellFormed_iff.1 h.tree
      initial := by simpa [NameMap.isEmpty] using h.nonempty
      modes := fun states mode hm => by
        obtain ⟨entry, he, rfl⟩ := List.mem_map.1 hm
        exact h.modes states entry he
      dots := h.dots
      names := fun states condition hc name hn => by
        obtain ⟨entry, he, rfl⟩ := List.mem_map.1 hc
        rw [← hvars, ← h.tree.mem_keys_allConstants_iff]
        exact h.names states entry he name hn
      plotted := fun name hn => hvars.1 (hplotted name hn)
      plots := fun ⟨name, hn⟩ => hplots.resolve_left (List.ne_nil_of_mem (hvars.2 hn)) }
  · intro h
    have htree := Tree.wellFormed_iff.2 h.tree
    obtain ⟨vars, hlisted⟩ := htree.linked.exists_allVariables model.tree.reachable_root
    have hvars {name : String} : name ∈ vars ↔ model.tree.IsVariable name :=
      htree.linked.mem_allVariables_iff hlisted
    refine ⟨vars, {
      tree := htree
      listed := hlisted
      nonempty := by simpa [NameMap.isEmpty] using h.initial
      modes := fun states entry he => h.modes states entry.1 (NameMap.mem_keys_of_mem he)
      names := fun states entry he name hn => by
        rw [hvars, allConstants, htree.mem_keys_allConstants_iff]
        exact h.names states entry.2 (List.mem_map_of_mem he) name hn
      settings := Settings.check_eq_ok_iff.2 ⟨fun name hn => hvars.2 (h.plotted name hn), ?_⟩
      dots := h.dots }⟩
    -- plots are asked for only where there are variables
    cases vars with
    | nil => exact .inl rfl
    | cons first rest => exact .inr (h.plots ⟨first, hvars.1 List.mem_cons_self⟩)

end Model

/-- With all checks on, a model passes just if it is well-formed, whatever its links are. -/
theorem check_decides_wellFormed (model : Model κ) (hchecks : model.checks = {}) :
    model.check = .ok () ↔ model.WellFormed :=
  (Model.check_eq_ok_iff hchecks).trans Model.exists_rules_iff

/-- The clock and the lamp make a well-formed model. -/
theorem clockAndLamp_is_wellFormed : clockAndLamp.WellFormed :=
  (check_decides_wellFormed clockAndLamp rfl).1 (Except.eq_ok_of_isOk (by decide +kernel))

end HybridAutomata
