import HybridAutomata.Proofs.Component.Body
import HybridAutomata.Proofs.Component.Check
import HybridAutomata.Proofs.Tree.Linked
import HybridAutomata.Tree.Check
/-!
# What the check of a tree says

With all checks on, a component passes if it obeys the rules for its own place in the tree,
`NodeOk`, and the components below it pass. A check that leaves constants alone still goes through
all links.

* `checkInstance_eq_ok_iff`       the rules of an instance
* `checkWithin_succ_eq_ok_iff`    the rules of a component and those below it
* `entry_of_checkWithin`          the instances that any check goes through
* `linkOk_of_checkWithin`         the links that any check goes through
-/

namespace HybridAutomata.Tree

variable {κ : Type}

/-- The rules of an instance, as far as they concern the network and the instance itself. -/
structure InstanceOk (tree : Tree κ) (owner : Handle) (name : String) (inst : Instance) :
    Prop where
  parent : inst.parent = owner
  childParent : (tree.get inst.child).parent = some owner
  childName : (tree.get inst.child).instanceName = some name
  binding : ∀ kind, ∀ binding ∈ inst.bindings kind,
    (binding.inner ≠ "" ∧ binding.outer ≠ "") ∧
      (tree.get owner).declares kind binding.outer = true ∧
      (tree.get inst.child).declares kind binding.inner = true

/-- The rules of a component at its place in the tree. -/
structure NodeOk (tree : Tree κ) (c : Handle) : Prop where
  ownName : ∀ own, (tree.get c).instanceName = some own → Text.isIdentifier own = true
  links : (tree.get c).instanceName.isSome = (tree.get c).parent.isSome
  distinct : ((tree.get c).checkedNames {}).Nodup
  identifiers : ∀ name ∈ (tree.get c).checkedNames {}, Text.isIdentifier name = true
  /-- Every constant has a value. -/
  values : ∀ name ∈ (tree.get c).constants.keys, ∃ value, tree.constantValue c name = .ok value
  automaton : ∀ automaton, (tree.get c).body = .base automaton →
    (tree.get c).AutomatonOk automaton
  nonempty : ∀ children, (tree.get c).body = .network children → children.isEmpty = false
  instances : ∀ entry ∈ (tree.get c).children.entries, tree.InstanceOk c entry.1 entry.2

/-- An instance that is `InstanceOk` is linked to its network. -/
theorem InstanceOk.linkOk {tree : Tree κ} {owner : Handle} {name : String} {inst : Instance}
    (h : tree.InstanceOk owner name inst) : tree.LinkOk owner name inst :=
  ⟨h.parent, h.childParent, h.childName⟩

/-- `checkedNames` are variables, labels and constants if constants are checked. -/
theorem mem_checkedNames_iff {component : Component κ} {name : String} :
    name ∈ component.checkedNames {} ↔
      name ∈ component.vars ∨ name ∈ component.labels ∨ name ∈ component.constants.keys := by
  simp [Component.checkedNames]

/-- `checkDeclarations` accepts a component with consistent links, identifiers that differ as names,
and constants with values. -/
theorem checkDeclarations_eq_ok_iff {tree : Tree κ} {c : Handle} :
    tree.checkDeclarations {} c = .ok () ↔
      ((∀ own, (tree.get c).instanceName = some own → Text.isIdentifier own = true) ∧
        (tree.get c).instanceName.isSome = (tree.get c).parent.isSome) ∧
      (((tree.get c).checkedNames {}).Nodup ∧
        ∀ name ∈ (tree.get c).checkedNames {}, Text.isIdentifier name = true) ∧
      ∀ name ∈ (tree.get c).constants.keys, ∃ value, tree.constantValue c name = .ok value := by
  rw [checkDeclarations, Except.check_bind_eq_ok_iff, Except.check_bind_eq_ok_iff,
    Component.checkLinks_eq_ok_iff, checkNames_eq_ok_iff, if_pos rfl, List.forM_eq_ok_iff]
  simp only [List.not_mem_nil, not_false_eq_true, and_true]
  -- a constant passes if its look-up succeeds
  refine and_congr_right' (and_congr_right' (forall_congr' fun name => imp_congr_right fun _ => ?_))
  cases tree.constantValue c name <;> simp

/-- `checkInstance` accepts an instance that is linked to its network, and whose bindings have
declared names on both sides. -/
theorem checkInstance_eq_ok_iff {tree : Tree κ} {owner : Handle} {inst : Instance} :
    tree.checkInstance {} owner inst = .ok () ↔
      (inst.parent = owner ∧ (tree.get inst.child).parent = some owner) ∧
      ∀ kind, ∀ binding ∈ inst.bindings kind,
        (binding.inner ≠ "" ∧ binding.outer ≠ "") ∧
          (tree.get owner).declares kind binding.outer = true ∧
          (tree.get inst.child).declares kind binding.inner = true := by
  -- the check goes through all kinds of names
  have hkind (p : NameKind → Prop) :
      (∀ kind ∈ [NameKind.var, .const, .label], p kind) ↔ ∀ kind, p kind :=
    ⟨fun h kind => h kind (by cases kind <;> simp), fun h kind _ => h kind⟩
  rw [checkInstance]
  dsimp only
  rw [Except.guard_bind_eq_ok_iff, not_or, Decidable.not_not, Decidable.not_not,
    List.forM_eq_ok_iff, hkind]
  simp only [List.forM_eq_ok_iff, Binding.check_eq_ok_iff]

/-- `checkWithin` accepts a component that is `NodeOk` if it accepts the components below it. -/
theorem checkWithin_succ_eq_ok_iff {tree : Tree κ} {levels : Nat} {c : Handle} :
    tree.checkWithin {} (levels + 1) c = .ok () ↔
      tree.NodeOk c ∧ ∀ entry ∈ (tree.get c).children.entries,
        tree.checkWithin {} levels entry.2.child = .ok () := by
  rw [checkWithin, Except.check_bind_eq_ok_iff, checkDeclarations_eq_ok_iff]
  -- the rules for automata are void for a network, and the other way round
  cases hb : (tree.get c).body with
  | base automaton =>
    have hc := Component.children_of_base hb
    simp only [hb, Component.checkAutomaton_eq_ok_iff, hc, NameMap.entries_empty, List.not_mem_nil,
      false_implies, implies_true, and_true]
    constructor
    · rintro ⟨⟨⟨hown, hlinks⟩, ⟨hd, hi⟩, hv⟩, ha⟩
      refine ⟨hown, hlinks, hd, hi, hv, fun a h => ?_, fun children h => ?_, fun entry h => ?_⟩
      · obtain rfl := Body.base.inj (hb.symm.trans h)
        exact ha
      · cases hb.symm.trans h
      · rw [hc] at h
        cases h
    · intro h
      exact ⟨⟨⟨h.ownName, h.links⟩, ⟨h.distinct, h.identifiers⟩, h.values⟩, h.automaton _ hb⟩
  | network children =>
    have hc := Component.children_of_network hb
    simp only [hb, Except.guard_bind_eq_ok_iff, List.forM_eq_ok_iff, Except.check_bind_eq_ok_iff,
      checkInstance_eq_ok_iff, hc]
    constructor
    · rintro ⟨⟨⟨hown, hlinks⟩, ⟨hd, hi⟩, hv⟩, hne, hall⟩
      refine ⟨⟨hown, hlinks, hd, hi, hv, fun a h => ?_, fun cs h => ?_, fun entry h => ?_⟩,
        fun entry h => (hall entry h).2.1⟩
      · cases hb.symm.trans h
      · obtain rfl := Body.network.inj (hb.symm.trans h)
        simpa using hne
      · rw [hc] at h
        obtain ⟨⟨⟨hp, hcp⟩, hbind⟩, -, hname⟩ := hall entry h
        refine ⟨hp, hcp, ?_, hbind⟩
        split at hname
        · cases hname
        · next hn => exact Decidable.not_not.1 hn
    · rintro ⟨h, hbelow⟩
      refine ⟨⟨⟨h.ownName, h.links⟩, ⟨h.distinct, h.identifiers⟩, h.values⟩, ?_, fun entry he => ?_⟩
      · simp [h.nonempty _ hb]
      · have hok := h.instances entry (by rw [hc]; exact he)
        refine ⟨⟨⟨hok.parent, hok.childParent⟩, hok.binding⟩, hbelow entry he, ?_⟩
        rw [hok.childName, if_neg (by simp)]
        rfl

/-- `checkInstance` compares the links of an instance first. -/
theorem parents_of_checkInstance {tree : Tree κ} {options : CheckOptions} {owner : Handle}
    {inst : Instance} (h : tree.checkInstance options owner inst = .ok ()) :
    inst.parent = owner ∧ (tree.get inst.child).parent = some owner := by
  rw [checkInstance] at h
  dsimp only at h
  rw [Except.guard_bind_eq_ok_iff, not_or, Decidable.not_not, Decidable.not_not] at h
  exact h.1

/-- Whatever `checkInstance` leaves out, it goes through the bindings of an instance. -/
theorem binding_of_checkInstance {tree : Tree κ} {options : CheckOptions} {owner : Handle}
    {inst : Instance} (h : tree.checkInstance options owner inst = .ok ()) {kind : NameKind}
    {binding : Binding} (hb : binding ∈ inst.bindings kind) :
    ((tree.get owner).declares kind binding.outer = true ∨
        (options.constants = false ∧ binding.literal?.isSome = true)) ∧
      (tree.get inst.child).declares kind binding.inner = true := by
  rw [checkInstance] at h
  dsimp only at h
  rw [Except.guard_bind_eq_ok_iff, List.forM_eq_ok_iff] at h
  -- every kind of name is gone through
  have hkind := h.2 kind (by cases kind <;> simp)
  rw [List.forM_eq_ok_iff] at hkind
  exact (Binding.check_eq_ok_iff_of_constants.1 (hkind binding hb)).2

/-- Whatever `checkWithin` leaves out, it goes through the own name of a component and its variables
and labels. -/
theorem names_of_checkWithin {tree : Tree κ} {options : CheckOptions} {levels : Nat} {c : Handle}
    (h : tree.checkWithin options (levels + 1) c = .ok ()) :
    ((∀ own, (tree.get c).instanceName = some own → Text.isIdentifier own = true) ∧
        (tree.get c).instanceName.isSome = (tree.get c).parent.isSome) ∧
      ∀ name ∈ (tree.get c).checkedNames options, Text.isIdentifier name = true := by
  rw [checkWithin, Except.check_bind_eq_ok_iff, checkDeclarations, Except.check_bind_eq_ok_iff,
    Except.check_bind_eq_ok_iff, Component.checkLinks_eq_ok_iff, checkNames_eq_ok_iff] at h
  exact ⟨h.1.1, fun name hn => (h.1.2.1.2 name hn).1⟩

/-- `checkWithin` goes through the instances in a component. -/
theorem entry_of_checkWithin {tree : Tree κ} {options : CheckOptions} {levels : Nat} {c : Handle}
    (h : tree.checkWithin options (levels + 1) c = .ok ()) {entry : String × Instance}
    (he : entry ∈ (tree.get c).children.entries) :
    tree.checkInstance options c entry.2 = .ok () ∧
      tree.checkWithin options levels entry.2.child = .ok () ∧
      (tree.get entry.2.child).instanceName = some entry.1 := by
  rw [checkWithin, Except.check_bind_eq_ok_iff] at h
  replace h := h.2
  cases hb : (tree.get c).body with
  | base automaton =>
    rw [Component.children_of_base hb] at he
    cases he
  | network children =>
    -- the entry is checked among the others, and its name is compared at the end
    rw [Component.children_of_network hb] at he
    simp only [hb, Except.guard_bind_eq_ok_iff, List.forM_eq_ok_iff,
      Except.check_bind_eq_ok_iff] at h
    obtain ⟨hinst, hbelow, hname⟩ := h.2 entry he
    refine ⟨hinst, hbelow, ?_⟩
    split at hname
    · cases hname
    · next hn => exact Decidable.not_not.1 hn

/-- Whatever `checkWithin` leaves out, it goes through the links of a component and those below it.
-/
theorem linkOk_of_checkWithin {tree : Tree κ} {options : CheckOptions} {levels : Nat} {c : Handle}
    (h : tree.checkWithin options (levels + 1) c = .ok ()) {entry : String × Instance}
    (he : entry ∈ (tree.get c).children.entries) :
    tree.LinkOk c entry.1 entry.2 ∧ tree.checkWithin options levels entry.2.child = .ok () := by
  obtain ⟨hinst, hbelow, hname⟩ := entry_of_checkWithin h he
  obtain ⟨hparent, hchildParent⟩ := parents_of_checkInstance hinst
  exact ⟨⟨hparent, hchildParent, hname⟩, hbelow⟩

/-- Whatever `checkWithin` leaves out, it goes through the automata. -/
theorem automatonOk_of_checkWithin {tree : Tree κ} {options : CheckOptions} {levels : Nat}
    {c : Handle} (h : tree.checkWithin options (levels + 1) c = .ok ()) {automaton : Automaton κ}
    (hb : (tree.get c).body = .base automaton) : (tree.get c).AutomatonOk automaton := by
  rw [checkWithin, Except.check_bind_eq_ok_iff] at h
  simp only [hb, Component.checkAutomaton_eq_ok_iff] at h
  exact h.2

end HybridAutomata.Tree
