import HybridAutomata.Proofs.NameMap.Rekey
import HybridAutomata.Proofs.Tree.Constants
import HybridAutomata.Proofs.Tree.Location
import HybridAutomata.Tree.Modes
/-!
# Trees with a single automaton

If the root is an automaton and no instance then nothing else can be reached, and no name is
qualified: every query about the tree is answered by the root itself. What else the arena holds does
not matter.

* `Flat.allVariables_eq`, `Flat.allConstants_eq`   the names of the tree are those of the root
* `Flat.wellFormed_iff`                            the tree is well-formed if the root is
-/

namespace HybridAutomata.Tree

variable {κ : Type}

/-- The root is an automaton and no instance. -/
structure Flat (tree : Tree κ) : Prop where
  root_lt : tree.root.index < tree.size
  rootName : tree.rootComponent.instanceName = none
  rootParent : tree.rootComponent.parent = none
  isBase : tree.rootComponent.isBase = true

namespace Flat

variable {tree : Tree κ} {name : String}

/-- The arena of a `Flat` tree is not empty, so a walk from its root has one level to open. -/
theorem exists_levels (h : tree.Flat) : ∃ levels, tree.size = levels + 1 :=
  Nat.exists_eq_succ_of_ne_zero (Nat.ne_of_gt (Nat.zero_lt_of_lt h.root_lt))

theorem children_root (h : tree.Flat) : (tree.get tree.root).children = ∅ :=
  Component.children_of_isBase h.isBase

/-- A walk of a `Flat` tree ends at its root. -/
theorem preorder_root (h : tree.Flat) (levels : Nat) :
    tree.preorder (levels + 1) tree.root = [tree.root] := by
  rw [preorder, children, h.children_root]
  rfl

/-- The root is the only entry of `descendants` in a `Flat` tree. -/
theorem descendants_root (h : tree.Flat) : tree.descendants tree.root = [tree.root] := by
  obtain ⟨levels, hsize⟩ := h.exists_levels
  rw [descendants_eq, hsize, h.preorder_root]

/-- The root is the only automaton of a `Flat` tree. -/
theorem baseComponents_eq (h : tree.Flat) : tree.baseComponents = [tree.root] := by
  rw [baseComponents, h.descendants_root, List.filter_cons_of_pos, List.filter_nil]
  exact h.isBase

theorem path_root (h : tree.Flat) : tree.path tree.root = "" :=
  path_eq_empty h.rootName h.rootParent

/-- `qualify` adds nothing to the names of the root. -/
theorem qualify_root (h : tree.Flat) (name : String) :
    qualify (tree.path tree.root) name = name := by
  rw [h.path_root]
  rfl

/-! ## Names -/

/-- A variable of the root is its own global name. -/
theorem variableName_root (h : tree.Flat) (name : String) :
    tree.variableName tree.root name = .ok name := by
  have hparent : (tree.get tree.root).parent = none := h.rootParent
  rw [variableName, variableWithin.eq_def]
  simp only [outer?_of_parent_eq_none hparent, hparent, Option.isNone_none, if_true]

/-- The variables of the tree are those of the root. -/
theorem allVariables_eq (h : tree.Flat) :
    tree.allVariables tree.root = .ok (firstOccurrences tree.rootComponent.vars) := by
  obtain ⟨levels, hsize⟩ := h.exists_levels
  obtain ⟨automaton, hb⟩ := Component.exists_automaton h.isBase
  -- every name comes back as it went in
  have hnames : (tree.get tree.root).vars.mapM (tree.variableName tree.root) =
      .ok (tree.get tree.root).vars := by
    have hpure : tree.variableName tree.root = pure := funext h.variableName_root
    rw [hpure, List.mapM_pure, List.map_id']
    rfl
  rw [allVariables, hsize, variablesWithin]
  rw [rootComponent] at hb
  simp only [hb, hnames, Except.ok_bind, Except.pure_eq_ok, rootComponent]

/-- The constants of the tree are those of the root. -/
theorem allConstants_eq (h : tree.Flat) :
    tree.allConstants tree.root = tree.rootComponent.constants := by
  obtain ⟨levels, hsize⟩ := h.exists_levels
  -- the root is no instance, so no constant is bound
  have hfree : ((tree.get tree.root).constants.filter fun name _ =>
      ((tree.instance? tree.root).bind fun inst => inst.outerName? .const name).isNone) =
      tree.rootComponent.constants := by
    rw [instance?_of_parent_eq_none h.rootParent]
    exact NameMap.ext (List.filter_eq_self.2 fun _ _ => rfl)
  rw [allConstants, hsize, constantsWithin, children, h.children_root]
  change tree.ownConstants tree.root = _
  rw [ownConstants, hfree, NameMap.rekey_eq_self fun name _ => h.qualify_root name]

/-- `constantValue` at the root reads off the declaration of the constant. -/
theorem constantValue_root (h : tree.Flat) (name : String) :
    tree.constantValue tree.root name =
      match tree.rootComponent.constants.get? name with
      | none => .error (.unknownConstant name tree.rootComponent.displayName)
      | some none => .error (.unassignedConstant name tree.rootComponent.displayName)
      | some (some value) => .ok value :=
  constantWithin_of_free (outer?_of_parent_eq_none h.rootParent .const name) _

/-- `modeExists` holds of each mode of the root. -/
theorem modeExists_of_mem {automaton : Automaton κ}
    (hb : tree.rootComponent.body = .base automaton) {mode : String}
    (hm : mode ∈ automaton.modes.keys) : tree.modeExists tree.root mode = true := by
  rw [rootComponent] at hb
  rw [modeExists, Bool.or_eq_true, hasModePath.eq_def]
  simp only [hb]
  exact .inr (NameMap.contains_iff.2 hm)

/-- Two trees whose roots have modes of the same names, in arenas of one size, give the same
`modeExists`. -/
theorem modeExists_congr {other : Tree κ} {automaton automaton' : Automaton κ}
    (hb : tree.rootComponent.body = .base automaton)
    (hb' : other.rootComponent.body = .base automaton')
    (hsize : other.size = tree.size) (hkeys : automaton'.modes.keys = automaton.modes.keys)
    (mode : String) : other.modeExists other.root mode = tree.modeExists tree.root mode := by
  have hcontains (name : String) :
      automaton'.modes.contains name = automaton.modes.contains name := by
    rw [Bool.eq_iff_iff, NameMap.contains_iff, NameMap.contains_iff, hkeys]
  rw [rootComponent] at hb hb'
  -- both spellings end at the root, where the text is looked up among the modes
  rw [modeExists, modeExists, hasModePath.eq_def, hasModePath.eq_def, hsize]
  cases tree.size with
  | zero => simp only [takeModes, hb, hb', hcontains]
  | succ levels => simp only [takeModes, hb, hb', hcontains]

/-! ## The check -/

/-- A `Flat` tree is `WellFormed` just if its root is `NodeOk`. -/
theorem wellFormed_iff (h : tree.Flat) :
    tree.WellFormed ↔ tree.NodeOk tree.root := by
  obtain ⟨levels, hsize⟩ := h.exists_levels
  have hcheck : tree.check {} = .ok () ↔ tree.NodeOk tree.root := by
    rw [check, checkComponent, if_pos rfl, hsize, checkWithin_succ_eq_ok_iff, h.children_root]
    simp
  constructor
  · exact fun hw => hcheck.1 hw.check
  · exact fun hn => ⟨h.rootName, h.rootParent, hcheck.2 hn⟩

/-- `NodeOk` of the root, spelled out: names are different identifiers, constants have values and
the automaton obeys its rules. -/
theorem nodeOk_iff (h : tree.Flat) {automaton : Automaton κ}
    (hb : tree.rootComponent.body = .base automaton) :
    tree.NodeOk tree.root ↔
      (tree.rootComponent.checkedNames {}).Nodup ∧
        (∀ name ∈ tree.rootComponent.checkedNames {}, Text.isIdentifier name = true) ∧
        (∀ entry ∈ tree.rootComponent.constants.entries, entry.2.isSome = true) ∧
        tree.rootComponent.AutomatonOk automaton := by
  -- the value of a constant is what it is declared with
  have hvalues : (∀ name ∈ (tree.get tree.root).constants.keys, ∃ value,
      tree.constantValue tree.root name = .ok value) ↔
      ∀ entry ∈ tree.rootComponent.constants.entries, entry.2.isSome = true := by
    rw [NameMap.keys, List.forall_mem_map]
    refine forall_congr' fun entry => imp_congr_right fun he => ?_
    have hget : tree.rootComponent.constants.get? entry.1 = some entry.2 :=
      NameMap.get?_eq_some_iff.2 he
    rw [h.constantValue_root, hget]
    cases entry.2 <;> simp
  rw [← hvalues]
  constructor
  · intro hn
    exact ⟨hn.distinct, hn.identifiers, hn.values, hn.automaton automaton hb⟩
  · rintro ⟨hdistinct, hidentifiers, hvalues, hautomaton⟩
    constructor
    -- the other rules are about instances, and there are none
    case ownName =>
      intro own hown
      cases h.rootName.symm.trans hown
    case links =>
      exact (congrArg Option.isSome h.rootName).trans (congrArg Option.isSome h.rootParent).symm
    case distinct => exact hdistinct
    case identifiers => exact hidentifiers
    case values => exact hvalues
    case automaton =>
      intro other hother
      cases hb.symm.trans hother
      exact hautomaton
    case nonempty =>
      intro children hchildren
      cases hb.symm.trans hchildren
    case instances =>
      intro entry he
      rw [h.children_root] at he
      cases he

end Flat

end HybridAutomata.Tree
