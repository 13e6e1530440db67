import HybridAutomata.Proofs.Component.Body
import HybridAutomata.Proofs.Tree.Arena
import HybridAutomata.Proofs.Tree.Variables
import HybridAutomata.Tree.Modes
/-!
# Networks of automata

A tree is shallow if its root is a network of automata that are linked to it. Everything about such
a tree can be read off the entries of its root: there is one step up from every automaton, so a
bound name leads to the root and no further.

* `Shallow.wellFormed_iff`                when the tree passes its check
* `Shallow.constantValue_child_iff`       the values of constants
* `Shallow.variableName_eq`               the global names of variables
* `Shallow.exists_allVariables`, `Shallow.mem_allConstants_iff`   what conditions may mention
* `Shallow.modeExists_join`               a mode of the root lists a mode of each automaton
-/

namespace HybridAutomata

namespace Component

variable {κ : Type}

/-- A component as an instance of a network: the same declarations and body, with other links. -/
def placedAs (component : Component κ) (parent : Handle) (name : String) : Component κ :=
  { component with parent := some parent, instanceName := some name }

/-- `AutomatonOk` does not depend on links. -/
theorem AutomatonOk.placedAs {component : Component κ} {automaton : Automaton κ}
    (h : component.AutomatonOk automaton) (parent : Handle) (name : String) :
    (component.placedAs parent name).AutomatonOk automaton :=
  h.congr rfl rfl rfl

end Component

namespace Tree

variable {κ : Type}

/-- `takeModes` takes the mode of an automaton off a list of modes, and leaves the others. -/
theorem takeModes_join {tree : Tree κ} {c : Handle} {automaton : Automaton κ} {levels : Nat}
    {mode : String} (hb : (tree.get c).body = .base automaton) (hmode : mode ∈ automaton.modes.keys)
    (hdot : '.' ∉ mode.toList) (others : List String) :
    tree.takeModes (levels + 1) c (Text.join "." (mode :: others)) =
      some (Text.join "." others) := by
  have hcontains : automaton.modes.contains mode = true := NameMap.contains_iff.2 hmode
  rw [takeModes, hb]
  -- behind the last mode there is no dot
  by_cases ho : others = []
  · subst ho
    have hjoin : Text.join "." [mode] = mode := rfl
    simp only [hjoin, Text.cut?_of_not_mem hdot, Option.getD_none, hcontains, if_true]
    rfl
  · simp only [Text.cut?_join ho hdot, Option.getD_some, hcontains, if_true]

/-- `takeModes` over several automata takes all modes off, one after the other, if there is a mode
for each of them. -/
theorem foldlM_takeModes_join {tree : Tree κ} {levels : Nat} {entries : List (String × Instance)}
    {modes : List String} (hlevels : ∀ entry ∈ entries, ∃ below, levels = below + 1)
    (hlength : modes.length = entries.length)
    (hmodes : ∀ pair ∈ entries.zip modes, ∃ automaton,
      (tree.get pair.1.2.child).body = .base automaton ∧
        pair.2 ∈ automaton.modes.keys ∧ '.' ∉ pair.2.toList) :
    (entries.map Prod.snd).foldlM (fun rest inst => tree.takeModes levels inst.child rest)
      (Text.join "." modes) = some "" := by
  -- induction on the entries, with one mode less for each of them
  induction entries generalizing modes with
  | nil =>
    obtain rfl := List.length_eq_zero_iff.1 hlength
    rfl
  | cons entry rest ih =>
    obtain ⟨mode, others, rfl⟩ := List.exists_cons_of_length_eq_add_one hlength
    obtain ⟨automaton, hb, hmode, hdot⟩ := hmodes (entry, mode) List.mem_cons_self
    obtain ⟨below, hbelow⟩ := hlevels entry List.mem_cons_self
    have htake : tree.takeModes levels entry.2.child (Text.join "." (mode :: others)) =
        some (Text.join "." others) := by
      rw [hbelow]
      exact takeModes_join hb hmode hdot others
    rw [List.map_cons, List.foldlM_cons, htake]
    exact ih (fun other ho => hlevels other (List.mem_cons_of_mem _ ho))
      (Nat.succ.inj hlength) fun pair hp => hmodes pair (List.mem_cons_of_mem _ hp)

/-- A root without links, over automata that are linked to it. -/
structure Shallow (tree : Tree κ) : Prop where
  rootName : tree.rootComponent.instanceName = none
  rootParent : tree.rootComponent.parent = none
  isNetwork : tree.rootComponent.isNetwork = true
  isBase : ∀ entry ∈ tree.rootComponent.children.entries, (tree.get entry.2.child).isBase = true
  instances : ∀ entry ∈ tree.rootComponent.children.entries,
    tree.InstanceOk tree.root entry.1 entry.2

/-- A `WellFormed` tree is `Shallow` if the instances of its root are automata. -/
theorem WellFormed.shallow {tree : Tree κ} (h : tree.WellFormed)
    (hnetwork : tree.rootComponent.isNetwork = true)
    (hbase : ∀ entry ∈ tree.rootComponent.children.entries,
      (tree.get entry.2.child).isBase = true) : tree.Shallow where
  rootName := h.rootName
  rootParent := h.rootParent
  isNetwork := hnetwork
  isBase := hbase
  instances := (h.nodeOk (follow_nil tree tree.root)).instances

/-- The global name of a variable of an instance of the root. -/
def globalName (name : String) (inst : Instance) (inner : String) : String :=
  (inst.outerName? .var inner).getD (name ++ "." ++ inner)

namespace Shallow

variable {tree : Tree κ} {name : String} {inst : Instance}

/-! ## Places -/

theorem root_lt (h : tree.Shallow) : tree.root.index < tree.size :=
  index_lt_of_isNetwork h.isNetwork

/-- The body of the root is a network of its instances. -/
theorem body_root (h : tree.Shallow) :
    (tree.get tree.root).body = .network tree.rootComponent.children := by
  have hn := h.isNetwork
  rw [rootComponent] at hn ⊢
  rcases hr : tree.get tree.root with ⟨_, _, _, _, _, _, _ | _⟩
  · rw [hr] at hn
    cases hn
  · rfl

/-- The arena has room for an automaton besides the root. -/
theorem one_lt_size (h : tree.Shallow) (he : (name, inst) ∈ tree.rootComponent.children.entries) :
    1 < tree.size := by
  have hroot := h.root_lt
  have hparent := (h.instances _ he).childParent
  have hchild : inst.child.index < tree.size := by
    apply Nat.lt_of_not_le
    intro hle
    rw [get_eq_default hle] at hparent
    cases hparent
  -- the root has no parent, but the child has one
  have hne : inst.child.index ≠ tree.root.index := by
    intro hi
    have hc : inst.child = tree.root := congrArg Handle.mk hi
    rw [hc] at hparent
    cases hparent.symm.trans h.rootParent
  omega

/-- The size of the arena gives a level for the root, and another one if the root has an instance.
-/
theorem exists_levels (h : tree.Shallow) : ∃ levels, tree.size = levels + 1 ∧
    ∀ entry ∈ tree.rootComponent.children.entries, ∃ below, levels = below + 1 := by
  obtain ⟨levels, hs⟩ := Nat.exists_eq_succ_of_ne_zero (Nat.ne_zero_of_lt h.root_lt)
  refine ⟨levels, hs, fun entry he => Nat.exists_eq_succ_of_ne_zero ?_⟩
  have hlt := h.one_lt_size he
  omega

/-- `preorder` meets the root and its instances. -/
theorem mem_preorder_iff (h : tree.Shallow) {c : Handle} :
    c ∈ tree.preorder tree.size tree.root ↔
      c = tree.root ∨ ∃ entry ∈ tree.rootComponent.children.entries, c = entry.2.child := by
  obtain ⟨levels, hs, hlevels⟩ := h.exists_levels
  -- an automaton has nothing below it
  have hchild {entry : String × Instance} (he : entry ∈ tree.rootComponent.children.entries) :
      tree.preorder levels entry.2.child = [entry.2.child] := by
    obtain ⟨below, rfl⟩ := hlevels entry he
    rw [preorder, children, Component.children_of_isBase (h.isBase _ he)]
    rfl
  rw [hs, preorder, List.mem_cons, List.mem_flatMap]
  simp only [mem_children_iff]
  constructor
  · rintro (rfl | ⟨_, ⟨entry, he, rfl⟩, hc⟩)
    · exact .inl rfl
    · rw [hchild he] at hc
      exact .inr ⟨entry, he, List.mem_singleton.1 hc⟩
  · rintro (rfl | ⟨entry, he, rfl⟩)
    · exact .inl rfl
    · refine .inr ⟨_, ⟨entry, he, rfl⟩, ?_⟩
      rw [hchild he]
      exact List.mem_singleton.2 rfl

/-- A `Shallow` tree is `WellFormed` just if its root and its instances are `NodeOk`. -/
theorem wellFormed_iff (h : tree.Shallow) :
    tree.WellFormed ↔ tree.NodeOk tree.root ∧
      ∀ entry ∈ tree.rootComponent.children.entries, tree.NodeOk entry.2.child := by
  obtain ⟨levels, hs, hlevels⟩ := h.exists_levels
  have hchild {entry : String × Instance} (he : entry ∈ tree.rootComponent.children.entries) :
      tree.checkWithin {} levels entry.2.child = .ok () ↔ tree.NodeOk entry.2.child := by
    obtain ⟨below, rfl⟩ := hlevels entry he
    rw [checkWithin_succ_eq_ok_iff, Component.children_of_isBase (h.isBase _ he)]
    refine and_iff_left fun _ hm => ?_
    cases hm
  -- the check of the root contains one check for each instance, and no more
  have hcheck : tree.check {} = .ok () ↔ tree.NodeOk tree.root ∧
      ∀ entry ∈ tree.rootComponent.children.entries, tree.NodeOk entry.2.child := by
    have hall : tree.check {} = tree.checkWithin {} tree.size tree.root := rfl
    rw [hall, hs, checkWithin_succ_eq_ok_iff]
    exact and_congr_right fun _ => forall_congr' fun entry => forall_congr' fun he => hchild he
  exact ⟨fun hw => hcheck.1 hw.check, fun hn => ⟨h.rootName, h.rootParent, hcheck.2 hn⟩⟩

/-! ## Constants -/

/-- `bindingCount` is positive if an instance of the root binds a name. -/
theorem bindingCount_pos (h : tree.Shallow) {kind : NameKind} {inner outer : String}
    (he : (name, inst) ∈ tree.rootComponent.children.entries)
    (ho : inst.outerName? kind inner = some outer) : ∃ rest, tree.bindingCount kind = rest + 1 := by
  obtain ⟨binding, hb, -⟩ := exists_binding_of_outerName? ho
  -- the root is one of the components in the arena
  have hroot : tree.rootComponent ∈ tree.components.toList := by
    have hlt := h.root_lt
    have hget : tree.rootComponent = tree.components[tree.root.index] := by
      rw [rootComponent, get, Array.getD_eq_getD_getElem?, Array.getElem?_eq_getElem hlt,
        Option.getD_some]
    rw [hget]
    exact Array.getElem_mem_toList ..
  have hmem : binding ∈ tree.components.toList.flatMap fun component =>
      component.children.values.flatMap fun inst => inst.bindings kind :=
    List.mem_flatMap.2 ⟨_, hroot, List.mem_flatMap.2 ⟨inst, List.mem_map_of_mem he, hb⟩⟩
  exact Nat.exists_eq_succ_of_ne_zero (Nat.ne_zero_of_lt (List.length_pos_of_mem hmem))

/-- A constant of the root has the value that it is declared with. -/
theorem constantValue_root_iff (h : tree.Shallow) {steps : Nat} {constant : String}
    {value : Interval κ} :
    tree.constantWithin steps tree.root constant = .ok value ↔
      tree.rootComponent.constants.get? constant = some (some value) := by
  have houter := outer?_of_parent_eq_none h.rootParent .const constant
  rw [constantWithin_eq_ok_iff, houter]
  simp [rootComponent]

/-- `constantValue` of an automaton is a value of its own, or that of a constant of the root. -/
theorem constantValue_child_iff (h : tree.Shallow)
    (he : (name, inst) ∈ tree.rootComponent.children.entries) {constant : String}
    {value : Interval κ} :
    tree.constantValue inst.child constant = .ok value ↔
      (inst.outerName? .const constant = none ∧
        (tree.get inst.child).constants.get? constant = some (some value)) ∨
      ∃ outer, inst.outerName? .const constant = some outer ∧
        (tree.get inst.child).constants.get? constant = some none ∧
        tree.rootComponent.constants.get? outer = some (some value) := by
  rw [constantValue, constantWithin_eq_ok_iff, (h.instances _ he).linkOk.outer?_eq he]
  cases ho : inst.outerName? .const constant with
  | none => simp
  | some outer =>
    obtain ⟨rest, hs⟩ := h.bindingCount_pos he ho
    simp only [Option.map_some, Except.ok.injEq, reduceCtorEq, false_and, false_or,
      Option.some.injEq, Prod.mk.injEq]
    -- one step up is the root, where the chain ends
    constructor
    · rintro ⟨_, _, rest', ⟨rfl, rfl⟩, hown, -, hv⟩
      exact ⟨outer, rfl, hown, h.constantValue_root_iff.1 hv⟩
    · rintro ⟨_, rfl, hown, hv⟩
      exact ⟨_, _, rest, ⟨rfl, rfl⟩, hown, hs, h.constantValue_root_iff.2 hv⟩

/-- An automaton that is `placedAs` an instance elsewhere is `NodeOk` there as well if the constants
within its reach are the same. -/
theorem nodeOk_placedAs {tree' : Tree κ} (h : tree.Shallow) (h' : tree'.Shallow)
    (hroot : tree'.rootComponent.constants = tree.rootComponent.constants)
    (he : (name, inst) ∈ tree.rootComponent.children.entries) {name' : String} {inst' : Instance}
    (he' : (name', inst') ∈ tree'.rootComponent.children.entries)
    (hconsts : inst'.consts = inst.consts)
    (hget : tree'.get inst'.child = (tree.get inst.child).placedAs tree'.root name')
    (hname : Text.isIdentifier name' = true) (hok : tree.NodeOk inst.child) :
    tree'.NodeOk inst'.child := by
  have hbase : (tree'.get inst'.child).isBase = true := h'.isBase _ he'
  constructor
  case ownName =>
    intro own howner
    rw [hget] at howner
    exact Option.some.inj howner ▸ hname
  case links => rw [hget]; rfl
  case distinct => rw [hget]; exact hok.distinct
  case identifiers => rw [hget]; exact hok.identifiers
  -- the chain of a constant is the same in both trees
  case values =>
    intro constant hc
    have hbound : inst'.outerName? .const constant = inst.outerName? .const constant := by
      rw [Instance.outerName?, Instance.outerName?, Instance.bindings, Instance.bindings, hconsts]
    have hown : (tree'.get inst'.child).constants = (tree.get inst.child).constants := by
      rw [hget]
      rfl
    rw [hown] at hc
    obtain ⟨value, hv⟩ := hok.values constant hc
    refine ⟨value, (h'.constantValue_child_iff he').2 ?_⟩
    rw [hbound, hown, hroot]
    exact (h.constantValue_child_iff he).1 hv
  case automaton =>
    intro automaton ha
    rw [hget] at ha ⊢
    exact (hok.automaton automaton ha).placedAs _ _
  case nonempty =>
    intro children hb
    rw [Component.isBase, hb] at hbase
    cases hbase
  case instances =>
    rw [Component.children_of_isBase hbase]
    intro entry hm
    cases hm

/-! ## Variables -/

/-- `path` of an automaton is its name. -/
theorem path_eq (h : tree.Shallow) (he : (name, inst) ∈ tree.rootComponent.children.entries) :
    tree.path inst.child = name := by
  have hok := h.instances _ he
  have hroot : (tree.get tree.root).instanceName = none := h.rootName
  obtain ⟨levels, hs, -⟩ := h.exists_levels
  rw [path, hs, pathWithin, hok.childParent, hok.childName]
  simp [hroot, Text.join]

/-- `variableName` of an automaton is the variable of the root to which the variable is bound, or
spelled by its path. -/
theorem variableName_eq (h : tree.Shallow)
    (he : (name, inst) ∈ tree.rootComponent.children.entries) (inner : String) :
    tree.variableName inst.child inner = .ok (globalName name inst inner) := by
  have hok := h.instances _ he
  rw [variableName, variableWithin_eq_ok_iff, hok.linkOk.outer?_eq he, globalName]
  -- a bound variable ends at the root, one step up
  cases ho : inst.outerName? .var inner with
  | none =>
    refine .inl ⟨rfl, ?_⟩
    rw [freeName, hok.childParent, h.path_eq he]
    rfl
  | some outer =>
    obtain ⟨rest, hs⟩ := h.bindingCount_pos he ho
    have hroot : (tree.get tree.root).parent = none := h.rootParent
    refine .inr ⟨tree.root, outer, rest, rfl, hs, variableWithin_eq_ok_iff.2 (.inl ⟨?_, ?_⟩)⟩
    · exact outer?_of_parent_eq_none hroot .var outer
    · rw [freeName, hroot]
      rfl

/-- `allVariables` are the global names of the variables of the automata. -/
theorem exists_allVariables (h : tree.Shallow) :
    ∃ vars, tree.allVariables tree.root = .ok vars ∧ ∀ listed, listed ∈ vars ↔
      ∃ entry ∈ tree.rootComponent.children.entries, ∃ inner ∈ (tree.get entry.2.child).vars,
        listed = globalName entry.1 entry.2 inner := by
  obtain ⟨levels, hs, hlevels⟩ := h.exists_levels
  -- no automaton fails to name its variables
  have hchild (entry : String × Instance) (he : entry ∈ tree.rootComponent.children.entries) :
      ∃ names, tree.variablesWithin levels entry.2.child = .ok names := by
    obtain ⟨below, rfl⟩ := hlevels entry he
    obtain ⟨names, hn⟩ : ∃ names,
        (tree.get entry.2.child).vars.mapM (tree.variableName entry.2.child) = .ok names :=
      List.exists_mapM_eq_ok fun inner _ => ⟨_, h.variableName_eq he inner⟩
    obtain ⟨automaton, ha⟩ := Component.exists_automaton (h.isBase _ he)
    rw [variablesWithin, ha]
    simp only [hn]
    exact ⟨_, rfl⟩
  obtain ⟨lists, hl⟩ : ∃ lists, tree.rootComponent.children.values.mapM
      (fun inst => tree.variablesWithin levels inst.child) = .ok lists := by
    refine List.exists_mapM_eq_ok fun inst hi => ?_
    obtain ⟨entry, he, rfl⟩ := List.mem_map.1 hi
    exact hchild entry he
  -- so the walk from the root succeeds
  have hall : ∃ vars, tree.allVariables tree.root = .ok vars := by
    rw [allVariables, hs, variablesWithin, h.body_root]
    simp only [hl]
    exact ⟨_, rfl⟩
  obtain ⟨vars, hv⟩ := hall
  refine ⟨vars, hv, fun listed => ?_⟩
  rw [mem_variablesWithin_iff hv]
  constructor
  · rintro ⟨c, hc, hb, inner, hi, hname⟩
    rcases h.mem_preorder_iff.1 hc with rfl | ⟨entry, he, rfl⟩
    · exact absurd rfl (ne_root_of_isBase hb h.isNetwork)
    · exact ⟨entry, he, inner, hi, Except.ok.inj (hname.symm.trans (h.variableName_eq he inner))⟩
  · rintro ⟨entry, he, inner, hi, rfl⟩
    exact ⟨_, h.mem_preorder_iff.2 (.inr ⟨entry, he, rfl⟩), h.isBase _ he, inner, hi,
      h.variableName_eq he inner⟩

/-- `allConstants` are those of the root and those of the automata that are not bound. -/
theorem mem_allConstants_iff (h : tree.Shallow) {listed : String} :
    listed ∈ (tree.allConstants tree.root).keys ↔
      listed ∈ tree.rootComponent.constants.keys ∨
      ∃ entry ∈ tree.rootComponent.children.entries,
        ∃ inner ∈ (tree.get entry.2.child).constants.keys,
          entry.2.outerName? .const inner = none ∧ listed = qualify entry.1 inner := by
  have hroot : tree.path tree.root = "" := path_eq_empty h.rootName h.rootParent
  have hfree {entry : String × Instance} (he : entry ∈ tree.rootComponent.children.entries)
      (inner : String) :
      tree.IsFree .const entry.2.child inner ↔ entry.2.outerName? .const inner = none :=
    isFree_iff_of_instance? ((h.instances _ he).linkOk.instance?_eq he)
  -- a listed constant is a free one of the root or of an automaton, by its qualified name
  constructor
  · intro hl
    obtain ⟨value, hv⟩ := NameMap.mem_keys_iff.1 hl
    obtain ⟨c, hc, inner, rfl, hf, hown⟩ := exists_of_get?_constantsWithin hv
    have hkey := NameMap.mem_keys_iff.2 ⟨value, hown⟩
    rcases h.mem_preorder_iff.1 hc with rfl | ⟨entry, he, rfl⟩
    · rw [hroot]
      exact .inl hkey
    · rw [h.path_eq he]
      exact .inr ⟨entry, he, inner, hkey, (hfree he inner).1 hf, rfl⟩
  · rintro (hl | ⟨entry, he, inner, hkey, hf, rfl⟩)
    · have hf : tree.IsFree .const tree.root listed :=
        isFree_of_instance?_eq_none (instance?_of_parent_eq_none h.rootParent) _ _
      have hmem := qualify_mem_constantsWithin (h.mem_preorder_iff.2 (.inl rfl)) hf hl
      rwa [hroot] at hmem
    · have hmem := qualify_mem_constantsWithin (h.mem_preorder_iff.2 (.inr ⟨entry, he, rfl⟩))
        ((hfree he inner).2 hf) hkey
      rwa [h.path_eq he] at hmem

/-! ## Modes -/

/-- `modeExists` takes a list of modes, one for each automaton, with dots between them. -/
theorem modeExists_join (h : tree.Shallow) {modes : List String}
    (hlength : modes.length = tree.rootComponent.children.entries.length)
    (hmodes : ∀ pair ∈ tree.rootComponent.children.entries.zip modes,
      ∃ automaton, (tree.get pair.1.2.child).body = .base automaton ∧
        pair.2 ∈ automaton.modes.keys ∧ '.' ∉ pair.2.toList) :
    tree.modeExists tree.root (Text.join "." modes) = true := by
  obtain ⟨levels, hs, hlevels⟩ := h.exists_levels
  -- the automata take their modes one after the other
  have htake : tree.takeModes tree.size tree.root (Text.join "." modes) = some "" := by
    rw [hs, takeModes, h.body_root]
    exact foldlM_takeModes_join hlevels hlength hmodes
  rw [modeExists, htake]
  rfl

end Shallow

end Tree
end HybridAutomata
