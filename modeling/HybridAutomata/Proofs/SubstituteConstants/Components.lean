import HybridAutomata.Proofs.SubstituteConstants.Values
import HybridAutomata.Proofs.Tree.Outline
/-!
# Components without constants

What becomes of each component, and why it still obeys the rules. A reachable component loses its
constants, an automaton gets their values in its expressions, and a network loses the bindings of
constants; everything else stays.

* `get_resultTree`            what becomes of a reachable component
* `outline_resultTree`        the outline of the tree stays
* `AutomatonOk.substitute`    an automaton with values for its constants obeys the rules
* `wellFormed_resultTree`     the tree without constants is well-formed
-/

namespace HybridAutomata

variable {κ : Type}

/-! ## Automata with changed expressions -/

/-- The flows of a mode with changed expressions are the flows with changed expressions. -/
theorem Mode.flowMap_mapExprs (mode : Mode κ) (f : Expr κ → Expr κ) :
    (mode.mapExprs f).flowMap =
      mode.flowMap.mapValues fun update => { update with expr := f update.expr } := by
  rcases mode with ⟨_, _, _, _ | flows⟩ <;> rfl

/-- An expression is the constant `false` just if it is so with numbers in the place of names. -/
theorem Expr.isFalse_substitute {values : NameMap (Expr κ)}
    (hvalues : ∀ name e, values.get? name = some e → ∃ number, e = .const number) (e : Expr κ) :
    (e.substitute values).isFalse = e.isFalse := by
  cases e with
  | bool => rfl
  | const => rfl
  | apply => rfl
  | var name =>
    -- a number takes the place of a name, and a number is no truth value
    rw [substitute, transform, replace]
    · cases hv : values.get? name with
      | none => rfl
      | some e =>
        obtain ⟨number, rfl⟩ := hvalues name e hv
        rfl
    · intro _ _ h
      cases h

namespace SubstituteConstants

@[simp] theorem constants_replaceConstants (component : Component κ) (values : NameMap (Expr κ)) :
    (replaceConstants component values).constants = ∅ := by
  rcases component with ⟨_, _, _, _, _, _, _ | _⟩ <;> rfl

@[simp] theorem parent_replaceConstants (component : Component κ) (values : NameMap (Expr κ)) :
    (replaceConstants component values).parent = component.parent := by
  rcases component with ⟨_, _, _, _, _, _, _ | _⟩ <;> rfl

/-- `replaceConstants` keeps the name of the component. -/
@[simp] theorem instanceName_replaceConstants (component : Component κ)
    (values : NameMap (Expr κ)) :
    (replaceConstants component values).instanceName = component.instanceName := by
  rcases component with ⟨_, _, _, _, _, _, _ | _⟩ <;> rfl

@[simp] theorem vars_replaceConstants (component : Component κ) (values : NameMap (Expr κ)) :
    (replaceConstants component values).vars = component.vars := by
  rcases component with ⟨_, _, _, _, _, _, _ | _⟩ <;> rfl

@[simp] theorem labels_replaceConstants (component : Component κ) (values : NameMap (Expr κ)) :
    (replaceConstants component values).labels = component.labels := by
  rcases component with ⟨_, _, _, _, _, _, _ | _⟩ <;> rfl

@[simp] theorem isNetwork_replaceConstants (component : Component κ) (values : NameMap (Expr κ)) :
    (replaceConstants component values).isNetwork = component.isNetwork := by
  rcases component with ⟨_, _, _, _, _, _, _ | _⟩ <;> rfl

/-- `replaceConstants` keeps the entries of a network without their bindings of constants. -/
theorem children_replaceConstants (component : Component κ) (values : NameMap (Expr κ)) :
    (replaceConstants component values).children =
      component.children.mapValues Instance.withoutConsts := by
  rcases component with ⟨_, _, _, _, _, _, _ | _⟩ <;> rfl

/-- `replaceConstants` puts the values into the expressions of an automaton. -/
theorem replaceConstants_base {component : Component κ} {automaton : Automaton κ}
    (h : component.body = .base automaton) (values : NameMap (Expr κ)) :
    replaceConstants component values =
      { component with
        constants := ∅
        body := .base (automaton.mapExprs fun e => e.substitute values) } := by
  rcases component with ⟨_, _, _, _, _, _, _ | _⟩
  · obtain rfl := Body.base.inj h
    rfl
  · cases h

/-- `replaceConstants` takes the bindings of constants out of a network. -/
theorem replaceConstants_network {component : Component κ} {children : NameMap Instance}
    (h : component.body = .network children) (values : NameMap (Expr κ)) :
    replaceConstants component values =
      { component with
        constants := ∅
        body := .network (children.mapValues Instance.withoutConsts) } := by
  rcases component with ⟨_, _, _, _, _, _, _ | _⟩
  · cases h
  · obtain rfl := Body.network.inj h
    rfl

/-- `replaceConstants` keeps the `outline` of a component. -/
theorem outline_replaceConstants (component : Component κ) (values : NameMap (Expr κ)) :
    (replaceConstants component values).outline = component.outline := by
  cases hb : component.body with
  | base automaton =>
    simp only [replaceConstants_base hb, Component.outline, hb, Automaton.mapExprs_mapExprs]
  | network children =>
    simp only [replaceConstants_network hb, Component.outline, hb, NameMap.mapValues_mapValues]
    rfl

/-! ## The changed tree -/

/-- `resultTree` has the same root. -/
@[simp] theorem root_resultTree (tree : Tree κ) (values : List (Handle × NameMap (Expr κ))) :
    (resultTree tree values).root = tree.root := by
  rw [resultTree]
  induction values generalizing tree with
  | nil => rfl
  | cons entry rest ih => exact ih _

/-- `resultTree` has as many components. -/
@[simp] theorem size_resultTree (tree : Tree κ) (values : List (Handle × NameMap (Expr κ))) :
    (resultTree tree values).size = tree.size := by
  rw [resultTree]
  induction values generalizing tree with
  | nil => rfl
  | cons entry rest ih => exact (ih _).trans (Tree.size_modify ..)

/-- `resultTree` keeps the `outline`: names and modes stay what they are. -/
theorem outline_resultTree (tree : Tree κ) (values : List (Handle × NameMap (Expr κ))) :
    (resultTree tree values).outline = tree.outline := by
  rw [resultTree]
  -- by induction on the components whose constants are replaced
  induction values generalizing tree with
  | nil => rfl
  | cons entry rest ih =>
    exact (ih _).trans (Tree.outline_modify fun component => outline_replaceConstants component _)

/-- `resultTree` keeps a component whose constants are not replaced. -/
theorem get_resultTree_of_not_mem {tree : Tree κ} {values : List (Handle × NameMap (Expr κ))}
    {c : Handle} (h : c ∉ values.map Prod.fst) : (resultTree tree values).get c = tree.get c := by
  rw [resultTree]
  induction values generalizing tree with
  | nil => rfl
  | cons entry rest ih =>
    rw [List.map_cons, List.mem_cons, not_or] at h
    rw [List.foldl_cons, ih h.2, Tree.get_modify_of_ne h.1]

/-- `resultTree` replaces the constants of a component once. -/
theorem get_resultTree {tree : Tree κ} {values : List (Handle × NameMap (Expr κ))}
    (hn : (values.map Prod.fst).Nodup) {c : Handle} {own : NameMap (Expr κ)}
    (h : (c, own) ∈ values) (hlt : c.index < tree.size) :
    (resultTree tree values).get c = replaceConstants (tree.get c) own := by
  induction values generalizing tree with
  | nil => cases h
  | cons entry rest ih =>
    rw [List.map_cons, List.nodup_cons] at hn
    have hstep : resultTree tree (entry :: rest) =
        resultTree (tree.modify entry.1 fun component => replaceConstants component entry.2) rest :=
      rfl
    rw [hstep]
    -- no component comes twice, so a changed one is not changed again
    rcases List.mem_cons.1 h with rfl | hr
    · rw [get_resultTree_of_not_mem hn.1, Tree.get_modify_self hlt]
    · have hne : c ≠ entry.1 := fun he => hn.1 (he ▸ List.mem_map_of_mem hr)
      rw [ih hn.2 hr (by rwa [Tree.size_modify]), Tree.get_modify_of_ne hne]

end SubstituteConstants

/-- An automaton that is `AutomatonOk` is so with values for all its constants and without them. -/
theorem Component.AutomatonOk.substitute {component : Component κ} {automaton : Automaton κ}
    (h : component.AutomatonOk automaton) {values : NameMap (Expr κ)}
    (hvalues : ∀ name e, values.get? name = some e → ∃ number, e = .const number)
    (hall : ∀ name ∈ component.constants.keys, ∃ e, values.get? name = some e) :
    (SubstituteConstants.replaceConstants component values).AutomatonOk
      (automaton.mapExprs fun e => e.substitute values) where
  modes := by
    rw [← h.modes]
    simp [Automaton.mapExprs, NameMap.isEmpty, NameMap.mapValues]
  filed := by
    intro entry he
    obtain ⟨old, ho, rfl⟩ := List.mem_map.1 he
    exact h.filed old ho
  mode := by
    intro mode hm
    rw [Automaton.mapExprs, NameMap.values_mapValues] at hm
    obtain ⟨old, ho, rfl⟩ := List.mem_map.1 hm
    have hok := h.mode old ho
    refine ⟨hok.name, ?_, ?_, ?_⟩
    · rw [← hok.invariant]
      exact Expr.isFalse_substitute hvalues _
    · have hflows := hok.flows
      simpa [Mode.mapExprs] using hflows
    · rw [Mode.flowMap_mapExprs, NameMap.keys_mapValues, SubstituteConstants.vars_replaceConstants]
      exact hok.flowVars
  transition := by
    intro transition ht
    obtain ⟨old, ho, rfl⟩ := List.mem_map.1 ht
    simp only [Automaton.mapExprs, NameMap.keys_mapValues]
    exact h.transition old ho
  label := by
    intro label hl
    rw [SubstituteConstants.labels_replaceConstants] at hl
    obtain ⟨old, ho, he⟩ := h.label label hl
    exact ⟨_, List.mem_map_of_mem ho, he⟩
  sameFlows := by
    intro first rest hf mode hm
    rw [Automaton.mapExprs, NameMap.values_mapValues, List.filter_map] at hf
    obtain ⟨first', rest', hfilter, rfl, rfl⟩ := List.map_eq_cons_iff.1 hf
    obtain ⟨old, ho, rfl⟩ := List.mem_map.1 hm
    rw [Mode.flowMap_mapExprs, Mode.flowMap_mapExprs, NameMap.keys_mapValues,
      NameMap.keys_mapValues]
    exact h.sameFlows first' rest' hfilter old ho
  flowSymbols := by
    intro mode hm hu entry he symbol hs
    rw [Automaton.mapExprs, NameMap.values_mapValues] at hm
    obtain ⟨old, ho, rfl⟩ := List.mem_map.1 hm
    rw [Mode.flowMap_mapExprs] at he
    obtain ⟨flow, hflow, rfl⟩ := List.mem_map.1 he
    obtain ⟨hsymbol, hnone⟩ := Expr.mem_vars_substitute_of_const hvalues hs
    -- a name that has been left is no constant
    rcases h.flowSymbols old ho hu flow hflow symbol hsymbol with hv | hc
    · rw [SubstituteConstants.vars_replaceConstants]
      exact .inl hv
    · obtain ⟨e, hvalue⟩ := hall symbol hc
      rw [hnone] at hvalue
      cases hvalue

/-- In a `WellFormed` tree what is reached lies in the arena, since the component that stands for
everything outside has no modes. -/
theorem Tree.WellFormed.index_lt {tree : Tree κ} (h : tree.WellFormed) {names : List String}
    {c : Handle} (hf : tree.follow tree.root names = some c) : c.index < tree.size := by
  refine Nat.lt_of_not_le fun hle => ?_
  have hbody : (tree.get c).body = .base .empty := by rw [Tree.get_eq_default hle]; rfl
  cases ((h.nodeOk hf).automaton _ hbody).modes

namespace SubstituteConstants

variable [Scalar κ] {tree : Tree κ} {values : List (Handle × NameMap (Expr κ))}

/-- `resultTree` replaces the constants of a reachable component by values of its own. -/
theorem ValuesOf.get_resultTree (h : ValuesOf tree values) (htree : tree.WellFormed)
    {names : List String} {c : Handle} (hf : tree.follow tree.root names = some c) :
    ∃ own, (c, own) ∈ values ∧
      (resultTree tree values).get c = replaceConstants (tree.get c) own := by
  obtain ⟨own, ho⟩ := h.exists_mem (htree.linked.mem_descendants_iff.2 ⟨names, hf⟩)
  have hn : (values.map Prod.fst).Nodup := h.handles ▸ htree.linked.nodup_descendants
  exact ⟨own, ho, SubstituteConstants.get_resultTree hn ho (htree.index_lt hf)⟩

/-- `withoutConsts` keeps just the bindings of variables and labels. -/
theorem bindings_withoutConsts {inst : Instance} {kind : NameKind} {binding : Binding}
    (h : binding ∈ inst.withoutConsts.bindings kind) :
    kind ≠ .const ∧ binding ∈ inst.bindings kind := by
  cases kind with
  | var => exact ⟨by decide, h⟩
  | const => cases h
  | label => exact ⟨by decide, h⟩

omit [Scalar κ] in
/-- `replaceConstants` keeps what is declared, constants apart. -/
theorem declares_replaceConstants {kind : NameKind} (hkind : kind ≠ .const)
    (component : Component κ) (own : NameMap (Expr κ)) (name : String) :
    (replaceConstants component own).declares kind name = component.declares kind name := by
  cases kind with
  | var => simp [Component.declares]
  | const => exact absurd rfl hkind
  | label => simp [Component.declares]

/-- A reachable component is still `NodeOk` when the constants are replaced. -/
theorem ValuesOf.nodeOk (h : ValuesOf tree values) (htree : tree.WellFormed)
    {names : List String} {c : Handle} (hf : tree.follow tree.root names = some c) :
    (resultTree tree values).NodeOk c := by
  have hold := htree.nodeOk hf
  obtain ⟨own, hmem, hget⟩ := h.get_resultTree htree hf
  have hnames : ((resultTree tree values).get c).checkedNames {} =
      (tree.get c).vars ++ (tree.get c).labels := by
    rw [hget]
    simp [Component.checkedNames, NameMap.keys]
  have hsub (name : String) (hn : name ∈ (tree.get c).vars ++ (tree.get c).labels) :
      name ∈ (tree.get c).checkedNames {} :=
    List.mem_append_left _ hn
  constructor
  case ownName =>
    rw [hget, instanceName_replaceConstants]
    exact hold.ownName
  case links =>
    rw [hget, instanceName_replaceConstants, parent_replaceConstants]
    exact hold.links
  case distinct =>
    rw [hnames]
    exact (List.nodup_append.1 hold.distinct).1
  case identifiers =>
    intro name hn
    rw [hnames] at hn
    exact hold.identifiers name (hsub name hn)
  -- no constants are left that could be without a value
  case values =>
    intro name hn
    rw [hget, constants_replaceConstants] at hn
    cases hn
  case automaton =>
    intro automaton hb
    rw [hget] at hb ⊢
    cases hbody : (tree.get c).body with
    | network children =>
      rw [replaceConstants_network hbody] at hb
      cases hb
    | base old =>
      rw [replaceConstants_base hbody] at hb
      obtain rfl := Body.base.inj hb
      exact (hold.automaton old hbody).substitute (fun name e hg => h.eq_const hmem hg)
        fun name hn => exists_get?_of_pointValues (h.values _ hmem) hn
  case nonempty =>
    intro children hb
    rw [hget] at hb
    cases hbody : (tree.get c).body with
    | base automaton =>
      rw [replaceConstants_base hbody] at hb
      cases hb
    | network old =>
      rw [replaceConstants_network hbody] at hb
      obtain rfl := Body.network.inj hb
      have hne := hold.nonempty old hbody
      simpa [NameMap.isEmpty, NameMap.mapValues] using hne
  case instances =>
    intro entry he
    rw [hget, children_replaceConstants] at he
    obtain ⟨⟨name, inst⟩, hi, rfl⟩ := List.mem_map.1 he
    have hok := hold.instances _ hi
    have hchild := Tree.follow_concat_iff.2 ⟨c, inst, hf, hi, rfl⟩
    obtain ⟨own', -, hget'⟩ := h.get_resultTree htree hchild
    have hget'' : (resultTree tree values).get inst.withoutConsts.child =
        replaceConstants (tree.get inst.child) own' := hget'
    -- the binding is one of variables or labels, which are declared as before
    constructor
    case parent => exact hok.parent
    case childParent =>
      rw [hget'', parent_replaceConstants]
      exact hok.childParent
    case childName =>
      rw [hget'', instanceName_replaceConstants]
      exact hok.childName
    case binding =>
      intro kind binding hb
      obtain ⟨hkind, hb⟩ := bindings_withoutConsts hb
      rw [hget, hget'', declares_replaceConstants hkind, declares_replaceConstants hkind]
      exact hok.binding kind binding hb

/-- A component passes `checkWithin` again when the constants are replaced, and so do those below
it. -/
theorem ValuesOf.checkWithin (h : ValuesOf tree values) (htree : tree.WellFormed) {levels : Nat}
    {names : List String} {c : Handle} (hf : tree.follow tree.root names = some c)
    (hcheck : tree.checkWithin {} levels c = .ok ()) :
    (resultTree tree values).checkWithin {} levels c = .ok () := by
  -- induction on the levels of the check
  induction levels generalizing names c with
  | zero => cases hcheck
  | succ levels ih =>
    refine Tree.checkWithin_succ_eq_ok_iff.2 ⟨h.nodeOk htree hf, fun entry he => ?_⟩
    obtain ⟨own, -, hget⟩ := h.get_resultTree htree hf
    rw [hget, children_replaceConstants] at he
    obtain ⟨old, ho, rfl⟩ := List.mem_map.1 he
    exact ih (Tree.follow_concat_iff.2 ⟨c, old.2, hf, ho, rfl⟩)
      ((Tree.checkWithin_succ_eq_ok_iff.1 hcheck).2 old ho)

/-- `resultTree` of a `WellFormed` tree is well-formed. -/
theorem ValuesOf.wellFormed_resultTree (h : ValuesOf tree values) (htree : tree.WellFormed) :
    (resultTree tree values).WellFormed := by
  obtain ⟨own, -, hget⟩ := h.get_resultTree htree (Tree.follow_nil tree tree.root)
  -- the root keeps its links, and the components below it obey the rules
  refine ⟨?_, ?_, ?_⟩
  · rw [Tree.rootComponent, root_resultTree, hget, instanceName_replaceConstants]
    exact htree.rootName
  · rw [Tree.rootComponent, root_resultTree, hget, parent_replaceConstants]
    exact htree.rootParent
  · have hcheck := h.checkWithin htree (Tree.follow_nil tree tree.root) htree.checkWithin
    rw [Tree.check, Tree.checkComponent, if_pos rfl, size_resultTree, root_resultTree]
    exact hcheck

omit [Scalar κ] in
/-- `resultTree` keeps what is reachable. -/
theorem descendants_resultTree (tree : Tree κ) (values : List (Handle × NameMap (Expr κ)))
    (c : Handle) : (resultTree tree values).descendants c = tree.descendants c := by
  rw [← Tree.descendants_outline, outline_resultTree, Tree.descendants_outline]

end SubstituteConstants
end HybridAutomata
