import HybridAutomata.Proofs.Component.Rules
import HybridAutomata.Proofs.Tree.Variables
/-!
# What qualified names denote

In a well-formed tree no two declared names have one qualified name, whatever they are names of. So
nothing is lost where qualified names are collected in a map, and names that are resolved to one
qualified name are resolved to one variable.

* `WellFormed.qualify_inj_of_declares`    qualified names denote one name of one component
* `WellFormed.entries_allConstants`       which constants are listed, and in which order
* `WellFormed.variableName_eq_iff`        which variables have one global name
* `WellFormed.pairwise_allVariables`      a network lists its variables in order
-/

namespace HybridAutomata

variable {κ : Type}

/-- A `WellNamed` component declares a name once, as one kind of name. -/
theorem Component.WellNamed.kind_unique {component : Component κ} (h : component.WellNamed)
    {kind kind' : NameKind} {name : String} (hd : component.declares kind name = true)
    (hd' : component.declares kind' name = true) : kind = kind' := by
  obtain ⟨⟨-, -, hvc⟩, -, hl⟩ : (component.vars.Nodup ∧ component.constants.keys.Nodup ∧
      ∀ a ∈ component.vars, ∀ b ∈ component.constants.keys, a ≠ b) ∧ component.labels.Nodup ∧
      ∀ a ∈ component.vars ++ component.constants.keys, ∀ b ∈ component.labels, a ≠ b := by
    simpa only [declaredNames, List.nodup_append] using h.distinct
  -- no two of the three lists share a name
  have hconst (hv : component.declares .var name = true) :
      ¬ component.declares .const name = true := fun hc =>
    hvc name (declares_var_iff.1 hv) name (declares_const_iff.1 hc) rfl
  have hlabel {first : NameKind} (hf : component.declares first name = true)
      (hne : first ≠ .label) : ¬ component.declares .label name = true := fun hn => by
    refine hl name (List.mem_append.2 ?_) name (declares_label_iff.1 hn) rfl
    cases first with
    | var => exact .inl (declares_var_iff.1 hf)
    | const => exact .inr (declares_const_iff.1 hf)
    | label => exact absurd rfl hne
  cases kind <;> cases kind' <;> grind

namespace Tree

namespace WellFormed

variable {tree : Tree κ} {c d : Handle} {kind kind' : NameKind} {name name' : String}

/-- Every reachable component of a `WellFormed` tree is `WellNamed`. -/
theorem wellNamed (h : tree.WellFormed) (hc : tree.Reachable c) : (tree.get c).WellNamed := by
  obtain ⟨names, hf⟩ := hc
  have hok := h.nodeOk hf
  exact Component.wellNamed_iff.2 ⟨hok.distinct, hok.identifiers⟩

/-- The names that a component `declares` have no dots. -/
theorem not_mem_of_declares (h : tree.WellFormed) (hc : tree.Reachable c)
    (hd : (tree.get c).declares kind name = true) : '.' ∉ name.toList :=
  Text.not_mem_of_isIdentifier
    ((h.wellNamed hc).identifiers name (Component.mem_declaredNames_of_declares hd))

/-- `qualify` gives each declared name of each component a name of its own. -/
theorem qualify_inj_of_declares (h : tree.WellFormed) (hc : tree.Reachable c)
    (hd : tree.Reachable d) (hn : (tree.get c).declares kind name = true)
    (hn' : (tree.get d).declares kind' name' = true)
    (he : qualify (tree.path c) name = qualify (tree.path d) name') :
    c = d ∧ kind = kind' ∧ name = name' := by
  have hdot := h.not_mem_of_declares hc hn
  have hdot' := h.not_mem_of_declares hd hn'
  obtain ⟨names, hf⟩ := hc
  obtain ⟨names', hf'⟩ := hd
  -- the component and the name are told apart by the text, the kind by the component
  obtain ⟨rfl, rfl⟩ := h.qualify_inj hf hf' hdot hdot' he
  exact ⟨rfl, (h.wellNamed ⟨names, hf⟩).kind_unique hn hn', rfl⟩

end WellFormed

/-! ## Constants -/

instance (tree : Tree κ) (kind : NameKind) (c : Handle) (name : String) :
    Decidable (tree.IsFree kind c name) :=
  inferInstanceAs (Decidable (_ = none))

/-- The constants of a component that are not bound, with their own values, by qualified name. -/
def freeConstants (tree : Tree κ) (c : Handle) : List (String × Option (Interval κ)) :=
  ((tree.get c).constants.entries.filter fun entry => tree.IsFree .const c entry.1).map
    fun entry => (qualify (tree.path c) entry.1, entry.2)

/-- The members of `freeConstants` are the unbound constants, by qualified name. -/
theorem mem_freeConstants_iff {tree : Tree κ} {c : Handle}
    {entry : String × Option (Interval κ)} :
    entry ∈ tree.freeConstants c ↔ ∃ name, (name, entry.2) ∈ (tree.get c).constants.entries ∧
      tree.IsFree .const c name ∧ entry.1 = qualify (tree.path c) name := by
  simp only [freeConstants, List.mem_map, List.mem_filter, decide_eq_true_eq]
  constructor
  · rintro ⟨own, ⟨ho, hfree⟩, rfl⟩
    exact ⟨own.1, ho, hfree, rfl⟩
  · rintro ⟨name, ho, hfree, he⟩
    exact ⟨(name, entry.2), ⟨ho, hfree⟩, Prod.ext he.symm rfl⟩

/-- `ownConstants` are the `freeConstants`, without repetitions. -/
theorem ownConstants_eq (tree : Tree κ) (c : Handle) :
    tree.ownConstants c = NameMap.ofList (tree.freeConstants c) := by
  refine congrArg NameMap.ofList (congrArg (List.map _) (List.filter_congr fun entry _ => ?_))
  rw [Bool.eq_iff_iff, decide_eq_true_iff, Option.isNone_iff_eq_none, IsFree]

/-- `constantsWithin` lists the free constants in preorder, if nothing is overwritten. -/
theorem entries_constantsWithin {tree : Tree κ} {levels : Nat} {c : Handle}
    (hn : (((tree.preorder levels c).flatMap tree.freeConstants).map Prod.fst).Nodup) :
    (tree.constantsWithin levels c).entries =
      (tree.preorder levels c).flatMap tree.freeConstants := by
  -- induction on the levels; a component comes before what its children list
  induction levels generalizing c with
  | zero => rfl
  | succ levels ih =>
    rw [preorder, List.flatMap_cons, List.flatMap_assoc] at hn ⊢
    rw [List.map_append] at hn
    have hown : (tree.ownConstants c).entries = tree.freeConstants c := by
      rw [ownConstants_eq, NameMap.entries_ofList (List.nodup_append.1 hn).1]
    -- the lists of the children are parts of a list without repetitions
    have hbelow :
        (tree.children c).flatMap (fun child => (tree.constantsWithin levels child).entries) =
        (tree.children c).flatMap fun child =>
          (tree.preorder levels child).flatMap tree.freeConstants := by
      refine congrArg List.flatten (List.map_congr_left fun child hchild => ih ?_)
      refine (List.nodup_append.1 hn).2.1.sublist (List.Sublist.map _ ?_)
      exact List.sublist_flatten_of_mem (List.mem_map_of_mem hchild)
    rw [constantsWithin, NameMap.foldl_insertAll_eq, hbelow, NameMap.entries_insertAll, hown]
    rwa [NameMap.keys, hown]

namespace WellFormed

variable {tree : Tree κ} {c d : Handle} {name name' last : String}

/-- `freeConstants` of different components, or of one, never share a qualified name. -/
theorem nodup_freeConstants (h : tree.WellFormed) :
    (((tree.descendants tree.root).flatMap tree.freeConstants).map Prod.fst).Nodup := by
  have hname {e : Handle} (he : e ∈ tree.descendants tree.root) {listed : String}
      (hl : listed ∈ (tree.freeConstants e).map Prod.fst) :
      tree.Reachable e ∧ ∃ own, (tree.get e).declares .const own = true ∧
        listed = qualify (tree.path e) own := by
    obtain ⟨entry, hentry, rfl⟩ := List.mem_map.1 hl
    obtain ⟨own, ho, -, heq⟩ := mem_freeConstants_iff.1 hentry
    exact ⟨h.linked.mem_descendants_iff.1 he, own,
      Component.declares_const_iff.2 (NameMap.mem_keys_of_mem ho), heq⟩
  rw [List.map_flatMap, List.Nodup, List.pairwise_flatMap]
  constructor
  · -- the constants of one component have different names
    intro e he
    have hkeys := (tree.get e).constants.nodup_keys
    rw [freeConstants, List.map_map, List.pairwise_map]
    refine List.Pairwise.imp_of_mem ?_ ((List.pairwise_map.1 hkeys).sublist List.filter_sublist)
    intro entry other hentry hother hne heq
    have hr := h.linked.mem_descendants_iff.1 he
    have hdeclares {own : String × Option (Interval κ)}
        (ho : own ∈ (tree.get e).constants.entries.filter fun x => tree.IsFree .const e x.1) :
        (tree.get e).declares .const own.1 = true :=
      Component.declares_const_iff.2 (NameMap.mem_keys_of_mem (List.mem_filter.1 ho).1)
    exact hne (h.qualify_inj_of_declares hr hr (hdeclares hentry) (hdeclares hother) heq).2.2
  -- different components have different qualified names
  · refine List.Pairwise.imp_of_mem ?_ h.linked.nodup_descendants
    intro e e' he he' hne listed hl listed' hl' heq
    obtain ⟨hr, own, ho, rfl⟩ := hname he hl
    obtain ⟨hr', own', ho', rfl⟩ := hname he' hl'
    exact hne (h.qualify_inj_of_declares hr hr' ho ho' heq).1

/-- `allConstants` lists all free constants, component by component and each of them once. -/
theorem entries_allConstants (h : tree.WellFormed) :
    (tree.allConstants tree.root).entries =
      (tree.descendants tree.root).flatMap tree.freeConstants := by
  have hn := h.nodup_freeConstants
  rw [descendants_eq] at hn ⊢
  exact entries_constantsWithin hn

/-! ## Variables -/

/-- `variableName` gives two variables one global name just if they are bound, in the end, to one
variable of one component. -/
theorem variableName_eq_iff (h : tree.WellFormed) (hc : tree.Reachable c) (hd : tree.Reachable d)
    (hn : name ∈ (tree.get c).vars) (hn' : name' ∈ (tree.get d).vars) :
    tree.variableName c name = tree.variableName d name' ↔
      ∃ e last, last ∈ (tree.get e).vars ∧ tree.EndsAt .var c name e last ∧
        tree.EndsAt .var d name' e last := by
  obtain ⟨steps, e, last, hchain, -⟩ := h.linked.exists_chain hc .var name
  obtain ⟨steps', e', last', hchain', -⟩ := h.linked.exists_chain hd .var name'
  have hlast := h.declares_of_chain hc hchain (Component.declares_var_iff.2 hn)
  have hlast' := h.declares_of_chain hd hchain' (Component.declares_var_iff.2 hn')
  constructor
  · intro heq
    have hr := h.linked.reachable_of_chain hc hchain
    have hr' := h.linked.reachable_of_chain hd hchain'
    -- the names are the qualified names of the two ends
    rw [h.linked.variableName_eq hc ⟨steps, hchain⟩, h.linked.variableName_eq hd ⟨steps', hchain'⟩]
      at heq
    obtain ⟨front, hf⟩ := hr
    obtain ⟨front', hf'⟩ := hr'
    have hfree := Except.ok.inj heq
    rw [h.freeName_eq hf, h.freeName_eq hf'] at hfree
    obtain ⟨rfl, -, rfl⟩ :=
      h.qualify_inj_of_declares ⟨front, hf⟩ ⟨front', hf'⟩ hlast hlast' hfree
    exact ⟨e, last, Component.declares_var_iff.1 hlast, ⟨steps, hchain⟩, ⟨steps', hchain'⟩⟩
  -- both names are the free name of the common end
  · rintro ⟨f, final, -, hend, hend'⟩
    rw [h.linked.variableName_eq hc hend, h.linked.variableName_eq hd hend']

/-- In a `WellFormed` tree a text that `IsVariable` is never one that `IsConstant`. -/
theorem not_isConstant_of_isVariable (h : tree.WellFormed) {listed : String}
    (hv : tree.IsVariable listed) : ¬ tree.IsConstant listed := by
  obtain ⟨c, hc, -, name, hname, hv⟩ := hv
  rintro ⟨d, hd, other, hother, -, rfl⟩
  obtain ⟨names, hf⟩ := hc
  -- a variable and a constant would be declared as one name of one component
  obtain ⟨_, e, name', he, -, hname', heq⟩ := h.exists_free_of_variableName hf hname hv
  have hkinds := h.qualify_inj_of_declares hd ⟨_, he⟩ (Component.declares_const_iff.2 hother)
    (Component.declares_var_iff.2 hname') heq
  cases hkinds.2.1

end WellFormed

/-- `variablesWithin` of a network lists variables in order, each of them once. -/
theorem pairwise_variablesWithin {tree : Tree κ} {levels : Nat} {c : Handle} {vars : List String}
    (hnetwork : (tree.get c).isNetwork = true) (hvars : tree.variablesWithin levels c = .ok vars) :
    vars.Pairwise (· < ·) := by
  cases levels with
  | zero => cases hvars
  | succ levels =>
    rw [variablesWithin] at hvars
    cases hb : (tree.get c).body with
    | base automaton =>
      rw [Component.isNetwork, Component.isBase, hb] at hnetwork
      cases hnetwork
    | network instances =>
      simp only [hb] at hvars
      obtain ⟨lists, -, hvars⟩ := Except.bind_eq_ok_iff.1 hvars
      obtain rfl := Except.ok.inj hvars
      have hsorted : (lists.flatten.mergeSort fun left right => left ≤ right).Pairwise
          fun left right => left ≤ right := by
        refine (List.pairwise_mergeSort ?_ ?_ lists.flatten).imp of_decide_eq_true
        · intro a b c hab hbc
          exact decide_eq_true (String.le_trans (of_decide_eq_true hab) (of_decide_eq_true hbc))
        · intro a b
          simpa using String.le_total a b
      -- sorted without repetitions
      refine ((hsorted.sublist (firstOccurrences_sublist _)).and (nodup_firstOccurrences _)).imp ?_
      rintro a b ⟨hle, hne⟩
      exact Std.lt_of_le_of_ne hle hne

end Tree

end HybridAutomata
