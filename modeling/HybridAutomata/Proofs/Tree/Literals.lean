import HybridAutomata.Proofs.Tree.Copy
import HybridAutomata.Proofs.Tree.Outline
/-!
# Literals in place

A constant that is bound to a literal gets the number as its value when its component is copied, and
the binding goes. The same can be done to a tree without copying it: `inlined`. What is left of a
copy that resolves literals is then the copy of a tree that has none.

* `resolveLiterals_eq_ok`, `exists_of_resolveLiterals_eq_error`   the literals of one instance
* `Linked.inlined`, `outline_inlined`   putting literals in place keeps the links and the outline
* `copy_inlined`                        copying resolves literals as if they had been inlined before
* `Linked.exists_malformedLiteral_iff`  copying fails if a literal cannot be read, and then only
-/

namespace HybridAutomata

variable {κ : Type} [Scalar κ]

/-! ## Literals of one instance -/

/-- The number that a binding stands for, if it is to a literal that reads as a number. -/
def Binding.value? (binding : Binding) : Option κ :=
  binding.literal?.bind fun literal => Scalar.read? (Text.trim literal.toList)

/-- A binding is to a literal that does not read as a number. -/
def Binding.IsMalformed (κ : Type) [Scalar κ] (binding : Binding) (literal : String) : Prop :=
  binding.literal? = some literal ∧ (Scalar.read? (Text.trim literal.toList) : Option κ) = none

/-- The constants that are bound to numbers, with these numbers as their values. -/
def literalValues (bindings : List Binding) : List (String × Option (Interval κ)) :=
  bindings.filterMap fun binding =>
    binding.value?.map fun value => (binding.inner, some (.point value))

/-- An instance without its bindings to literals. -/
def Instance.inlined (inst : Instance) : Instance :=
  { inst with consts := inst.consts.filter fun binding => binding.literal?.isNone }

/-- A binding without a `literal?` has no `value?`. -/
theorem Binding.value?_of_literal?_eq_none {binding : Binding} (h : binding.literal? = none) :
    (binding.value? : Option κ) = none := by
  rw [value?, h]
  rfl

/-- `literalValues` takes up a binding just if it stands for a number. -/
theorem literalValues_cons (binding : Binding) (rest : List Binding) :
    (literalValues (binding :: rest) : List (String × Option (Interval κ))) =
      match (binding.value? : Option κ) with
      | none => literalValues rest
      | some value => (binding.inner, some (.point value)) :: literalValues rest := by
  rw [literalValues, List.filterMap_cons]
  cases (binding.value? : Option κ) <;> rfl

/-- The members of `literalValues` are the bindings that stand for numbers. -/
theorem mem_literalValues_iff {bindings : List Binding} {entry : String × Option (Interval κ)} :
    entry ∈ literalValues bindings ↔ ∃ binding ∈ bindings, ∃ value : κ,
      binding.value? = some value ∧ entry = (binding.inner, some (.point value)) := by
  simp only [literalValues, List.mem_filterMap, Option.map_eq_some_iff, @eq_comm _ entry]

/-- `literalValues` keeps the order of the bindings, so its names form a sublist of theirs. -/
theorem map_fst_literalValues_sublist (bindings : List Binding) :
    ((literalValues bindings : List (String × Option (Interval κ))).map Prod.fst).Sublist
      (bindings.map Binding.inner) := by
  induction bindings with
  | nil => exact List.Sublist.refl _
  | cons binding rest ih =>
    rw [literalValues_cons, List.map_cons]
    cases (binding.value? : Option κ) with
    | none => exact ih.cons _
    | some value => exact ih.cons_cons _

namespace Tree

/-- `resolveLiterals` succeeds if no literal is malformed: it inserts `literalValues` and keeps the
other bindings. -/
theorem resolveLiterals_eq_ok {constants : NameMap (Option (Interval κ))} {bindings : List Binding}
    (h : ∀ binding ∈ bindings, ∀ literal, ¬ binding.IsMalformed κ literal) :
    resolveLiterals constants bindings = .ok (constants.insertAll (literalValues bindings),
      bindings.filter fun binding => binding.literal?.isNone) := by
  -- induction on the bindings, for whatever constants have come in so far
  induction bindings generalizing constants with
  | nil => rfl
  | cons binding rest ih =>
    have hrest (constants : NameMap (Option (Interval κ))) :=
      @ih constants fun other ho => h other (List.mem_cons_of_mem _ ho)
    rw [resolveLiterals, literalValues_cons, Binding.value?]
    cases hl : binding.literal? with
    | none =>
      rw [List.filter_cons_of_pos (by rw [hl]; rfl)]
      simp only [hrest]
      rfl
    | some literal =>
      rw [List.filter_cons_of_neg (by rw [hl]; exact Bool.false_ne_true)]
      cases hv : (Scalar.read? (Text.trim literal.toList) : Option κ) with
      | none => exact absurd ⟨hl, hv⟩ (h binding List.mem_cons_self literal)
      | some value => simp only [Option.bind_some, hv, hrest, NameMap.insertAll_cons]

/-- If `resolveLiterals` fails then some binding is malformed, and the error names it. -/
theorem exists_of_resolveLiterals_eq_error {constants : NameMap (Option (Interval κ))}
    {bindings : List Binding} {cause : ModelError κ}
    (h : resolveLiterals constants bindings = .error cause) :
    ∃ binding ∈ bindings, ∃ literal, binding.IsMalformed κ literal ∧
      cause = .malformedLiteral binding.inner literal := by
  -- induction on the bindings: the first one fails, or the rest does
  induction bindings generalizing constants with
  | nil => cases h
  | cons binding rest ih =>
    have key {constants : NameMap (Option (Interval κ))}
        (h : resolveLiterals constants rest = .error cause) :
        ∃ other ∈ binding :: rest, ∃ literal, other.IsMalformed κ literal ∧
          cause = .malformedLiteral other.inner literal := by
      obtain ⟨other, ho, hother⟩ := ih h
      exact ⟨other, List.mem_cons_of_mem _ ho, hother⟩
    rw [resolveLiterals] at h
    cases hl : binding.literal? with
    | none =>
      simp only [hl] at h
      cases hr : resolveLiterals constants rest with
      | error cause' =>
        rw [hr] at h
        cases h
        exact key hr
      | ok resolved =>
        rw [hr] at h
        cases h
    | some literal =>
      simp only [hl] at h
      cases hv : (Scalar.read? (Text.trim literal.toList) : Option κ) with
      | none =>
        rw [hv] at h
        cases h
        exact ⟨binding, List.mem_cons_self, literal, ⟨hl, hv⟩, rfl⟩
      | some value =>
        rw [hv] at h
        exact key h

/-- If `resolveLiterals` succeeds then it has read every literal. -/
theorem not_isMalformed_of_resolveLiterals_eq_ok {constants : NameMap (Option (Interval κ))}
    {bindings : List Binding} {resolved : NameMap (Option (Interval κ)) × List Binding}
    (h : resolveLiterals constants bindings = .ok resolved) :
    ∀ binding ∈ bindings, ∀ literal, ¬ binding.IsMalformed κ literal := by
  -- induction on the bindings, which are read one by one
  induction bindings generalizing constants resolved with
  | nil => exact fun _ hb => nomatch hb
  | cons binding rest ih =>
    rw [resolveLiterals] at h
    cases hl : binding.literal? with
    | none =>
      simp only [hl] at h
      obtain ⟨_, hr, -⟩ := Except.bind_eq_ok_iff.1 h
      refine List.forall_mem_cons.2 ⟨fun literal hm => ?_, ih hr⟩
      cases hl.symm.trans hm.1
    | some literal =>
      simp only [hl] at h
      cases hv : (Scalar.read? (Text.trim literal.toList) : Option κ) with
      | none =>
        rw [hv] at h
        cases h
      | some value =>
        rw [hv] at h
        refine List.forall_mem_cons.2 ⟨fun other hm => ?_, ih h⟩
        obtain rfl := Option.some.inj (hl.symm.trans hm.1)
        cases hv.symm.trans hm.2

/-! ## Literals of a tree -/

/-- The constants of a component, with the numbers to which its instance binds them. -/
def inlinedConstants (tree : Tree κ) (c : Handle) : NameMap (Option (Interval κ)) :=
  match tree.instance? c with
  | none => (tree.get c).constants
  | some inst => (tree.get c).constants.insertAll (literalValues inst.consts)

end Tree

/-- A component with other constants, whose instances have no bindings to literals. -/
def Component.inlined (component : Component κ) (constants : NameMap (Option (Interval κ))) :
    Component κ :=
  { component with
    constants
    body := match component.body with
      | .base automaton => .base automaton
      | .network children => .network (children.mapValues Instance.inlined) }

omit [Scalar κ] in
/-- The entries of an `inlined` component are its entries, without their literals. -/
theorem Component.entries_children_inlined (component : Component κ)
    (constants : NameMap (Option (Interval κ))) :
    (component.inlined constants).children.entries =
      component.children.entries.map fun entry => (entry.1, entry.2.inlined) := by
  rcases component with ⟨_, _, _, _, _, _, _ | _⟩ <;> rfl

namespace Tree

/-- The tree with all literals in place: the constants that are bound to numbers have them as values
and are not bound any more. -/
def inlined (tree : Tree κ) : Tree κ :=
  { tree with components := tree.components.mapIdx fun i component =>
      component.inlined (tree.inlinedConstants ⟨i⟩) }

variable {tree : Tree κ} {b c d : Handle} {name : String} {inst : Instance}

@[simp] theorem root_inlined (tree : Tree κ) : tree.inlined.root = tree.root := rfl

@[simp] theorem size_inlined (tree : Tree κ) : tree.inlined.size = tree.size := by
  simp [inlined, size]

/-- `inlined` changes each component in its place. -/
theorem get_inlined (tree : Tree κ) (c : Handle) :
    tree.inlined.get c = (tree.get c).inlined (tree.inlinedConstants c) := by
  by_cases h : c.index < tree.size
  · have h' : c.index < tree.components.size := h
    simp only [get, inlined, Array.getD_eq_getD_getElem?, Array.getElem?_mapIdx,
      Array.getElem?_eq_getElem h', Option.map_some, Option.getD_some]
  · -- outside of the arena there is nothing to put in place
    have hle := Nat.le_of_not_lt h
    have hi : tree.instance? c = none := by rw [instance?, get_eq_default hle]; rfl
    rw [get_eq_default (by rwa [size_inlined]), inlinedConstants, hi, get_eq_default hle]
    rfl

/-- `inlined` keeps the `outline` of a tree. -/
theorem outline_inlined (tree : Tree κ) : tree.inlined.outline = tree.outline := by
  -- component by component, since the arena keeps its order
  have key : tree.inlined.components.map Component.outline =
      tree.components.map Component.outline := by
    apply Array.ext_getElem?
    intro i
    simp only [inlined, Array.getElem?_map, Array.getElem?_mapIdx, Option.map_map]
    cases tree.components[i]? with
    | none => rfl
    | some component =>
      rcases component with ⟨_, _, _, _, _, _, _ | _⟩
      · rfl
      · simp [Component.outline, Component.inlined]
        rfl
  exact congrArg (fun components => { tree with components }) key

/-- Components of `inlined` are called as before. -/
theorem displayName_inlined (tree : Tree κ) (c : Handle) :
    (tree.inlined.get c).displayName = (tree.get c).displayName := by
  rw [get_inlined]
  rfl

/-- The entries of a network in `inlined`. -/
theorem entries_children_inlined (tree : Tree κ) (c : Handle) :
    (tree.inlined.get c).children.entries =
      (tree.get c).children.entries.map fun entry => (entry.1, entry.2.inlined) := by
  rw [get_inlined, Component.entries_children_inlined]

/-- The instance of a name in `inlined` is the one of that name, without its literals. -/
theorem childNamed?_inlined (tree : Tree κ) (c : Handle) (name : String) :
    tree.inlined.childNamed? c name = (tree.childNamed? c name).map Instance.inlined := by
  simp only [childNamed?, NameMap.get?, entries_children_inlined, List.find?_map, Option.map_map]
  rfl

/-- The instance that places a component in `inlined`. -/
theorem instance?_inlined (tree : Tree κ) (c : Handle) :
    tree.inlined.instance? c = (tree.instance? c).map Instance.inlined := by
  rw [instance?, instance?, get_inlined]
  simp only [Component.inlined]
  cases (tree.get c).parent with
  | none => rfl
  | some parent =>
    cases (tree.get c).instanceName with
    | none => rfl
    | some name => exact tree.childNamed?_inlined parent name

/-- `follow` leads to the same components in `inlined`. -/
theorem follow_inlined (tree : Tree κ) (c : Handle) (names : List String) :
    tree.inlined.follow c names = tree.follow c names := by
  induction names generalizing c with
  | nil => rfl
  | cons name rest ih =>
    rw [follow, follow, childNamed?_inlined]
    cases tree.childNamed? c name with
    | none => rfl
    | some inst => exact ih inst.child

theorem reachable_inlined_iff : tree.inlined.Reachable c ↔ tree.Reachable c :=
  exists_congr fun names => by rw [root_inlined, follow_inlined]

/-- `inlined` keeps links consistent. -/
theorem Linked.inlined (h : tree.Linked) : tree.inlined.Linked where
  root_lt := by
    rw [size_inlined]
    exact h.root_lt
  rootName := by
    -- links and names are not touched
    rw [rootComponent, get_inlined]
    exact h.rootName
  rootParent := by
    rw [rootComponent, get_inlined]
    exact h.rootParent
  link c hc entry he := by
    rw [entries_children_inlined] at he
    obtain ⟨own, ho, rfl⟩ := List.mem_map.1 he
    have hlink := h.link c (reachable_inlined_iff.1 hc) own ho
    exact {
      parent := hlink.parent
      childParent := by
        rw [get_inlined]
        exact hlink.childParent
      childName := by
        rw [get_inlined]
        exact hlink.childName }

/-- `inlined` leaves no literals. -/
theorem noLiterals_inlined (tree : Tree κ) : tree.inlined.NoLiterals := by
  intro c _ entry he binding hb
  rw [entries_children_inlined] at he
  obtain ⟨own, -, rfl⟩ := List.mem_map.1 he
  exact Option.isNone_iff_eq_none.1 (List.mem_filter.1 hb).2

/-- The constants of a component that an instance places, with the numbers of the instance. -/
theorem inlinedConstants_of_instance? (hi : tree.instance? c = some inst) :
    tree.inlinedConstants c = (tree.get c).constants.insertAll (literalValues inst.consts) := by
  rw [inlinedConstants, hi]

/-- A component that no instance places keeps its constants. -/
theorem inlinedConstants_of_instance?_eq_none (hi : tree.instance? c = none) :
    tree.inlinedConstants c = (tree.get c).constants := by
  rw [inlinedConstants, hi]

/-! ## Copying -/

/-- A reachable instance binds a constant to a literal that does not read as a number. -/
def HasMalformed (tree : Tree κ) (name literal : String) : Prop :=
  ∃ c, tree.Reachable c ∧ ∃ entry ∈ (tree.get c).children.entries, ∃ binding ∈ entry.2.consts,
    binding.inner = name ∧ binding.IsMalformed κ literal

/-- The first of the copies that `copyWithin` makes is that of the component itself, with its
constants. -/
theorem exists_head_of_copyWithin {levels start : Nat} {copies : List (Component κ)}
    (h : tree.copyWithin levels start c = .ok copies) :
    ∃ head below, copies = head :: below ∧ head.constants = (tree.get c).constants := by
  -- the first copy is made before the children are looked at
  cases levels with
  | zero => cases h
  | succ levels =>
    rw [copyWithin] at h
    cases hb : (tree.get c).body with
    | base automaton =>
      simp only [hb] at h
      cases h
      exact ⟨_, [], rfl, rfl⟩
    | network children =>
      simp only [hb] at h
      obtain ⟨placed, -, h⟩ := Except.bind_eq_ok_iff.1 h
      cases h
      exact ⟨_, placed.2, rfl, rfl⟩

/-- `placeCopy` resolves literals as if they had been put in place before. -/
theorem placeCopy_inlined (hlink : tree.LinkOk b name inst)
    (he : (name, inst) ∈ (tree.get b).children.entries)
    (hliterals : ∀ binding ∈ inst.consts, ∀ literal, ¬ binding.IsMalformed κ literal)
    {head : Component κ} (hhead : head.constants = (tree.inlined.get inst.child).constants)
    (owner : Handle) (place : Nat) (below : List (Component κ)) :
    placeCopy owner name inst.inlined place (head :: below) =
      placeCopy owner name inst place
        ({ head with constants := (tree.get inst.child).constants } :: below) := by
  -- in `inlined` there is nothing to resolve
  have hkept : ∀ binding ∈ inst.inlined.consts, binding.literal? = none := fun binding hb =>
    Option.isNone_iff_eq_none.1 (List.mem_filter.1 hb).2
  have hconstants : head.constants =
      (tree.get inst.child).constants.insertAll (literalValues inst.consts) := by
    rw [hhead, get_inlined]
    exact inlinedConstants_of_instance? (hlink.instance?_eq he)
  rw [placeCopy, placeCopy, resolveLiterals_eq hkept, resolveLiterals_eq_ok hliterals, ← hconstants]
  rfl

/-- `copyEntry` resolves literals as if they had been put in place before, if `copyWithin` does so
for the component of the entry. -/
theorem copyEntry_inlined {levels start : Nat} (hlink : tree.LinkOk b name inst)
    (he : (name, inst) ∈ (tree.get b).children.entries)
    (hliterals : ∀ binding ∈ inst.consts, ∀ literal, ¬ binding.IsMalformed κ literal)
    (hbelow : ∀ start, tree.copyWithin levels start inst.child =
      (tree.inlined.copyWithin levels start inst.child).map
        (List.modifyHead fun head => { head with constants := (tree.get inst.child).constants }))
    (state : NameMap Instance × List (Component κ)) :
    tree.inlined.copyEntry levels start state (name, inst.inlined) =
      tree.copyEntry levels start state (name, inst) := by
  rw [copyEntry, copyEntry]
  dsimp only
  -- both sides make the same copies below; the first one gets its constants when it is placed
  rw [hbelow]
  show (tree.inlined.copyWithin levels _ inst.child >>= _) = _
  cases hcopies : tree.inlined.copyWithin levels (start + 1 + state.2.length) inst.child with
  | error cause => rfl
  | ok copies =>
    obtain ⟨head, below, rfl, hhead⟩ := exists_head_of_copyWithin hcopies
    rw [Except.ok_bind, placeCopy_inlined hlink he hliterals hhead]
    rfl

/-- The copies that `copyWithin` makes of a tree and of `inlined` differ in the constants of the
first one only, which gets its values when it is placed. -/
theorem copyWithin_inlined (h : tree.Linked)
    (hliterals : ∀ name literal, ¬ tree.HasMalformed name literal) {levels start : Nat}
    (hc : tree.Reachable c) :
    tree.copyWithin levels start c = (tree.inlined.copyWithin levels start c).map
      (List.modifyHead fun head => { head with constants := (tree.get c).constants }) := by
  -- induction on the levels; in a network, entry by entry
  induction levels generalizing start c with
  | zero =>
    rw [copyWithin, copyWithin, displayName_inlined]
    rfl
  | succ levels ih =>
    cases hb : (tree.get c).body with
    | base automaton =>
      rw [copyWithin, copyWithin, get_inlined]
      simp only [Component.inlined, Component.detached, hb]
      rfl
    | network children =>
      have hchildren := Component.children_of_network hb
      have hb' : (tree.inlined.get c).body = .network (children.mapValues Instance.inlined) := by
        rw [get_inlined, Component.inlined, hb]
      have hentry (entry : String × Instance) (he : entry ∈ children.entries)
          (state : NameMap Instance × List (Component κ)) :
          tree.inlined.copyEntry levels start state (entry.1, entry.2.inlined) =
            tree.copyEntry levels start state entry := by
        rw [← hchildren] at he
        refine copyEntry_inlined (h.link c hc entry he) he (fun binding hb literal hm => ?_)
          (fun start => ih (hc.child he)) state
        exact hliterals binding.inner literal ⟨c, hc, entry, he, binding, hb, rfl, hm⟩
      have hall := List.foldlM_map_congr hentry ((∅ : NameMap Instance), ([] : List (Component κ)))
      rw [copyWithin_of_network hb, copyWithin_of_network hb', NameMap.mapValues, hall, get_inlined]
      cases children.entries.foldlM (tree.copyEntry levels start) (∅, []) with
      | error cause => rfl
      | ok placed => rfl

/-- `copy` resolves literals as if they had been put in place before. -/
theorem copy_inlined (h : tree.Linked)
    (hliterals : ∀ name literal, ¬ tree.HasMalformed name literal) :
    tree.copy = tree.inlined.copy := by
  rw [copy, copy, size_inlined, root_inlined, copyWithin_inlined h hliterals tree.reachable_root]
  cases hcopies : tree.inlined.copyWithin tree.size 0 tree.root with
  | error cause => rfl
  | ok copies =>
    -- the root is no instance, so it has its values already
    obtain ⟨head, below, rfl, hhead⟩ := exists_head_of_copyWithin hcopies
    have hconstants : head.constants = (tree.get tree.root).constants := by
      rw [hhead, get_inlined]
      exact inlinedConstants_of_instance?_eq_none (instance?_of_parent_eq_none h.rootParent)
    rw [← hconstants]
    rfl

/-- `placeCopy` fails only at a literal that does not read as a number. -/
theorem exists_of_placeCopy_eq_error {owner : Handle} {place : Nat} {copies : List (Component κ)}
    {cause : ModelError κ} (h : placeCopy owner name inst place copies = .error cause) :
    ∃ binding ∈ inst.consts, ∃ literal, binding.IsMalformed κ literal ∧
      cause = .malformedLiteral binding.inner literal := by
  cases copies with
  | nil => cases h
  | cons head below =>
    rcases Except.bind_eq_error_iff.1 h with h | ⟨_, -, h⟩
    · exact exists_of_resolveLiterals_eq_error h
    · cases h

/-- `copyWithin` fails only at a literal that does not read as a number, at or below the component.
-/
theorem exists_of_copyWithin_eq_error {levels start : Nat} {cause : ModelError κ}
    (hl : tree.Covers levels c) (h : tree.copyWithin levels start c = .error cause) :
    ∃ names d, tree.follow c names = some d ∧ ∃ entry ∈ (tree.get d).children.entries,
      ∃ binding ∈ entry.2.consts, ∃ literal, binding.IsMalformed κ literal ∧
        cause = .malformedLiteral binding.inner literal := by
  -- induction on the levels; a failing fold has a failing entry
  induction levels generalizing start c with
  | zero => exact absurd hl (not_covers_zero tree c)
  | succ levels ih =>
    cases hb : (tree.get c).body with
    | base automaton =>
      rw [copyWithin] at h
      simp only [hb] at h
      cases h
    | network children =>
      rw [copyWithin_of_network hb] at h
      rcases Except.bind_eq_error_iff.1 h with h | ⟨_, -, h⟩
      · obtain ⟨entry, he, state, hentry⟩ := List.exists_of_foldlM_eq_error h
        rw [← Component.children_of_network hb] at he
        -- an entry fails because a copy below fails, or because its own literals do
        rcases Except.bind_eq_error_iff.1 hentry with hcopies | ⟨copies, -, hentry⟩
        · obtain ⟨names, d, hf, hd⟩ := ih (hl.child he) hcopies
          exact ⟨entry.1 :: names, d, follow_cons_iff.2 ⟨entry.2, he, hf⟩, hd⟩
        · rcases Except.bind_eq_error_iff.1 hentry with hplace | ⟨_, -, hdone⟩
          · obtain ⟨binding, hbinding, literal, hm, hcause⟩ := exists_of_placeCopy_eq_error hplace
            exact ⟨[], c, rfl, entry, he, binding, hbinding, literal, hm, hcause⟩
          · cases hdone
      · cases h

/-- If `copyWithin` succeeds then no literal on a way down from the component is malformed. -/
theorem not_isMalformed_of_copyWithin_eq_ok {levels start : Nat} {copies : List (Component κ)}
    (h : tree.copyWithin levels start c = .ok copies) {names : List String}
    (hf : tree.follow c names = some d) {entry : String × Instance}
    (he : entry ∈ (tree.get d).children.entries) {binding : Binding} (hb : binding ∈ entry.2.consts)
    (literal : String) : ¬ binding.IsMalformed κ literal := by
  -- along the way to the component, every copy succeeds
  have key {levels start : Nat} {c : Handle} {copies : List (Component κ)}
      (h : tree.copyWithin levels start c = .ok copies) {own : String × Instance}
      (ho : own ∈ (tree.get c).children.entries) :
      ∃ levels start copies, tree.copyWithin levels start own.2.child = .ok copies ∧
        ∃ owner place placed, placeCopy owner own.1 own.2 place copies = .ok placed := by
    cases levels with
    | zero => cases h
    | succ levels =>
      cases hbody : (tree.get c).body with
      | base automaton =>
        rw [Component.children_of_base hbody] at ho
        cases ho
      | network children =>
        rw [copyWithin_of_network hbody] at h
        rw [Component.children_of_network hbody] at ho
        obtain ⟨placed, hfold, -⟩ := Except.bind_eq_ok_iff.1 h
        obtain ⟨state, after, hentry⟩ := List.exists_of_foldlM_eq_ok hfold ho
        obtain ⟨copies, hcopies, hentry⟩ := Except.bind_eq_ok_iff.1 hentry
        obtain ⟨inst, hplace, -⟩ := Except.bind_eq_ok_iff.1 hentry
        exact ⟨_, _, copies, hcopies, _, _, inst, hplace⟩
  induction names generalizing levels start c copies with
  | nil =>
    obtain rfl := Option.some.inj hf
    obtain ⟨_, _, copies, hcopies, _, _, placed, hplace⟩ := key h he
    obtain ⟨head, below, rfl, -⟩ := exists_head_of_copyWithin hcopies
    obtain ⟨resolved, hresolved, -⟩ := Except.bind_eq_ok_iff.1 hplace
    exact not_isMalformed_of_resolveLiterals_eq_ok hresolved binding hb literal
  | cons name rest ih =>
    obtain ⟨inst, ho, hf⟩ := follow_cons_iff.1 hf
    obtain ⟨_, _, _, hcopies, -⟩ := key h ho
    exact ih hcopies hf

/-- `copy` fails with `malformedLiteral` if and only if some literal of the tree does not read as a
number. -/
theorem Linked.exists_malformedLiteral_iff (h : tree.Linked) :
    (∃ name literal, tree.copy = .error (.malformedLiteral name literal)) ↔
      ∃ name literal, tree.HasMalformed name literal := by
  have hroot := tree.reachable_root
  constructor
  · rintro ⟨name, literal, hcopy⟩
    rcases Except.bind_eq_error_iff.1 hcopy with hcopy | ⟨_, -, hcopy⟩
    · obtain ⟨names, d, hf, entry, he, binding, hb, literal, hm, -⟩ :=
        exists_of_copyWithin_eq_error (h.covers hroot) hcopy
      exact ⟨binding.inner, literal, d, ⟨names, hf⟩, entry, he, binding, hb, rfl, hm⟩
    · cases hcopy
  -- with a malformed literal no copy succeeds, and the failure names some literal
  · rintro ⟨name, literal, d, ⟨names, hf⟩, entry, he, binding, hb, rfl, hm⟩
    cases hcopies : tree.copyWithin tree.size 0 tree.root with
    | ok copies => exact absurd hm (not_isMalformed_of_copyWithin_eq_ok hcopies hf he hb literal)
    | error cause =>
      obtain ⟨_, _, _, _, _, binding, _, literal, -, rfl⟩ :=
        exists_of_copyWithin_eq_error (h.covers hroot) hcopies
      exact ⟨binding.inner, literal, by rw [copy, hcopies]; rfl⟩

end Tree
end HybridAutomata
