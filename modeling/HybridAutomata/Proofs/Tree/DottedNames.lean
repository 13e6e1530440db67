import HybridAutomata.Proofs.Change
import HybridAutomata.Proofs.Tree.Constants
import HybridAutomata.Tree.Resolve
/-!
# Dotted names of constants

A dotted name is cut at its first dot again and again on the way down, while the qualified name of a
constant is put together on the way up. In a well-formed tree the two fit: names of instances and of
constants have no dots, so the pieces are the names of the instances on the way and the constant
behind them.

`Tree.setConstant` walks down and assigns at the end of the way. The way alone is `locate`.

* `runOn_setConstant`               assigning is locating, and then a change that cannot fail
* `exists_follow_of_locate`         what a dotted name leads to
* `locate_join`                     the names on a way lead down the way
* `WellFormed.locate_eq_ok_iff`     dotted names lead to constants by their qualified names
-/

namespace HybridAutomata.Tree

variable {κ : Type} {tree : Tree κ} {b c : Handle} {names : List String} {text constant : String}

/-! ## Locating -/

/-- The component and the name there that a dotted name stands for. Each piece up to a dot leads
from a network to the instance of that name. -/
def locate (tree : Tree κ) (c : Handle) (name : String) : Except (ModelError κ) (Handle × String) :=
  let here : Except (ModelError κ) (Handle × String) :=
    if (tree.get c).constants.contains name then .ok (c, name)
    else .error (.unknownConstant name (tree.get c).displayName)
  match (tree.get c).body with
  | .base _ => here
  | .network children =>
    match _h : Text.cut? '.' name with
    | none => here
    | some (inst, rest) =>
      match children.get? inst with
      | some entry => tree.locate entry.child rest
      | none => .error (.unknownInstance inst (tree.get c).displayName)
termination_by name.length
decreasing_by exact Text.length_lt_of_cut? (by assumption)

/-- The end of an assignment at the constants of a component. -/
theorem runOn_setOwnConstant (tree : Tree κ) (c : Handle) (name : String) (value : Interval κ) :
    (setOwnConstant c name value).runOn tree =
      if (tree.get c).constants.contains name then (.ok (), tree.assign c name value)
      else (.error (.unknownConstant name (tree.get c).displayName), tree) := by
  rw [setOwnConstant, Change.runOn_bind_ok (Change.runOn_getThe tree)]
  dsimp only
  split <;> rfl

/-- In a network, a dotted name is handed on to the instance before the dot, if there is one. -/
theorem runOn_setConstant_of_cut {children : NameMap Instance} {name inst rest : String}
    (hb : (tree.get c).body = .network children) (hcut : Text.cut? '.' name = some (inst, rest))
    (value : Interval κ) :
    (setConstant c name value).runOn tree =
      match children.get? inst with
      | some entry => (setConstant entry.child rest value).runOn tree
      | none => (.error (.unknownInstance inst (tree.get c).displayName), tree) := by
  rw [setConstant, Change.runOn_bind_ok (Change.runOn_getThe tree)]
  simp only [hb]
  -- the text is cut in the same way on both sides
  split
  · next hnone => cases hcut.symm.trans hnone
  · next hsome =>
    obtain ⟨rfl, rfl⟩ := Prod.mk.inj (Option.some.inj (hcut.symm.trans hsome))
    cases children.get? inst <;> rfl

/-- Assigning is locating, and then a change that cannot fail. -/
theorem runOn_setConstant (tree : Tree κ) (c : Handle) (name : String) (value : Interval κ) :
    (setConstant c name value).runOn tree =
      match tree.locate c name with
      | .ok (owner, constant) => (.ok (), tree.assign owner constant value)
      | .error cause => (.error cause, tree) := by
  -- induction along the search, one instance for each dot; the tree is not changed on the way
  fun_induction locate tree c name with
  | case1 c name here automaton hb =>
    rw [setConstant, Change.runOn_bind_ok (Change.runOn_getThe tree)]
    simp only [hb, runOn_setOwnConstant]
    by_cases hk : (tree.get c).constants.contains name = true <;> simp [here, hk]
  | case2 c name here children hb hcut =>
    rw [setConstant, Change.runOn_bind_ok (Change.runOn_getThe tree)]
    simp only [hb]
    split
    · by_cases hk : (tree.get c).constants.contains name = true <;>
        simp [here, hk, runOn_setOwnConstant]
    · next hsome => cases hcut.symm.trans hsome
  | case3 c name children hb inst rest hcut entry hi ih =>
    rw [runOn_setConstant_of_cut hb hcut, hi]
    exact ih
  | case4 c name children hb inst rest hcut hi =>
    rw [runOn_setConstant_of_cut hb hcut, hi]

/-- A refused assignment leaves the tree as it is. -/
theorem setConstant_atomicOn (c : Handle) (name : String) (value : Interval κ) (tree : Tree κ) :
    (setConstant c name value).AtomicOn id tree := by
  intro cause after h
  -- the constant is located first, and one that is found can be assigned
  rw [runOn_setConstant] at h
  split at h
  · cases h
  · cases h
    rfl

/-! ## Dotted names and qualified names -/

/-- A text is the qualified name of a constant that a reachable component declares. -/
structure Denotes (tree : Tree κ) (text : String) (c : Handle) (constant : String) : Prop where
  reachable : tree.Reachable c
  declared : constant ∈ (tree.get c).constants.keys
  text_eq : text = qualify (tree.path c) constant

/-- A component looks a name up among its own constants if it is an automaton or the name has no
dot. -/
theorem locate_of_not_mem (h : '.' ∉ text.toList) :
    tree.locate b text =
      if (tree.get b).constants.contains text then .ok (b, text)
      else .error (.unknownConstant text (tree.get b).displayName) := by
  rw [locate]
  -- an automaton is asked at once, a network only if the text is not cut
  split
  · rfl
  · split
    · rfl
    · next hcut =>
      rw [Text.cut?_of_not_mem h] at hcut
      cases hcut

/-- A network looks the rest of a dotted name up in the instance before the dot. -/
theorem locate_of_child {name : String} {inst : Instance}
    (he : (name, inst) ∈ (tree.get b).children.entries)
    (hcut : Text.cut? '.' text = some (name, constant)) :
    tree.locate b text = tree.locate inst.child constant := by
  rw [locate]
  -- the cut leads to the entry
  split
  · next hb =>
    rw [Component.children_of_base hb] at he
    cases he
  · next hb =>
    rw [Component.children_of_network hb] at he
    split
    · next hnone => cases hcut.symm.trans hnone
    · next hsome =>
      obtain ⟨rfl, rfl⟩ := Prod.mk.inj (Option.some.inj (hcut.symm.trans hsome))
      rw [NameMap.get?_eq_some_iff.2 he]

/-- A constant that a component finds among its own ones is at the end of the empty way. -/
theorem exists_follow_of_own {cause : ModelError κ}
    (h : (if (tree.get b).constants.contains text then .ok (b, text) else .error cause :
      Except (ModelError κ) (Handle × String)) = .ok (c, constant)) :
    ∃ names, tree.follow b names = some c ∧ constant ∈ (tree.get c).constants.keys ∧
      text = Text.join "." (names ++ [constant]) := by
  split at h
  · next hk =>
    obtain ⟨rfl, rfl⟩ := Prod.mk.inj (Except.ok.inj h)
    exact ⟨[], rfl, NameMap.contains_iff.1 hk, rfl⟩
  · cases h

/-- A dotted name that leads somewhere consists of the names on the way and a constant behind them.
-/
theorem exists_follow_of_locate (h : tree.locate b text = .ok (c, constant)) :
    ∃ names, tree.follow b names = some c ∧ constant ∈ (tree.get c).constants.keys ∧
      text = Text.join "." (names ++ [constant]) := by
  -- induction along the search, one instance for each dot
  fun_induction locate tree b text with
  | case1 => exact exists_follow_of_own h
  | case2 => exact exists_follow_of_own h
  | case3 b text children hb name rest hcut inst hi ih =>
    obtain ⟨names, hf, hk, rfl⟩ := ih h
    refine ⟨name :: names, follow_cons_iff.2 ⟨inst, ?_, hf⟩, hk, ?_⟩
    · rw [Component.children_of_network hb]
      exact NameMap.get?_eq_some_iff.1 hi
    · rw [List.cons_append, Text.join_cons (by simp)]
      exact (Text.cut?_eq_some_iff.1 hcut).2
  | case4 => cases h

/-- The names on a way, with a constant behind them, lead down the way. -/
theorem locate_join (hf : tree.follow b names = some c)
    (hk : constant ∈ (tree.get c).constants.keys) (hconstant : '.' ∉ constant.toList)
    (hnames : ∀ name ∈ names, '.' ∉ name.toList) :
    tree.locate b (Text.join "." (names ++ [constant])) = .ok (c, constant) := by
  -- induction on the names of the way, which are cut off one by one
  induction names generalizing b with
  | nil =>
    obtain rfl := Option.some.inj hf
    rw [List.nil_append, Text.join, locate_of_not_mem hconstant, if_pos (NameMap.contains_iff.2 hk)]
  | cons name rest ih =>
    obtain ⟨inst, he, hf⟩ := follow_cons_iff.1 hf
    have hcut : Text.cut? '.' (Text.join "." (name :: (rest ++ [constant]))) =
        some (name, Text.join "." (rest ++ [constant])) :=
      Text.cut?_join (by simp) (hnames name List.mem_cons_self)
    rw [List.cons_append, locate_of_child he hcut]
    exact ih hf fun other ho => hnames other (List.mem_cons_of_mem _ ho)

/-- From the root, a dotted name leads to the constant of which it is the qualified name. -/
theorem WellFormed.locate_eq_ok_iff (h : tree.WellFormed) :
    tree.locate tree.root text = .ok (c, constant) ↔ tree.Denotes text c constant := by
  constructor
  · intro hl
    obtain ⟨names, hf, hk, rfl⟩ := exists_follow_of_locate hl
    exact ⟨⟨names, hf⟩, hk, (h.qualify_path_eq hf constant).symm⟩
  · rintro ⟨⟨names, hf⟩, hk, rfl⟩
    rw [h.qualify_path_eq hf]
    exact locate_join hf hk (h.not_mem_of_mem_constants hf hk) fun name hn =>
      Text.not_mem_of_isIdentifier (h.isIdentifier_of_follow hf hn)

/-- A text denotes one constant. -/
theorem WellFormed.denotes_unique (h : tree.WellFormed) {d : Handle} {other : String}
    (hc : tree.Denotes text c constant) (hd : tree.Denotes text d other) :
    c = d ∧ constant = other := by
  have hpair := (h.locate_eq_ok_iff.2 hc).symm.trans (h.locate_eq_ok_iff.2 hd)
  exact Prod.mk.inj (Except.ok.inj hpair)

end HybridAutomata.Tree
