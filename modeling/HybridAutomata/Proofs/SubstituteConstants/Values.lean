import HybridAutomata.Proofs.Pass.Requirement
import HybridAutomata.Proofs.SubstituteConstants.Result
import HybridAutomata.Proofs.Tree.Variables
/-!
# Looking up the values of constants

The pass requires that the listed constants are points, but it looks up the values of all constants,
bound ones included. In a well-formed tree every chain of constants ends at a listed constant, so no
look-up fails.

* `exists_pointValue`               every constant has a point value
* `exists_allValues`                so the look-up of all values succeeds
* `get?_qualifiedValues_iff`        the values by qualified names
-/

namespace HybridAutomata

variable {κ : Type} [Scalar κ]

/-! ## The requirement -/

/-- What `substituteConstants` requires makes listed constants points. -/
theorem Pass.isPoint_of_check {model : Model κ} (h : Pass.check .substituteConstants model = .ok ())
    {listed : String} {interval : Interval κ}
    (hl : model.allConstants.get? listed = some (some interval)) : interval.isPoint = true := by
  -- the requirement that listed constants are points is one of those checked
  rw [Pass.check_eq (by decide), Requirements.check_eq_ok_iff] at h
  exact Requirements.checkOne_pointConstants_iff.1 (h .pointConstants rfl) _
    (NameMap.get?_eq_some_iff.1 hl) interval rfl

namespace SubstituteConstants

/-! ## Values of single constants -/

/-- `pointValue` finds the number of a constant whose value is a point. -/
theorem pointValue_eq_ok_iff {tree : Tree κ} {c : Handle} {name : String} {e : Expr κ} :
    pointValue tree c name = .ok e ↔
      ∃ interval number, tree.constantValue c name = .ok interval ∧
        interval.value? = some number ∧ e = .const number := by
  rw [pointValue, Except.bind_eq_ok_iff]
  refine exists_congr fun interval => ?_
  cases hv : interval.value? with
  | none => simp
  | some number => simp [@eq_comm _ e]

/-- If listed constants are points then `pointValue` finds a number for every constant of the tree.
-/
theorem exists_pointValue {tree : Tree κ} (h : tree.WellFormed)
    (hpoint : ∀ listed interval, (tree.allConstants tree.root).get? listed = some (some interval) →
      interval.isPoint = true)
    {names : List String} {c : Handle} (hf : tree.follow tree.root names = some c) {name : String}
    (hname : name ∈ (tree.get c).constants.keys) :
    ∃ number, pointValue tree c name = .ok (.const number) := by
  obtain ⟨interval, hv⟩ := (h.nodeOk hf).values name hname
  obtain ⟨names', d, name', hf', hfree, hd⟩ := h.exists_free_of_constantValue hf hv
  -- the end of the chain is listed, so the requirement is about it
  have hp := hpoint _ _ (h.get?_allConstants_iff.2 ⟨names', d, name', hf', rfl, hfree, hd⟩)
  refine ⟨interval.lower, pointValue_eq_ok_iff.2 ⟨interval, interval.lower, hv, ?_, rfl⟩⟩
  rw [Interval.value?, if_pos hp]

/-! ## Values of components -/

/-- `pointValues` of a component are those of its constants. -/
theorem get?_of_pointValues {tree : Tree κ} {c : Handle} {values : NameMap (Expr κ)}
    (h : pointValues tree c = .ok values) {name : String} {e : Expr κ} :
    values.get? name = some e ↔
      name ∈ (tree.get c).constants.keys ∧ pointValue tree c name = .ok e := by
  rw [pointValues] at h
  obtain ⟨entries, he, h⟩ := Except.bind_eq_ok_iff.1 h
  obtain rfl := Except.ok.inj h
  have hentry {entry : String × Expr κ} : entry ∈ entries ↔
      entry.1 ∈ (tree.get c).constants.keys ∧ pointValue tree c entry.1 = .ok entry.2 := by
    rw [List.mem_of_mapM_eq_ok he]
    constructor
    · rintro ⟨other, ho, hp⟩
      obtain ⟨value, hv, hp⟩ := Except.bind_eq_ok_iff.1 hp
      obtain rfl := Except.ok.inj hp
      exact ⟨ho, hv⟩
    · rintro ⟨hn, hv⟩
      exact ⟨entry.1, hn, by rw [hv]; rfl⟩
  constructor
  · intro hg
    rcases NameMap.get?_insertAll_eq_some hg with hg | hg
    · cases hg
    · exact hentry.1 hg
  · rintro ⟨hn, hv⟩
    -- the name is in the map, and whatever it is filed with is its value
    have hkey : name ∈ (NameMap.ofList entries).keys := by
      rw [NameMap.ofList, NameMap.mem_keys_insertAll]
      exact .inr (List.mem_map_of_mem (hentry.2 (show (name, e).1 ∈ _ ∧ _ from ⟨hn, hv⟩)))
    obtain ⟨e', hg⟩ := NameMap.mem_keys_iff.1 hkey
    rcases NameMap.get?_insertAll_eq_some hg with hg' | hg'
    · cases hg'
    · obtain rfl := Except.ok.inj (hv.symm.trans (hentry.1 hg').2)
      exact hg

/-- `pointValues` has looked up every constant of a component. -/
theorem exists_get?_of_pointValues {tree : Tree κ} {c : Handle} {values : NameMap (Expr κ)}
    (h : pointValues tree c = .ok values) {name : String}
    (hname : name ∈ (tree.get c).constants.keys) : ∃ e, values.get? name = some e := by
  have hvalues := h
  rw [pointValues] at hvalues
  obtain ⟨entries, he, -⟩ := Except.bind_eq_ok_iff.1 hvalues
  obtain ⟨entry, hentry⟩ := List.exists_of_mapM_eq_ok he hname
  obtain ⟨e, hv, -⟩ := Except.bind_eq_ok_iff.1 hentry
  exact ⟨e, (get?_of_pointValues h).2 ⟨hname, hv⟩⟩

/-- `pointValues` succeeds if `pointValue` does for each constant. -/
theorem exists_pointValues {tree : Tree κ} {c : Handle}
    (h : ∀ name ∈ (tree.get c).constants.keys, ∃ e, pointValue tree c name = .ok e) :
    ∃ values, pointValues tree c = .ok values := by
  have hall : ∀ name ∈ (tree.get c).constants.keys, ∃ entry : String × Expr κ,
      (do pure (name, ← pointValue tree c name) : Except (ModelError κ) _) = .ok entry := by
    intro name hn
    obtain ⟨e, he⟩ := h name hn
    exact ⟨(name, e), by rw [he]; rfl⟩
  obtain ⟨entries, he⟩ := List.exists_mapM_eq_ok hall
  exact ⟨.ofList entries, by rw [pointValues, he]; rfl⟩

/-! ## Values of the whole tree -/

/-- The values that were looked up are those of all reachable components. -/
structure ValuesOf (tree : Tree κ) (values : List (Handle × NameMap (Expr κ))) : Prop where
  handles : values.map Prod.fst = tree.descendants tree.root
  values : ∀ entry ∈ values, pointValues tree entry.1 = .ok entry.2

/-- What `allValues` finds is `ValuesOf` the tree. -/
theorem valuesOf_of_allValues {tree : Tree κ} {values : List (Handle × NameMap (Expr κ))}
    (h : allValues tree = .ok values) : ValuesOf tree values := by
  rw [allValues] at h
  constructor
  -- one entry for each component, in order
  · refine (List.map_of_mapM_eq_ok h fun c entry he => ?_).trans (List.map_id _)
    obtain ⟨values, -, he⟩ := Except.bind_eq_ok_iff.1 he
    exact Except.ok.inj he ▸ rfl
  -- each entry holds the values of its component
  · intro entry he
    obtain ⟨c, -, he⟩ := (List.mem_of_mapM_eq_ok h).1 he
    obtain ⟨values, hv, he⟩ := Except.bind_eq_ok_iff.1 he
    exact Except.ok.inj he ▸ hv

/-- If listed constants are points then `allValues` succeeds. -/
theorem exists_allValues {tree : Tree κ} (h : tree.WellFormed)
    (hpoint : ∀ listed interval, (tree.allConstants tree.root).get? listed = some (some interval) →
      interval.isPoint = true) :
    ∃ values, allValues tree = .ok values ∧ ValuesOf tree values := by
  -- no component fails to have point values
  have hall : ∀ c ∈ tree.descendants tree.root, ∃ entry : Handle × NameMap (Expr κ),
      (do pure (c, ← pointValues tree c) : Except (ModelError κ) _) = .ok entry := by
    intro c hc
    obtain ⟨names, hf⟩ := h.linked.mem_descendants_iff.1 hc
    obtain ⟨values, hv⟩ := exists_pointValues fun name hn => by
      obtain ⟨number, he⟩ := exists_pointValue h hpoint hf hn
      exact ⟨.const number, he⟩
    exact ⟨(c, values), by rw [hv]; rfl⟩
  obtain ⟨values, hv⟩ := List.exists_mapM_eq_ok hall
  exact ⟨values, hv, valuesOf_of_allValues hv⟩

namespace ValuesOf

variable {tree : Tree κ} {values : List (Handle × NameMap (Expr κ))}

/-- Every one of the `ValuesOf` a tree is a number. -/
theorem eq_const (h : ValuesOf tree values) {entry : Handle × NameMap (Expr κ)}
    (he : entry ∈ values) {name : String} {e : Expr κ} (hg : entry.2.get? name = some e) :
    ∃ number, e = .const number := by
  obtain ⟨-, hv⟩ := (get?_of_pointValues (h.values entry he)).1 hg
  obtain ⟨-, number, -, -, rfl⟩ := pointValue_eq_ok_iff.1 hv
  exact ⟨number, rfl⟩

/-- Every reachable component has its entry among the `ValuesOf` a tree. -/
theorem exists_mem (h : ValuesOf tree values) {c : Handle}
    (hc : c ∈ tree.descendants tree.root) : ∃ own, (c, own) ∈ values := by
  rw [← h.handles] at hc
  obtain ⟨⟨_, own⟩, he, rfl⟩ := List.mem_map.1 hc
  exact ⟨own, he⟩

/-- Only reachable components have an entry among the `ValuesOf` a tree. -/
theorem mem_descendants (h : ValuesOf tree values) {entry : Handle × NameMap (Expr κ)}
    (he : entry ∈ values) : entry.1 ∈ tree.descendants tree.root :=
  h.handles ▸ List.mem_map_of_mem he

/-- By qualified names, `qualifiedValues` gives every constant of every reachable component its own
value. -/
theorem get?_qualifiedValues_iff (h : ValuesOf tree values) (htree : tree.WellFormed)
    {listed : String} {e : Expr κ} :
    (qualifiedValues tree values).get? listed = some e ↔
      ∃ names c name, tree.follow tree.root names = some c ∧
        name ∈ (tree.get c).constants.keys ∧ listed = Tree.qualify (tree.path c) name ∧
        pointValue tree c name = .ok e := by
  have hsound {listed : String} {e : Expr κ}
      (hg : (qualifiedValues tree values).get? listed = some e) :
      ∃ names c name, tree.follow tree.root names = some c ∧
        name ∈ (tree.get c).constants.keys ∧ listed = Tree.qualify (tree.path c) name ∧
        pointValue tree c name = .ok e := by
    -- every entry comes from a component and one of its constants
    rcases NameMap.get?_insertAll_eq_some hg with hg | hg
    · cases hg
    obtain ⟨⟨c, own⟩, he, hg⟩ := List.mem_flatMap.1 hg
    obtain ⟨⟨name, value⟩, hm, heq⟩ := List.mem_map.1 hg
    obtain ⟨rfl, rfl⟩ := Prod.mk.inj heq
    obtain ⟨names, hf⟩ := htree.linked.mem_descendants_iff.1 (h.mem_descendants he)
    obtain ⟨hn, hv⟩ := (get?_of_pointValues (h.values _ he)).1 (NameMap.get?_eq_some_iff.2 hm)
    exact ⟨names, c, name, hf, hn, rfl, hv⟩
  constructor
  · exact hsound
  · rintro ⟨names, c, name, hf, hn, rfl, hv⟩
    obtain ⟨own, he⟩ := h.exists_mem (htree.linked.mem_descendants_iff.2 ⟨names, hf⟩)
    have hown := (get?_of_pointValues (h.values _ he)).2 ⟨hn, hv⟩
    have hkey : Tree.qualify (tree.path c) name ∈ (qualifiedValues tree values).keys := by
      rw [qualifiedValues, NameMap.ofList, NameMap.mem_keys_insertAll]
      refine .inr (List.mem_map.2 ⟨(Tree.qualify (tree.path c) name, e), ?_, rfl⟩)
      exact List.mem_flatMap.2 ⟨(c, own), he,
        List.mem_map.2 ⟨(name, e), NameMap.get?_eq_some_iff.1 hown, rfl⟩⟩
    -- whatever stands there is the value of the same constant
    obtain ⟨e', hg⟩ := NameMap.mem_keys_iff.1 hkey
    obtain ⟨names', c', name', hf', hn', heq, hv'⟩ := hsound hg
    obtain ⟨rfl, rfl⟩ := htree.qualify_inj hf hf' (htree.not_mem_of_mem_constants hf hn)
      (htree.not_mem_of_mem_constants hf' hn') heq
    obtain rfl := Except.ok.inj (hv.symm.trans hv')
    exact hg

end ValuesOf

end SubstituteConstants
end HybridAutomata
