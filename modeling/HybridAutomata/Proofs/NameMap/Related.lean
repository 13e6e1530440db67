import HybridAutomata.Proofs.NameMap.Lookup
import Mathlib.Data.List.Forall2
import Mathlib.Data.List.Perm.Basic
/-!
# Maps with related values

Two maps are related if they have the same names and hold related values under each of them,
whatever the order of the names is. The comparison of maps establishes just this: maps of the same
size, one of which has all the names of the other, have the same names.

* `related_of_same`, `same_iff_related`   compared maps are related
* `Related.exists_right`   every entry has a related one under its name
* `Related.keys_perm`      the names are the same up to their order
-/

namespace HybridAutomata.NameMap

variable {α β : Type} {r : α → β → Prop} {left : NameMap α} {right : NameMap β} {name : String}

/-- The same names, with related values. -/
def Related (r : α → β → Prop) (left : NameMap α) (right : NameMap β) : Prop :=
  ∀ name, Option.Rel r (left.get? name) (right.get? name)

@[simp] theorem related_empty : Related r ∅ ∅ := fun _ => .none

/-- A name is missing in both of two `Related` maps, or has related values in them. -/
theorem Related.cases (h : Related r left right) (name : String) :
    (left.get? name = none ∧ right.get? name = none) ∨
      ∃ value value', left.get? name = some value ∧ right.get? name = some value' ∧
        r value value' := by
  have hrel := h name
  cases hl : left.get? name <;> cases hr : right.get? name <;> rw [hl, hr] at hrel <;> cases hrel
  · exact .inl ⟨rfl, rfl⟩
  · next hvalues => exact .inr ⟨_, _, rfl, rfl, hvalues⟩

/-- Values that `get?` finds under the same name of `Related` maps are related. -/
theorem Related.of_get? (h : Related r left right) {value : α} {value' : β}
    (hl : left.get? name = some value) (hr : right.get? name = some value') : r value value' := by
  have hrel := h name
  rw [hl, hr] at hrel
  exact Option.rel_some_some.1 hrel

/-- `Related` maps are related the other way round. -/
theorem Related.symm (h : Related r left right) : Related (fun b a => r a b) right left := by
  intro name
  have hrel := h name
  revert hrel
  cases left.get? name <;> cases right.get? name <;> simp

/-- A map that is `Related` to one that is `Related` to a third is so itself, with the relations one
after the other. -/
theorem Related.trans {γ : Type} {r' : β → γ → Prop} {r'' : α → γ → Prop} {last : NameMap γ}
    (h : Related r left right) (h' : Related r' right last)
    (hr : ∀ a b c, r a b → r' b c → r'' a c) : Related r'' left last := by
  intro name
  have hrel := h name
  have hrel' := h' name
  -- a name is missing in all three maps, or has values in all of them
  revert hrel hrel'
  cases left.get? name <;> cases right.get? name <;> cases last.get? name <;> simp
  exact hr _ _ _

/-- Values that are related by `r` may be related by what follows from `r`. -/
theorem Related.mono {r' : α → β → Prop} (h : Related r left right) (hr : ∀ a b, r a b → r' a b) :
    Related r' left right := by
  intro name
  have hrel := h name
  revert hrel
  cases left.get? name <;> cases right.get? name <;> simp
  exact hr _ _

/-- What relates the values of the entries is all that matters to `Related`. -/
theorem related_congr {r' : α → β → Prop}
    (hr : ∀ entry ∈ left.entries, ∀ b, r entry.2 b ↔ r' entry.2 b) :
    Related r left right ↔ Related r' left right := by
  refine forall_congr' fun name => ?_
  cases hl : left.get? name with
  | none => cases right.get? name <;> simp
  | some value =>
    cases right.get? name with
    | none => simp
    | some value' => simpa using hr (name, value) (get?_eq_some_iff.1 hl) value'

/-- Every entry has a related one under its name in a `Related` map. -/
theorem Related.exists_right (h : Related r left right) {value : α}
    (he : (name, value) ∈ left.entries) :
    ∃ value', (name, value') ∈ right.entries ∧ r value value' := by
  have hrel := h name
  rw [get?_eq_some_iff.2 he] at hrel
  -- a value on one side only is not related to anything
  cases hv : right.get? name with
  | none =>
    rw [hv] at hrel
    cases hrel
  | some value' =>
    rw [hv] at hrel
    cases hrel with
    | some hr => exact ⟨value', get?_eq_some_iff.1 hv, hr⟩

/-- `Related` maps have the same names. -/
theorem Related.mem_keys_iff (h : Related r left right) : name ∈ left.keys ↔ name ∈ right.keys := by
  rw [NameMap.mem_keys_iff, NameMap.mem_keys_iff]
  cases hl : left.get? name <;> cases hr : right.get? name <;> have hrel := h name <;>
    rw [hl, hr] at hrel <;> cases hrel <;> simp

theorem Related.keys_perm (h : Related r left right) : left.keys.Perm right.keys :=
  (List.perm_ext_iff_of_nodup left.nodup_keys right.nodup_keys).2 fun _ => h.mem_keys_iff

/-- `contains` answers alike on `Related` maps. -/
theorem Related.contains_eq (h : Related r left right) (name : String) :
    left.contains name = right.contains name := by
  rw [Bool.eq_iff_iff, contains_iff, contains_iff, h.mem_keys_iff]

/-- `isEmpty` answers alike on `Related` maps. -/
theorem Related.isEmpty_eq (h : Related r left right) : left.isEmpty = right.isEmpty := by
  -- the names are as many, so the entries are
  have hlength := h.keys_perm.length_eq
  rw [keys, keys, List.length_map, List.length_map] at hlength
  rw [isEmpty, isEmpty, Bool.eq_iff_iff, List.isEmpty_iff_length_eq_zero,
    List.isEmpty_iff_length_eq_zero, hlength]

/-- Maps that `same` compares as equal are `Related`, by what the comparison of values establishes.
-/
theorem related_of_same {eq : α → β → Bool} (h : left.same eq right = true)
    (hr : ∀ a b, eq a b = true → r a b) : Related r left right := by
  rw [same, Bool.and_eq_true, beq_iff_eq, List.all_eq_true] at h
  obtain ⟨hsize, hvalues⟩ := h
  have hfound {name : String} {value : α} (he : (name, value) ∈ left.entries) :
      ∃ value', right.get? name = some value' ∧ r value value' := by
    have heq := hvalues _ he
    cases hv : right.get? name with
    | none => simp [hv] at heq
    | some value' => exact ⟨value', rfl, hr _ _ (by simpa [hv] using heq)⟩
  intro name
  cases hl : left.get? name with
  | some value =>
    obtain ⟨value', hv, hrel⟩ := hfound (get?_eq_some_iff.1 hl)
    rw [hv]
    exact .some hrel
  | none =>
    -- another name on the right would make the right map larger
    have hnone : right.get? name = none := by
      rw [get?_eq_none_iff] at hl ⊢
      intro hn
      have hsub : name :: left.keys ⊆ right.keys := by
        refine List.cons_subset.2 ⟨hn, fun other ho => ?_⟩
        obtain ⟨value, hv⟩ := NameMap.mem_keys_iff.1 ho
        obtain ⟨value', hv', -⟩ := hfound (get?_eq_some_iff.1 hv)
        exact NameMap.mem_keys_iff.2 ⟨value', hv'⟩
      have hle := (List.nodup_cons.2 ⟨hl, left.nodup_keys⟩).length_le_of_subset hsub
      rw [List.length_cons, keys, keys, List.length_map, List.length_map] at hle
      simp only [size] at hsize
      omega
    rw [hnone]
    exact .none

/-- `same` compares maps name by name. -/
theorem same_iff_related {eq : α → β → Bool} :
    left.same eq right = true ↔ Related (fun a b => eq a b = true) left right := by
  constructor
  · exact fun h => related_of_same h fun _ _ => id
  · intro h
    -- related maps have equally many names
    have hsize := h.keys_perm.length_eq
    rw [keys, keys, List.length_map, List.length_map] at hsize
    rw [same, Bool.and_eq_true, beq_iff_eq, List.all_eq_true]
    refine ⟨hsize, fun entry he => ?_⟩
    obtain ⟨value, hv, hr⟩ := h.exists_right he
    rw [get?_eq_some_iff.2 hv]
    exact hr

theorem beq_iff_related [BEq α] {left right : NameMap α} :
    (left == right) = true ↔ Related (fun a b => (a == b) = true) left right := same_iff_related

/-- A map compares as equal to itself if its values do. -/
theorem beq_self_of_values [BEq α] {map : NameMap α}
    (h : ∀ value ∈ map.values, (value == value) = true) : (map == map) = true := by
  refine beq_iff_related.2 fun name => ?_
  cases hv : map.get? name with
  | none => exact .none
  | some value => exact .some (h value (List.mem_map_of_mem (get?_eq_some_iff.1 hv)))

instance [BEq α] [PartialEquivBEq α] : PartialEquivBEq (NameMap α) where
  symm h := beq_iff_related.2 ((beq_iff_related.1 h).symm.mono fun _ _ => BEq.symm)
  trans h h' := beq_iff_related.2 ((beq_iff_related.1 h).trans (beq_iff_related.1 h')
    fun _ _ _ => BEq.trans)

/-- If names come in the same order then so do their values, related pair by pair. -/
theorem forall₂_values (hkeys : left.keys = right.keys)
    (hr : ∀ name value value', (name, value) ∈ left.entries → (name, value') ∈ right.entries →
      r value value') : List.Forall₂ r left.values right.values := by
  rw [keys, keys] at hkeys
  rw [values, values]
  -- the names of both lists are compared entry by entry, so the maps are forgotten
  generalize left.entries = entries, right.entries = entries' at hkeys hr
  induction entries generalizing entries' with
  | nil =>
    obtain rfl := List.map_eq_nil_iff.1 hkeys.symm
    exact .nil
  | cons entry rest ih =>
    obtain ⟨entry', rest', rfl, hname, hrest⟩ := List.map_eq_cons_iff.1 hkeys.symm
    refine .cons (hr entry.1 entry.2 entry'.2 List.mem_cons_self (hname ▸ List.mem_cons_self)) ?_
    exact ih rest' hrest.symm fun name value value' hv hv' =>
      hr name value value' (List.mem_cons_of_mem _ hv) (List.mem_cons_of_mem _ hv')

end HybridAutomata.NameMap
