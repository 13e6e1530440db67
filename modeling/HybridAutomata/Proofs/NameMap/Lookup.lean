import HybridAutomata.NameMap
import HybridAutomata.Proofs.ForStd.List
/-!
# Looking names up

What a look-up finds, for every way in which a map is built. Two views are tied together here:
membership of an entry in `entries`, and `get?`.

* `get?_eq_some_iff`   a look-up finds the value of the one entry under the name
* `get?_insertAll_eq_some`   what is found after insertions
* `entries_insert_of_not_mem`, `insert_eq_modify`, `modify_insert`   how single entries come in
-/

namespace HybridAutomata.NameMap

variable {α β γ : Type}

/-! ## Entries, names and look-ups -/

/-- The name of an entry is among the `keys`. -/
theorem mem_keys_of_mem {map : NameMap α} {entry : String × α} (h : entry ∈ map.entries) :
    entry.1 ∈ map.keys :=
  List.mem_map_of_mem h

/-- `find?` finds every entry in a list of entries with different names. -/
theorem find?_eq_some_of_mem {entries : List (String × α)} {name : String} {value : α}
    (hn : (entries.map Prod.fst).Nodup) (h : (name, value) ∈ entries) :
    entries.find? (fun entry => entry.1 = name) = some (name, value) :=
  List.find?_eq_some_of_nodup hn h

/-- `get?` finds a value just if it is the value of an entry under the name. -/
theorem get?_eq_some_iff {map : NameMap α} {name : String} {value : α} :
    map.get? name = some value ↔ (name, value) ∈ map.entries := by
  rw [get?]
  constructor
  · intro h
    obtain ⟨⟨found, value'⟩, hf, rfl⟩ := Option.map_eq_some_iff.1 h
    have hname : found = name := by simpa using List.find?_some hf
    exact hname ▸ List.mem_of_find?_eq_some hf
  · intro h
    -- names are not repeated, so the first entry under the name is the only one
    rw [find?_eq_some_of_mem map.nodup_keys h]
    rfl

/-- `get?` finds nothing just if the name is not among the `keys`. -/
theorem get?_eq_none_iff {map : NameMap α} {name : String} :
    map.get? name = none ↔ name ∉ map.keys := by
  rw [get?, Option.map_eq_none_iff, List.find?_eq_none, keys, List.mem_map]
  constructor
  · rintro h ⟨entry, he, rfl⟩
    exact h entry he (by simp)
  · intro h entry he hname
    exact h ⟨entry, he, by simpa using hname⟩

/-- A name is among the `keys` just if `get?` finds a value for it. -/
theorem mem_keys_iff {map : NameMap α} {name : String} :
    name ∈ map.keys ↔ ∃ value, map.get? name = some value := by
  cases h : map.get? name with
  | none => simpa using get?_eq_none_iff.1 h
  | some value =>
    exact ⟨fun _ => ⟨value, rfl⟩, fun _ => mem_keys_of_mem (get?_eq_some_iff.1 h)⟩

/-- A map has one value for each name, since `nodup_keys` rules out repeated names. -/
theorem value_unique {map : NameMap α} {name : String} {left right : α}
    (hl : (name, left) ∈ map.entries) (hr : (name, right) ∈ map.entries) : left = right := by
  rw [← get?_eq_some_iff] at hl hr
  exact Option.some.inj (hl.symm.trans hr)

/-- `get?` does not depend on the order of the entries. -/
theorem get?_eq_of_perm {left right : NameMap α} (h : left.entries.Perm right.entries)
    (name : String) : left.get? name = right.get? name := by
  refine Option.ext fun value => ?_
  rw [get?_eq_some_iff, get?_eq_some_iff, h.mem_iff]

/-- `contains` denies a name just if it is not among the `keys`. -/
theorem contains_eq_false_iff {map : NameMap α} {name : String} :
    map.contains name = false ↔ name ∉ map.keys := by
  rw [← Bool.not_eq_true, contains_iff]

@[simp] theorem get?_empty (name : String) : (∅ : NameMap α).get? name = none := rfl

/-! ## Changed values -/

/-- One `mapValues` after the other changes the values by one function after the other. -/
@[simp] theorem mapValues_mapValues (map : NameMap α) (f : α → β) (g : β → γ) :
    (map.mapValues f).mapValues g = map.mapValues fun value => g (f value) := by
  apply NameMap.ext
  simp [mapValues, Function.comp_def]

/-- `mapValues` with a change that keeps every value keeps the map. -/
theorem mapValues_eq_self {map : NameMap α} {f : α → α}
    (h : ∀ entry ∈ map.entries, f entry.2 = entry.2) : map.mapValues f = map :=
  NameMap.ext (List.map_eq_self fun entry he => congrArg (Prod.mk entry.1) (h entry he))

@[simp] theorem values_mapValues (map : NameMap α) (f : α → β) :
    (map.mapValues f).values = map.values.map f := by
  simp [values, mapValues, Function.comp_def]

/-- `get?` finds the changed value after `mapValues`. -/
theorem get?_mapValues (map : NameMap α) (f : α → β) (name : String) :
    (map.mapValues f).get? name = (map.get? name).map f := by
  simp [get?, mapValues, List.find?_map, Function.comp_def]

@[simp] theorem contains_mapValues (map : NameMap α) (f : α → β) (name : String) :
    (map.mapValues f).contains name = map.contains name := by
  simp [contains, mapValues, List.any_map, Function.comp_def]

/-! ## Insertions -/

/-- `insert` puts a new name at the end. -/
theorem entries_insert_of_not_mem {map : NameMap α} {name : String} (h : name ∉ map.keys)
    (value : α) : (map.insert name value).entries = map.entries ++ [(name, value)] := by
  have key (entries : List (String × α)) (h : name ∉ entries.map Prod.fst) :
      put name value entries = entries ++ [(name, value)] := by
    induction entries with
    | nil => rfl
    | cons entry rest ih =>
      rw [List.map_cons, List.mem_cons, not_or] at h
      rw [put, if_neg (Ne.symm h.1), ih h.2, List.cons_append]
  exact key map.entries h

/-- `modify` of an entry that was just inserted is `insert` of the changed entry. -/
theorem modify_insert (map : NameMap α) (name : String) (value : α) (f : α → α) :
    (map.insert name value).modify name f = map.insert name (f value) := by
  have key (entries : List (String × α)) (hn : (entries.map Prod.fst).Nodup) :
      (put name value entries).map
          (fun entry => (entry.1, if entry.1 = name then f entry.2 else entry.2)) =
        put name (f value) entries := by
    induction entries with
    | nil => simp [put]
    | cons entry rest ih =>
      rw [List.map_cons, List.nodup_cons] at hn
      by_cases he : entry.1 = name
      · -- the name does not come again, so the rest is left alone
        have hrest : rest.map
            (fun entry => (entry.1, if entry.1 = name then f entry.2 else entry.2)) = rest := by
          refine List.map_eq_self fun other ho => ?_
          have : other.1 ≠ name := fun e => hn.1 (he ▸ e ▸ List.mem_map_of_mem ho)
          simp [this]
        simp [put, he, hrest]
      · simp [put, he, ih hn.2]
  exact NameMap.ext (key map.entries map.nodup_keys)

/-- `insert` of a name that is there changes its value and nothing else, as `modify` does. -/
theorem insert_eq_modify {map : NameMap α} {name : String} (h : name ∈ map.keys) (value : α) :
    map.insert name value = map.modify name fun _ => value := by
  have key (entries : List (String × α)) (hn : (entries.map Prod.fst).Nodup)
      (h : name ∈ entries.map Prod.fst) : put name value entries =
        entries.map fun entry => (entry.1, if entry.1 = name then value else entry.2) := by
    induction entries with
    | nil => cases h
    | cons entry rest ih =>
      rw [List.map_cons, List.nodup_cons] at hn
      rw [put, List.map_cons]
      split
      · next he =>
        -- the name does not come again, so the rest is left alone
        refine congrArg₂ List.cons (by rw [he]) (List.map_eq_self fun other ho => ?_).symm
        have hne : other.1 ≠ name := fun e => hn.1 (he ▸ e ▸ List.mem_map_of_mem ho)
        rw [if_neg hne]
      · next he =>
        rw [ih hn.2 ((List.mem_cons.1 h).resolve_left (Ne.symm he))]
  exact NameMap.ext (key map.entries map.nodup_keys h)

theorem insertAll_cons (map : NameMap α) (entry : String × α) (rest : List (String × α)) :
    map.insertAll (entry :: rest) = (map.insert entry.1 entry.2).insertAll rest := rfl

/-- The names after `insert` are the inserted one and those before. -/
theorem mem_keys_insert {map : NameMap α} {name other : String} {value : α} :
    other ∈ (map.insert name value).keys ↔ other = name ∨ other ∈ map.keys := by
  rw [keys_insert]
  split
  · next h => exact ⟨Or.inr, fun ho => ho.elim (· ▸ h) id⟩
  · rw [List.mem_append, List.mem_singleton, or_comm]

/-- The values after `insert` are the inserted one and some of those before. -/
theorem mem_values_of_mem_insert {map : NameMap α} {name : String} {value other : α}
    (h : other ∈ (map.insert name value).values) : other = value ∨ other ∈ map.values := by
  obtain ⟨entry, he, rfl⟩ := List.mem_map.1 h
  have hget := get?_eq_some_iff.2 he
  rw [get?_insert] at hget
  split at hget
  · exact .inl (Option.some.inj hget).symm
  · exact .inr (List.mem_map_of_mem (get?_eq_some_iff.1 hget))

/-- The names after `insertAll` are those before and those that come in. -/
theorem mem_keys_insertAll {map : NameMap α} {entries : List (String × α)} {name : String} :
    name ∈ (map.insertAll entries).keys ↔ name ∈ map.keys ∨ name ∈ entries.map Prod.fst := by
  induction entries generalizing map with
  | nil => simp [insertAll]
  | cons entry rest ih =>
    rw [insertAll_cons, ih, mem_keys_insert, List.map_cons, List.mem_cons, or_assoc, or_left_comm]

/-- A value that is found after `insertAll` was there before or came in. -/
theorem get?_insertAll_eq_some {map : NameMap α} {entries : List (String × α)} {name : String}
    {value : α} (h : (map.insertAll entries).get? name = some value) :
    map.get? name = some value ∨ (name, value) ∈ entries := by
  induction entries generalizing map with
  | nil => exact Or.inl h
  | cons entry rest ih =>
    -- a later entry counts more, so look at the rest first
    rcases ih h with hm | hr
    · rw [get?_insert] at hm
      split at hm
      · next he =>
        obtain rfl := Option.some.inj hm
        exact Or.inr (he ▸ List.mem_cons_self)
      · exact Or.inl hm
    · exact Or.inr (List.mem_cons_of_mem _ hr)

/-- `insertAll` of entries under other names does not change what is found. -/
theorem get?_insertAll_of_not_mem {map : NameMap α} {entries : List (String × α)} {name : String}
    (h : name ∉ entries.map Prod.fst) : (map.insertAll entries).get? name = map.get? name := by
  induction entries generalizing map with
  | nil => rfl
  | cons entry rest ih =>
    rw [List.map_cons, List.mem_cons, not_or] at h
    rw [insertAll_cons, ih h.2, get?_insert, if_neg h.1]

/-- After `insertAll` of entries under different names, each one is found. -/
theorem get?_insertAll_of_mem {map : NameMap α} {entries : List (String × α)}
    (hn : (entries.map Prod.fst).Nodup) {name : String} {value : α} (h : (name, value) ∈ entries) :
    (map.insertAll entries).get? name = some value := by
  induction entries generalizing map with
  | nil => cases h
  | cons entry rest ih =>
    rw [List.map_cons, List.nodup_cons] at hn
    rw [insertAll_cons]
    -- the entry is not overwritten, since its name does not come again
    rcases List.mem_cons.1 h with rfl | h
    · rw [get?_insertAll_of_not_mem hn.1, get?_insert, if_pos rfl]
    · exact ih hn.2 h

/-- `insertAll` under names that are there already keeps the names. -/
theorem keys_insertAll_of_subset {map : NameMap α} {entries : List (String × α)}
    (h : entries.map Prod.fst ⊆ map.keys) : (map.insertAll entries).keys = map.keys := by
  induction entries generalizing map with
  | nil => rfl
  | cons entry rest ih =>
    rw [List.map_cons, List.cons_subset] at h
    have hkeys : (map.insert entry.1 entry.2).keys = map.keys := by
      rw [keys_insert, if_pos h.1]
    rw [insertAll_cons, ih (hkeys ▸ h.2), hkeys]

/-- `insertAll` puts new names with their values at the end, in order. -/
theorem entries_insertAll {map : NameMap α} {entries : List (String × α)}
    (h : (map.keys ++ entries.map Prod.fst).Nodup) :
    (map.insertAll entries).entries = map.entries ++ entries := by
  -- induction on the entries, none of which is overwritten
  induction entries generalizing map with
  | nil => exact (List.append_nil _).symm
  | cons entry rest ih =>
    rw [List.map_cons, List.append_cons] at h
    have hnew : entry.1 ∉ map.keys := fun hm =>
      (List.nodup_append.1 (List.nodup_append.1 h).1).2.2 _ hm _ List.mem_cons_self rfl
    have hkeys : (map.insert entry.1 entry.2).keys = map.keys ++ [entry.1] := by
      rw [keys_insert, if_neg hnew]
    rw [insertAll_cons, ih (by rwa [hkeys]), entries_insert_of_not_mem hnew, List.append_assoc]
    rfl

/-- `ofList` makes a list of entries with different names a map of just these entries. -/
theorem entries_ofList {entries : List (String × α)} (h : (entries.map Prod.fst).Nodup) :
    (ofList entries).entries = entries := by
  rw [ofList, entries_insertAll]
  · rfl
  · exact h

/-- Taking in one list of entries after the other is one `insertAll` of them all. -/
theorem foldl_insertAll_eq (items : List β) (entries : β → List (String × α)) (map : NameMap α) :
    items.foldl (fun map item => map.insertAll (entries item)) map =
      map.insertAll (items.flatMap entries) := by
  rw [insertAll, List.foldl_flatMap]
  rfl

/-- The names after one `insertAll` for each of the `items`. -/
theorem mem_keys_foldl_insertAll {items : List β} {entries : β → List (String × α)}
    {map : NameMap α} {name : String} :
    name ∈ (items.foldl (fun map item => map.insertAll (entries item)) map).keys ↔
      name ∈ map.keys ∨ ∃ item ∈ items, name ∈ (entries item).map Prod.fst := by
  rw [foldl_insertAll_eq, mem_keys_insertAll, List.map_flatMap, List.mem_flatMap]

/-- What is found after one `insertAll` for each of the `items` was there before or came in with one
of the lists. -/
theorem get?_foldl_insertAll_eq_some {items : List β} {entries : β → List (String × α)}
    {map : NameMap α} {name : String} {value : α}
    (h : (items.foldl (fun map item => map.insertAll (entries item)) map).get? name = some value) :
    map.get? name = some value ∨ ∃ item ∈ items, (name, value) ∈ entries item := by
  rw [foldl_insertAll_eq] at h
  exact (get?_insertAll_eq_some h).imp_right List.mem_flatMap.1

/-- `get?` finds `f name` for each of the names in a map that is made by `f`, and nothing else. -/
theorem get?_ofList_map (names : List String) (f : String → α) (name : String) :
    (ofList (names.map fun other => (other, f other))).get? name =
      if name ∈ names then some (f name) else none := by
  -- by induction on the names, for whatever the map has held before
  have key (map : NameMap α) :
      (map.insertAll (names.map fun other => (other, f other))).get? name =
        if name ∈ names then some (f name) else map.get? name := by
    induction names generalizing map with
    | nil => simp [insertAll]
    | cons first rest ih =>
      rw [List.map_cons, insertAll_cons, ih, get?_insert]
      by_cases hr : name ∈ rest <;> by_cases hf : name = first <;> simp [hr, hf]
  exact key empty

end HybridAutomata.NameMap
