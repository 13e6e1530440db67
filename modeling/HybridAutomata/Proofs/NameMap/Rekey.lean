import HybridAutomata.Proofs.NameMap.Lookup
import Mathlib.Data.List.Nodup
import Mathlib.Data.List.Perm.Subperm
/-!
# Changed keys

What becomes of the entries when the keys of a map are changed. No entry is lost just if different
keys stay different, and then the entries stay in their places.

* `entries_rekey`            the entries under their new keys
* `nodup_of_length_le_size`  if no entry is lost then the keys are different
* `rekey_rekey`              keys that get their names back
* `rekey_mapValues`          changing keys and changing values commute
-/

namespace HybridAutomata.NameMap

variable {α β : Type}

/-- The names of `ofList` are those of the list. -/
theorem mem_keys_ofList {entries : List (String × α)} {name : String} :
    name ∈ (ofList entries).keys ↔ name ∈ entries.map Prod.fst := by
  rw [ofList, mem_keys_insertAll]
  exact or_iff_right List.not_mem_nil

/-- The names after `rekey` are the new ones of the old names. -/
theorem mem_keys_rekey {map : NameMap α} {f : String → String} {name : String} :
    name ∈ (map.rekey f).keys ↔ ∃ old ∈ map.keys, f old = name := by
  rw [rekey, mem_keys_ofList, List.map_map, keys]
  simp only [List.mem_map, Function.comp_apply, exists_exists_and_eq_and]

/-- A value that is left after `rekey` was there before. -/
theorem mem_values_of_mem_rekey {map : NameMap α} {f : String → String} {value : α}
    (h : value ∈ (map.rekey f).values) : value ∈ map.values := by
  obtain ⟨entry, he, rfl⟩ := List.mem_map.1 h
  rcases get?_insertAll_eq_some (get?_eq_some_iff.2 he) with hnone | hmem
  · cases hnone
  · obtain ⟨old, ho, heq⟩ := List.mem_map.1 hmem
    rw [← (Prod.mk.inj heq).2]
    exact List.mem_map_of_mem ho

/-- If `ofList` loses no entry of a list then the names of the list are different. -/
theorem nodup_of_length_le_size {entries : List (String × α)}
    (h : entries.length ≤ (ofList entries).size) : (entries.map Prod.fst).Nodup := by
  have hkeys : (ofList entries).keys.Nodup := (ofList entries).nodup_keys
  have hsub : (ofList entries).keys ⊆ entries.map Prod.fst := fun name => mem_keys_ofList.1
  have hlength : (entries.map Prod.fst).length ≤ (ofList entries).keys.length := by
    rw [keys, List.length_map, List.length_map]
    exact h
  -- both lists have the same names, and there is no room for a repetition
  exact ((List.subperm_of_subset hkeys hsub).perm_of_length_le hlength).nodup_iff.1 hkeys

/-- If the new names are different then `rekey` keeps every entry in its place. -/
theorem entries_rekey {map : NameMap α} {f : String → String} (h : (map.keys.map f).Nodup) :
    (map.rekey f).entries = map.entries.map fun entry => (f entry.1, entry.2) := by
  refine entries_ofList ?_
  rw [keys, List.map_map] at h
  rwa [List.map_map]

/-- `rekey` with a function that keeps every name keeps the map. -/
theorem rekey_eq_self {map : NameMap α} {f : String → String}
    (h : ∀ name ∈ map.keys, f name = name) :
    map.rekey f = map := by
  have hkeys : map.keys.map f = map.keys := List.map_eq_self h
  apply NameMap.ext
  rw [entries_rekey (by rw [hkeys]; exact map.nodup_keys)]
  refine List.map_eq_self fun entry he => ?_
  rw [h entry.1 (mem_keys_of_mem he)]

/-- `rekey` with names that lead back undoes a `rekey`. -/
theorem rekey_rekey {map : NameMap α} {f g : String → String}
    (h : ∀ name ∈ map.keys, g (f name) = name) : (map.rekey f).rekey g = map := by
  -- names that can be told from their new names have different new names
  have hf : (map.keys.map f).Nodup :=
    List.Nodup.map_on (fun left hl right hr he => by rw [← h left hl, he, h right hr])
      map.nodup_keys
  have hkeys : (map.rekey f).keys = map.keys.map f := by
    rw [keys, entries_rekey hf, keys, List.map_map, List.map_map]
    rfl
  have hback : (map.keys.map f).map g = map.keys := by
    rw [List.map_map]
    exact List.map_eq_self h
  apply NameMap.ext
  rw [entries_rekey (by rw [hkeys, hback]; exact map.nodup_keys), entries_rekey hf, List.map_map]
  refine List.map_eq_self fun entry he => ?_
  rw [Function.comp_apply, h entry.1 (mem_keys_of_mem he)]

/-- If `rekey` loses no entry then the new names are different. -/
theorem nodup_of_size_le_size_rekey {map : NameMap α} {f : String → String}
    (h : map.size ≤ (map.rekey f).size) : (map.keys.map f).Nodup := by
  have hn : ((map.entries.map fun entry => (f entry.1, entry.2)).map Prod.fst).Nodup := by
    apply nodup_of_length_le_size
    rwa [List.length_map]
  rw [List.map_map] at hn
  rwa [keys, List.map_map]

/-! ## Changed values -/

/-- `mapValues` after `insert` is `insert` of the changed value after `mapValues`. -/
theorem mapValues_insert (map : NameMap α) (name : String) (value : α) (f : α → β) :
    (map.insert name value).mapValues f = (map.mapValues f).insert name (f value) := by
  have key (entries : List (String × α)) :
      (put name value entries).map (fun entry => (entry.1, f entry.2)) =
        put name (f value) (entries.map fun entry => (entry.1, f entry.2)) := by
    induction entries with
    | nil => rfl
    | cons entry rest ih => by_cases h : entry.1 = name <;> simp [put, h, ih]
  exact NameMap.ext (key map.entries)

/-- `mapValues` after `insertAll` is `insertAll` of the changed values after `mapValues`. -/
theorem mapValues_insertAll (map : NameMap α) (entries : List (String × α)) (f : α → β) :
    (map.insertAll entries).mapValues f =
      (map.mapValues f).insertAll (entries.map fun entry => (entry.1, f entry.2)) := by
  induction entries generalizing map with
  | nil => rfl
  | cons entry rest ih => rw [insertAll_cons, ih, mapValues_insert, List.map_cons, insertAll_cons]

/-- `mapValues` after `ofList` is `ofList` of the changed values. -/
theorem mapValues_ofList (entries : List (String × α)) (f : α → β) :
    (ofList entries).mapValues f = ofList (entries.map fun entry => (entry.1, f entry.2)) :=
  mapValues_insertAll ..

/-- `rekey` and `mapValues` commute. -/
theorem rekey_mapValues (map : NameMap α) (f : α → β) (g : String → String) :
    (map.mapValues f).rekey g = (map.rekey g).mapValues f := by
  rw [rekey, rekey, mapValues_ofList]
  simp [mapValues, Function.comp_def]

end HybridAutomata.NameMap
