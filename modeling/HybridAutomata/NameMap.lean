/-!
# Maps keyed by names

`NameMap α` maps names to values and remembers the order in which the names first came in.
Inserting a name that is there already replaces its value and keeps its place.

Two views matter. `entries` is the map with its order, and two maps are equal (`=`) when they have
the same entries. `same` compares two maps as sets of entries, by a given comparison of values,
whatever their order.

* `keys_insert`    the keys after an insertion
* `get?_insert`    what a look-up finds after an insertion
-/

namespace HybridAutomata

/-- Names without repetitions, each at the place of its first occurrence. -/
def firstOccurrences : List String → List String
  | [] => []
  | name :: rest => name :: (firstOccurrences rest).filter (· ≠ name)

/-- A map from names to values that keeps the order of insertion. -/
structure NameMap (α : Type) where
  entries : List (String × α)
  nodup_keys : (entries.map Prod.fst).Nodup

namespace NameMap

variable {α β : Type}

/-- Puts a value under a name: in the place of the name if it is there, else at the end. -/
def put (name : String) (value : α) : List (String × α) → List (String × α)
  | [] => [(name, value)]
  | entry :: rest =>
    if entry.1 = name then (name, value) :: rest else entry :: put name value rest

/-- `put` keeps the names and their order; a new name comes last. -/
theorem map_fst_put (name : String) (value : α) (entries : List (String × α)) :
    (put name value entries).map Prod.fst =
      if name ∈ entries.map Prod.fst then entries.map Prod.fst
      else entries.map Prod.fst ++ [name] := by
  induction entries with
  | nil => simp [put]
  | cons entry rest ih =>
    by_cases h : entry.1 = name
    · simp [put, h]
    · have h' : ¬ name = entry.1 := fun e => h e.symm
      simp only [put, h, if_false, List.map_cons, ih, List.mem_cons, h', false_or]
      split <;> simp

/-- `put` keeps names distinct. -/
theorem nodup_put {name : String} {value : α} {entries : List (String × α)}
    (h : (entries.map Prod.fst).Nodup) : ((put name value entries).map Prod.fst).Nodup := by
  rw [map_fst_put]
  split
  · exact h
  · next hn =>
    rw [List.nodup_append]
    refine ⟨h, by simp, fun a ha b hb => ?_⟩
    rw [List.mem_singleton.1 hb]
    exact fun e => hn (e ▸ ha)

/-- The map without entries. -/
def empty : NameMap α := ⟨[], List.nodup_nil⟩

instance : EmptyCollection (NameMap α) := ⟨empty⟩

instance : Inhabited (NameMap α) := ⟨empty⟩

/-- Inserts a value under a name. -/
def insert (map : NameMap α) (name : String) (value : α) : NameMap α :=
  ⟨put name value map.entries, nodup_put map.nodup_keys⟩

/-- Inserts entries one after the other. -/
def insertAll (map : NameMap α) (entries : List (String × α)) : NameMap α :=
  entries.foldl (fun map entry => map.insert entry.1 entry.2) map

/-- The map of a list of entries; a repeated name keeps its first place and its last value. -/
def ofList (entries : List (String × α)) : NameMap α :=
  empty.insertAll entries

/-- The names, in order. -/
def keys (map : NameMap α) : List String :=
  map.entries.map Prod.fst

/-- The values, in the order of their names. -/
def values (map : NameMap α) : List α :=
  map.entries.map Prod.snd

/-- The number of entries. -/
def size (map : NameMap α) : Nat :=
  map.entries.length

/-- Whether there are no entries. -/
def isEmpty (map : NameMap α) : Bool :=
  map.entries.isEmpty

/-- The value under a name. -/
def get? (map : NameMap α) (name : String) : Option α :=
  (map.entries.find? fun entry => entry.1 = name).map Prod.snd

/-- Whether a name has a value. -/
def contains (map : NameMap α) (name : String) : Bool :=
  map.entries.any fun entry => entry.1 = name

/-- Changes every value. -/
def mapValues (map : NameMap α) (f : α → β) : NameMap β :=
  ⟨map.entries.map fun entry => (entry.1, f entry.2), by
    simpa [List.map_map, Function.comp_def] using map.nodup_keys⟩

/-- Changes the value under a name, if there is one. -/
def modify (map : NameMap α) (name : String) (f : α → α) : NameMap α :=
  ⟨map.entries.map fun entry => (entry.1, if entry.1 = name then f entry.2 else entry.2), by
    simpa [List.map_map, Function.comp_def] using map.nodup_keys⟩

/-- Renames the keys. Where two keys become one, the first place and the last value stay. -/
def rekey (map : NameMap α) (f : String → String) : NameMap α :=
  ofList (map.entries.map fun entry => (f entry.1, entry.2))

/-- Keeps the entries that pass a test. -/
def filter (map : NameMap α) (keep : String → α → Bool) : NameMap α :=
  ⟨map.entries.filter fun entry => keep entry.1 entry.2,
    map.nodup_keys.sublist (List.filter_sublist.map _)⟩

/-- Whether two maps hold the same values under the same names, whatever the order. -/
def same (eq : α → β → Bool) (left : NameMap α) (right : NameMap β) : Bool :=
  left.size == right.size && left.entries.all fun entry =>
    match right.get? entry.1 with
    | some value => eq entry.2 value
    | none => false

/-- Comparison of values by `==` gives comparison of maps by `==`, which ignores the order. -/
instance [BEq α] : BEq (NameMap α) := ⟨same (· == ·)⟩

/-! ## Views -/

@[ext]
theorem ext {left right : NameMap α} (h : left.entries = right.entries) : left = right := by
  cases left; cases right; cases h; rfl

@[simp] theorem entries_empty : (∅ : NameMap α).entries = [] := rfl

@[simp] theorem entries_insert (map : NameMap α) (name : String) (value : α) :
    (map.insert name value).entries = put name value map.entries := rfl

/-- `map_fst_put` for maps: a name that is there keeps its place. -/
theorem keys_insert (map : NameMap α) (name : String) (value : α) :
    (map.insert name value).keys = if name ∈ map.keys then map.keys else map.keys ++ [name] :=
  map_fst_put name value map.entries

theorem contains_iff {map : NameMap α} {name : String} :
    map.contains name = true ↔ name ∈ map.keys := by
  simp only [contains, keys, List.any_eq_true, decide_eq_true_eq, List.mem_map]

/-- An entry that is put in is found, and no other is hidden or lost. -/
theorem get?_insert (map : NameMap α) (name other : String) (value : α) :
    (map.insert name value).get? other = if other = name then some value else map.get? other := by
  have key (entries : List (String × α)) :
      (put name value entries).find? (fun entry => entry.1 = other) =
        if other = name then some (name, value)
        else entries.find? (fun entry => entry.1 = other) := by
    induction entries with
    | nil => by_cases h : other = name <;> grind [put]
    | cons entry rest ih => by_cases h : entry.1 = name <;> grind [put]
  simp only [get?, entries_insert, key]
  split <;> simp

@[simp] theorem keys_mapValues (map : NameMap α) (f : α → β) :
    (map.mapValues f).keys = map.keys := by
  simp [keys, mapValues, List.map_map, Function.comp_def]

@[simp] theorem keys_modify (map : NameMap α) (name : String) (f : α → α) :
    (map.modify name f).keys = map.keys := by
  simp [keys, modify, List.map_map, Function.comp_def]

end NameMap
end HybridAutomata
