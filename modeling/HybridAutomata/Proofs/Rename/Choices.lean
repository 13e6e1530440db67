import HybridAutomata.Pass.Rename
import HybridAutomata.Proofs.NameMap.Lookup
import HybridAutomata.Proofs.Text.Fresh
/-!
# Chosen names

The new names are chosen one after the other. None of them is declared, and no two names of the
final renaming get the same new name.

* `not_mem_declared_of_mem_choices`   new names are not declared
* `distinct_insertAll_choices`        new names are different
* `choices_eq_self`                   free names are chosen as they are
* `getElem?_choices`                  how each name is chosen
* `newName_cases`                     what a renaming does to a name
* `newName_inj_of_mem`                declared names are kept apart
-/

namespace HybridAutomata.Rename

/-- Different names of a renaming have different new names. -/
def Distinct (names : NameMap String) : Prop :=
  ∀ left right new, names.get? left = some new → names.get? right = some new → left = right

/-- The new names for pairs of an old and a desired name. -/
def newNames (declared : List String) (pairs : List (String × String)) : NameMap String :=
  .ofList (choices declared ∅ pairs)

variable {declared : List String} {pairs : List (String × String)} {chosen : NameMap String}

/-- `chooseName` gives a name that is neither declared nor chosen already. -/
theorem chooseName_not_mem (declared : List String) (chosen : NameMap String) (desired : String) :
    chooseName declared chosen desired ∉ declared ∧
      chooseName declared chosen desired ∉ chosen.values :=
  not_or.1 fun h => Text.freshName_not_mem desired _ (List.mem_append.2 h)

/-- The names among the `choices` are not declared. -/
theorem not_mem_declared_of_mem_choices {entry : String × String}
    (h : entry ∈ choices declared chosen pairs) : entry.2 ∉ declared := by
  induction pairs generalizing chosen with
  | nil => cases h
  | cons pair rest ih =>
    rcases List.mem_cons.1 h with rfl | h
    · exact (chooseName_not_mem declared chosen pair.2).1
    · exact ih h

/-- `Distinct` names stay so when a name is inserted that was not chosen before. -/
theorem Distinct.insert (h : Distinct chosen) {old new : String} (hnew : new ∉ chosen.values) :
    Distinct (chosen.insert old new) := by
  have hfree (name : String) : chosen.get? name ≠ some new := fun he =>
    hnew (List.mem_map_of_mem (NameMap.get?_eq_some_iff.1 he))
  intro left right value hl hr
  rw [NameMap.get?_insert] at hl hr
  -- the inserted name is the only one with its new name
  split at hl <;> split at hr
  · next hl' hr' => exact hl'.trans hr'.symm
  · obtain rfl := Option.some.inj hl
    exact absurd hr (hfree right)
  · obtain rfl := Option.some.inj hr
    exact absurd hl (hfree left)
  · exact h left right value hl hr

/-- `choices` that are taken in keep the new names `Distinct`. -/
theorem distinct_insertAll_choices (h : Distinct chosen) :
    Distinct (chosen.insertAll (choices declared chosen pairs)) := by
  induction pairs generalizing chosen with
  | nil => exact h
  | cons pair rest ih =>
    rw [choices, NameMap.insertAll_cons]
    exact ih (h.insert (chooseName_not_mem declared chosen pair.2).2)

/-- The `newNames` are `Distinct`. -/
theorem distinct_newNames (declared : List String) (pairs : List (String × String)) :
    Distinct (newNames declared pairs) :=
  distinct_insertAll_choices fun _ _ _ h _ => nomatch h

/-- The `newNames` are not declared. -/
theorem not_mem_declared_of_get?_newNames {old new : String}
    (h : (newNames declared pairs).get? old = some new) : new ∉ declared := by
  rcases NameMap.get?_insertAll_eq_some h with h | h
  · cases h
  · exact not_mem_declared_of_mem_choices h

/-- `choices` takes desired names that are different and free as they are. -/
theorem choices_eq_self (hpairs : (pairs.map Prod.snd).Nodup)
    (hdeclared : ∀ pair ∈ pairs, pair.2 ∉ declared)
    (hchosen : ∀ pair ∈ pairs, pair.2 ∉ chosen.values) : choices declared chosen pairs = pairs := by
  induction pairs generalizing chosen with
  | nil => rfl
  | cons pair rest ih =>
    rw [List.map_cons, List.nodup_cons] at hpairs
    have hfree : pair.2 ∉ declared ++ chosen.values := by
      rw [List.mem_append, not_or]
      exact ⟨hdeclared pair List.mem_cons_self, hchosen pair List.mem_cons_self⟩
    have hname : chooseName declared chosen pair.2 = pair.2 := Text.freshName_eq_self hfree
    rw [choices, hname, ih hpairs.2 (fun other ho => hdeclared other (List.mem_cons_of_mem _ ho))]
    intro other ho hm
    -- the name chosen last is none of the others
    rcases NameMap.mem_values_of_mem_insert hm with he | hm
    · exact hpairs.1 (he ▸ List.mem_map_of_mem ho)
    · exact hchosen other (List.mem_cons_of_mem _ ho) hm

/-- Each of the `choices` is made beside the declared names and those that were chosen up to then.
-/
theorem getElem?_choices {place : Nat} {old desired : String}
    (h : pairs[place]? = some (old, desired)) :
    (choices declared chosen pairs)[place]? =
      some (old, chooseName declared (chosen.insertAll (choices declared chosen (pairs.take place)))
        desired) := by
  -- by induction on the pairs: what was chosen for the first one stands for the rest
  induction pairs generalizing chosen place with
  | nil => cases h
  | cons pair rest ih =>
    obtain ⟨first, wanted⟩ := pair
    cases place with
    | zero =>
      obtain ⟨rfl, rfl⟩ := Prod.mk.inj (Option.some.inj h)
      rfl
    | succ place =>
      rw [List.getElem?_cons_succ] at h
      rw [choices, List.getElem?_cons_succ, ih h, List.take_succ_cons, choices,
        NameMap.insertAll_cons]

/-- Each of the `choices` is the first name that is free beside the declared names and those that
stand when it is chosen. -/
theorem exists_choice {place : Nat} {old desired : String}
    (h : pairs[place]? = some (old, desired)) :
    ∃ new, (choices declared ∅ pairs)[place]? = some (old, new) ∧
      Text.IsFirstFree desired (declared ++ (newNames declared (pairs.take place)).values) new :=
  ⟨_, getElem?_choices h, Text.isFirstFree_freshName desired _⟩

/-- `newName` gives a name its new one, or keeps it. -/
theorem newName_cases (names : NameMap String) (name : String) :
    names.get? name = some (Expr.newName names name) ∨
      name ∉ names.keys ∧ Expr.newName names name = name := by
  rw [Expr.newName]
  cases h : names.get? name with
  | none => exact .inr ⟨NameMap.get?_eq_none_iff.1 h, rfl⟩
  | some new => exact .inl rfl

/-- `newName` keeps declared names apart: new names are different, and none of them is declared. -/
theorem newName_inj_of_mem {left right : String} (hl : left ∈ declared) (hr : right ∈ declared)
    (heq : Expr.newName (newNames declared pairs) left =
      Expr.newName (newNames declared pairs) right) :
    left = right := by
  -- each of the two names is replaced or kept
  rcases newName_cases (newNames declared pairs) left with hleft | ⟨-, hleft⟩ <;>
  rcases newName_cases (newNames declared pairs) right with hright | ⟨-, hright⟩
  · rw [heq] at hleft
    exact distinct_newNames declared pairs left right _ hleft hright
  · rw [heq, hright] at hleft
    exact absurd hr (not_mem_declared_of_get?_newNames hleft)
  · rw [← heq, hleft] at hright
    exact absurd hl (not_mem_declared_of_get?_newNames hright)
  · rw [← hleft, heq, hright]

/-- If all desired names are identifiers then so are the `choices`. -/
theorem isIdentifier_of_mem_choices (h : ∀ pair ∈ pairs, Text.isIdentifier pair.2 = true)
    {entry : String × String} (he : entry ∈ choices declared chosen pairs) :
    Text.isIdentifier entry.2 = true := by
  induction pairs generalizing chosen with
  | nil => cases he
  | cons pair rest ih =>
    obtain ⟨hpair, hrest⟩ := List.forall_mem_cons.1 h
    rcases List.mem_cons.1 he with rfl | he
    · exact Text.isIdentifier_freshName hpair _
    · exact ih hrest he

/-- If all desired names are identifiers then so are the `newNames`. -/
theorem isIdentifier_of_get?_newNames (h : ∀ pair ∈ pairs, Text.isIdentifier pair.2 = true)
    {old new : String} (hnew : (newNames declared pairs).get? old = some new) :
    Text.isIdentifier new = true := by
  rcases NameMap.get?_insertAll_eq_some hnew with hnone | hmem
  · cases hnone
  · exact isIdentifier_of_mem_choices h hmem

end HybridAutomata.Rename
