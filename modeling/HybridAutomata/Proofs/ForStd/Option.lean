import Mathlib.Data.List.Nodup
import Mathlib.Data.Nat.Find
/-!
# Following a partial function

A partial function is followed from a start, one step after the other, until it is not defined. If
it has finitely many results then a run that is long enough goes on for ever. Nothing here is about
hybrid automata.

* `Option.iterate_add`              two runs, one after the other
* `Option.isSome_iterate_of_length` a run with more steps than results never ends
-/

namespace Option

variable {α : Type} {f : α → Option α} {a b : α} {m n : Nat}

/-- Where a number of steps leads, if the function is defined all the way. -/
def iterate (f : α → Option α) : Nat → α → Option α
  | 0, a => some a
  | n + 1, a => (f a).bind (iterate f n)

theorem iterate_succ (f : α → Option α) (n : Nat) (a : α) :
    iterate f (n + 1) a = (f a).bind (iterate f n) := rfl

/-- Steps can be split. -/
theorem iterate_add (f : α → Option α) (m n : Nat) (a : α) :
    iterate f (m + n) a = (iterate f m a).bind (iterate f n) := by
  -- induction on the first steps, where the function may end
  induction m generalizing a with
  | zero => rw [Nat.zero_add]; rfl
  | succ m ih =>
    rw [Nat.add_right_comm, iterate_succ, iterate_succ, Option.bind_assoc]
    exact congrArg _ (funext ih)

/-- A run that has ended goes no further. -/
theorem iterate_eq_none_of_le (h : iterate f m a = none) (hle : m ≤ n) : iterate f n a = none := by
  obtain ⟨rest, rfl⟩ := Nat.exists_eq_add_of_le hle
  rw [iterate_add, h]
  rfl

/-- All that is met after the start is a result. -/
theorem iterate_succ_mem {results : List α} (hf : ∀ a b, f a = some b → b ∈ results)
    (h : iterate f (n + 1) a = some b) : b ∈ results := by
  rw [iterate_add f n 1] at h
  obtain ⟨last, -, hlast⟩ := Option.bind_eq_some_iff.1 h
  rw [iterate_succ] at hlast
  obtain ⟨next, hnext, hb⟩ := Option.bind_eq_some_iff.1 hlast
  obtain rfl := Option.some.inj hb
  exact hf last next hnext

/-- Before the run ends, it never comes back to where it has been. -/
theorem iterate_ne_of_lt {i j : Nat} (hend : iterate f n a = none)
    (hmin : ∀ m < n, iterate f m a ≠ none) (hij : i < j) (hj : j ≤ n) :
    iterate f i a ≠ iterate f j a := by
  intro hsame
  -- from the same place on, the run would have ended sooner
  refine hmin (i + (n - j)) (by omega) ?_
  rw [iterate_add, hsame, ← iterate_add, Nat.add_sub_cancel' hj]
  exact hend

/-- A run with more steps than there are results never ends. -/
theorem isSome_iterate_of_length {results : List α} (hf : ∀ a b, f a = some b → b ∈ results)
    -- if it ended, all that is met before the end would be different, and there are too few results
    -- for this
    (h : (iterate f (results.length + 1) a).isSome = true) (n : Nat) :
    (iterate f n a).isSome = true := by
  by_contra hnone
  have hend : ∃ n, iterate f n a = none := ⟨n, Option.not_isSome_iff_eq_none.1 hnone⟩
  have hlast := Nat.find_spec hend
  have hmin (m : Nat) (hm : m < Nat.find hend) : iterate f m a ≠ none := Nat.find_min hend hm
  have hlong : results.length + 1 < Nat.find hend := by
    refine Nat.lt_of_not_le fun hle => ?_
    rw [iterate_eq_none_of_le hlast hle] at h
    cases h
  -- what is met after each step, up to one step more than there are results
  have hnodup : ((List.range (results.length + 1)).map fun i => iterate f (i + 1) a).Nodup := by
    refine List.nodup_range.map_on fun i hi j hj hsame => ?_
    rw [List.mem_range] at hi hj
    rcases Nat.lt_trichotomy i j with hij | hij | hij
    · exact absurd hsame (iterate_ne_of_lt hlast hmin (by omega) (by omega))
    · exact hij
    · exact absurd hsame.symm (iterate_ne_of_lt hlast hmin (by omega) (by omega))
  have hsubset : ((List.range (results.length + 1)).map fun i => iterate f (i + 1) a) ⊆
      results.map some := by
    intro met hm
    obtain ⟨i, hi, rfl⟩ := List.mem_map.1 hm
    rw [List.mem_range] at hi
    obtain ⟨b, hb⟩ := Option.ne_none_iff_exists'.1 (hmin (i + 1) (by omega))
    rw [hb]
    exact List.mem_map_of_mem (iterate_succ_mem hf hb)
  have hle := hnodup.length_le_of_subset hsubset
  rw [List.length_map, List.length_map, List.length_range] at hle
  omega

end Option
