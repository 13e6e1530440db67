import HybridAutomata.Proofs.Text.Dotted
import HybridAutomata.Text.Names
/-!
# Fresh names are free

The candidates of a name are all different, so among more candidates than there are taken names one
is free. The search for it does not end in vain, whichever way it is decided what is taken.

* `candidate_inj`            candidates are told apart by their counters
* `probe_eq_ite`             the search stops at the first free candidate within its budget
* `exists_endsAtLeastFree`   one candidate more than are taken is enough
* `freshName_not_mem`        a fresh name is not taken
* `freshName_eq_self`        a free name is fresh as it is
* `isFirstFree_freshName`    a fresh name has the least counter that is free
* `search_ends_at_least_free_name`   any search ends there
-/

namespace HybridAutomata.Text

/-- `candidate` gives different names for different counters. -/
theorem candidate_inj {desired : String} {m n : Nat}
    (h : candidate desired m = candidate desired n) : m = n := by
  have hlist := congrArg String.toList h
  -- the candidate of counter zero has no digits, the others end with their counters
  cases m with
  | zero =>
    cases n with
    | zero => rfl
    | succ n =>
      -- a counter has at least one digit
      simp only [candidate, String.toList_append, String.toList_ofList, List.self_eq_append_right,
        Nat.toDigits_ne_nil] at hlist
  | succ m =>
    cases n with
    | zero =>
      simp only [candidate, String.toList_append, String.toList_ofList, List.append_right_eq_self,
        Nat.toDigits_ne_nil] at hlist
    | succ n =>
      simp only [candidate, String.toList_append, String.toList_ofList,
        List.append_cancel_left_eq] at hlist
      have hvalue : m + 2 = n + 2 := toDigits_inj hlist
      omega

/-- `probe` finds a candidate that is not taken. -/
theorem not_taken_of_probe {desired name : String} {taken : String → Bool} {budget n : Nat}
    (h : probe desired taken budget n = some name) : taken name = false := by
  induction budget generalizing n with
  -- the search goes on while names are taken
  | zero => cases h
  | succ budget ih =>
    rw [probe] at h
    split at h
    · exact ih h
    · next ht =>
      obtain rfl := Option.some.inj h
      exact eq_false_of_ne_true ht

/-- `probe` stops within its budget, and whatever it passes over is taken. -/
theorem exists_of_probe {desired name : String} {taken : String → Bool} {budget n : Nat}
    (h : probe desired taken budget n = some name) :
    ∃ i, i < budget ∧ name = candidate desired (n + i) ∧
      ∀ j, j < i → taken (candidate desired (n + j)) = true := by
  -- induction on the budget, from whatever counter the search has come to
  induction budget generalizing n with
  | zero => cases h
  | succ budget ih =>
    rw [probe] at h
    split at h
    · next ht =>
      obtain ⟨i, hi, hname, hpassed⟩ := ih h
      refine ⟨i + 1, Nat.succ_lt_succ hi, by rw [hname]; congr 1; omega, fun j hj => ?_⟩
      cases j with
      | zero => exact ht
      | succ j =>
        have hnext := hpassed j (by omega)
        rwa [show n + (j + 1) = n + 1 + j by omega]
    · exact ⟨0, Nat.zero_lt_succ budget, (Option.some.inj h).symm,
        fun j hj => absurd hj (Nat.not_lt_zero j)⟩

/-- `probe` stops at the first free candidate, if its budget reaches that far. -/
theorem probe_eq_ite {desired : String} {taken : String → Bool} {n i : Nat} (hle : n ≤ i)
    (hpassed : ∀ j, n ≤ j → j < i → taken (candidate desired j) = true)
    (hfree : taken (candidate desired i) = false) (budget : Nat) :
    probe desired taken budget n = if n + budget ≤ i then none else some (candidate desired i) := by
  -- induction on the budget; the first free candidate comes nearer by one
  induction budget generalizing n with
  | zero => rw [probe, if_pos (by omega)]
  | succ budget ih =>
    rw [probe]
    rcases Nat.eq_or_lt_of_le hle with rfl | hlt
    · rw [hfree, if_neg Bool.false_ne_true, if_neg (by omega)]
    · -- the candidate is taken, and the search goes on with the next one
      rw [if_pos (hpassed n (Nat.le_refl n) hlt), ih hlt fun j hj => hpassed j (Nat.le_of_lt hj),
        Nat.succ_add_eq_add_succ]

/-- `probe` fails only if all candidates within the budget are taken. -/
theorem taken_of_probe_eq_none {desired : String} {taken : String → Bool} {budget n : Nat}
    (h : probe desired taken budget n = none) {i : Nat} (hi : i < budget) :
    taken (candidate desired (n + i)) = true := by
  -- induction on the budget; the first candidate is taken, and so are the others
  induction budget generalizing n i with
  | zero => cases hi
  | succ budget ih =>
    rw [probe] at h
    split at h
    · next ht =>
      cases i with
      | zero => exact ht
      | succ i =>
        have hnext := ih h (Nat.lt_of_succ_lt_succ hi)
        rwa [Nat.add_right_comm] at hnext
    · cases h

/-- Of the candidates of a name, no more than a number of different ones are taken. -/
def AtMostTaken (desired : String) (taken : String → Bool) (bound : Nat) : Prop :=
  ∀ names : List String, names.Nodup →
    (∀ name ∈ names, taken name = true ∧ ∃ n, name = candidate desired n) → names.length ≤ bound

/-- `AtMostTaken` holds of the length of a list of the taken names. -/
theorem atMostTaken_contains (desired : String) (taken : List String) :
    AtMostTaken desired taken.contains taken.length := fun _ hnodup hnames =>
  hnodup.length_le_of_subset fun name hname => List.contains_iff_mem.1 (hnames name hname).1

/-- `probe` succeeds with one more try than candidates are taken. -/
theorem exists_probe {desired : String} {taken : String → Bool} {bound : Nat}
    (h : AtMostTaken desired taken bound) :
    ∃ name, probe desired taken (bound + 1) 0 = some name := by
  refine Option.ne_none_iff_exists'.1 fun hnone => ?_
  have hall : ∀ name ∈ (List.range (bound + 1)).map (candidate desired),
      taken name = true ∧ ∃ n, name = candidate desired n := by
    intro name hname
    obtain ⟨i, hi, rfl⟩ := List.mem_map.1 hname
    have htaken := taken_of_probe_eq_none hnone (List.mem_range.1 hi)
    rw [Nat.zero_add] at htaken
    exact ⟨htaken, i, rfl⟩
  have hnodup : ((List.range (bound + 1)).map (candidate desired)).Nodup :=
    List.pairwise_map.2 (List.nodup_range.imp fun hne he => hne (candidate_inj he))
  -- there are more candidates than can be taken
  have hlength := h _ hnodup hall
  rw [List.length_map, List.length_range] at hlength
  exact absurd hlength (Nat.not_succ_le_self _)

/-! ## Where the search ends -/

/-- A name followed by a number. -/
def numbered (name : String) (number : Nat) : String :=
  name ++ String.ofList (Nat.toDigits 10 number)

/-- `candidate` makes identifiers of identifiers. -/
theorem isIdentifier_candidate {desired : String} (h : isIdentifier desired = true) (n : Nat) :
    isIdentifier (candidate desired n) = true := by
  cases n with
  | zero => exact h
  | succ n => exact isIdentifier_append_digits h (n + 2)

/-- How a search for a free name ends if no more than a number of candidates are taken. -/
structure EndsAtLeastFree (desired : String) (taken : String → Bool) (bound : Nat) (name : String) :
    Prop where
  /-- The search looks at a number of candidates, at most one more than can be taken. With a budget
  for fewer it does not get there, and a budget for more changes nothing. -/
  probes : ∃ tried, tried ≤ bound + 1 ∧
    ∀ budget, probe desired taken budget 0 = if budget < tried then none else some name
  free : taken name = false
  kept : taken desired = false → name = desired
  counted : taken desired = true → ∃ counter, 2 ≤ counter ∧ name = numbered desired counter ∧
    ∀ smaller, 2 ≤ smaller → smaller < counter → taken (numbered desired smaller) = true
  identifier : isIdentifier desired = true → isIdentifier name = true

/-- `EndsAtLeastFree` holds of the first free candidate. -/
theorem endsAtLeastFree_candidate {desired : String} {taken : String → Bool} {bound i : Nat}
    (hi : i ≤ bound) (hpassed : ∀ j < i, taken (candidate desired j) = true)
    (hfree : taken (candidate desired i) = false) :
    EndsAtLeastFree desired taken bound (candidate desired i) where
  probes := by
    refine ⟨i + 1, Nat.succ_le_succ hi, fun budget => ?_⟩
    rw [probe_eq_ite (Nat.zero_le i) (fun j _ hj => hpassed j hj) hfree, Nat.zero_add]
    simp only [Nat.lt_succ_iff]
  free := hfree
  kept hdesired := by
    cases i with
    | zero => rfl
    | succ i =>
      have htaken : taken desired = true := hpassed 0 (Nat.zero_lt_succ i)
      rw [hdesired] at htaken
      cases htaken
  counted hdesired := by
    cases i with
    | zero =>
      have hnot : taken desired = false := hfree
      rw [hdesired] at hnot
      cases hnot
    | succ i =>
      refine ⟨i + 2, by omega, rfl, fun smaller htwo hlt => ?_⟩
      -- the candidates are counted from zero, and the first one has no counter
      obtain ⟨j, rfl⟩ := Nat.exists_eq_add_of_le' htwo
      exact hpassed (j + 1) (by omega)
  identifier h := isIdentifier_candidate h i

/-- A search with a bound on the taken candidates ends, as `EndsAtLeastFree` says. -/
theorem exists_endsAtLeastFree {desired : String} {taken : String → Bool} {bound : Nat}
    (h : AtMostTaken desired taken bound) : ∃ name, EndsAtLeastFree desired taken bound name := by
  obtain ⟨name, hname⟩ := exists_probe h
  have hfree := not_taken_of_probe hname
  obtain ⟨i, hi, rfl, hpassed⟩ := exists_of_probe hname
  simp only [Nat.zero_add] at hfree hpassed ⊢
  exact ⟨_, endsAtLeastFree_candidate (Nat.le_of_lt_succ hi) hpassed hfree⟩

/-- Wherever `probe` ends, it ends there with any budget that is enough. -/
theorem EndsAtLeastFree.eq_of_probe {desired name found : String} {taken : String → Bool}
    {bound budget : Nat} (h : EndsAtLeastFree desired taken bound name)
    (hfound : probe desired taken budget 0 = some found) : found = name := by
  obtain ⟨tried, -, hprobe⟩ := h.probes
  rw [hprobe] at hfound
  split at hfound
  · cases hfound
  · exact (Option.some.inj hfound).symm

/-! ## Names beside a list -/

/-- `freshName` beside a list is where the search ends that goes by the list. -/
theorem EndsAtLeastFree.freshName_eq {desired name : String} {names : List String} {bound : Nat}
    (h : EndsAtLeastFree desired names.contains bound name) : freshName desired names = name := by
  obtain ⟨found, hfound⟩ := exists_probe (atMostTaken_contains desired names)
  rw [freshName, hfound, Option.getD_some, h.eq_of_probe hfound]

/-- `freshName` is where the search ends that goes by the list. -/
theorem endsAtLeastFree_freshName (desired : String) (taken : List String) :
    EndsAtLeastFree desired taken.contains taken.length (freshName desired taken) := by
  obtain ⟨name, hends⟩ := exists_endsAtLeastFree (atMostTaken_contains desired taken)
  rwa [hends.freshName_eq]

/-- `freshName` is not taken. -/
theorem freshName_not_mem (desired : String) (taken : List String) :
    freshName desired taken ∉ taken := fun hm =>
  Bool.false_ne_true
    ((endsAtLeastFree_freshName desired taken).free.symm.trans (List.contains_iff_mem.2 hm))

/-- `freshName` takes a free name up as it is. -/
theorem freshName_eq_self {desired : String} {taken : List String} (h : desired ∉ taken) :
    freshName desired taken = desired :=
  (endsAtLeastFree_freshName desired taken).kept
    (Bool.eq_false_iff.2 fun hc => h (List.contains_iff_mem.1 hc))

/-- A name that is not taken: the desired one, or the desired one followed by the least counter from
two on that is free. -/
structure IsFirstFree (desired : String) (taken : List String) (name : String) : Prop where
  free : name ∉ taken
  first : name = desired ∨ desired ∈ taken ∧
    ∃ counter, 2 ≤ counter ∧ name = numbered desired counter ∧
    ∀ smaller, 2 ≤ smaller → smaller < counter → numbered desired smaller ∈ taken

/-- `freshName` is the first candidate that is free. -/
theorem isFirstFree_freshName (desired : String) (taken : List String) :
    IsFirstFree desired taken (freshName desired taken) where
  free := freshName_not_mem desired taken
  first := by
    by_cases hd : desired ∈ taken
    · have hcounted :=
        (endsAtLeastFree_freshName desired taken).counted (List.contains_iff_mem.2 hd)
      simp only [List.contains_iff_mem] at hcounted
      exact .inr ⟨hd, hcounted⟩
    · exact .inl (freshName_eq_self hd)

/-- `freshName` makes an identifier of an identifier. -/
theorem isIdentifier_freshName {desired : String} (h : isIdentifier desired = true)
    (taken : List String) : isIdentifier (freshName desired taken) = true :=
  (endsAtLeastFree_freshName desired taken).identifier h

/-! ## Any search -/

/-- A search for a free name ends, whichever way it is decided what is taken: if no more than
`bound` of the candidates are taken then it looks at `bound + 1` of them at most. It ends with the
desired name, or with the desired name followed by the least counter from two on that is free, and
this is an identifier if the desired name is one. Beside a list of the taken names this is the fresh
name. -/
theorem search_ends_at_least_free_name (desired : String) (taken : String → Bool) (bound : Nat)
    (h : AtMostTaken desired taken bound) :
    ∃ name, EndsAtLeastFree desired taken bound name ∧
      ∀ names : List String, (∀ other, other ∈ names ↔ taken other = true) →
        freshName desired names = name := by
  obtain ⟨name, hends⟩ := exists_endsAtLeastFree h
  refine ⟨name, hends, fun names hnames => ?_⟩
  -- going by the list is going by what is taken
  have htaken : names.contains = taken := by
    funext other
    rw [Bool.eq_iff_iff, List.contains_iff_mem, hnames]
  subst htaken
  exact hends.freshName_eq

/-- Only two of these names are candidates for `x`, so three tries of `probe` are enough. -/
theorem search_beside_velocity_ends_at_x3 :
    AtMostTaken "x" ["x", "velocity", "x2"].contains 2 ∧
      EndsAtLeastFree "x" ["x", "velocity", "x2"].contains 2 "x3" := by
  have hbound : AtMostTaken "x" ["x", "velocity", "x2"].contains 2 := by
    intro names hnodup hnames
    have hsubset : names ⊆ ["x", "x2"] := by
      intro name hname
      obtain ⟨htaken, n, hn⟩ := hnames name hname
      -- a candidate begins with the desired name
      have hfirst : name.toList.head? = some 'x' := by
        cases n <;> simp [hn, candidate]
      have hmem : name ∈ ["x", "velocity", "x2"] := List.contains_iff_mem.1 htaken
      simp only [List.mem_cons, List.not_mem_nil, or_false] at hmem ⊢
      rcases hmem with rfl | rfl | rfl
      · exact .inl rfl
      · exact absurd hfirst (by decide)
      · exact .inr rfl
    exact hnodup.length_le_of_subset hsubset
  obtain ⟨name, hends, hfresh⟩ := search_ends_at_least_free_name "x" _ 2 hbound
  have hname : freshName "x" ["x", "velocity", "x2"] = name :=
    hfresh _ fun other => List.contains_iff_mem.symm
  have hvalue : freshName "x" ["x", "velocity", "x2"] = "x3" := by decide +kernel
  rw [← hname, hvalue] at hends
  exact ⟨hbound, hends⟩

end HybridAutomata.Text
