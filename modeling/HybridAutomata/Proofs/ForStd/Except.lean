/-!
# Lemmas about `Except` for the standard library

Computations that may fail, and lists of them, by what their success says. Nothing here is about
hybrid automata.
-/

namespace Except

variable {ε α β : Type}

@[simp] theorem ok_bind (a : α) (f : α → Except ε β) : ((.ok a : Except ε α) >>= f) = f a := rfl

@[simp] theorem error_bind (e : ε) (f : α → Except ε β) :
    ((.error e : Except ε α) >>= f) = .error e := rfl

@[simp] theorem pure_eq_ok (a : α) : (pure a : Except ε α) = .ok a := rfl

@[simp] theorem throw_eq_error (e : ε) : (throw e : Except ε α) = .error e := rfl

@[simp] theorem map_ok_eq (f : α → β) (a : α) : (f <$> (.ok a : Except ε α)) = .ok (f a) := rfl

@[simp] theorem map_error_eq (f : α → β) (e : ε) :
    (f <$> (.error e : Except ε α)) = .error e := rfl

/-- Whether a check succeeds can be computed without comparing failures. -/
theorem eq_ok_of_isOk {x : Except ε Unit} (h : x.isOk = true) : x = .ok () := by
  cases x with
  | error e => cases h
  | ok => rfl

/-- A sequence succeeds if both steps do. -/
theorem bind_eq_ok_iff {x : Except ε α} {f : α → Except ε β} {b : β} :
    (x >>= f) = .ok b ↔ ∃ a, x = .ok a ∧ f a = .ok b := by
  -- either side determines the outcome of the first step
  cases x with
  | error e =>
    constructor
    · intro h
      cases h
    · rintro ⟨_, h, -⟩
      cases h
  | ok a =>
    constructor
    · exact fun h => ⟨a, rfl, h⟩
    · rintro ⟨_, h, hf⟩
      cases h
      exact hf

/-- A sequence fails if its first step fails, or the second one after the first. -/
theorem bind_eq_error_iff {x : Except ε α} {f : α → Except ε β} {e : ε} :
    (x >>= f) = .error e ↔ x = .error e ∨ ∃ a, x = .ok a ∧ f a = .error e := by
  cases x with
  | error e' => simp
  | ok a => simp

/-- A check followed by more succeeds if both do. -/
theorem check_bind_eq_ok_iff {x : Except ε Unit} {f : Unit → Except ε β} {b : β} :
    (x >>= f) = .ok b ↔ x = .ok () ∧ f () = .ok b := by
  rw [bind_eq_ok_iff]
  constructor
  · rintro ⟨_, hx, hf⟩
    exact ⟨hx, hf⟩
  · rintro ⟨hx, hf⟩
    exact ⟨(), hx, hf⟩

/-- A guard followed by more succeeds if the guard lets through and the rest succeeds. -/
theorem guard_bind_eq_ok_iff {p : Prop} [Decidable p] {e : ε} {f : α → Except ε β}
    {rest : Except ε β} {b : β} :
    (if p then (throw e : Except ε α) >>= f else rest) = .ok b ↔ ¬ p ∧ rest = .ok b := by
  split
  · next hp =>
    constructor
    · intro h
      cases h
    · exact fun h => absurd hp h.1
  · next hp => exact ⟨fun h => ⟨hp, h⟩, fun h => h.2⟩

/-! ## Errors that do not come up -/

/-- A computation does not fail with an error of some kind. -/
def Avoids (x : Except ε α) (p : ε → Prop) : Prop :=
  ∀ e, x = .error e → ¬ p e

variable {p : ε → Prop}

theorem avoids_ok {a : α} : (.ok a : Except ε α).Avoids p :=
  fun _ h => nomatch h

/-- A failure avoids what it is not. -/
theorem avoids_error {e : ε} (h : ¬ p e) : (.error e : Except ε α).Avoids p := by
  rintro _ ⟨⟩
  exact h

/-- A sequence avoids what both steps avoid. -/
theorem Avoids.bind {x : Except ε α} {f : α → Except ε β} (h : x.Avoids p)
    (hf : ∀ a, (f a).Avoids p) : (x >>= f).Avoids p := by
  cases x with
  | error e => exact avoids_error (h e rfl)
  | ok a => exact hf a

/-- A guard followed by more avoids what the rest avoids, if it avoids its own complaint. -/
theorem avoids_guard {q : Prop} [Decidable q] {e : ε} {f : α → Except ε β} {rest : Except ε β}
    (he : ¬ p e) (hrest : rest.Avoids p) :
    (if q then (throw e : Except ε α) >>= f else rest).Avoids p := by
  split
  · exact avoids_error he
  · exact hrest

end Except

namespace List

variable {ε α β : Type}

/-- A list of checks succeeds if every check does. -/
theorem forM_eq_ok_iff {items : List α} {check : α → Except ε Unit} :
    -- induction on the checks
    items.forM check = .ok () ↔ ∀ item ∈ items, check item = .ok () := by
  induction items with
  | nil =>
    constructor
    · intro _ item h
      cases h
    · exact fun _ => rfl
  | cons item rest ih =>
    rw [List.forM_eq_forM, List.forM_cons, Except.check_bind_eq_ok_iff, ← List.forM_eq_forM, ih,
      List.forall_mem_cons]

/-- A list of checks avoids what every check avoids. -/
theorem avoids_forM {p : ε → Prop} {items : List α} {check : α → Except ε Unit}
    -- induction on the checks, with `Avoids.bind` for one of them
    (h : ∀ item ∈ items, (check item).Avoids p) : (items.forM check).Avoids p := by
  induction items with
  | nil => exact Except.avoids_ok
  | cons item rest ih =>
    rw [List.forM_eq_forM, List.forM_cons, ← List.forM_eq_forM]
    exact (h item List.mem_cons_self).bind fun _ => ih fun other ho =>
      h other (List.mem_cons_of_mem _ ho)

/-- A list of checks fails at the first check that does. -/
theorem forM_eq_error_iff {items : List α} {check : α → Except ε Unit} {e : ε} :
    items.forM check = .error e ↔ ∃ front item back, items = front ++ item :: back ∧
      (∀ earlier ∈ front, check earlier = .ok ()) ∧ check item = .error e := by
  -- induction on the checks; the first one fails, or the failing one is among the others
  induction items with
  | nil =>
    constructor
    · intro h
      cases h
    · rintro ⟨front, item, back, h, -⟩
      exact absurd h.symm (List.append_ne_nil_of_right_ne_nil _ (List.cons_ne_nil _ _))
  | cons first rest ih =>
    rw [List.forM_eq_forM, List.forM_cons, ← List.forM_eq_forM, Except.bind_eq_error_iff]
    constructor
    · rintro (h | ⟨_, hfirst, h⟩)
      · exact ⟨[], first, rest, rfl, fun _ hm => (nomatch hm), h⟩
      · obtain ⟨front, item, back, rfl, hfront, hitem⟩ := ih.1 h
        exact ⟨first :: front, item, back, rfl, List.forall_mem_cons.2 ⟨hfirst, hfront⟩, hitem⟩
    -- what stands in front of the failing check is empty, or it starts with the first check
    · rintro ⟨front, item, back, h, hfront, hitem⟩
      cases front with
      | nil =>
        obtain ⟨rfl, rfl⟩ := List.cons.inj h
        exact .inl hitem
      | cons earlier front =>
        obtain ⟨rfl, rfl⟩ := List.cons.inj h
        obtain ⟨hearlier, hfront⟩ := List.forall_mem_cons.1 hfront
        exact .inr ⟨(), hearlier, ih.2 ⟨front, item, back, rfl, hfront, hitem⟩⟩

/-- The results of a list of requests that all succeed. -/
theorem mem_of_mapM_eq_ok {items : List α} {f : α → Except ε β} {results : List β}
    (h : items.mapM f = .ok results) {result : β} :
    result ∈ results ↔ ∃ item ∈ items, f item = .ok result := by
  induction items generalizing results with
  | nil =>
    obtain rfl := Except.ok.inj h
    simp
  | cons item rest ih =>
    -- if the list of requests succeeds then so do the first one and the list of the others
    rw [List.mapM_cons] at h
    obtain ⟨first, hf, h⟩ := Except.bind_eq_ok_iff.1 h
    obtain ⟨others, hr, h⟩ := Except.bind_eq_ok_iff.1 h
    obtain rfl := Except.ok.inj h
    rw [List.mem_cons, ih hr]
    constructor
    · rintro (rfl | ⟨other, ho, hs⟩)
      · exact ⟨item, List.mem_cons_self, hf⟩
      · exact ⟨other, List.mem_cons_of_mem _ ho, hs⟩
    · rintro ⟨other, ho, hs⟩
      rcases List.mem_cons.1 ho with rfl | ho
      · exact .inl (Except.ok.inj (hs.symm.trans hf))
      · exact .inr ⟨other, ho, hs⟩

/-- If a list of requests succeeds then each request does. -/
theorem exists_of_mapM_eq_ok {items : List α} {f : α → Except ε β} {results : List β}
    (h : items.mapM f = .ok results) {item : α} (hi : item ∈ items) :
    ∃ result, f item = .ok result := by
  -- induction on the items; the first one has succeeded, and so have the others
  induction items generalizing results with
  | nil => cases hi
  | cons first rest ih =>
    rw [List.mapM_cons] at h
    obtain ⟨result, hf, h⟩ := Except.bind_eq_ok_iff.1 h
    obtain ⟨others, hr, h⟩ := Except.bind_eq_ok_iff.1 h
    rcases List.mem_cons.1 hi with rfl | hi
    · exact ⟨result, hf⟩
    · exact ih hr hi

/-- What every result has in common with its item, the results have in common with the items. -/
theorem map_of_mapM_eq_ok {γ : Type} {items : List α} {f : α → Except ε β} {results : List β}
    {left : β → γ} {right : α → γ} (h : items.mapM f = .ok results)
    (hf : ∀ item result, f item = .ok result → left result = right item) :
    results.map left = items.map right := by
  -- induction on the items; their results come in the same order
  induction items generalizing results with
  | nil =>
    obtain rfl := Except.ok.inj h
    rfl
  | cons item rest ih =>
    rw [List.mapM_cons] at h
    obtain ⟨first, hfirst, h⟩ := Except.bind_eq_ok_iff.1 h
    obtain ⟨others, hr, h⟩ := Except.bind_eq_ok_iff.1 h
    obtain rfl := Except.ok.inj h
    rw [List.map_cons, List.map_cons, hf item first hfirst, ih hr]

/-- A list of requests succeeds if every request does. -/
theorem exists_mapM_eq_ok {items : List α} {f : α → Except ε β}
    (h : ∀ item ∈ items, ∃ result, f item = .ok result) :
    ∃ results, items.mapM f = .ok results := by
  -- induction on the items
  induction items with
  | nil => exact ⟨[], rfl⟩
  | cons item rest ih =>
    obtain ⟨result, hf⟩ := h item List.mem_cons_self
    obtain ⟨results, hr⟩ := ih fun other ho => h other (List.mem_cons_of_mem _ ho)
    exact ⟨result :: results, by rw [List.mapM_cons, hf, hr]; rfl⟩

/-- Steps that are taken one after the other succeed only if each of them does. -/
theorem exists_of_foldlM_eq_ok {items : List α} {f : β → α → Except ε β} {state result : β}
    (h : items.foldlM f state = .ok result) {item : α} (hi : item ∈ items) :
    ∃ before after, f before item = .ok after := by
  -- induction on the items; the state goes on from step to step
  induction items generalizing state with
  | nil => cases hi
  | cons first rest ih =>
    rw [List.foldlM_cons] at h
    obtain ⟨next, hf, h⟩ := Except.bind_eq_ok_iff.1 h
    rcases List.mem_cons.1 hi with rfl | hi
    · exact ⟨state, next, hf⟩
    · exact ih h hi

/-- Steps that are taken one after the other fail only if one of them does. -/
theorem exists_of_foldlM_eq_error {items : List α} {f : β → α → Except ε β} {state : β} {e : ε}
    (h : items.foldlM f state = .error e) : ∃ item ∈ items, ∃ before, f before item = .error e := by
  -- induction on the items; the first step that fails is the one
  induction items generalizing state with
  | nil => cases h
  | cons first rest ih =>
    rw [List.foldlM_cons] at h
    rcases Except.bind_eq_error_iff.1 h with hf | ⟨next, -, h⟩
    · exact ⟨first, List.mem_cons_self, state, hf⟩
    · obtain ⟨item, hi, hitem⟩ := ih h
      exact ⟨item, List.mem_cons_of_mem _ hi, hitem⟩

end List
