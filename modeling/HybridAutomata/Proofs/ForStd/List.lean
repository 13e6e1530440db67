import Mathlib.Algebra.GroupWithZero.Nat
import Mathlib.Data.List.Forall2
/-!
# Lemmas about lists for the standard library

Sums over different places, computations that go through two lists in step, and changes that may be
made in any order. Nothing here is about hybrid automata.
-/

namespace List

section

variable {α β γ : Type} {m : Type → Type} [Monad m] {items : List α} {g : α → β}

/-- Going through a changed list, doing for each changed item what another computation does for the
item. -/
theorem forM_map_congr {f : β → m PUnit} {f' : α → m PUnit}
    (h : ∀ item ∈ items, f (g item) = f' item) : (items.map g).forM f = items.forM f' := by
  induction items with
  | nil => rfl
  | cons item rest ih =>
    simp only [List.map_cons, List.forM_eq_forM, List.forM_cons, h item List.mem_cons_self] at ih ⊢
    rw [ih fun other ho => h other (List.mem_cons_of_mem _ ho)]

/-- Collecting the results over a changed list, with the same computation for each changed item. -/
theorem mapM_map_congr [LawfulMonad m] {f : β → m γ} {f' : α → m γ}
    (h : ∀ item ∈ items, f (g item) = f' item) : (items.map g).mapM f = items.mapM f' := by
  induction items with
  | nil => rfl
  | cons item rest ih =>
    rw [List.map_cons, List.mapM_cons, List.mapM_cons, h item List.mem_cons_self,
      ih fun other ho => h other (List.mem_cons_of_mem _ ho)]

/-- Going through a changed list with a state, with the same step for each changed item. -/
theorem foldlM_map_congr {f : γ → β → m γ} {f' : γ → α → m γ}
    (h : ∀ item ∈ items, ∀ state, f state (g item) = f' state item) (state : γ) :
    (items.map g).foldlM f state = items.foldlM f' state := by
  induction items generalizing state with
  | nil => rfl
  | cons item rest ih =>
    rw [List.map_cons, List.foldlM_cons, List.foldlM_cons, h item List.mem_cons_self]
    exact congrArg _ (funext fun next =>
      ih (fun other ho => h other (List.mem_cons_of_mem _ ho)) next)

/-- Joining lists over a changed list, with the same list for each changed item. -/
theorem flatMap_map_congr {f : β → List γ} {f' : α → List γ}
    (h : ∀ item ∈ items, f (g item) = f' item) : (items.map g).flatMap f = items.flatMap f' := by
  rw [List.flatMap_map]
  exact congrArg List.flatten (List.map_congr_left h)

/-- Going through lists, one after the other, is going through all their items. -/
theorem foldlM_flatMap [LawfulMonad m] {f : α → List β} {step : γ → β → m γ} (state : γ) :
    (items.flatMap f).foldlM step state =
      items.foldlM (fun state item => (f item).foldlM step state) state := by
  -- induction on the items; the state goes on through the list of each of them
  induction items generalizing state with
  | nil => rfl
  | cons item rest ih =>
    rw [List.flatMap_cons, List.foldlM_append, List.foldlM_cons]
    exact congrArg _ (funext ih)

/-- A change that keeps every item keeps the list. -/
theorem map_eq_self {f : α → α} (h : ∀ item ∈ items, f item = item) : items.map f = items :=
  (List.map_congr_left h).trans (List.map_id items)

end

/-- Of items with different keys, the one with the key of an item is that item. -/
theorem find?_eq_some_of_nodup {α β : Type} [DecidableEq β] {items : List α} {key : α → β}
    (hn : (items.map key).Nodup) {item : α} (h : item ∈ items) :
    items.find? (fun other => key other = key item) = some item := by
  -- induction on the items; the first one is it, or it has another key
  induction items with
  | nil => cases h
  | cons first rest ih =>
    rw [map_cons, nodup_cons] at hn
    rcases mem_cons.1 h with rfl | hr
    · simp
    · have hne : key first ≠ key item := fun he => hn.1 (he ▸ mem_map_of_mem hr)
      rw [find?_cons_of_neg (by simpa using hne)]
      exact ih hn.2 hr

/-- Different places below `n` add up to at most as much as all places below `n`. -/
theorem sum_map_le_sum_range {f : Nat → Nat} {n : Nat} {places : List Nat} (hn : places.Nodup)
    (hlt : ∀ i ∈ places, i < n) : (places.map f).sum ≤ ((List.range n).map f).sum := by
  -- induction on the number of places, of which the last one is taken or not
  induction n generalizing places with
  | zero =>
    have hnil : places = [] :=
      List.eq_nil_iff_forall_not_mem.2 fun i hi => Nat.not_lt_zero i (hlt i hi)
    simp [hnil]
  | succ n ih =>
    rw [List.range_succ, List.map_append, List.sum_append]
    by_cases hm : n ∈ places
    · -- the last place comes once, and the others lie below it
      have hsum : (places.map f).sum = f n + ((places.erase n).map f).sum := by
        rw [((List.perm_cons_erase hm).map f).sum_nat, List.map_cons, List.sum_cons]
      have hrest := ih (hn.erase n) fun i hi => by
        have hi' := hn.mem_erase_iff.1 hi
        have := hlt i hi'.2
        omega
      simp only [List.map_cons, List.map_nil, List.sum_cons, List.sum_nil]
      omega
    · have hrest := ih hn fun i hi => by
        have hne : i ≠ n := fun he => hm (he ▸ hi)
        have := hlt i hi
        omega
      omega

/-! ## Changes in any order -/

section

variable {σ α : Type} {valid : σ → Prop} {step : σ → α → σ} {items items' : List α} {state : σ}

/-- Steps that keep a state valid and may be swapped on a valid state, and of which a second one of
a kind does nothing. -/
structure AnyOrder (valid : σ → Prop) (step : σ → α → σ) : Prop where
  keeps : ∀ state item, valid state → valid (step state item)
  twice : ∀ state item, valid state → step (step state item) item = step state item
  swap : ∀ state item other, valid state →
    step (step state item) other = step (step state other) item

namespace AnyOrder

/-- The first step may come last. -/
theorem foldl_step (h : AnyOrder valid step) (hs : valid state) (item : α) :
    items.foldl step (step state item) = step (items.foldl step state) item := by
  -- induction on the steps between, with one swap for each of them
  induction items generalizing state with
  | nil => rfl
  | cons other rest ih =>
    rw [foldl_cons, foldl_cons, h.swap state item other hs, ih (h.keeps state other hs)]

/-- A step that was made before does nothing. -/
theorem step_foldl (h : AnyOrder valid step) (hs : valid state) {item : α} (hi : item ∈ items) :
    step (items.foldl step state) item = items.foldl step state := by
  -- induction on the steps; the earlier one is moved next to the later one, and does nothing there
  induction items generalizing state with
  | nil => cases hi
  | cons other rest ih =>
    rcases mem_cons.1 hi with rfl | hr
    · rw [foldl_cons, ← h.foldl_step (h.keeps state item hs), h.twice state item hs]
    · exact ih (h.keeps state other hs) hr

/-- Steps that were all made before do nothing. -/
theorem foldl_foldl_of_subset (h : AnyOrder valid step) (hs : valid state) (hsub : items' ⊆ items) :
    items'.foldl step (items.foldl step state) = items.foldl step state := by
  induction items' with
  | nil => rfl
  | cons item rest ih =>
    rw [foldl_cons, h.step_foldl hs (hsub mem_cons_self)]
    exact ih fun other ho => hsub (mem_cons_of_mem _ ho)

/-- Two rounds of steps may be swapped. -/
theorem foldl_foldl_swap (h : AnyOrder valid step) (hs : valid state) :
    items'.foldl step (items.foldl step state) = items.foldl step (items'.foldl step state) := by
  -- induction on the second round, whose steps are moved to the front one by one
  induction items' generalizing state with
  | nil => rfl
  | cons item rest ih =>
    rw [foldl_cons, foldl_cons, ← h.foldl_step hs, ih (h.keeps state item hs)]

/-- What a list of steps leads to depends on its members only. -/
theorem foldl_eq_of_subset (h : AnyOrder valid step) (hs : valid state) (hsub : items ⊆ items')
    (hsub' : items' ⊆ items) : items.foldl step state = items'.foldl step state := by
  rw [← h.foldl_foldl_of_subset hs hsub', h.foldl_foldl_swap hs, h.foldl_foldl_of_subset hs hsub]

end AnyOrder

end

section

variable {α : Type}

/-- Two lists fall apart in the same way if the cut is where the last items begin of which something
holds. -/
theorem append_inj_of_getLast? {p : α → Prop} {front front' back back' : List α}
    (hfront : ∀ a ∈ front.getLast?, ¬ p a) (hfront' : ∀ a ∈ front'.getLast?, ¬ p a)
    (hback : ∀ a ∈ back, p a) (hback' : ∀ a ∈ back', p a)
    (h : front ++ back = front' ++ back') : front = front' ∧ back = back' := by
  -- what one front has more than the other is empty, or else its last item is in the back
  have key {front front' middle back : List α} (hfront : ∀ a ∈ front'.getLast?, ¬ p a)
      (hback : ∀ a ∈ middle ++ back, p a) (he : front' = front ++ middle) : middle = [] := by
    rcases List.eq_nil_or_concat middle with rfl | ⟨init, last, rfl⟩
    · rfl
    · subst he
      refine absurd (hback last (by simp)) (hfront last ?_)
      rw [List.concat_eq_append, ← List.append_assoc, List.getLast?_concat]
      rfl
  rcases List.append_eq_append_iff.1 h with ⟨middle, he, rfl⟩ | ⟨middle, he, rfl⟩
  · obtain rfl := key hfront' hback he
    exact ⟨(he.trans (List.append_nil _)).symm, rfl⟩
  · obtain rfl := key hfront hback' he
    exact ⟨he.trans (List.append_nil _), rfl⟩

/-- Lists compare as equal if they do so item by item. -/
theorem beq_iff_forall₂ [BEq α] {items items' : List α} :
    (items == items') = true ↔ Forall₂ (fun item item' => (item == item') = true) items items' := by
  -- induction on both lists; different lengths are told apart on both sides
  induction items generalizing items' with
  | nil => cases items' <;> simp
  | cons item rest ih => cases items' <;> simp [cons_beq_cons, ih]

/-- Going through two lists in step, doing the same at each place. -/
theorem foldlM_congr_of_forall₂ {β γ : Type} {m : Type → Type} [Monad m] {items : List α}
    {items' : List β} {f : γ → α → m γ} {f' : γ → β → m γ}
    (h : Forall₂ (fun item item' => ∀ state, f state item = f' state item') items items')
    (state : γ) : items.foldlM f state = items'.foldlM f' state := by
  induction h generalizing state with
  | nil => rfl
  | cons hitem _ ih =>
    rw [foldlM_cons, foldlM_cons, hitem]
    exact congrArg _ (funext ih)

end

end List

/-! ## Comparing lists and options

If items are compared by a symmetric and transitive `==` then so are lists and options of them. An
item may differ from itself, as long as it also differs from everything else.
-/

namespace List

variable {α β γ : Type}

/-- What relates the items of two lists, and those of two others, relates them across. -/
theorem forall₂_trans {r : α → β → Prop} {r' : β → γ → Prop} {r'' : α → γ → Prop}
    {items : List α} {items' : List β} {items'' : List γ} (h : Forall₂ r items items')
    (h' : Forall₂ r' items' items'')
    (hr : ∀ item ∈ items, ∀ item' item'', r item item' → r' item' item'' → r'' item item'') :
    Forall₂ r'' items items'' := by
  -- induction on the first relation; the second one is taken apart along with it
  induction h generalizing items'' with
  | nil =>
    cases h'
    exact .nil
  | cons hitem _ ih =>
    cases h' with
    | cons hitem' hrest' =>
      exact .cons (hr _ mem_cons_self _ _ hitem hitem')
        (ih hrest' fun item hi => hr item (mem_cons_of_mem _ hi))

instance partialEquivBEq [BEq α] [PartialEquivBEq α] : PartialEquivBEq (List α) where
  symm h := beq_iff_forall₂.2 ((beq_iff_forall₂.1 h).flip.imp fun _ _ => BEq.symm)
  trans h h' := beq_iff_forall₂.2 (forall₂_trans (beq_iff_forall₂.1 h) (beq_iff_forall₂.1 h')
    fun _ _ _ _ => BEq.trans)

end List

instance Option.partialEquivBEq {α : Type} [BEq α] [PartialEquivBEq α] :
    PartialEquivBEq (Option α) where
  symm {a b} h := by
    cases a <;> cases b <;> simp_all
    exact BEq.symm h
  trans {a b c} h h' := by
    cases a <;> cases b <;> cases c <;> simp_all
    exact BEq.trans h h'
