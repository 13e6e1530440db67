import HybridAutomata.ModelError
/-!
# Changes that can be refused

A `Change` maps a state to an outcome and a state. The lemmas `runOn_…` say what each building block
does, so that a change is followed step by step. Three properties are carried along a sequence of
steps, the first and the last of them for a part of the state, which may be all of it:

* `Keeps`        the part is the same afterwards, whatever the outcome
* `SucceedsOn`   the outcome on a given state is no failure
* `AtomicOn`     if the outcome on a given state is a failure, the part is as before

A change is atomic if it asks all its questions before it changes anything, and if what it does then
cannot fail: `Keeps.atomicOn_bind` leads over the questions, `SucceedsOn.atomicOn` closes the rest.
-/

namespace HybridAutomata.Change

variable {ε σ α β ν : Type}

/-! ## Building blocks -/

@[simp] theorem runOn_pure (value : α) (s : σ) :
    (pure value : Change ε σ α).runOn s = (.ok value, s) := rfl

@[simp] theorem runOn_throw (cause : ε) (s : σ) :
    (throw cause : Change ε σ α).runOn s = (.error cause, s) := rfl

@[simp] theorem runOn_get (s : σ) : (get : Change ε σ σ).runOn s = (.ok s, s) := rfl

/-- `getThe` answers with the state, as `get` does. -/
@[simp] theorem runOn_getThe (s : σ) : (getThe σ : Change ε σ σ).runOn s = (.ok s, s) := rfl

@[simp] theorem runOn_modify (f : σ → σ) (s : σ) :
    (modify f : Change ε σ Unit).runOn s = (.ok (), f s) := rfl

/-- `modifyThe` changes the state and cannot fail, as `modify`. -/
@[simp] theorem runOn_modifyThe (f : σ → σ) (s : σ) :
    (modifyThe σ f : Change ε σ Unit).runOn s = (.ok (), f s) := rfl

@[simp] theorem runOn_liftM (outcome : Except ε α) (s : σ) :
    (liftM outcome : Change ε σ α).runOn s = (outcome, s) := by
  cases outcome <;> rfl

/-! ## Sequences -/

/-- A sequence goes on where its first step succeeds, and ends with the state that a failing one
leaves behind. -/
theorem runOn_bind (x : Change ε σ α) (f : α → Change ε σ β) (s : σ) :
    (x >>= f).runOn s =
      match x.runOn s with
      | (.ok value, s') => (f value).runOn s'
      | (.error cause, s') => (.error cause, s') := by
  -- both sides match on the outcome of the first step, once the transformers are opened
  simp only [runOn, ExceptT.run_bind, StateT.run_bind]
  rcases StateT.run (ExceptT.run x) s with ⟨_ | _, s'⟩ <;> rfl

/-- A first step that succeeds hands over to the second one. -/
theorem runOn_bind_ok {x : Change ε σ α} {f : α → Change ε σ β} {s s' : σ} {value : α}
    (h : x.runOn s = (.ok value, s')) : (x >>= f).runOn s = (f value).runOn s' := by
  rw [runOn_bind, h]

/-- A first step that fails ends the sequence. -/
theorem runOn_bind_error {x : Change ε σ α} {f : α → Change ε σ β} {s s' : σ} {cause : ε}
    (h : x.runOn s = (.error cause, s')) : (x >>= f).runOn s = (.error cause, s') := by
  rw [runOn_bind, h]

/-- A change whose result is dropped leaves behind what it leaves behind with its result. -/
theorem of_bind_pure_eq_ok {x : Change ε σ α} {value : β} {s s' : σ}
    (h : (x >>= fun _ => pure value).runOn s = (.ok value, s')) :
    ∃ result, x.runOn s = (.ok result, s') := by
  -- only the first step can fail, and it does not
  rcases hr : x.runOn s with ⟨cause | result, s₁⟩
  · rw [runOn_bind_error hr] at h
    cases h
  · rw [runOn_bind_ok hr] at h
    cases h
    exact ⟨result, rfl⟩

/-- A handler sees the state that the failure left behind. -/
theorem runOn_tryCatch (x : Change ε σ α) (f : ε → Change ε σ α) (s : σ) :
    (tryCatch x f).runOn s =
      match x.runOn s with
      | (.ok value, s') => (.ok value, s')
      | (.error cause, s') => (f cause).runOn s' := by
  simp only [runOn, ExceptT.run_tryCatch, StateT.run_bind]
  rcases StateT.run (ExceptT.run x) s with ⟨_ | _, s'⟩ <;> rfl

/-! ## Keeping a part of the state -/

/-- The change leaves a part of the state as it is, whatever its outcome. -/
def Keeps (part : σ → ν) (x : Change ε σ α) : Prop :=
  ∀ s, part (x.runOn s).2 = part s

/-- The change does not fail on a state. -/
def SucceedsOn (x : Change ε σ α) (s : σ) : Prop :=
  ∃ value s', x.runOn s = (.ok value, s')

/-- If the change fails on a state, it leaves a part of it as it is. -/
def AtomicOn (part : σ → ν) (x : Change ε σ α) (s : σ) : Prop :=
  ∀ cause s', x.runOn s = (.error cause, s') → part s' = part s

variable {part : σ → ν}

/-- `pure` keeps every part of the state. -/
theorem keeps_pure (value : α) : Keeps part (pure value : Change ε σ α) := fun _ => rfl

/-- `throw` keeps every part of the state. -/
theorem keeps_throw (cause : ε) : Keeps part (throw cause : Change ε σ α) := fun _ => rfl

/-- `get` keeps every part of the state. -/
theorem keeps_get : Keeps part (get : Change ε σ σ) := fun _ => rfl

/-- `getThe` keeps every part of the state. -/
theorem keeps_getThe : Keeps part (getThe σ : Change ε σ σ) := fun _ => rfl

/-- A question that is asked of the state keeps it, also if there is no answer. -/
theorem keeps_liftM (outcome : Except ε α) : Keeps part (liftM outcome : Change ε σ α) := by
  intro s
  rw [runOn_liftM]

/-- `modify` succeeds on every state. -/
theorem succeedsOn_modify (f : σ → σ) (s : σ) : SucceedsOn (modify f : Change ε σ Unit) s :=
  ⟨(), f s, rfl⟩

/-- `modifyThe` succeeds on every state. -/
theorem succeedsOn_modifyThe (f : σ → σ) (s : σ) :
    SucceedsOn (modifyThe σ f : Change ε σ Unit) s :=
  ⟨(), f s, rfl⟩

/-- `Keeps` is carried along a sequence, whether or not the second step is reached. -/
theorem Keeps.bind {x : Change ε σ α} {f : α → Change ε σ β} (hx : Keeps part x)
    (hf : ∀ value, Keeps part (f value)) : Keeps part (x >>= f) := by
  -- the second step starts from a state with the same part, if there is a second step
  intro s
  have hs := hx s
  rcases h : x.runOn s with ⟨cause | value, s'⟩
  · rw [runOn_bind_error h]
    rwa [h] at hs
  · rw [runOn_bind_ok h, hf value s']
    rwa [h] at hs

/-- A loop keeps a part if each of its rounds does. -/
theorem keeps_forM {items : List α} {f : α → Change ε σ Unit}
    (hf : ∀ item ∈ items, Keeps part (f item)) : Keeps part (items.forM f) := by
  -- induction on the items, with `Keeps.bind` for one round
  induction items with
  | nil => exact keeps_pure ()
  | cons item rest ih =>
    exact (hf item (List.mem_cons_self)).bind fun _ =>
      ih fun other h => hf other (List.mem_cons_of_mem item h)

/-- A sequence of changes that succeed succeeds. -/
theorem SucceedsOn.bind {x : Change ε σ α} {f : α → Change ε σ β} {s : σ} (hx : SucceedsOn x s)
    (hf : ∀ value s', SucceedsOn (f value) s') : SucceedsOn (x >>= f) s := by
  obtain ⟨value, s', h⟩ := hx
  rw [SucceedsOn, runOn_bind_ok h]
  exact hf value s'

/-- A step that keeps the part can go before an atomic one. -/
theorem Keeps.atomicOn_bind {x : Change ε σ α} {f : α → Change ε σ β} {s : σ}
    (hx : Keeps part x)
    (hf : ∀ value s', x.runOn s = (.ok value, s') → AtomicOn part (f value) s') :
    AtomicOn part (x >>= f) s := by
  intro cause s' h
  have hs := hx s
  -- a failure is one of the first step, which keeps the part, or one of the second, which is atomic
  rcases hr : x.runOn s with ⟨cause₁ | value, s₁⟩
  · rw [runOn_bind_error hr] at h
    obtain ⟨-, rfl⟩ := Prod.mk.inj h
    rwa [hr] at hs
  · rw [runOn_bind_ok hr] at h
    rw [hr] at hs
    exact (hf value s₁ hr cause s' h).trans hs

/-- What is done with the outcome of an atomic change does not matter if it cannot fail. -/
theorem AtomicOn.bind_pure {x : Change ε σ α} {s : σ} (hx : AtomicOn part x s) (value : β) :
    AtomicOn part (x >>= fun _ => pure value) s := by
  intro cause s' h
  rcases hr : x.runOn s with ⟨cause₁ | value, s₁⟩
  · rw [runOn_bind_error hr] at h
    obtain ⟨-, rfl⟩ := Prod.mk.inj h
    exact hx cause₁ s₁ hr
  · rw [runOn_bind_ok hr] at h
    cases h

/-- What `Keeps` a part whatever the outcome is, keeps it on failure. -/
theorem Keeps.atomicOn {x : Change ε σ α} (hx : Keeps part x) (s : σ) : AtomicOn part x s := by
  intro cause s' h
  have hs := hx s
  rwa [h] at hs

/-- A change that succeeds has no failure to be atomic in. -/
theorem SucceedsOn.atomicOn {x : Change ε σ α} {s : σ} (hx : SucceedsOn x s) :
    AtomicOn part x s := by
  intro cause s' h
  obtain ⟨value, s₁, hs⟩ := hx
  rw [hs] at h
  cases h

end HybridAutomata.Change
