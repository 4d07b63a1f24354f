import AsmKit.Assembler.Pass
import AsmKit.Linker.Merge

/-
  Runs of passes and of linking stages. Both are computations that may fail and keep a state, so
  they share one relation: `Runs m s a t` says that `m`, started in `s`, succeeds with the value
  `a` and leaves `t`. The lemmas below take the run of a composite stage apart into the runs of
  its parts; no later module looks into the monad.
-/

namespace AsmKit

section

variable {ε σ α β : Type}

theorem except_bind_eq_ok {x : Except ε α} {f : α → Except ε β} {b : β} :
    x >>= f = .ok b ↔ ∃ a, x = .ok a ∧ f a = .ok b := by
  rcases x with e | a
  · simp [bind, Except.bind]
  · simp [bind, Except.bind]

theorem except_bind_eq_error {x : Except ε α} {f : α → Except ε β} {e : ε} :
    x >>= f = .error e ↔ x = .error e ∨ ∃ a, x = .ok a ∧ f a = .error e := by
  rcases x with e' | a
  · simp [bind, Except.bind]
  · simp [bind, Except.bind]

theorem mapError_eq_ok {δ : Type} {x : Except ε α} {f : ε → δ} {a : α} :
    x.mapError f = .ok a ↔ x = .ok a := by
  cases x with
  | error e => constructor <;> intro h <;> cases h
  | ok b => constructor <;> intro h <;> cases h <;> rfl

theorem eq_ok_of_toOption {x : Except ε α} {a : α} (h : x.toOption = some a) : x = .ok a := by
  cases x with
  | error e => cases h
  | ok b =>
    cases h
    rfl

/-- What a stage comes to from a state, and the state it leaves. -/
def outcome (m : ExceptT ε (StateM σ) α) (s : σ) : Except ε α × σ := m s

/-- A stage succeeds from the state `s` with the value `a` and leaves the state `t`. -/
def Runs (m : ExceptT ε (StateM σ) α) (s : σ) (a : α) (t : σ) : Prop := outcome m s = (.ok a, t)

instance [DecidableEq σ] [DecidableEq α] (m : ExceptT ε (StateM σ) α) (s : σ) (a : α) (t : σ) :
    Decidable (Runs m s a t) :=
  match h : outcome m s with
  | (.ok b, u) => decidable_of_iff (b = a ∧ u = t) (by simp [Runs, h])
  | (.error _, _) => .isFalse (by simp [Runs, h])

theorem outcome_bind (m : ExceptT ε (StateM σ) α) (f : α → ExceptT ε (StateM σ) β) (s : σ) :
    outcome (m >>= f) s = match outcome m s with
      | (.ok a, t) => outcome (f a) t
      | (.error e, t) => (.error e, t) := by
  unfold outcome
  simp only [bind, ExceptT.bind, ExceptT.mk, StateT.bind]
  rcases m s with ⟨e | a, t⟩ <;> rfl

theorem outcome_tryCatch (m : ExceptT ε (StateM σ) α) (f : ε → ExceptT ε (StateM σ) α) (s : σ) :
    outcome (tryCatch m f) s = match outcome m s with
      | (.ok a, t) => (.ok a, t)
      | (.error e, t) => outcome (f e) t := by
  unfold outcome
  simp only [tryCatch, tryCatchThe, MonadExceptOf.tryCatch, ExceptT.tryCatch, ExceptT.mk, bind,
    StateT.bind]
  rcases m s with ⟨e | a, t⟩ <;> rfl

theorem Runs.unique {m : ExceptT ε (StateM σ) α} {s t t' : σ} {a a' : α} (h : Runs m s a t)
    (h' : Runs m s a' t') : a' = a ∧ t' = t := by
  unfold Runs at h h'
  rw [h] at h'
  cases h'
  exact ⟨rfl, rfl⟩

@[simp] theorem runs_pure {a b : α} {s t : σ} :
    Runs (pure a : ExceptT ε (StateM σ) α) s b t ↔ b = a ∧ t = s := by
  constructor
  · intro h
    cases h
    exact ⟨rfl, rfl⟩
  · rintro ⟨rfl, rfl⟩
    rfl

@[simp] theorem runs_throw {e : ε} {s t : σ} {a : α} :
    ¬ Runs (throw e : ExceptT ε (StateM σ) α) s a t := by
  intro h
  cases h

@[simp] theorem runs_get {s a t : σ} :
    Runs (get : ExceptT ε (StateM σ) σ) s a t ↔ a = s ∧ t = s := by
  constructor
  · intro h
    cases h
    exact ⟨rfl, rfl⟩
  · rintro ⟨rfl, rfl⟩
    rfl

@[simp] theorem runs_set {s s' t : σ} {u : Unit} :
    Runs (set s' : ExceptT ε (StateM σ) Unit) s u t ↔ t = s' := by
  constructor
  · intro h
    cases h
    rfl
  · rintro rfl
    rfl

@[simp] theorem runs_modify {f : σ → σ} {s t : σ} {u : Unit} :
    Runs (modify f : ExceptT ε (StateM σ) Unit) s u t ↔ t = f s := by
  constructor
  · intro h
    cases h
    rfl
  · rintro rfl
    rfl

@[simp] theorem runs_bind {m : ExceptT ε (StateM σ) α} {f : α → ExceptT ε (StateM σ) β}
    {s u : σ} {b : β} : Runs (m >>= f) s b u ↔ ∃ a t, Runs m s a t ∧ Runs (f a) t b u := by
  unfold Runs
  rw [outcome_bind]
  rcases outcome m s with ⟨e | a, t⟩
  · simp
  · constructor
    · intro h
      exact ⟨a, t, rfl, h⟩
    · rintro ⟨a', t', h, h'⟩
      cases h
      exact h'

@[simp] theorem runs_map {m : ExceptT ε (StateM σ) α} {f : α → β} {s t : σ} {b : β} :
    Runs (f <$> m) s b t ↔ ∃ a, Runs m s a t ∧ b = f a := by
  have h : f <$> m = m >>= fun a => pure (f a) := map_eq_pure_bind f m
  rw [h, runs_bind]
  constructor
  · rintro ⟨a, r, hm, hp⟩
    obtain ⟨rfl, rfl⟩ := runs_pure.mp hp
    exact ⟨a, hm, rfl⟩
  · rintro ⟨a, hm, rfl⟩
    exact ⟨a, t, hm, runs_pure.mpr ⟨rfl, rfl⟩⟩

@[simp] theorem runs_discard {m : ExceptT ε (StateM σ) α} {s t : σ} {u : Unit} :
    Runs (discard m) s u t ↔ ∃ a, Runs m s a t := by
  have h : (discard m : ExceptT ε (StateM σ) Unit) = m >>= fun _ => pure () := rfl
  rw [h]
  simp

/-- Behind a stage that succeeds, it is up to the next. -/
theorem Runs.outcome_bind {m : ExceptT ε (StateM σ) α} {s t : σ} {a : α} (h : Runs m s a t)
    (f : α → ExceptT ε (StateM σ) β) : outcome (m >>= f) s = outcome (f a) t := by
  rw [AsmKit.outcome_bind, show outcome m s = (.ok a, t) from h]

/-- A stage whose failures are only renamed succeeds as it did. -/
@[simp] theorem runs_tryCatch_throw {m : ExceptT ε (StateM σ) α} {g : ε → ε} {s t : σ} {a : α} :
    Runs (tryCatch m fun e => throw (g e)) s a t ↔ Runs m s a t := by
  unfold Runs
  rw [outcome_tryCatch]
  rcases outcome m s with ⟨e | b, u⟩
  · simp only [Prod.mk.injEq, reduceCtorEq, false_and, iff_false]
    exact runs_throw
  · rfl

@[simp] theorem runs_forM_nil {f : α → ExceptT ε (StateM σ) Unit} {s t : σ} {u : Unit} :
    Runs (forM ([] : List α) f) s u t ↔ t = s := by
  simp

@[simp] theorem runs_forM_cons {f : α → ExceptT ε (StateM σ) Unit} {x : α} {xs : List α} {s t : σ}
    {u : Unit} : Runs (forM (x :: xs) f) s u t ↔ ∃ r, Runs (f x) s () r ∧ Runs (forM xs f) r () t := by
  rw [List.forM_cons, runs_bind]
  constructor
  · rintro ⟨_, r, hx, hxs⟩
    exact ⟨r, hx, hxs⟩
  · rintro ⟨r, hx, hxs⟩
    exact ⟨(), r, hx, hxs⟩

theorem runs_forM_append {f : α → ExceptT ε (StateM σ) Unit} {xs ys : List α} {s t : σ} :
    Runs (forM (xs ++ ys) f) s () t ↔ ∃ r, Runs (forM xs f) s () r ∧ Runs (forM ys f) r () t := by
  rw [List.forM_append, runs_bind]
  constructor
  · rintro ⟨_, r, hx, hy⟩
    exact ⟨r, hx, hy⟩
  · rintro ⟨r, hx, hy⟩
    exact ⟨(), r, hx, hy⟩

/-- A loop whose steps are loops is one loop. -/
theorem runs_forM_flatMap {f : β → ExceptT ε (StateM σ) Unit} {g : α → List β}
    {k : α → ExceptT ε (StateM σ) Unit} {xs : List α}
    (hk : ∀ x ∈ xs, ∀ s t, Runs (k x) s () t → Runs (forM (g x) f) s () t) {s t : σ}
    (h : Runs (forM xs k) s () t) : Runs (forM (xs.flatMap g) f) s () t := by
  induction xs generalizing s with
  | nil => exact h
  | cons x xs ih =>
    obtain ⟨r, hx, hxs⟩ := runs_forM_cons.mp h
    rw [List.flatMap_cons, runs_forM_append]
    refine ⟨r, hk x (List.mem_cons_self ..) s r hx, ih (fun y hy => ?_) hxs⟩
    exact hk y (List.mem_cons_of_mem _ hy)

/-- What every step of a loop does to the state, the loop does. -/
theorem runs_forM_rel {R : σ → σ → Prop} (hrefl : ∀ s, R s s)
    (htrans : ∀ {s t u}, R s t → R t u → R s u) {f : α → ExceptT ε (StateM σ) Unit}
    {xs : List α} (hf : ∀ x ∈ xs, ∀ s t, Runs (f x) s () t → R s t) {s t : σ}
    (h : Runs (forM xs f) s () t) : R s t := by
  induction xs generalizing s with
  | nil =>
    rw [runs_forM_nil.mp h]
    exact hrefl s
  | cons x xs ih =>
    obtain ⟨r, hx, hxs⟩ := runs_forM_cons.mp h
    refine htrans (hf x (List.mem_cons_self ..) s r hx) (ih (fun y hy => ?_) hxs)
    exact hf y (List.mem_cons_of_mem _ hy)

end

end AsmKit
