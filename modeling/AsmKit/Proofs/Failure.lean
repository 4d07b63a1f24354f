import AsmKit.Proofs.Stage

/-
  Stages that fail. `Fails m s e t` says that `m`, started in `s`, fails with the error `e` and
  leaves `t`: a failure keeps what was done before it. A stage either runs or fails, and a composite
  stage fails where one of its parts does. `Observes R E m` is what can be said of a stage whatever
  comes of it: states are only changed along `R`, and errors are among `E`.
-/

namespace AsmKit

section

variable {ε σ α β : Type}

/-- A stage fails from the state `s` with the error `e` and leaves the state `t`. -/
def Fails (m : ExceptT ε (StateM σ) α) (s : σ) (e : ε) (t : σ) : Prop := outcome m s = (.error e, t)

instance [DecidableEq ε] [DecidableEq σ] (m : ExceptT ε (StateM σ) α) (s : σ) (e : ε) (t : σ) :
    Decidable (Fails m s e t) :=
  match h : outcome m s with
  | (.error e', u) => decidable_of_iff (e' = e ∧ u = t) (by simp [Fails, h])
  | (.ok _, _) => .isFalse (by simp [Fails, h])

theorem runs_or_fails (m : ExceptT ε (StateM σ) α) (s : σ) :
    (∃ a t, Runs m s a t) ∨ ∃ e t, Fails m s e t := by
  rcases h : outcome m s with ⟨e | a, t⟩
  · exact .inr ⟨e, t, h⟩
  · exact .inl ⟨a, t, h⟩

theorem Fails.not_runs {m : ExceptT ε (StateM σ) α} {s t t' : σ} {e : ε} {a : α}
    (h : Fails m s e t) : ¬ Runs m s a t' := by
  intro h'
  unfold Runs at h'
  unfold Fails at h
  rw [h] at h'
  cases h'

@[simp] theorem fails_pure {a : α} {s t : σ} {e : ε} :
    ¬ Fails (pure a : ExceptT ε (StateM σ) α) s e t := by
  intro h
  cases h

@[simp] theorem fails_throw {e e' : ε} {s t : σ} :
    Fails (throw e : ExceptT ε (StateM σ) α) s e' t ↔ e' = e ∧ t = s := by
  constructor
  · intro h
    cases h
    exact ⟨rfl, rfl⟩
  · intro h
    rw [h.1, h.2]
    rfl

@[simp] theorem fails_get {s t : σ} {e : ε} : ¬ Fails (get : ExceptT ε (StateM σ) σ) s e t := by
  intro h
  cases h

@[simp] theorem fails_set {s s' t : σ} {e : ε} :
    ¬ Fails (set s' : ExceptT ε (StateM σ) Unit) s e t := by
  intro h
  cases h

@[simp] theorem fails_modify {f : σ → σ} {s t : σ} {e : ε} :
    ¬ Fails (modify f : ExceptT ε (StateM σ) Unit) s e t := by
  intro h
  cases h

/-- A stage of two parts fails where one of them does. -/
@[simp] theorem fails_bind {m : ExceptT ε (StateM σ) α} {f : α → ExceptT ε (StateM σ) β} {s u : σ}
    {e : ε} : Fails (m >>= f) s e u ↔
      Fails m s e u ∨ ∃ a t, Runs m s a t ∧ Fails (f a) t e u := by
  unfold Fails Runs
  rw [outcome_bind]
  rcases outcome m s with ⟨e' | a, t⟩
  · simp
  · constructor
    · intro h
      exact .inr ⟨a, t, rfl, h⟩
    · intro h
      obtain h | ⟨a', t', h, h'⟩ := h
      · cases h
      · cases h
        exact h'

@[simp] theorem fails_tryCatch_throw {m : ExceptT ε (StateM σ) α} {g : ε → ε} {s t : σ} {e : ε} :
    Fails (tryCatch m fun e => throw (g e)) s e t ↔ ∃ e', Fails m s e' t ∧ e = g e' := by
  unfold Fails
  rw [outcome_tryCatch]
  rcases outcome m s with ⟨e' | a, u⟩
  · have h : outcome (throw (g e') : ExceptT ε (StateM σ) α) u = (.error e, t) ↔
        e = g e' ∧ t = u := fails_throw
    simp only [h, Prod.mk.injEq, Except.error.injEq]
    constructor
    · intro h
      exact ⟨e', ⟨rfl, h.2.symm⟩, h.1⟩
    · intro h
      obtain ⟨_, ⟨rfl, rfl⟩, rfl⟩ := h
      exact ⟨rfl, rfl⟩
  · simp

/-- A loop fails at one of its steps, with all steps before it done. -/
theorem fails_forM {f : α → ExceptT ε (StateM σ) Unit} {xs : List α} {s t : σ} {e : ε}
    (h : Fails (forM xs f) s e t) :
    ∃ front x back r, xs = front ++ x :: back ∧ Runs (forM front f) s () r ∧ Fails (f x) r e t := by
  induction xs generalizing s with
  | nil => exact absurd h fails_pure
  | cons x xs ih =>
    rw [List.forM_cons, fails_bind] at h
    obtain h | ⟨_, u, hx, hxs⟩ := h
    · exact ⟨[], x, xs, s, rfl, runs_forM_nil.mpr rfl, h⟩
    · obtain ⟨front, y, back, r, rfl, hfront, hy⟩ := ih hxs
      exact ⟨x :: front, y, back, r, rfl, runs_forM_cons.mpr ⟨u, hx, hfront⟩, hy⟩

/-! ## Whatever comes of a stage -/

/-- The states that a stage leaves are related to those it starts from, whether it succeeds or not,
and its errors satisfy a condition. -/
structure Observes (R : σ → σ → Prop) (E : ε → Prop) (m : ExceptT ε (StateM σ) α) : Prop where
  runs : ∀ s a t, Runs m s a t → R s t
  fails : ∀ s e t, Fails m s e t → R s t ∧ E e

variable {R : σ → σ → Prop} {E : ε → Prop} {m : ExceptT ε (StateM σ) α}

/-- A stage that only reads the state, or does nothing. -/
theorem observes_of_runs (hruns : ∀ s a t, Runs m s a t → R s t) (hfails : ∀ s e t, ¬ Fails m s e t) :
    Observes R E m :=
  ⟨hruns, fun s e t h => absurd h (hfails s e t)⟩

theorem observes_pure (hrefl : ∀ s, R s s) (a : α) :
    Observes R E (pure a : ExceptT ε (StateM σ) α) := by
  refine observes_of_runs (fun s b t h => ?_) fun _ _ _ => fails_pure
  rw [(runs_pure.mp h).2]
  exact hrefl s

theorem observes_throw (hrefl : ∀ s, R s s) {e : ε} (he : E e) :
    Observes R E (throw e : ExceptT ε (StateM σ) α) := by
  refine ⟨fun _ _ _ h => absurd h runs_throw, fun s e' t h => ?_⟩
  obtain ⟨rfl, rfl⟩ := fails_throw.mp h
  exact ⟨hrefl t, he⟩

theorem observes_get (hrefl : ∀ s, R s s) : Observes R E (get : ExceptT ε (StateM σ) σ) := by
  refine observes_of_runs (fun s _ t h => ?_) fun _ _ _ => fails_get
  rw [(runs_get.mp h).2]
  exact hrefl s

theorem observes_modify {f : σ → σ} (hf : ∀ s, R s (f s)) :
    Observes R E (modify f : ExceptT ε (StateM σ) Unit) := by
  refine observes_of_runs (fun s _ t h => ?_) fun _ _ _ => fails_modify
  rw [runs_modify.mp h]
  exact hf s

theorem observes_set {s' : σ} (h : ∀ s, R s s') :
    Observes R E (set s' : ExceptT ε (StateM σ) Unit) := by
  refine observes_of_runs (fun s _ t ht => ?_) fun _ _ _ => fails_set
  rw [runs_set.mp ht]
  exact h s

theorem Observes.bind (htrans : ∀ s t u, R s t → R t u → R s u)
    {f : α → ExceptT ε (StateM σ) β} (hm : Observes R E m) (hf : ∀ a, Observes R E (f a)) :
    Observes R E (m >>= f) := by
  refine ⟨fun s b u h => ?_, fun s e u h => ?_⟩
  · obtain ⟨a, t, hmt, hfu⟩ := runs_bind.mp h
    exact htrans s t u (hm.runs s a t hmt) ((hf a).runs t b u hfu)
  · obtain h | ⟨a, t, hmt, hfu⟩ := fails_bind.mp h
    · exact hm.fails s e u h
    · obtain ⟨htu, he⟩ := (hf a).fails t e u hfu
      exact ⟨htrans s t u (hm.runs s a t hmt) htu, he⟩

theorem observes_forM (hrefl : ∀ s, R s s) (htrans : ∀ s t u, R s t → R t u → R s u)
    {f : α → ExceptT ε (StateM σ) Unit} {xs : List α} (hf : ∀ x ∈ xs, Observes R E (f x)) :
    Observes R E (forM xs f) := by
  induction xs with
  | nil => exact observes_pure hrefl ()
  | cons x xs ih =>
    rw [List.forM_cons]
    refine (hf x List.mem_cons_self).bind htrans fun _ => ih fun y hy => ?_
    exact hf y (List.mem_cons_of_mem x hy)

end

end AsmKit
