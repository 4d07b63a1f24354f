import AsmKit.Proofs.Failure

/-
  The lines of a source as both passes go through them. `SourceLine.readAll` reads a source up to
  its end; a pass that succeeds does its step on each of these lines in turn (`runs_eachLine`), so
  that what a pass does can be proved by induction on lines that are read already. `Pass.stateAt`
  is the state in which a pass comes to a line, and a pass that fails does so at one (`fails_eachLine`).
-/

namespace AsmKit

theorem Token.ofLexeme_renumber {n : Int} {s : Bytes} {t : Token} (h : ofLexeme n s = .ok t)
    (m : Int) : ofLexeme m s = .ok t := by
  unfold ofLexeme at h ⊢
  split
  · next hkind =>
    rw [hkind] at h
    cases h
  · next hkind =>
    split at h
    · cases h
    · exact h

theorem Token.mapM_renumber {n : Int} {lexemes : List Bytes} {tokens : List Token}
    (h : lexemes.mapM (ofLexeme n) = .ok tokens) (m : Int) :
    lexemes.mapM (ofLexeme m) = .ok tokens := by
  induction lexemes generalizing tokens with
  | nil => exact h
  | cons lexeme rest ih =>
    rw [List.mapM_cons] at h ⊢
    obtain ⟨t, ht, h⟩ := except_bind_eq_ok.mp h
    obtain ⟨ts, hts, h⟩ := except_bind_eq_ok.mp h
    rw [ofLexeme_renumber ht m, ih hts]
    exact h

theorem SourceLine.read_eq_ok_iff {number : Nat} {raw : Bytes} {l : SourceLine} :
    read number raw = .ok l ↔ ∃ tokens,
      Token.ofLine number (Lexeme.stripComment raw) = .ok tokens ∧ ofTokens tokens = .ok l := by
  unfold read
  rcases Token.ofLine number (Lexeme.stripComment raw) with e | tokens
  · simp
  · simp [mapError_eq_ok]

/-- What a line says does not depend on its number. -/
theorem SourceLine.read_renumber {n : Nat} {raw : Bytes} {l : SourceLine} (h : read n raw = .ok l)
    (m : Nat) : read m raw = .ok l := by
  obtain ⟨tokens, htokens, hl⟩ := read_eq_ok_iff.mp h
  exact read_eq_ok_iff.mpr ⟨tokens, Token.mapM_renumber htokens m, hl⟩

/-- The lines of a source up to its end, of which the first has the given number. -/
def SourceLine.readAll (number : Nat) : List Bytes → Except Error (List SourceLine)
  | [] => .ok []
  | raw :: rest =>
    match SourceLine.read number raw with
    | .error e => .error e
    | .ok l =>
      if l.statement = .stop then .ok [l]
      else match readAll (number + 1) rest with
        | .error e => .error e
        | .ok ls => .ok (l :: ls)

/-- A source is read line by line, and not beyond its end. -/
theorem SourceLine.readAll_cons_eq_ok_iff {number : Nat} {raw : Bytes} {rest : List Bytes}
    {ls : List SourceLine} : readAll number (raw :: rest) = .ok ls ↔
      ∃ l, read number raw = .ok l ∧ (l.statement = .stop ∧ ls = [l] ∨
        l.statement ≠ .stop ∧ ∃ ls', readAll (number + 1) rest = .ok ls' ∧ ls = l :: ls') := by
  rw [readAll]
  rcases read number raw with e | l
  · simp
  · by_cases hstop : l.statement = .stop
    · simp [hstop, eq_comm]
    · rcases readAll (number + 1) rest with e | ls' <;> simp [hstop, @eq_comm _ _ ls]

theorem SourceLine.readAll_stop {number : Nat} {raw : Bytes} {l : SourceLine}
    (hl : read number raw = .ok l) (hstop : l.statement = .stop) (rest : List Bytes) :
    readAll number (raw :: rest) = .ok [l] :=
  readAll_cons_eq_ok_iff.mpr ⟨l, hl, .inl ⟨hstop, rfl⟩⟩

theorem SourceLine.readAll_cons {number : Nat} {raw : Bytes} {rest : List Bytes} {l : SourceLine}
    {ls : List SourceLine} (hl : read number raw = .ok l) (hgo : l.statement ≠ .stop)
    (hrest : readAll (number + 1) rest = .ok ls) : readAll number (raw :: rest) = .ok (l :: ls) :=
  readAll_cons_eq_ok_iff.mpr ⟨l, hl, .inr ⟨hgo, ls, hrest, rfl⟩⟩

theorem SourceLine.readAll_renumber {n : Nat} {source : List Bytes} {ls : List SourceLine}
    (h : readAll n source = .ok ls) (m : Nat) : readAll m source = .ok ls := by
  induction source generalizing n m ls with
  | nil => exact h
  | cons raw rest ih =>
    obtain ⟨l, hl, hls⟩ := readAll_cons_eq_ok_iff.mp h
    refine readAll_cons_eq_ok_iff.mpr ⟨l, read_renumber hl m, ?_⟩
    obtain hls | ⟨hstop, ls', hrest, rfl⟩ := hls
    · exact .inl hls
    · exact .inr ⟨hstop, ls', ih hrest (m + 1), rfl⟩

/-- A line that a source is read up to is read. -/
theorem SourceLine.exists_of_readAll {number n : Nat} {source : List Bytes} {ls : List SourceLine}
    (h : readAll number source = .ok ls) (hgo : ∀ l ∈ ls.take n, l.statement ≠ .stop)
    {raw : Bytes} (hraw : source[n]? = some raw) :
    ∃ l, SourceLine.read (number + n) raw = .ok l ∧ ls[n]? = some l := by
  induction source generalizing number n ls with
  | nil => cases hraw
  | cons first rest ih =>
    obtain ⟨l, hread, hls⟩ := readAll_cons_eq_ok_iff.mp h
    cases n with
    | zero =>
      cases hraw
      refine ⟨l, hread, ?_⟩
      obtain ⟨-, rfl⟩ | ⟨-, _, -, rfl⟩ := hls
      · rfl
      · rfl
    | succ n =>
      obtain ⟨hstop, rfl⟩ | ⟨-, ls', hrest, rfl⟩ := hls
      · exact absurd hstop (hgo l (by simp))
      · have hnumber : number + (n + 1) = number + 1 + n := by omega
        rw [hnumber]
        refine ih hrest (fun l hl => hgo l ?_) hraw
        rw [List.take_succ_cons]
        exact List.mem_cons_of_mem _ hl

namespace Pass

/-- Does a step for each of some lines, of which the first has the given number. -/
def steps (step : Nat → SourceLine → Pass Unit) (number : Nat) : List SourceLine → Pass Unit
  | [] => pure ()
  | l :: ls => do
    step number l
    steps step (number + 1) ls

/-- The state in which a pass comes to the line `n`, counted from zero, if it gets there. -/
def stateAt (step : Nat → SourceLine → Pass Unit) (number : Nat) (p : Progress) :
    List Bytes → Nat → Option Progress
  | _, 0 => some p
  | [], _ + 1 => none
  | raw :: rest, n + 1 =>
    match SourceLine.read number raw with
    | .error _ => none
    | .ok l =>
      match outcome (step number l) p with
      | (.error _, _) => none
      | (.ok (), q) => if l.statement = .stop then none else stateAt step (number + 1) q rest n

variable {step : Nat → SourceLine → Pass Unit} {p q : Progress}

theorem runs_steps_append {number : Nat} {front back : List SourceLine} :
    Runs (steps step number (front ++ back)) p () q ↔
      ∃ r, Runs (steps step number front) p () r ∧
        Runs (steps step (number + front.length) back) r () q := by
  induction front generalizing number p with
  | nil => simp [steps]
  | cons l ls ih =>
    simp only [List.cons_append, steps, runs_bind, ih, List.length_cons]
    have e : number + 1 + ls.length = number + (ls.length + 1) := by omega
    rw [e]
    constructor
    · rintro ⟨u, s, hs, r, hr, hq⟩
      exact ⟨r, ⟨u, s, hs, hr⟩, hq⟩
    · rintro ⟨r, ⟨u, s, hs, hr⟩, hq⟩
      exact ⟨u, s, hs, r, hr, hq⟩

theorem eachLine_cons {number : Nat} {raw : Bytes} {l : SourceLine}
    (hread : SourceLine.read number raw = .ok l) (hstop : l.statement ≠ .stop) (rest : List Bytes) :
    eachLine step number (raw :: rest) = (do step number l; eachLine step (number + 1) rest) := by
  rw [eachLine, hread]
  dsimp only
  rw [if_neg hstop]

/-- A pass that succeeds has read the source to its end and done its step on every line. What it
records at the end is all that comes on top. -/
theorem runs_eachLine {number : Nat} {source : List Bytes}
    (h : Runs (eachLine step number source) p () q) :
    ∃ ls r, SourceLine.readAll number source = .ok ls ∧ Runs (steps step number ls) p () r ∧
      q = { r with log := q.log } := by
  induction source generalizing number p with
  | nil =>
    obtain ⟨-, rfl⟩ := runs_pure.mp h
    exact ⟨[], q, rfl, runs_pure.mpr ⟨rfl, rfl⟩, rfl⟩
  | cons raw rest ih =>
    unfold eachLine at h
    unfold SourceLine.readAll
    rcases hread : SourceLine.read number raw with e | l
    · rw [hread] at h
      exact absurd h runs_throw
    · rw [hread] at h
      obtain ⟨_, s, hs, h⟩ := runs_bind.mp h
      dsimp only
      split at h
      · next hstop =>
        rw [if_pos hstop]
        simp only [record, runs_bind, runs_get, runs_modify] at h
        obtain ⟨_, _, ⟨rfl, rfl⟩, rfl⟩ := h
        exact ⟨[l], _, rfl, by simpa [steps] using hs, rfl⟩
      · next hstop =>
        rw [if_neg hstop]
        obtain ⟨ls, r, hls, hr, hq⟩ := ih h
        rw [hls]
        exact ⟨l :: ls, r, rfl, runs_bind.mpr ⟨(), s, hs, hr⟩, hq⟩

/-- And a pass succeeds on a source that is read to its end if its steps do. -/
theorem runs_eachLine_of_steps {number : Nat} {source : List Bytes} {ls : List SourceLine}
    (hls : SourceLine.readAll number source = .ok ls) (h : Runs (steps step number ls) p () q) :
    ∃ log, Runs (eachLine step number source) p () { q with log } := by
  induction source generalizing number p ls with
  | nil =>
    cases hls
    exact ⟨q.log, h⟩
  | cons raw rest ih =>
    obtain ⟨l, hread, ⟨hstop, rfl⟩ | ⟨hstop, ls', hrest, rfl⟩⟩ :=
      SourceLine.readAll_cons_eq_ok_iff.mp hls
    · obtain ⟨_, r, hl, hr⟩ := runs_bind.mp h
      obtain ⟨-, rfl⟩ := runs_pure.mp hr
      unfold eachLine
      rw [hread]
      dsimp only
      rw [if_pos hstop]
      refine ⟨q.log ++ [.endReached q.object.name number], runs_bind.mpr ⟨(), q, hl, ?_⟩⟩
      exact runs_bind.mpr ⟨q, q, runs_get.mpr ⟨rfl, rfl⟩, runs_modify.mpr rfl⟩
    · obtain ⟨_, r, hl, hr⟩ := runs_bind.mp h
      obtain ⟨log, hlog⟩ := ih hrest hr
      rw [eachLine_cons hread hstop]
      exact ⟨log, runs_bind.mpr ⟨(), r, hl, hlog⟩⟩

/-- A pass comes to a line behind the first by its step on the first. -/
theorem stateAt_succ_eq_some_iff {number n : Nat} {raw : Bytes} {rest : List Bytes} :
    stateAt step number p (raw :: rest) (n + 1) = some q ↔
      ∃ l r, SourceLine.read number raw = .ok l ∧ Runs (step number l) p () r ∧
        l.statement ≠ .stop ∧ stateAt step (number + 1) r rest n = some q := by
  rw [stateAt]
  rcases SourceLine.read number raw with e | l
  · simp
  · unfold Runs
    dsimp only
    rcases hl : outcome (step number l) p with ⟨_ | _, r⟩ <;> simp [hl]

/-- A pass that fails has come to a line that cannot be read, or on which its step fails. -/
theorem fails_eachLine {number : Nat} {source : List Bytes} {e : Abort}
    (h : Fails (eachLine step number source) p e q) :
    ∃ n raw r, source[n]? = some raw ∧ stateAt step number p source n = some r ∧
      ((∃ err, SourceLine.read (number + n) raw = .error err ∧ e = .failed err ∧ q = r) ∨
        ∃ l, SourceLine.read (number + n) raw = .ok l ∧ Fails (step (number + n) l) r e q) := by
  induction source generalizing number p with
  | nil => exact absurd h fails_pure
  | cons raw rest ih =>
    unfold eachLine at h
    rcases hread : SourceLine.read number raw with err | l
    · rw [hread] at h
      obtain ⟨rfl, rfl⟩ := fails_throw.mp h
      exact ⟨0, raw, q, rfl, rfl, .inl ⟨err, hread, rfl, rfl⟩⟩
    · rw [hread] at h
      obtain h | ⟨_, s, hs, h⟩ := fails_bind.mp h
      · exact ⟨0, raw, p, rfl, rfl, .inr ⟨l, hread, h⟩⟩
      · split at h
        · simp only [record, fails_bind, fails_get, fails_modify, and_false, exists_false,
            or_self] at h
        · next hstop =>
          obtain ⟨n, raw', r, hraw, hr, hfails⟩ := ih h
          have hnumber : number + 1 + n = number + (n + 1) := by omega
          rw [hnumber] at hfails
          refine ⟨n + 1, raw', r, hraw, ?_, hfails⟩
          exact stateAt_succ_eq_some_iff.mpr ⟨l, s, hread, hs, hstop, hr⟩

/-- And it does fail there. -/
theorem fails_eachLine_of_stateAt {number n : Nat} {source : List Bytes} {r : Progress}
    {raw : Bytes} {l : SourceLine} {e : Abort} (hr : stateAt step number p source n = some r)
    (hraw : source[n]? = some raw) (hread : SourceLine.read (number + n) raw = .ok l)
    (h : Fails (step (number + n) l) r e q) : Fails (eachLine step number source) p e q := by
  induction source generalizing number p n with
  | nil => cases hraw
  | cons first rest ih =>
    cases n with
    | zero =>
      cases hraw
      cases hr
      rw [Nat.add_zero] at hread h
      rw [eachLine, hread]
      exact fails_bind.mpr (.inl h)
    | succ n =>
      obtain ⟨k, s, hk, hs, hstop, hr⟩ := stateAt_succ_eq_some_iff.mp hr
      rw [eachLine_cons hk hstop]
      have hnumber : number + (n + 1) = number + 1 + n := by omega
      rw [hnumber] at hread h
      exact fails_bind.mpr (.inr ⟨(), s, hs, ih hr hraw hread h⟩)

/-- A pass comes to line `n` when none of the lines before it ends the source and the steps on
them succeed. -/
theorem stateAt_eq_some_iff {number : Nat} {source : List Bytes} {ls : List SourceLine}
    (hls : SourceLine.readAll number source = .ok ls) {n : Nat} :
    stateAt step number p source n = some q ↔
      n ≤ ls.length ∧ (∀ l ∈ ls.take n, l.statement ≠ .stop) ∧
        Runs (steps step number (ls.take n)) p () q := by
  induction source generalizing number p ls n with
  | nil =>
    cases hls
    cases n with
    | zero => simp [stateAt, steps, eq_comm]
    | succ n => simp [stateAt]
  | cons raw rest ih =>
    cases n with
    | zero => simp [stateAt, steps, eq_comm]
    | succ n =>
      obtain ⟨l, hread, hls⟩ := SourceLine.readAll_cons_eq_ok_iff.mp hls
      rw [stateAt_succ_eq_some_iff, hread]
      obtain ⟨hstop, rfl⟩ | ⟨hstop, ls', hrest, rfl⟩ := hls
      · simp [hstop]
      · simp only [Except.ok.injEq, List.length_cons, Nat.add_le_add_iff_right,
          List.take_succ_cons, List.mem_cons, forall_eq_or_imp, hstop, ne_eq, not_false_eq_true,
          true_and, steps, runs_bind, ih hrest]
        constructor
        · rintro ⟨_, r, rfl, hl, hstop, hn, hls, hq⟩
          exact ⟨hn, hls, (), r, hl, hq⟩
        · rintro ⟨hn, hls, _, r, hl, hq⟩
          exact ⟨l, r, rfl, hl, hstop, hn, hls, hq⟩

end Pass

end AsmKit
