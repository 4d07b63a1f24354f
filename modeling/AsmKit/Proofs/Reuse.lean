import AsmKit.Assembler.Session
import AsmKit.Proofs.Assembled

/-
  An assembler in use is as good as a new one. Nothing is rolled back when a pass fails, so the
  section, the counter and the object of an aborted run are still there when the next source is taken
  up. But a source brings its own object and its own lines, and each pass resets the rest before it
  reads any of it.
-/

namespace AsmKit

namespace Assembler

/-- Two jobs that ask for the same. Where the last pass over them stopped may differ. -/
structure Job.Alike (job job' : Job) : Prop where
  source : job.source = job'.source
  object : job.object = job'.object

namespace Job.Alike

variable {job job' : Job}

theorem enter (h : job.Alike job') : job.progress.enter = job'.progress.enter := by
  have hobj : job.progress.object = job'.progress.object := h.object
  unfold Progress.enter
  rw [hobj]

/-- A pass makes the same of both jobs, and leaves nothing behind that tells them apart. -/
theorem run (h : job.Alike job') (pass : List Bytes → Pass Unit) : job.run pass = job'.run pass := by
  unfold Job.run
  rw [h.source, h.enter]

theorem assemble (h : job.Alike job') : job.assemble = job'.assemble := by
  unfold Job.assemble
  rw [h.run, h.object]

end Job.Alike

theorem alike_load (a b : Assembler) (name : Bytes) (lines : List Bytes) :
    (a.load name lines).Alike (b.load name lines) := by
  unfold load
  constructor
  · split <;> split <;> rfl
  · split <;> split <;> rfl

/-- A source that can be read makes one assembler the same as any other. -/
theorem assemble_eq {source : Bytes} {lines : List Bytes} (h : readSource source = .ok lines)
    (a b : Assembler) (name : Bytes) : a.assemble name source = b.assemble name source := by
  unfold assemble
  rw [h]
  dsimp only
  rw [(alike_load a b name lines).assemble]

/-- One that cannot be read changes nothing. -/
theorem assemble_unreadable {source : Bytes} {e : Error} (h : readSource source = .error e)
    (a : Assembler) (name : Bytes) : a.assemble name source = ⟨a, .error (.failed e), []⟩ := by
  unfold assemble
  rw [h]

/-- What comes of a source does not depend on the assembler that is given it. -/
theorem assemble_answers (a b : Assembler) (name source : Bytes) :
    (a.assemble name source).returned = (b.assemble name source).returned ∧
      (a.assemble name source).result = (b.assemble name source).result ∧
      (a.assemble name source).log = (b.assemble name source).log := by
  rcases h : readSource source with e | lines
  · rw [assemble_unreadable h a, assemble_unreadable h b]
    exact ⟨rfl, rfl, rfl⟩
  · rw [assemble_eq h a b]
    exact ⟨rfl, rfl, rfl⟩

theorem Job.object?_run (job : Job) (pass : List Bytes → Pass Unit) :
    ∃ obj, (job.run pass).assembler.object? = some obj := ⟨_, rfl⟩

theorem Job.object?_assemble (job : Job) : ∃ obj, job.assemble.assembler.object? = some obj := by
  unfold Job.assemble
  dsimp only
  split
  · exact job.object?_run FirstPass.run
  · -- the second pass runs over what the first one left, which is a job again
    split
    · exact Job.object?_run _ SecondPass.run
    · exact Job.object?_run _ SecondPass.run

/-- An assembler that was given a source and succeeded has an object to return. -/
theorem result_assemble (a : Assembler) (name source : Bytes) :
    (a.assemble name source).result = (a.assemble name source).returned.map fun _ => () := by
  rcases h : readSource source with e | lines
  · rw [assemble_unreadable h a]
    rfl
  · have hdone : (a.assemble name source).assembler = (a.load name lines).assemble.assembler := by
      unfold assemble
      rw [h]
    obtain ⟨obj, hobj⟩ := (a.load name lines).object?_assemble
    rw [← hdone] at hobj
    unfold Outcome.returned
    rw [hobj]
    rcases (a.assemble name source).result with e | u <;> rfl

/-- The session then returns it. -/
theorem Session.object?_step {s : Session} {name source : Bytes} {obj : Object}
    (h : (s.step (.assemble name source)).2.returned = .ok obj) :
    (s.step (.assemble name source)).1.object? = some obj := by
  have hdone : (s.assembler.assemble name source).returned = .ok obj := h
  obtain ⟨hresult, hobj⟩ := Outcome.returned_eq_ok.mp hdone
  rcases hread : readSource source with e | lines
  · rw [assemble_unreadable hread] at hresult
    cases hresult
  · have howned : s.returnedAfter source (s.assembler.assemble name source).result = .owned := by
      unfold returnedAfter
      rw [hread, hresult]
    unfold step object?
    dsimp only
    rw [howned]
    exact hobj

end Assembler

open Assembler in
/-- Whatever was done with an assembler before, and whether it succeeded, failed or crashed: given a
source it returns what a new assembler returns, and says the same on the way. -/
theorem assembler_is_reusable (history : List Assembler.Command) (name source : Bytes) :
    ∃ s done, (({} : Session).after history).step (.assemble name source) = (s, done) ∧
      (done.returned, done.log) = Object.assemble name source ∧
      done.result = (Object.assemble name source).1.map (fun _ => ()) ∧
      ∀ obj, (Object.assemble name source).1 = .ok obj → s.object? = some obj := by
  obtain ⟨hreturned, hresult, hlog⟩ :=
    assemble_answers (({} : Session).after history).assembler {} name source
  refine ⟨_, _, rfl, Prod.ext hreturned hlog, ?_, ?_⟩
  · exact hresult.trans (result_assemble {} name source)
  · intro obj hobj
    exact Session.object?_step (hreturned.trans hobj)

end AsmKit
