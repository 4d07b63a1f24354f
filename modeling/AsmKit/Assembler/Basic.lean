import AsmKit.Assembler.FirstPass
import AsmKit.Assembler.SecondPass
import AsmKit.Text.Lines

/-
  The assembler. It holds the source it read last and the object it makes of it; either pass can be
  run again on them. Where a pass stopped is not forgotten either: nothing is rolled back when a pass
  fails, and the next one enters anew.
-/

namespace AsmKit

namespace Assembler

/-- The longest line a source may have is one byte shorter. -/
def lineLimit : Nat := 1024 * 1024

/-- A source, and where the last pass over it stopped. -/
structure Job where
  source : List Bytes
  progress : Progress
deriving DecidableEq, Repr

/-- The object that is made of the source. -/
def Job.object (job : Job) : Object := job.progress.object

end Assembler

structure Assembler where
  job? : Option Assembler.Job := none
deriving DecidableEq, Repr

namespace Assembler

/-- The assembler after an action, what came of it, and what it did. -/
structure Outcome where
  assembler : Assembler
  result : Except Abort Unit
  log : List Event

/-- Runs a pass over a job. -/
def Job.run (job : Job) (pass : List Bytes → Pass Unit) : Outcome :=
  let (result, progress) := pass job.source job.progress.enter
  { assembler := { job? := some { job with progress } }, result, log := progress.log }

def firstPass (a : Assembler) : Outcome :=
  match a.job? with
  | some job => job.run FirstPass.run
  | none => ⟨a, .ok (), []⟩

def secondPass (a : Assembler) : Outcome :=
  match a.job? with
  | some job => job.run SecondPass.run
  | none => ⟨a, .error .crashed, []⟩

/-- The object being made. -/
def object? (a : Assembler) : Option Object := a.job?.map Job.object

def assembledEvents (a : Assembler) : List Event :=
  a.object?.toList.map fun obj =>
    .assembled obj.name obj.sections.length obj.symbols.size obj.relocations.size

/-- The lines of a source. -/
def readSource (source : Bytes) : Except Error (List Bytes) :=
  let lines := Lines.read lineLimit source
  if lines.overlong then .error (.plain .lineTooLong) else .ok lines.lines

/-- Takes up a source and a new object for it. Where the last pass stopped stays as it is. -/
def load (a : Assembler) (name : Bytes) (source : List Bytes) : Job :=
  match a.job? with
  | some job => { source, progress := { job.progress with object := { name } } }
  | none => { source, progress := { object := { name } } }

/-- Runs both passes over a job. -/
def Job.assemble (job : Job) : Outcome :=
  let first := job.run FirstPass.run
  match first.result with
  | .error e => { first with result := .error (e.inFile job.object.name) }
  | .ok () =>
    let second := first.assembler.secondPass
    match second.result with
    | .error e => ⟨second.assembler, .error (e.inFile job.object.name), first.log ++ second.log⟩
    | .ok () =>
      ⟨second.assembler, .ok (), first.log ++ second.log ++ second.assembler.assembledEvents⟩

/-- Reads a source and runs both passes over it. Nothing changes if it cannot be read. -/
def assemble (a : Assembler) (name source : Bytes) : Outcome :=
  match readSource source with
  | .error e => ⟨a, .error (.failed e), []⟩
  | .ok lines =>
    let done := (a.load name lines).assemble
    { done with log := .assembling name lines.length :: done.log }

/-- What `assemble` returns. -/
def Outcome.returned (done : Outcome) : Except Abort Object :=
  match done.result, done.assembler.object? with
  | .ok (), some obj => .ok obj
  | .ok (), none => .error .crashed
  | .error e, _ => .error e

end Assembler

/-- The object that a source describes, and what a new assembler does to make it. -/
def Object.assemble (name source : Bytes) : Except Abort Object × List Event :=
  let done := ({} : Assembler).assemble name source
  (done.returned, done.log)

end AsmKit
