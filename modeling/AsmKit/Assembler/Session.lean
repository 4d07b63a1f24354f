import AsmKit.Assembler.Basic

/-
  An assembler in use. The object it returned last stays the one it works on until it has read
  another source, so running a pass again changes that object too.
-/

namespace AsmKit

namespace Assembler

/-- The object returned last, if any. -/
inductive Returned where
  | nothing
  /-- The object that the assembler still works on. -/
  | owned
  /-- An object that it has left behind. -/
  | released (object : Object)
deriving DecidableEq, Repr

structure Session where
  assembler : Assembler := {}
  returned : Returned := .nothing

inductive Command where
  | assemble (name source : Bytes)
  | firstPass
  | secondPass

namespace Session

/-- The object returned last, as it is now. -/
def object? (s : Session) : Option Object :=
  match s.returned with
  | .nothing => none
  | .owned => s.assembler.object?
  | .released object => some object

/-- The object returned last, once the assembler has gone on to another source. -/
def release (s : Session) : Returned :=
  match s.object? with
  | some object => .released object
  | none => .nothing

/-- Whose object a source read by `assemble` leaves returned. -/
def returnedAfter (s : Session) (source : Bytes) (result : Except Abort Unit) : Returned :=
  match readSource source, result with
  | .error _, _ => s.returned
  | .ok _, .ok () => .owned
  | .ok _, .error _ => s.release

def step (s : Session) : Command → Session × Outcome
  | .assemble name source =>
    let done := s.assembler.assemble name source
    ({ assembler := done.assembler, returned := s.returnedAfter source done.result }, done)
  | .firstPass =>
    let done := s.assembler.firstPass
    ({ s with assembler := done.assembler }, done)
  | .secondPass =>
    let done := s.assembler.secondPass
    ({ s with assembler := done.assembler }, done)

/-- A session behind some commands, whatever came of them. -/
def after (s : Session) (commands : List Command) : Session :=
  commands.foldl (fun s c => (s.step c).1) s

end Session

end Assembler

end AsmKit
