import AsmKit.Event
import AsmKit.Object.Basic
import AsmKit.Source.Line

/-
  A pass over the source: a step for each line, on a state that is kept when a step fails. A pass
  ends at `.end` or behind the last line.
-/

namespace AsmKit

open Error (Complaint Kind)

/-- Why a pass stopped early. -/
inductive Abort where
  | failed (error : Error)
  /-- A statement had nothing to work on, which no pass over a checked source comes to. -/
  | crashed
deriving DecidableEq, Repr

namespace Abort

def inFile (file : Bytes) : Abort → Abort
  | .failed e => .failed (e.inFile file)
  | .crashed => .crashed

end Abort

/-- Where a pass stands. -/
structure Progress where
  object : Object
  /-- The section that statements belong to, at first none that can be written to. -/
  sectionName : Bytes := undefinedSection
  /-- Pass one: the length of that section so far. -/
  counter : UInt32 := 0
  /-- Pass two: whether that section is open. -/
  isOpen : Bool := false
  log : List Event := []
deriving DecidableEq, Repr

/-- A pass begins in no section and at the start of it, wherever the one before it stopped. -/
def Progress.enter (p : Progress) : Progress :=
  { p with sectionName := undefinedSection, counter := 0, isOpen := false, log := [] }

abbrev Pass := ExceptT Abort (StateM Progress)

namespace Pass

def complain {α : Type} (line : Nat) (c : Complaint) : Pass α :=
  throw (.failed (c.onLine line))

/-- The value of a check that belongs to a line. -/
def check {α : Type} (line : Nat) : Except Complaint α → Pass α
  | .ok a => pure a
  | .error c => complain line c

def record (e : Event) : Pass Unit := modify fun p => { p with log := p.log ++ [e] }

/-- Does a step for each line, of which the first has the given number, up to the end of the
source. -/
def eachLine (step : Nat → SourceLine → Pass Unit) (number : Nat) : List Bytes → Pass Unit
  | [] => pure ()
  | raw :: rest =>
    match SourceLine.read number raw with
    | .error e => throw (.failed e)
    | .ok line => do
      step number line
      if line.statement = .stop then
        record (.endReached (← get).object.name number)
      else
        eachLine step (number + 1) rest

end Pass

end AsmKit
