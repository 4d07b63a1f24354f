import AsmKit.Linker.Executable
import AsmKit.Linker.Overlap
import AsmKit.Linker.Placement
import AsmKit.Linker.Relocate

/-
  Linking as a whole: merge the symbols, give every section an address, see that none overlap and
  fill in the addresses.
-/

namespace AsmKit

namespace Linker

/-- Sections as they are now. -/
def segments (l : Linker) (refs : List SectionRef) : List Segment :=
  refs.filterMap fun ref => (l.findSection ref).map fun s => ⟨l.fileName ref.object, s⟩

/-- The memory that sections take up. -/
def spans (l : Linker) (refs : List SectionRef) : List Span :=
  (l.segments refs).map fun s => ⟨s.body.name, s.body.location, s.body.length⟩

def checkOverlap (tree : IntervalTree Span) (refs : List SectionRef) : Linking Unit := do
  liftExcept (Span.checkOverlap tree ((← get).toLinker.spans refs))

/-- Links objects in the order given. The result is their sections by address. -/
def generate (tree : IntervalTree Span) (inputs : List Nat) : Linking (List SectionRef) := do
  modify fun p => { p with inputs }
  record (.linking inputs.length)
  mergeSymbols
  checkUnresolved
  let refs ← formSections
  checkOverlap tree refs
  relocate
  record (.linked refs.length)
  return refs

/-- The linker after a stage, what came of it, and what it did. -/
structure Outcome (α : Type) where
  linker : Linker
  result : Except Error α
  log : List Event

def run {α : Type} (l : Linker) (stage : Linking α) : Outcome α :=
  let (result, p) := stage { toLinker := l }
  ⟨p.toLinker, result, p.log⟩

/-- The program that linked sections make up. -/
def executable (l : Linker) (refs : List SectionRef) : Executable := ⟨l.segments refs, l.symbols⟩

end Linker

/-- Links objects with a new linker, and tells what it did. -/
def Executable.link (tree : IntervalTree Span) (placements : Placements) (objects : List Object) :
    Except Error Executable × List Event :=
  let l : Linker := { objects, placements }
  let done := l.run (Linker.generate tree (List.range objects.length))
  (done.result.map done.linker.executable, done.log)

end AsmKit
