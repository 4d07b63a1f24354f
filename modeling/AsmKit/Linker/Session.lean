import AsmKit.Linker.Generate

/-
  A linker in use, stage by stage. Stages work on the objects that were linked last, and the check
  for overlaps on the sections that were placed last.
-/

namespace AsmKit

namespace Linker

inductive Command where
  | generate (inputs : List Nat)
  | mergeSymbols
  | checkUnresolved
  | formSections
  | checkOverlap
  | relocate

/-- What a command gives. -/
inductive Answer where
  | done
  | program (executable : Executable)
  | placed (segments : List Segment)

structure Session where
  linker : Linker
  /-- The sections placed last, by address. -/
  formed : List SectionRef := []

namespace Session

/-- Runs a stage that has nothing to give. -/
def act (s : Session) (stage : Linking Unit) : Session × Outcome Answer :=
  let out := s.linker.run stage
  ({ s with linker := out.linker }, ⟨out.linker, out.result.map fun _ => .done, out.log⟩)

/-- Runs a stage that places sections. -/
def form (s : Session) (stage : Linking (List SectionRef))
    (answer : Linker → List SectionRef → Answer) : Session × Outcome Answer :=
  let out := s.linker.run stage
  match out.result with
  | .ok refs => (⟨out.linker, refs⟩, ⟨out.linker, .ok (answer out.linker refs), out.log⟩)
  | .error e => ({ s with linker := out.linker }, ⟨out.linker, .error e, out.log⟩)

def step (tree : IntervalTree Span) (s : Session) : Command → Session × Outcome Answer
  | .generate inputs =>
    s.form (Linker.generate tree inputs) fun l refs => .program (l.executable refs)
  | .formSections => s.form Linker.formSections fun l refs => .placed (l.segments refs)
  | .mergeSymbols => s.act Linker.mergeSymbols
  | .checkUnresolved => s.act Linker.checkUnresolved
  | .checkOverlap => s.act (Linker.checkOverlap tree s.formed)
  | .relocate => s.act Linker.relocate

end Session

end Linker

end AsmKit
