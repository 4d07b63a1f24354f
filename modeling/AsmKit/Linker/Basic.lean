import AsmKit.Event
import AsmKit.Object.Basic

/-
  The state of a linker: the objects it has, the placements not used so far, the order in which
  objects are linked, and what it knows of their symbols and sections.
-/

namespace AsmKit

/-- Addresses for sections, by name. -/
abbrev Placements := List (Bytes × UInt32)

/-- A section of one of the linker's objects. -/
structure SectionRef where
  object : Nat
  name : Bytes
deriving DecidableEq, Repr

structure Linker where
  objects : List Object
  /-- The placements that no section has taken. -/
  placements : Placements := []
  /-- The objects being linked, in order. An object may stand here twice. -/
  inputs : List Nat := []
  /-- The symbols that objects share. -/
  symbols : SymbolTable := {}
  /-- The sections that merged symbols stand in, by section and file name, newest first. -/
  index : List ((Bytes × Bytes) × SectionRef) := []
deriving DecidableEq, Repr

namespace Linker

/-- A linker at work. -/
structure Progress extends Linker where
  log : List Event := []
deriving DecidableEq, Repr

end Linker

/-- A stage of linking: it may fail, and keeps what it did until then. -/
abbrev Linking := ExceptT Error (StateM Linker.Progress)

namespace Linker

/-- The value of a check. -/
def liftExcept {α : Type} : Except Error α → Linking α
  | .ok a => pure a
  | .error e => throw e

def record (e : Event) : Linking Unit := modify fun p => { p with log := p.log ++ [e] }

def findSection (l : Linker) (ref : SectionRef) : Option Section :=
  l.objects[ref.object]?.bind fun obj => obj.findSection ref.name

/-- The name of an object. -/
def fileName (l : Linker) (n : Nat) : Bytes := (l.objects[n]?.map Object.name).getD []

def modifySection (ref : SectionRef) (f : Section → Section) : Linking Unit := modify fun p =>
  { p with objects := p.objects.modify ref.object fun obj => obj.modifySection ref.name f }

/-- The objects being linked, with their numbers. -/
def linkedObjects (l : Linker) : List (Nat × Object) :=
  l.inputs.filterMap fun n => l.objects[n]?.map fun obj => (n, obj)

end Linker

end AsmKit
