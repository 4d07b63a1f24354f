import AsmKit.Object.Relocation
import AsmKit.Object.Section
import AsmKit.Object.Symbol

/-
  An object module: symbols, relocations and sections under a name. Section names are unique, and
  sections stay in the order they were added.
-/

namespace AsmKit

structure Object where
  name : Bytes
  symbols : SymbolTable := {}
  relocations : RelocationTable := {}
  sections : List Section := []
deriving DecidableEq, Repr

namespace Object

def findSection (obj : Object) (name : Bytes) : Option Section :=
  obj.sections.find? fun s => s.name == name

def addSection (obj : Object) (name : Bytes) : Except Error Object :=
  if (obj.findSection name).isSome then .error (.about .sectionRedefined name)
  else .ok { obj with sections := obj.sections ++ [{ name }] }

/-- Changes the section of a name, which keeps its name. -/
def modifySection (obj : Object) (name : Bytes) (f : Section → Section) : Object :=
  { obj with sections := obj.sections.map fun s => if s.name = name then { f s with name } else s }

/-- Puts a word into the section of a name; without such a section there is no result. -/
def patchSection (obj : Object) (name : Bytes) (offset w : UInt32) :
    Option (Except Error Object) :=
  (obj.findSection name).map fun s =>
    (s.patch offset w).map fun patched => obj.modifySection name fun _ => patched

def addRelocation (obj : Object) (r : Relocation) : Object :=
  { obj with relocations := obj.relocations.add r }

end Object

end AsmKit
