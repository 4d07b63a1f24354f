import AsmKit.Linker.Merge

/-
  Filling in addresses. A symbol that an object defines itself means that definition there; any
  other means the shared one.
-/

namespace AsmKit

namespace Linker

/-- The section that a shared symbol stands in. -/
def owner (l : Linker) (sym : Symbol) : Option Section :=
  (l.index.lookup (sym.sectionName, sym.file)).bind l.findSection

/-- The address of a symbol as an object sees it. -/
def resolve (l : Linker) (obj : Object) (name : Bytes) : Except Error UInt32 :=
  match (obj.symbols.get? name).filter Symbol.isDefined with
  | some sym =>
    match obj.findSection sym.sectionName with
    | some s => .ok (sym.value + s.location)
    | none => .error (.about .malformedObject name)
  | none =>
    match (l.symbols.get? name).filter Symbol.isDefined with
    | none => .error (.about .unresolvedSymbol name)
    | some sym =>
      match l.owner sym with
      | some s => .ok (sym.value + s.location)
      | none => .error (.about .internal name)

/-- Fills in one address of an object. -/
def relocateOne (n : Nat) (rel : Relocation) : Linking Unit := do
  let l := (← get).toLinker
  let some obj := l.objects[n]?
    | return
  let some target := obj.findSection rel.sectionName
    | throw (.about .malformedObject rel.sectionName)
  let address ← liftExcept (l.resolve obj rel.symbol)
  match target.patch rel.location address with
  | .error e => throw (.because { kind := .malformedObject, name := rel.symbol } e)
  | .ok patched =>
    modifySection ⟨n, rel.sectionName⟩ fun _ => patched
    record (.relocated obj.name rel.sectionName rel.location rel.symbol address rel.type)

def relocate : Linking Unit := do
  (← get).linkedObjects.forM fun (n, obj) =>
    inFile obj.name (obj.relocations.entries.forM (relocateOne n))

end Linker

end AsmKit
