import AsmKit.Linker.Basic

/-
  The symbols that objects share. A definition takes the place of an import or of a mere mention,
  two definitions exclude each other, and so do a section and a label of one name.
-/

namespace AsmKit

/-- Whether a symbol of another object goes into the table of shared symbols. -/
def SymbolTable.takes (t : SymbolTable) (sym : Symbol) : Except Error Bool :=
  match t.get? sym.name with
  | none => .ok (sym.isGlobal || sym.isExtern)
  | some old =>
    if sym.isGlobal && sym.isDefined && (old.isExtern || !old.isDefined) then .ok true
    else if old.isSection != sym.isSection then
      .error (.report { kind := .labelSectionConflict, name := sym.name, other := old.file })
    else if old.isGlobal && sym.isGlobal && old.isDefined && sym.isDefined then
      .error (.report { kind := .multipleDefinition, name := sym.name, other := old.file })
    else .ok false

namespace Linker

/-- The symbol of a section has the section's length. -/
def checkSectionSymbol (obj : Object) (sym : Symbol) : Except Error Unit :=
  match obj.findSection sym.name with
  | some s =>
    if (s.length.toNat : Int) = sym.size.toInt then .ok () else .error (.about .malformedObject sym.name)
  | none => .error (.about .malformedObject sym.name)

def mergeSymbol (n : Nat) (obj : Object) (sym : Symbol) : Linking Unit := do
  if sym.isSection then
    liftExcept (checkSectionSymbol obj sym)
    modify fun p => { p with index := ((sym.name, obj.name), ⟨n, sym.name⟩) :: p.index }
  if ← liftExcept ((← get).symbols.takes sym) then
    modify fun p => { p with symbols := p.symbols.insert { sym with file := obj.name } }
    record (.symbolMerged sym.name obj.name sym.isGlobal sym.isExtern)

/-- Names a file in the errors of a stage. -/
def inFile (file : Bytes) (stage : Linking Unit) : Linking Unit :=
  tryCatch stage fun e => throw (e.inFile file)

def mergeSymbols : Linking Unit := do
  (← get).linkedObjects.forM fun (n, obj) =>
    inFile obj.name (obj.symbols.entries.forM (mergeSymbol n obj))

/-- A shared symbol that no object defines. -/
def isUnresolved (sym : Symbol) : Bool :=
  sym.isExtern || sym.sectionName = undefinedSection || !sym.isDefined

def checkUnresolved : Linking Unit := do
  match (← get).symbols.entries.find? isUnresolved with
  | some sym => throw (.about .unresolvedSymbol sym.name)
  | none => pure ()

end Linker

end AsmKit
