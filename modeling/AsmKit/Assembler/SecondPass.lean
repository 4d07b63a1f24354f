import AsmKit.Assembler.Pass
import AsmKit.Source.Emission

/-
  Pass two writes the bytes of every section and the relocations of what they refer to. It changes
  no symbol.
-/

namespace AsmKit

open Error (Complaint Kind)

namespace Object

/-- Adds to a section what a statement emits, with its references behind the bytes that are
there. -/
def emit (obj : Object) (name : Bytes) (e : Emission) : Object :=
  let start := ((obj.findSection name).map Section.length).getD 0
  let relocations := e.references.foldl (fun table (r : Reference) =>
    table.add ⟨r.symbol, r.type, start + r.offset, name⟩) obj.relocations
  { obj.modifySection name (·.append e.bytes) with relocations }

end Object

namespace SecondPass

/-- Emits into the open section. Without one there is nothing to write to, unless the statement is
refused before it writes anything. -/
def emit (line : Nat) (e : Emission) : Pass Unit := do
  let p ← get
  if p.isOpen then
    set { p with object := p.object.emit p.sectionName e }
  else if !e.bytes.isEmpty || e.complaint?.isNone then
    throw .crashed
  if let some c := e.complaint? then
    Pass.complain line c

def openSection (line : Nat) : List Token → Pass Unit
  | [] => throw .crashed
  | t :: _ => do
    let p ← get
    let found := (p.object.findSection t.word).isSome
    set { p with sectionName := t.word, isOpen := found }
    if !found then
      Pass.complain line ⟨.internal, t.word⟩

def instruction (line : Nat) (name : Bytes) (arguments : List Token) : Pass Unit :=
  match Instruction.find? name with
  | none => Pass.complain line ⟨.internal, name⟩
  | some i => do
    let p ← get
    if !p.isOpen then
      Pass.complain line ⟨.noSection, name⟩
    emit line (i.emission p.object.symbols arguments)

def statement (line : Nat) : Statement → Pass Unit
  | .nothing | .stop => pure ()
  | .directive .globals _ | .directive .externs _ => pure ()
  | .directive .openSection arguments => openSection line arguments
  | .directive .words arguments => do
    emit line (Emission.words (← get).object.symbols arguments)
  | .directive .skip arguments => emit line (Emission.skip arguments)
  | .instruction name arguments => instruction line name arguments
  | .stray word => Pass.complain line ⟨.illegalLineStart, word⟩

def line (number : Nat) (l : SourceLine) : Pass Unit := statement number l.statement

/-- Whether a section is as long as pass one measured it. -/
def isMeasured (symbols : SymbolTable) (s : Section) : Bool :=
  match symbols.get? s.name with
  | some sym => sym.size.toInt = s.code.length
  | none => false

/-- Holds every section to the length that pass one measured. -/
def checkSizes : Pass Unit := do
  let obj := (← get).object
  match obj.sections.find? fun s => !isMeasured obj.symbols s with
  | some s => throw (.failed (.about .internal s.name))
  | none => pure ()

def run (source : List Bytes) : Pass Unit := do
  Pass.eachLine line 1 source
  checkSizes

end SecondPass

end AsmKit
