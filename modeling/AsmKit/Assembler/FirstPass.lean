import AsmKit.Assembler.Pass
import AsmKit.Source.Emission

/-
  Pass one defines every symbol and measures every section.
-/

namespace AsmKit

open Error (Complaint Kind)

namespace SymbolTable

/-- A symbol that is only referred to. -/
def mention (t : SymbolTable) (name : Bytes) : SymbolTable :=
  match t.get? name with
  | some _ => t
  | none => t.create name undefinedSection 0 Symbol.noSize

/-- Makes a symbol visible to other files. -/
def declareGlobal (t : SymbolTable) (name : Bytes) : Except Kind SymbolTable :=
  if (t.get? name).any Symbol.isExtern then .error .globalExtern
  else .ok ((t.mention name).modify name fun s => { s with isGlobal := true })

/-- Takes a symbol from another file. -/
def declareExtern (t : SymbolTable) (name : Bytes) : Except Kind SymbolTable :=
  if (t.get? name).any Symbol.isGlobal then .error .globalExtern
  else if (t.get? name).any Symbol.isDefined then .error .importingDefined
  else .ok ((t.mention name).modify name fun s => { s with isExtern := true })

/-- Gives a symbol its place in a section. -/
def defineLabel (t : SymbolTable) (name sectionName : Bytes) (value : UInt32) :
    Except Kind SymbolTable :=
  if (t.get? name).any Symbol.isDefined then .error .symbolRedefined
  else if (t.get? name).any Symbol.isExtern then .error .definingExtern
  else .ok ((t.mention name).modify name fun s => { s with sectionName, value, isDefined := true })

/-- The symbol of a new section. -/
def defineSection (t : SymbolTable) (name : Bytes) : Except Kind SymbolTable :=
  match t.get? name with
  | some s => .error (if s.isSection then .sectionRedefined else .labelSectionConflict)
  | none => .ok ((t.create name name 0 0).modify name fun s => { s with isDefined := true })

/-- Records the length of a section. -/
def closeSection (t : SymbolTable) (name : Bytes) (length : UInt32) : SymbolTable :=
  if name = undefinedSection then t
  else t.modify name fun s => { s with size := Int64.ofNat length.toNat }

end SymbolTable

namespace FirstPass

/-- Changes the symbol table in a way that may be refused on account of a name. -/
def changeSymbols (line : Nat) (name : Bytes) (change : SymbolTable → Except Kind SymbolTable) :
    Pass Unit := do
  let p ← get
  match change p.object.symbols with
  | .error kind => Pass.complain line ⟨kind, name⟩
  | .ok symbols => set { p with object := { p.object with symbols } }

/-- Refuses to go on where statements belong to no section. -/
def needSection (line : Nat) (name : Bytes) : Pass Unit := do
  if (← get).sectionName = undefinedSection then
    Pass.complain line ⟨.noSection, name⟩

def advance (n : UInt32) : Pass Unit := modify fun p => { p with counter := p.counter + n }

def closeSection : Pass Unit := modify fun p =>
  { p with object := { p.object with
      symbols := p.object.symbols.closeSection p.sectionName p.counter } }

def label (line : Nat) (name : Bytes) : Pass Unit := do
  needSection line name
  let p ← get
  changeSymbols line name fun t => t.defineLabel name p.sectionName p.counter
  Pass.record (.labelDefined p.object.name line name p.sectionName p.counter)

/-- A directive that changes the symbols for each of a list of names. -/
def names (line : Nat) (head : Bytes) (change : Bytes → SymbolTable → Except Kind SymbolTable)
    (event : Bytes → Nat → Bytes → Event) (arguments : List Token) : Pass Unit := do
  let names ← Pass.check line (Token.listOf head (· = .symbol) arguments)
  names.forM fun t => do
    changeSymbols line t.word (change t.word)
    Pass.record (event (← get).object.name line t.word)

def globals (line : Nat) (arguments : List Token) : Pass Unit :=
  names line Directive.globals.spelling (fun name symbols => symbols.declareGlobal name)
    .globalDeclared arguments

def externs (line : Nat) (arguments : List Token) : Pass Unit :=
  names line Directive.externs.spelling (fun name symbols => symbols.declareExtern name)
    .externDeclared arguments

/-- The name that a section is opened under. -/
def newSection (arguments : List Token) : Except Complaint Bytes :=
  match arguments with
  | [⟨.symbol, name⟩] => .ok name
  | _ => .error (Token.whole Directive.openSection.spelling arguments)

def openSection (line : Nat) (arguments : List Token) : Pass Unit := do
  let name ← Pass.check line (newSection arguments)
  changeSymbols line name fun symbols => symbols.defineSection name
  closeSection
  let p ← get
  match p.object.addSection name with
  | .error _ => Pass.complain line ⟨.sectionRedefined, name⟩
  | .ok object => set { p with object, sectionName := name, counter := 0 }
  Pass.record (.sectionOpened p.object.name line name)

/-- An item of a list of words. Symbols are mentioned, and numbers only read. -/
def item (line : Nat) (t : Token) : Pass Unit :=
  if t.kind = .symbol then
    modify fun p => { p with object := { p.object with symbols := p.object.symbols.mention t.word } }
  else
    discard (Pass.check line t.number)

def words (line : Nat) (arguments : List Token) : Pass Unit := do
  needSection line Directive.words.spelling
  let items ← Pass.check line
    (Token.listOf Directive.words.spelling TokenKind.isWordItem arguments)
  items.forM (item line)
  advance (4 * UInt32.ofNat items.length)

def skip (line : Nat) (arguments : List Token) : Pass Unit := do
  needSection line Directive.skip.spelling
  advance (← Pass.check line (Emission.skipCount arguments))

def instruction (line : Nat) (name : Bytes) : Pass Unit :=
  match Instruction.find? name with
  | none => Pass.complain line ⟨.internal, name⟩
  | some i => do
    needSection line name
    advance i.size

def statement (line : Nat) : Statement → Pass Unit
  | .nothing | .stop => pure ()
  | .directive .globals arguments => globals line arguments
  | .directive .externs arguments => externs line arguments
  | .directive .openSection arguments => openSection line arguments
  | .directive .words arguments => words line arguments
  | .directive .skip arguments => skip line arguments
  | .instruction name _ => instruction line name
  | .stray word => Pass.complain line ⟨.illegalLineStart, word⟩

def line (number : Nat) (l : SourceLine) : Pass Unit := do
  if let some name := l.label? then
    label number name
  statement number l.statement

def run (source : List Bytes) : Pass Unit := do
  Pass.eachLine line 1 source
  closeSection

end FirstPass

end AsmKit
