import AsmKit.Object.Printer
import AsmKit.Text.Lines

/-
  Reading the text form of an object. Blank lines mean nothing, the three headings switch between
  the parts, and the line of column titles behind a table's heading is passed over.
-/

namespace AsmKit

namespace ObjectText

open Error (Cause)

/-- The longest line an object may have is one byte shorter. -/
def lineLimit : Nat := 16 * 1024 * 1024

/-- What the lines being read belong to. -/
inductive Part where
  | none
  | symbols
  | sections
  | relocations
deriving DecidableEq, Repr

structure Reading where
  object : Object
  part : Part := .none
  /-- Whether a line of column titles is still to come. -/
  titlesAhead : Bool := false
  /-- The section opened last. -/
  current : Option Bytes := none
deriving DecidableEq, Repr

def readFlag (field : Bytes) : Except Cause Bool :=
  if field = text "0" then .ok false
  else if field = text "1" then .ok true
  else .error (.badFlag field)

def readSymbol (fields : List Bytes) : Except Cause Symbol :=
  match fields with
  | name :: sectionName :: value :: isGlobal :: isExtern :: number :: size :: isDefined :: files => do
    if 1 < files.length then
      throw (.symbolRowSize fields.length)
    let value ← (Bytes.readWord 10 value).mapError Cause.symbolValue
    let isGlobal ← readFlag isGlobal
    let isExtern ← readFlag isExtern
    let number ← number.readInt64.mapError Cause.symbolNumber
    let size ← size.readInt64.mapError Cause.symbolSize
    let isDefined ← readFlag isDefined
    return { name, sectionName, value, isGlobal, isExtern, number, size, isDefined,
             file := files.headD [] }
  | _ => .error (.symbolRowSize fields.length)

def readRelocation (fields : List Bytes) : Except Cause Relocation :=
  match fields with
  | [symbol, type, location, sectionName] => do
    let some t := RelocationType.ofSpelling? type
      | throw (.relocationType type)
    let location ← (Bytes.readWord 10 location).mapError Cause.relocationLocation
    return { symbol, type := t, location, sectionName }
  | _ => .error (.relocationRowSize fields.length)

/-- The bytes that hexadecimal fields spell, one each. -/
def readBytes (fields : List Bytes) : Except Cause Bytes :=
  fields.mapM fun field => field.readHexByte.mapError fun _ => Cause.badByte field

namespace Reading

def openSection (r : Reading) (name : Bytes) : Except Cause Reading :=
  if r.part ≠ .sections then .error .sectionOutside
  else match r.object.addSection name with
    | .error _ => .error (.duplicateSection name)
    | .ok object => .ok { r with object, current := some name }

/-- Takes in a row of the part that is being read. -/
def row (r : Reading) (line : Bytes) : Except Cause Reading :=
  match r.part with
  | .symbols => do
    let sym ← readSymbol line.fields
    if (r.object.symbols.get? sym.name).isSome then
      throw (.duplicateSymbol sym.name)
    return { r with object := { r.object with symbols := r.object.symbols.insert sym } }
  | .sections =>
    match r.current with
    | none => .error .bytesBeforeSection
    | some name => do
      let bytes ← readBytes line.fields
      return { r with object := r.object.modifySection name (·.append bytes) }
  | .relocations => do
    let rel ← readRelocation line.fields
    return { r with object := r.object.addRelocation rel }
  | .none => .error (.unexpectedLine line)

/-- Takes in a line that has no blanks around it. -/
def line (r : Reading) (line : Bytes) : Except Cause Reading :=
  if line.isEmpty then .ok r
  else if line = symbolsHeader then .ok { r with part := .symbols, titlesAhead := true }
  else if line = sectionsHeader then .ok { r with part := .sections }
  else if line = relocationsHeader then .ok { r with part := .relocations, titlesAhead := true }
  else if sectionMark.isPrefixOf line then
    r.openSection (Bytes.trim (line.drop sectionMark.length))
  else if r.titlesAhead then .ok { r with titlesAhead := false }
  else r.row line

/-- Takes in lines, of which the first has the given number. -/
def lines (r : Reading) (number : Nat) : List Bytes → Except Error Reading
  | [] => .ok r
  | l :: rest =>
    match r.line l.trim with
    | .ok r => r.lines (number + 1) rest
    | .error cause =>
      .error (.because { kind := .malformedObject, line := number, file := r.object.name }
        (.plain cause))

end Reading

end ObjectText

/-- The object that a text describes. -/
def Object.read (name s : Bytes) : Except Error Object :=
  let source := Lines.read ObjectText.lineLimit s
  match ({ object := { name } : ObjectText.Reading }).lines 1 source.lines with
  | .error e => .error e
  | .ok r =>
    if source.overlong then
      .error (.because { kind := .malformedObject, file := name } (.plain .lineTooLong))
    else .ok r.object

end AsmKit
