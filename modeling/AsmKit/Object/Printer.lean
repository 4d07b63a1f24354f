import AsmKit.Object.Basic
import AsmKit.Text.Piece

/-
  The text form of an object: a table of symbols, the bytes of each section eight to a row, and a
  table of relocations. It depends on the contents of the object and on nothing else.
-/

namespace AsmKit

namespace ObjectText

def symbolsHeader : Bytes := text "Symbols Table"
def sectionsHeader : Bytes := text "Sections code"
def sectionMark : Bytes := text "Section: "
def relocationsHeader : Bytes := text "Relocations Table"

/-- A table row: cells padded to their widths with a space behind each, then a last cell. -/
def row (cells : List (Nat × Bytes)) (last : Bytes) : Bytes :=
  text "  " ++ cells.flatMap (fun (width, cell) => cell.padTo width ++ [Ascii.space]) ++ last

def symbolRow (name sectionName value isGlobal isExtern number size isDefined file : Bytes) :
    Bytes :=
  row [(24, name), (24, sectionName), (14, value), (9, isGlobal), (9, isExtern), (7, number),
    (7, size), (8, isDefined)] file

def relocationRow (symbol type location sectionName : Bytes) : Bytes :=
  row [(24, symbol), (16, type), (10, location)] sectionName

def symbolColumns : Bytes :=
  symbolRow (text "SymbolName") (text "SectionName") (text "Value") (text "IsGlobal")
    (text "IsExtern") (text "Number") (text "Size") (text "Defined") (text "File")

def relocationColumns : Bytes :=
  relocationRow (text "SymbolName") (text "RelocationType") (text "Location") (text "SectionName")

def flag (b : Bool) : Bytes := if b then text "1" else text "0"

/-- A line without the spaces at its end. -/
def dropSpaces (line : Bytes) : Bytes := (line.reverse.dropWhile (· == Ascii.space)).reverse

def symbolLine (s : Symbol) : Bytes :=
  dropSpaces (symbolRow s.name s.sectionName (Bytes.decimal s.value.toNat) (flag s.isGlobal)
    (flag s.isExtern) (Bytes.signed s.number.toInt) (Bytes.signed s.size.toInt) (flag s.isDefined)
    s.file)

def relocationLine (r : Relocation) : Bytes :=
  relocationRow r.symbol r.type.spelling (Bytes.decimal r.location.toNat) r.sectionName

/-- Bytes as two hexadecimal digits each, with spaces between. -/
def byteRow (bytes : Bytes) : Bytes :=
  Bytes.joinWith [Ascii.space] (bytes.map fun b => Bytes.hex 2 b.toNat)

def sectionLines (s : Section) : List Bytes :=
  (sectionMark ++ s.name) :: (s.code.rows.map byteRow ++ [[]])

def lines (obj : Object) : List Bytes :=
  [symbolsHeader, symbolColumns] ++ obj.symbols.entries.map symbolLine
    ++ [[], sectionsHeader] ++ obj.sections.flatMap sectionLines
    ++ [relocationsHeader, relocationColumns] ++ obj.relocations.entries.map relocationLine

end ObjectText

def Object.print (obj : Object) : Bytes :=
  (ObjectText.lines obj).flatMap fun line => line ++ [Ascii.newline]

end AsmKit
