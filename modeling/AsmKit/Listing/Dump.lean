import AsmKit.Listing.Disassembly
import AsmKit.Text.Piece

/-
  The listing of an object: its symbols, its relocations and the disassembly of each section.
-/

namespace AsmKit

namespace Dump

/-- How a symbol is bound: global, imported or local. -/
def binding (s : Symbol) : Bytes :=
  if s.isGlobal then text "g" else if s.isExtern then text "x" else text "l"

def symbolLine (s : Symbol) : Bytes :=
  text "  " ++ Bytes.hex 8 s.value.toNat ++ text " " ++ binding s ++ text " "
    ++ s.sectionName.padTo 12 ++ text " " ++ s.name
    ++ if s.isSection then text " section, " ++ Bytes.signed s.size.toInt ++ text " bytes" else []

def relocationLine (r : Relocation) : Bytes :=
  text "  " ++ r.sectionName.padTo 12 ++ text " " ++ Bytes.hex 4 r.location.toNat ++ text " "
    ++ r.type.spelling.padTo 16 ++ text " " ++ r.symbol

def sectionRelocations (obj : Object) (s : Section) : List Relocation :=
  obj.relocations.entries.filter fun r => r.sectionName == s.name

def sectionLines (obj : Object) (s : Section) : List Bytes :=
  [[], text "SECTION " ++ s.name ++ text " (" ++ Bytes.decimal s.length.toNat ++ text " bytes)"]
    ++ (Disassembly.rows (sectionRelocations obj s) s.code).map Disassembly.Row.line

def lines (obj : Object) : List Bytes :=
  [obj.name ++ text ":", [], text "SYMBOLS"] ++ obj.symbols.entries.map symbolLine
    ++ [[], text "RELOCATIONS"] ++ obj.relocations.entries.map relocationLine
    ++ obj.sections.flatMap (sectionLines obj)

end Dump

/-- The listing of an object. -/
def Object.dump (obj : Object) : Bytes :=
  (Dump.lines obj).flatMap fun line => line ++ [Ascii.newline]

end AsmKit
