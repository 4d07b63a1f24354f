import AsmKit.Listing.Statement
import AsmKit.Object.Basic

/-
  Disassembly: code as rows, each an instruction or, where none can be read, a single byte. A row
  names the relocation that will fill in its literal.
-/

namespace AsmKit

namespace Disassembly

structure Row where
  offset : UInt32
  bytes : Bytes
  /-- The instruction, if the bytes are one. -/
  instruction? : Option Decoded
  relocation? : Option Relocation
deriving DecidableEq, Repr

/-- The last relocation of a location. -/
def relocationAt (relocations : List Relocation) (location : UInt32) : Option Relocation :=
  (relocations.filter fun r => r.location == location).getLast?

/-- The relocation of the instruction at an offset: of its literal, or else of its first byte. -/
def relocationOf (relocations : List Relocation) (offset : UInt32) (i : Instruction) :
    Option Relocation :=
  let own := relocationAt relocations offset
  if i.hasLiteral then (relocationAt relocations (offset + 4)).or own else own

/-- The row at an offset, where the rest of the code is `code` and ends at `limit`. -/
def rowAt (relocations : List Relocation) (limit offset : UInt32) (code : Bytes) : Row :=
  match Decoded.read (limit - offset) code with
  | .ok d => {
      offset
      bytes := code.take d.instruction.size.toNat
      instruction? := some d
      relocation? := relocationOf relocations offset d.instruction }
  | .error _ => { offset, bytes := code.take 1, instruction? := none, relocation? := none }

/-- The rows of code at an offset, of which the first `skip` bytes are on the row before. The rows
found already are held last first. No row starts at the limit or behind it. -/
def scan (relocations : List Relocation) (limit : UInt32) (found : List Row) (offset : UInt32) :
    Nat → Bytes → List Row
  | _, [] => found.reverse
  | skip + 1, _ :: rest => scan relocations limit found (offset + 1) skip rest
  | 0, b :: rest =>
    if offset < limit then
      let row := rowAt relocations limit offset (b :: rest)
      scan relocations limit (row :: found) (offset + 1) (row.bytes.length - 1) rest
    else found.reverse

def rows (relocations : List Relocation) (code : Bytes) : List Row :=
  scan relocations (UInt32.ofNat code.length) [] 0 0 code

namespace Row

/-- What stands behind the bytes. -/
def body (r : Row) : Bytes :=
  match r.instruction? with
  | some d =>
    d.statement ++ match r.relocation? with
      | some rel => text "\t# " ++ rel.type.spelling ++ text " " ++ rel.symbol
      | none => []
  | none => text ".byte " ++ r.bytes.flatMap fun b => text "0x" ++ Bytes.hex 2 b.toNat

/-- The row as a line; the bodies of rows of up to eight bytes stand below each other. -/
def line (r : Row) : Bytes :=
  text "  " ++ Bytes.hex 4 r.offset.toNat ++ text ": "
    ++ Bytes.joinWith [Ascii.space] (r.bytes.map fun b => Bytes.hex 2 b.toNat)
    ++ List.replicate (3 * (8 - r.bytes.length) + 2) Ascii.space ++ r.body

end Row

def print (relocations : List Relocation) (code : Bytes) : Bytes :=
  (rows relocations code).flatMap fun r => r.line ++ [Ascii.newline]

end Disassembly

end AsmKit
