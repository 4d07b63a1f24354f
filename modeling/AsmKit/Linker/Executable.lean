import AsmKit.Object.Basic

/-
  A linked program and its two written forms: a hexadecimal listing and an image of memory.
-/

namespace AsmKit

/-- A section of a linked program and the object it comes from. -/
structure Segment where
  file : Bytes
  body : Section
deriving DecidableEq, Repr

/-- Every section at its address, by address, and the shared symbols. -/
structure Executable where
  segments : List Segment
  symbols : SymbolTable
deriving DecidableEq, Repr

/-- A run of memory without a gap. -/
structure Block where
  address : UInt32
  code : Bytes
deriving DecidableEq, Repr

namespace Executable

/-- A row of the listing: the address of its first byte and the bytes. -/
def hexRow (address : UInt32) (bytes : Bytes) : Bytes :=
  Bytes.upperHex 4 address.toNat ++ text ":"
    ++ bytes.flatMap (fun b => text " " ++ Bytes.upperHex 2 b.toNat) ++ [Ascii.newline]

def sectionRows (s : Section) : Bytes :=
  s.code.rows.zipIdx.flatMap fun (row, n) => hexRow (s.location + UInt32.ofNat (8 * n)) row

/-- The listing, in rows of up to eight bytes. -/
def hexListing (exe : Executable) : Bytes := exe.segments.flatMap fun s => sectionRows s.body

/-- Adds a section to the blocks before it, which are held last first. It extends the last block
if it starts where that ends. -/
def addBlock (blocks : List Block) (s : Section) : List Block :=
  if s.length = 0 then blocks
  else match blocks with
    | last :: before =>
      if last.address.toNat + last.code.length = s.location.toNat then
        { last with code := last.code ++ s.code } :: before
      else ⟨s.location, s.code⟩ :: blocks
    | [] => [⟨s.location, s.code⟩]

/-- The sections that hold bytes, joined where they meet. -/
def blocks (exe : Executable) : List Block :=
  (exe.segments.foldl (fun found s => addBlock found s.body) []).reverse

/-- The image: for every block its address, its length and its bytes. -/
def image (exe : Executable) : Bytes :=
  exe.blocks.flatMap fun b =>
    Bytes.ofWord b.address ++ Bytes.ofWord (UInt32.ofNat b.code.length) ++ b.code

end Executable

end AsmKit
