import AsmKit.Bytes

/-
  Reading bytes as UTF-8. Text falls into pieces, each an encoded character or a single byte that
  starts none; joining the pieces gives the text back (`flatMap_pieces`). Blank pieces bound the
  fields of the object text.
-/

namespace AsmKit

/-- A stretch of text: the encoding of `char?`, or one byte that encodes nothing. -/
structure Piece where
  char? : Option Char
  bytes : Bytes
deriving DecidableEq, Repr

namespace Piece

def isTail (b : UInt8) : Bool := 0x80 ≤ b && b ≤ 0xBF

/-- The character of a two-byte form. -/
def two? (b₀ b₁ : UInt8) : Option Char :=
  if 0xC2 ≤ b₀ && b₀ ≤ 0xDF && isTail b₁ then
    some (Char.ofNat ((b₀.toNat - 0xC0) * 64 + (b₁.toNat - 0x80)))
  else none

/-- The character of a three-byte form, neither a longer spelling than needed nor a surrogate. -/
def three? (b₀ b₁ b₂ : UInt8) : Option Char :=
  if 0xE0 ≤ b₀ && b₀ ≤ 0xEF && isTail b₁ && isTail b₂
      && (b₀ != 0xE0 || 0xA0 ≤ b₁) && (b₀ != 0xED || b₁ ≤ 0x9F) then
    some (Char.ofNat ((b₀.toNat - 0xE0) * 4096 + (b₁.toNat - 0x80) * 64 + (b₂.toNat - 0x80)))
  else none

/-- The character of a four-byte form, neither a longer spelling than needed nor past the last one. -/
def four? (b₀ b₁ b₂ b₃ : UInt8) : Option Char :=
  if 0xF0 ≤ b₀ && b₀ ≤ 0xF4 && isTail b₁ && isTail b₂ && isTail b₃
      && (b₀ != 0xF0 || 0x90 ≤ b₁) && (b₀ != 0xF4 || b₁ ≤ 0x8F) then
    some (Char.ofNat ((b₀.toNat - 0xF0) * 262144 + (b₁.toNat - 0x80) * 4096
      + (b₂.toNat - 0x80) * 64 + (b₃.toNat - 0x80)))
  else none

/-- The first piece of `b :: rest`. -/
def first (b : UInt8) (rest : Bytes) : Piece :=
  if b < 0x80 then ⟨some (Char.ofNat b.toNat), [b]⟩
  else match rest with
    | b₁ :: b₂ :: b₃ :: _ =>
      match two? b b₁, three? b b₁ b₂, four? b b₁ b₂ b₃ with
      | some c, _, _ => ⟨some c, [b, b₁]⟩
      | none, some c, _ => ⟨some c, [b, b₁, b₂]⟩
      | none, none, some c => ⟨some c, [b, b₁, b₂, b₃]⟩
      | none, none, none => ⟨none, [b]⟩
    | [b₁, b₂] =>
      match two? b b₁, three? b b₁ b₂ with
      | some c, _ => ⟨some c, [b, b₁]⟩
      | none, some c => ⟨some c, [b, b₁, b₂]⟩
      | none, none => ⟨none, [b]⟩
    | [b₁] =>
      match two? b b₁ with
      | some c => ⟨some c, [b, b₁]⟩
      | none => ⟨none, [b]⟩
    | [] => ⟨none, [b]⟩

/-- The pieces after `skip` bytes, behind those already found, which are held last first. -/
def scan (found : List Piece) : Nat → Bytes → List Piece
  | _, [] => found.reverse
  | skip + 1, _ :: rest => scan found skip rest
  | 0, b :: rest => scan (first b rest :: found) ((first b rest).bytes.length - 1) rest

/-- Unicode's `White_Space`. -/
def isBlankChar (c : Char) : Bool :=
  let n := c.toNat
  (0x09 ≤ n && n ≤ 0x0D) || n == 0x20 || n == 0x85 || n == 0xA0 || n == 0x1680
    || (0x2000 ≤ n && n ≤ 0x200A) || n == 0x2028 || n == 0x2029 || n == 0x202F
    || n == 0x205F || n == 0x3000

def isBlank (p : Piece) : Bool := p.char?.any isBlankChar

end Piece

namespace Bytes

def pieces (s : Bytes) : List Piece := Piece.scan [] 0 s

/-- The number of characters, a byte that encodes nothing counting as one. -/
def width (s : Bytes) : Nat := s.pieces.length

/-- `s` with spaces behind it up to `n` characters. -/
def padTo (n : Nat) (s : Bytes) : Bytes := s ++ List.replicate (n - s.width) Ascii.space

/-- `s` without the blanks at either end. -/
def trim (s : Bytes) : Bytes :=
  ((s.pieces.dropWhile Piece.isBlank).reverse.dropWhile Piece.isBlank).reverse.flatMap Piece.bytes

/-- Ends the field being read. Field and fields are held last first. -/
def closeField (field : List Piece) (found : List Bytes) : List Bytes :=
  if field.isEmpty then found else field.reverse.flatMap Piece.bytes :: found

/-- Cuts a sequence of pieces at its blanks, with the field being read and the fields before it,
both held last first. -/
def cutFields (field : List Piece) (found : List Bytes) : List Piece → List Bytes
  | [] => (closeField field found).reverse
  | p :: rest =>
    if p.isBlank then cutFields [] (closeField field found) rest
    else cutFields (p :: field) found rest

/-- The maximal runs without blanks. -/
def fields (s : Bytes) : List Bytes := cutFields [] [] s.pieces

end Bytes

namespace Piece

theorem first_bytes (b : UInt8) (rest : Bytes) :
    (first b rest).bytes ++ rest.drop ((first b rest).bytes.length - 1) = b :: rest := by
  unfold first
  repeat' split
  all_goals simp

theorem flatMap_scan (found : List Piece) (skip : Nat) (s : Bytes) :
    (scan found skip s).flatMap bytes = found.reverse.flatMap bytes ++ s.drop skip := by
  induction s generalizing found skip with
  | nil => simp [scan]
  | cons b rest ih =>
    cases skip with
    | succ skip => simp [scan, ih]
    | zero => simp [scan, ih, first_bytes]

end Piece

/-- Taking text apart into pieces loses nothing. -/
theorem Bytes.flatMap_pieces (s : Bytes) : s.pieces.flatMap Piece.bytes = s := by
  simp [pieces, Piece.flatMap_scan]

end AsmKit
