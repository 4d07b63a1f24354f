import AsmKit.Bytes

/-
  Operands in brackets: a register and, behind a plus sign, a number or a symbol, with blanks
  around each part.
-/

namespace AsmKit

structure Bracket where
  /-- The register, without its percent sign. -/
  register : Bytes
  /-- The number or symbol that is added. -/
  offset? : Option Bytes
deriving DecidableEq, Repr

namespace Bracket

def isBlank (b : UInt8) : Bool :=
  b == 0x20 || b == 0x09 || b == 0x0A || b == 0x0C || b == 0x0D

/-- `r` and one or two digits, `sp` or `pc`. -/
def isRegister (s : Bytes) : Bool :=
  s == text "sp" || s == text "pc" || match s with
    | 0x72 :: digits => Bytes.isDecimal digits && digits.length ≤ 2
    | _ => false

def isOffset (s : Bytes) : Bool := s.isHexadecimal || s.isDecimal || s.isIdentifier

/-- The word that text starts with, and what stands behind it and behind the blanks after it. -/
def takeWord (s : Bytes) : Bytes × Bytes :=
  (s.takeWhile Ascii.isWord, (s.dropWhile Ascii.isWord).dropWhile isBlank)

/-- Reads what stands behind the plus sign. -/
def readOffset (register s : Bytes) : Option Bracket :=
  let (offset, rest) := takeWord (s.dropWhile isBlank)
  if isOffset offset && rest == [0x5D] then some ⟨register, some offset⟩ else none

/-- Reads what stands behind the percent sign. -/
def readRegister (s : Bytes) : Option Bracket :=
  let (register, rest) := takeWord s
  if !isRegister register then none
  else match rest with
    | [0x5D] => some ⟨register, none⟩
    | 0x2B :: offset => readOffset register offset
    | _ => none

def read? : Bytes → Option Bracket
  | 0x5B :: s =>
    match s.dropWhile isBlank with
    | 0x25 :: register => readRegister register
    | _ => none
  | _ => none

end Bracket

end AsmKit
