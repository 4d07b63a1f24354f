/-
  Text as the tools see it: a sequence of bytes that need not be valid UTF-8.
  Also the ASCII classes of the source language and the number spellings of the output.
-/

namespace AsmKit

abbrev Bytes := List UInt8

/-- The UTF-8 bytes of a string. -/
def text (s : String) : Bytes := s.toUTF8.data.toList

namespace Ascii

def newline : UInt8 := 0x0A
def carriageReturn : UInt8 := 0x0D
def space : UInt8 := 0x20

def isDigit (b : UInt8) : Bool := 0x30 ≤ b && b ≤ 0x39

def isLower (b : UInt8) : Bool := 0x61 ≤ b && b ≤ 0x7A

def isUpper (b : UInt8) : Bool := 0x41 ≤ b && b ≤ 0x5A

/-- A letter or an underscore: what an identifier starts with. -/
def isNameStart (b : UInt8) : Bool := isLower b || isUpper b || b == 0x5F

/-- A letter, a digit or an underscore. -/
def isWord (b : UInt8) : Bool := isNameStart b || isDigit b

def isHexDigit (b : UInt8) : Bool :=
  isDigit b || (0x61 ≤ b && b ≤ 0x66) || (0x41 ≤ b && b ≤ 0x46)

/-- The value of a digit in bases up to 36. -/
def digitValue? (b : UInt8) : Option Nat :=
  if isDigit b then some (b.toNat - 0x30)
  else if isLower b then some (b.toNat - 0x61 + 10)
  else if isUpper b then some (b.toNat - 0x41 + 10)
  else none

end Ascii

namespace Bytes

/-- A letter or underscore, then word characters. -/
def isIdentifier : Bytes → Bool
  | [] => false
  | b :: rest => Ascii.isNameStart b && rest.all Ascii.isWord

/-- One or more decimal digits. -/
def isDecimal (s : Bytes) : Bool := !s.isEmpty && s.all Ascii.isDigit

/-- `0x`, then one or more hexadecimal digits. -/
def isHexadecimal : Bytes → Bool
  | 0x30 :: 0x78 :: digits => !digits.isEmpty && digits.all Ascii.isHexDigit
  | _ => false

/-- The texts in order with `sep` between each two. -/
def joinWith (sep : Bytes) (parts : List Bytes) : Bytes := (parts.intersperse sep).flatten

def decimal (n : Nat) : Bytes := (Nat.toDigits 10 n).map Char.toUInt8

def signed : Int → Bytes
  | .ofNat n => decimal n
  | .negSucc n => 0x2D :: decimal (n + 1)

/-- At least `width` digits of `s`, filled up with zeros in front. -/
def zeroFill (width : Nat) (s : Bytes) : Bytes := List.replicate (width - s.length) 0x30 ++ s

/-- Lower-case hexadecimal with at least `width` digits. -/
def hex (width n : Nat) : Bytes := zeroFill width ((Nat.toDigits 16 n).map Char.toUInt8)

/-- Upper-case hexadecimal with at least `width` digits. -/
def upperHex (width n : Nat) : Bytes :=
  zeroFill width ((Nat.toDigits 16 n).map fun c => c.toUpper.toUInt8)

/-- `0x` and lower-case hexadecimal without leading zeros. -/
def prefixedHex (n : Nat) : Bytes := text "0x" ++ hex 1 n

/-- The four bytes of a word, most significant first. -/
def ofWord (w : UInt32) : Bytes :=
  [(w >>> 24).toUInt8, (w >>> 16).toUInt8, (w >>> 8).toUInt8, w.toUInt8]

/-- The word that four bytes spell, most significant first. -/
def word (b₃ b₂ b₁ b₀ : UInt8) : UInt32 :=
  b₃.toUInt32 <<< 24 ||| b₂.toUInt32 <<< 16 ||| b₁.toUInt32 <<< 8 ||| b₀.toUInt32

/-- The bytes in rows of eight, the last one as long as what is left. -/
def rows (s : Bytes) : List Bytes :=
  if s.isEmpty then [] else s.take 8 :: rows (s.drop 8)
termination_by s.length
decreasing_by
  cases s with
  | nil => contradiction
  | cons b rest =>
    simp only [List.length_drop, List.length_cons]
    omega

end Bytes

end AsmKit
