import AsmKit.Text.Quoted

/-
  Reading numbers and truth values. A number is read from the left and the first thing wrong with
  it is reported: a byte that is no digit, or the digit that takes the value past the limit.
-/

namespace AsmKit

namespace Number

inductive Fault where
  | badDigit
  | outOfRange
deriving DecidableEq, Repr

/-- Which reader refused a text. -/
inductive Reader where
  | natural
  | integer
  | truth
deriving DecidableEq, Repr

/-- A refused text. -/
structure Refusal where
  reader : Reader
  input : Bytes
  fault : Fault
deriving DecidableEq, Repr

def Reader.name : Reader → Bytes
  | .natural => text "strconv.ParseUint"
  | .integer => text "strconv.Atoi"
  | .truth => text "strconv.ParseBool"

def Fault.message : Fault → Bytes
  | .badDigit => text "invalid syntax"
  | .outOfRange => text "value out of range"

def Refusal.message (r : Refusal) : Bytes :=
  r.reader.name ++ text ": parsing " ++ r.input.quoted ++ text ": " ++ r.fault.message

/-- Reads further digits of a number that stands at `value`. -/
def readDigits (base limit : Nat) (value : Nat) : Bytes → Except Fault Nat
  | [] => .ok value
  | b :: rest =>
    match Ascii.digitValue? b with
    | none => .error .badDigit
    | some d =>
      if base ≤ d then .error .badDigit
      else if limit < value * base + d then .error .outOfRange
      else readDigits base limit (value * base + d) rest

/-- A natural number of at least one digit, at most `limit`. -/
def readNat (base limit : Nat) (s : Bytes) : Except Fault Nat :=
  if s.isEmpty then .error .badDigit else readDigits base limit 0 s

/-- An optional sign and digits, within a signed word of 64 bits. The digits themselves are held
to 64 bits. -/
def readInt (s : Bytes) : Except Fault Int :=
  let (negative, digits) := match s with
    | 0x2B :: rest => (false, rest)
    | 0x2D :: rest => (true, rest)
    | _ => (false, s)
  match readNat 10 0xFFFFFFFFFFFFFFFF digits with
  | .error e => .error e
  | .ok n =>
    if negative then
      if 0x8000000000000000 < n then .error .outOfRange else .ok (-(n : Int))
    else if 0x8000000000000000 ≤ n then .error .outOfRange else .ok n

end Number

namespace Bytes

open Number

/-- A decimal or hexadecimal word. -/
def readWord (base : Nat) (s : Bytes) : Except Refusal UInt32 :=
  match readNat base 0xFFFFFFFF s with
  | .ok n => .ok (UInt32.ofNat n)
  | .error e => .error ⟨.natural, s, e⟩

/-- Splits off the `0x` of a hexadecimal number: its base and its digits. -/
def numeral : Bytes → Nat × Bytes
  | 0x30 :: 0x78 :: digits => (16, digits)
  | s => (10, s)

/-- A word in decimal, or in hexadecimal after `0x`. -/
def readNumeral (s : Bytes) : Except Refusal UInt32 :=
  let (base, digits) := s.numeral
  readWord base digits

/-- One byte in hexadecimal. -/
def readHexByte (s : Bytes) : Except Refusal UInt8 :=
  match readNat 16 255 s with
  | .ok n => .ok (UInt8.ofNat n)
  | .error e => .error ⟨.natural, s, e⟩

def readInt64 (s : Bytes) : Except Refusal Int64 :=
  match readInt s with
  | .ok n => .ok (Int64.ofInt n)
  | .error e => .error ⟨.integer, s, e⟩

def trueSpellings : List Bytes := ["1", "t", "T", "TRUE", "true", "True"].map text

def falseSpellings : List Bytes := ["0", "f", "F", "FALSE", "false", "False"].map text

def readBool (s : Bytes) : Except Refusal Bool :=
  if trueSpellings.contains s then .ok true
  else if falseSpellings.contains s then .ok false
  else .error ⟨.truth, s, .badDigit⟩

end Bytes

end AsmKit
