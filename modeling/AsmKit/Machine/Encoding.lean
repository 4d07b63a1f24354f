import AsmKit.Error
import AsmKit.Machine.Instruction

/-
  Instructions as bytes. The word is `opcode`, `a b`, `c d`, `dd` with four-bit registers and a
  twelve-bit displacement, cut to the instruction's length and followed by its literal, most
  significant byte first.
-/

namespace AsmKit

/-- An instruction word taken apart. -/
structure Fields where
  opcode : UInt8
  a : UInt8 := 0
  b : UInt8 := 0
  c : UInt8 := 0
  displacement : Int32 := 0
deriving DecidableEq, Repr

/-- The four bytes of the whole word. -/
def Fields.word (f : Fields) : Bytes :=
  let d := f.displacement.toUInt32 &&& 0xFFF
  [f.opcode,
   (f.a &&& 0xF) <<< 4 ||| (f.b &&& 0xF),
   (f.c &&& 0xF) <<< 4 ||| (d >>> 8).toUInt8,
   d.toUInt8]

def Instruction.encode (i : Instruction) (f : Fields) (literal : UInt32) : Bytes :=
  f.word.take i.wordLength ++ if i.hasLiteral then Bytes.ofWord literal else []

structure Decoded where
  instruction : Instruction
  fields : Fields
  literal : UInt32
deriving DecidableEq, Repr

namespace Decoded

/-- Whether the first byte is that of a memory form. -/
def isIndirect (d : Decoded) : Bool :=
  d.fields.opcode == d.instruction.indirect && d.instruction.indirect != d.instruction.opcode

/-- Twelve bits as a signed number. -/
def signExtend (d : UInt32) : Int32 :=
  if 2047 < d then d.toInt32 - 4096 else d.toInt32

/-- The fields of an instruction word, of which missing bytes are zero. -/
def fieldsOf (word : Bytes) : Fields :=
  let byte (n : Nat) : UInt8 := word.getD n 0
  { opcode := byte 0
    a := byte 1 >>> 4
    b := byte 1 &&& 0xF
    c := byte 2 >>> 4
    displacement := signExtend ((byte 2 &&& 0xF).toUInt32 <<< 8 ||| (byte 3).toUInt32) }

/-- The literal behind the instruction word. -/
def literalOf : Bytes → UInt32
  | b₃ :: b₂ :: b₁ :: b₀ :: _ => Bytes.word b₃ b₂ b₁ b₀
  | _ => 0

/-- Reads the instruction at the start of code that has the given length. -/
def read (length : UInt32) (code : Bytes) : Except Error Decoded :=
  match code with
  | [] => .error (.bare .truncated)
  | byte :: _ =>
    match Instruction.ofOpcode? byte with
    | none => .error (.about .badOpcode (text "0x" ++ Bytes.hex 2 byte.toNat))
    | some i =>
      if length < i.size then .error (.about .truncated i.name)
      else .ok {
        instruction := i
        fields := fieldsOf (code.take i.wordLength)
        literal := if i.hasLiteral then literalOf (code.drop Instruction.wordSize) else 0 }

/-- Reads the instruction that `code` starts with. Lengths wrap as all words do, so that code of
`2 ^ 32` bytes is too short for every instruction. -/
def ofBytes (code : Bytes) : Except Error Decoded := read (UInt32.ofNat code.length) code

end Decoded

end AsmKit
