import AsmKit.Machine.Encoding
import AsmKit.Machine.Register

/-
  A decoded instruction as a statement, in the assembler's own language where that has a spelling
  for it.
-/

namespace AsmKit.Decoded

def general (address : UInt8) : Bytes := Register.spelling .general address

def control (address : UInt8) : Bytes := Register.spelling .control address

/-- The target of a jump: the literal, in brackets if the jump goes through memory. -/
def target (d : Decoded) : Bytes :=
  let literal := Bytes.prefixedHex d.literal.toNat
  if d.isIndirect then text "[" ++ literal ++ text "]" else literal

/-- A register and the literal, in brackets if they address memory. -/
def place (d : Decoded) (register : UInt8) : Bytes :=
  let sum := general register ++ text " + " ++ Bytes.prefixedHex d.literal.toNat
  if d.isIndirect then text "[" ++ sum ++ text "]" else sum

/-- A name, a space, and operands with commas between them. -/
def withOperands (name : Bytes) (operands : List Bytes) : Bytes :=
  name ++ text " " ++ Bytes.joinWith (text ", ") operands

def statement (d : Decoded) : Bytes :=
  let name := d.instruction.name
  let f := d.fields
  match d.instruction.shape with
  | .none => name
  | .jump => withOperands name [d.target]
  | .branch => withOperands name [general f.b, general f.c, d.target]
  | .stack =>
    if d.instruction.mnemonic = .push then withOperands (text "push") [general f.c]
    else withOperands (text "pop") [general f.a]
  | .twoRegisters =>
    if d.instruction.mnemonic = .xchg then withOperands (text "xchg") [general f.b, general f.c]
    else withOperands name [general f.c, general f.a]
  | .oneRegister => withOperands name [general f.a]
  | .load => withOperands (text "ld") [d.place f.b, general f.a]
  | .store => withOperands (text "st") [general f.c, d.place f.a]
  | .controlRead => withOperands (text "csrrd") [control f.b, general f.a]
  | .controlWrite => withOperands (text "csrwr") [general f.b, control f.a]

end AsmKit.Decoded
