import AsmKit.Bytes

/-
  The instruction set: what each instruction is called, which operands it takes and how long it is.
  An instruction with a memory form has a second first byte for it.
-/

namespace AsmKit

inductive Mnemonic where
  | none
  | halt | int | iret | call | ret | jmp
  | beq | bne | bgt
  | push | pop | xchg
  | add | sub | mul | div
  | not | and | or | xor | shl | shr
  | ld | st | csrrd | csrwr
deriving DecidableEq, Repr

namespace Mnemonic

def all : List Mnemonic := [
  .none, .halt, .int, .iret, .call, .ret, .jmp, .beq, .bne, .bgt, .push, .pop, .xchg, .add, .sub,
  .mul, .div, .not, .and, .or, .xor, .shl, .shr, .ld, .st, .csrrd, .csrwr]

def code (m : Mnemonic) : UInt8 := UInt8.ofNat (all.idxOf m)

/-- The mnemonic of a code, `none` for a code that has no other. -/
def ofCode (code : UInt8) : Mnemonic := all.getD code.toNat .none

end Mnemonic

/-- Instructions of one shape take the same operands. -/
inductive Shape where
  | none
  | jump
  | branch
  | stack
  | twoRegisters
  | oneRegister
  | load
  | store
  | controlRead
  | controlWrite
deriving DecidableEq, Repr

namespace Shape

def all : List Shape := [
  .none, .jump, .branch, .stack, .twoRegisters, .oneRegister, .load, .store, .controlRead,
  .controlWrite]

def code (s : Shape) : UInt8 := UInt8.ofNat (all.idxOf s)

/-- The shape of a code, `none` for a code that has no other. -/
def ofCode (code : UInt8) : Shape := all.getD code.toNat .none

end Shape

structure Instruction where
  name : Bytes
  mnemonic : Mnemonic
  shape : Shape
  /-- The first byte of the register or direct form. -/
  opcode : UInt8
  /-- The first byte of the memory form, the same byte where there is no such form. -/
  indirect : UInt8
  size : UInt32
deriving DecidableEq, Repr

namespace Instruction

/-- The bytes of an instruction word. -/
def wordSize : Nat := 4

/-- Whether a literal word follows the instruction word. -/
def hasLiteral (i : Instruction) : Bool := 4 < i.size

/-- How many bytes of the instruction word are there. -/
def wordLength (i : Instruction) : Nat := min i.size.toNat wordSize

def all : List Instruction := [
  ⟨text "halt", .halt, .none, 0x00, 0x00, 1⟩,
  ⟨text "int", .int, .none, 0x10, 0x10, 1⟩,
  ⟨text "iret", .iret, .none, 0x34, 0x34, 1⟩,
  ⟨text "call", .call, .jump, 0x20, 0x21, 8⟩,
  ⟨text "ret", .ret, .none, 0x3C, 0x3C, 1⟩,
  ⟨text "jmp", .jmp, .jump, 0x30, 0x38, 8⟩,
  ⟨text "beq", .beq, .branch, 0x31, 0x39, 8⟩,
  ⟨text "bne", .bne, .branch, 0x32, 0x3A, 8⟩,
  ⟨text "bgt", .bgt, .branch, 0x33, 0x3B, 8⟩,
  ⟨text "push", .push, .stack, 0x81, 0x81, 4⟩,
  ⟨text "pop", .pop, .stack, 0x93, 0x93, 4⟩,
  ⟨text "xchg", .xchg, .twoRegisters, 0x40, 0x40, 3⟩,
  ⟨text "add", .add, .twoRegisters, 0x50, 0x50, 3⟩,
  ⟨text "sub", .sub, .twoRegisters, 0x51, 0x51, 3⟩,
  ⟨text "mul", .mul, .twoRegisters, 0x52, 0x52, 3⟩,
  ⟨text "div", .div, .twoRegisters, 0x53, 0x53, 3⟩,
  ⟨text "not", .not, .oneRegister, 0x60, 0x60, 2⟩,
  ⟨text "and", .and, .twoRegisters, 0x61, 0x61, 3⟩,
  ⟨text "or", .or, .twoRegisters, 0x62, 0x62, 3⟩,
  ⟨text "xor", .xor, .twoRegisters, 0x63, 0x63, 3⟩,
  ⟨text "shl", .shl, .twoRegisters, 0x70, 0x70, 3⟩,
  ⟨text "shr", .shr, .twoRegisters, 0x71, 0x71, 3⟩,
  ⟨text "ld", .ld, .load, 0x91, 0x92, 8⟩,
  ⟨text "st", .st, .store, 0x80, 0x82, 8⟩,
  ⟨text "csrrd", .csrrd, .controlRead, 0x90, 0x90, 2⟩,
  ⟨text "csrwr", .csrwr, .controlWrite, 0x94, 0x94, 2⟩]

def find? (name : Bytes) : Option Instruction := all.find? fun i => i.name == name

/-- The instruction that a first byte belongs to. -/
def ofOpcode? (byte : UInt8) : Option Instruction :=
  all.find? fun i => i.opcode == byte || i.indirect == byte

/-- Every first byte of the instruction set with the name it stands for, in ascending order. -/
def opcodes : List (UInt8 × Bytes) :=
  (List.range 256).filterMap fun n =>
    (ofOpcode? (UInt8.ofNat n)).map fun i => (UInt8.ofNat n, i.name)

end Instruction

end AsmKit
