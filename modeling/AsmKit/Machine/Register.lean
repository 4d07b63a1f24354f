import AsmKit.Bytes

/-
  The registers of the machine and their spellings. Sixteen general registers, of which the last
  two are the stack pointer and the program counter, and three control registers.
-/

namespace AsmKit

inductive RegisterKind where
  | general
  | control
deriving DecidableEq, Repr

structure Register where
  /-- The spelling, without the percent sign. -/
  name : Bytes
  address : UInt8
  kind : RegisterKind
  description : Bytes
deriving DecidableEq, Repr

namespace Register

def stackPointer : UInt8 := 14
def programCounter : UInt8 := 15

def numbered (n : Nat) : Register where
  name := text "r" ++ Bytes.decimal n
  address := UInt8.ofNat n
  kind := .general
  description := if n = 14 then text "stack pointer" else if n = 15 then text "program counter" else []

/-- Every spelling the assembler accepts. -/
def all : List Register :=
  (List.range 16).map numbered ++ [
    ⟨text "sp", stackPointer, .general, text "stack pointer"⟩,
    ⟨text "pc", programCounter, .general, text "program counter"⟩,
    ⟨text "status", 0, .control, text "processor status"⟩,
    ⟨text "handler", 1, .control, text "interrupt handler address"⟩,
    ⟨text "cause", 2, .control, text "interrupt cause"⟩]

def find? (name : Bytes) : Option Register := all.find? fun r => r.name == name

/-- The spelling a listing uses. -/
def spelling (kind : RegisterKind) (address : UInt8) : Bytes :=
  match kind with
  | .general =>
    if address == stackPointer then text "%sp"
    else if address == programCounter then text "%pc"
    else text "%r" ++ Bytes.decimal address.toNat
  | .control =>
    if address == 0 then text "%status"
    else if address == 1 then text "%handler"
    else if address == 2 then text "%cause"
    else text "%csr" ++ Bytes.decimal address.toNat

end Register

end AsmKit
