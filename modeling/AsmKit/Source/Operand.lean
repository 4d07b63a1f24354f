import AsmKit.Machine.Register
import AsmKit.Object.Relocation
import AsmKit.Object.Symbol
import AsmKit.Source.Bracket
import AsmKit.Source.Line

/-
  Operands, resolved against a symbol table. An operand fills a register field and the literal of
  its instruction; one that names a symbol also asks for a relocation of the literal.
-/

namespace AsmKit

open Error (Complaint)

/-- How an operand reaches its value. -/
inductive AddressMode where
  | immediate
  | direct
  | registerDirect
  | registerIndirect
  | registerIndirectLiteral
  | registerIndirectSymbol
  | symbolic
  | symbolicIndirect
deriving DecidableEq, Repr

structure Operand where
  mode : AddressMode
  register : UInt8 := 0
  value : UInt32 := 0
  /-- The symbol whose address the literal is to hold, and how. -/
  reference? : Option (Bytes × RelocationType) := none
deriving DecidableEq, Repr

/-- The symbol that a statement refers to. It has to be defined, imported or exported; one that is
exported and defined nowhere is left to the linker. -/
def SymbolTable.lookup (t : SymbolTable) (name : Bytes) : Except Complaint Symbol :=
  match t.get? name with
  | some s =>
    if s.isDefined || s.isExtern || s.isGlobal then .ok s else .error ⟨.undefinedSymbol, name⟩
  | none => .error ⟨.undefinedSymbol, name⟩

/-- The number of a register. -/
def Token.register (t : Token) : Except Complaint UInt8 :=
  let name := match t.word with
    | 0x25 :: name => name
    | name => name
  match Register.find? name with
  | some r => .ok r.address
  | none => .error ⟨.operandTooLarge, t.word⟩

namespace Operand

/-- The largest value of a symbol that is added to a register. -/
def largestOffset : UInt32 := 2047

/-- The target of a jump: a number or a symbol, with a dollar sign the word that it addresses. -/
def jump (symbols : SymbolTable) (t : Token) : Except Complaint Operand :=
  match t.kind with
  | .decimal | .hex => do
    return { mode := .immediate, value := ← t.number }
  | .decimalLiteral | .hexLiteral => do
    return { mode := .direct, value := ← t.number }
  | .symbol => do
    let s ← symbols.lookup t.word
    return { mode := .symbolic, value := s.value, reference? := some (t.word, .symbol) }
  | .symbolLiteral => do
    let s ← symbols.lookup t.word
    return { mode := .symbolicIndirect, value := s.value, reference? := some (t.word, .symbol) }
  | _ => .error ⟨.unsupportedJumpOperand, t.word⟩

/-- An operand in brackets. -/
def bracket (symbols : SymbolTable) (t : Token) : Except Complaint Operand :=
  match Bracket.read? t.word with
  | none => .error ⟨.syntaxError, t.word⟩
  | some b => do
    let register ← Token.register ⟨.register, 0x25 :: b.register⟩
    match b.offset? with
    | none => return { mode := .registerIndirect, register }
    | some offset =>
      if offset.isIdentifier then
        let s ← symbols.lookup offset
        if largestOffset < s.value then
          throw ⟨.operandTooLarge, offset⟩
        return { mode := .registerIndirectSymbol, register, value := s.value,
                 reference? := some (offset, .symbol) }
      else
        let value ← Token.number ⟨.decimal, offset⟩
        return { mode := .registerIndirectLiteral, register, value }

/-- What a load reads or a store writes to. -/
def data (symbols : SymbolTable) (t : Token) : Except Complaint Operand :=
  match t.kind with
  | .bracket => bracket symbols t
  | .decimalLiteral | .hexLiteral => do
    return { mode := .immediate, value := ← t.number }
  | .decimal | .hex => do
    return { mode := .direct, value := ← t.number }
  | .register | .specialRegister => do
    return { mode := .registerDirect, register := ← t.register }
  | .symbol => do
    let s ← symbols.lookup t.word
    return { mode := .symbolicIndirect, value := s.value,
             reference? := some (t.word, .symbolIndirect) }
  | .symbolLiteral => do
    let s ← symbols.lookup t.word
    return { mode := .symbolic, value := s.value, reference? := some (t.word, .symbol) }
  | _ => .error ⟨.syntaxError, t.word⟩

/-- Whether an operand selects the direct form of an instruction. A store goes through its operand,
so a symbol read as memory selects it there. -/
def isDirect (shape : Shape) (mode : AddressMode) : Bool :=
  mode = .registerDirect || mode = .immediate
    || mode = if shape = .store then .symbolicIndirect else .symbolic

/-- The first byte of an instruction with the operand. -/
def opcode (o : Operand) (i : Instruction) : UInt8 :=
  if isDirect i.shape o.mode then i.opcode else i.indirect

end Operand

end AsmKit
