import AsmKit.Machine.Encoding
import AsmKit.Source.Operand

/-
  What a statement adds to its section. It depends on the statement and the symbol table alone, not
  on where in the section the statement stands.
-/

namespace AsmKit

open Error (Complaint)

/-- A word of a statement that is to hold the address of a symbol. -/
structure Reference where
  /-- Where the word is, from the start of the statement. -/
  offset : UInt32
  symbol : Bytes
  type : RelocationType
deriving DecidableEq, Repr

/-- The bytes of a statement up to its end or to what is wrong with it. -/
structure Emission where
  bytes : Bytes := []
  references : List Reference := []
  complaint? : Option Complaint := none
deriving DecidableEq, Repr

namespace Emission

/-- The values before the first failure, and that failure. The values found already are held last
first. -/
def untilFailure {α : Type} (found : List α) : List (Except Complaint α) → List α × Option Complaint
  | [] => (found.reverse, none)
  | .error c :: _ => (found.reverse, some c)
  | .ok a :: rest => untilFailure (a :: found) rest

/-- An item of a word list: its value, and the symbol if it is one. -/
def wordItem (symbols : SymbolTable) (t : Token) : Except Complaint (UInt32 × Option Bytes) :=
  if t.kind = .symbol then do
    let s ← symbols.lookup t.word
    return (if s.isDefined then s.value else 0, some t.word)
  else do
    return (← t.number, none)

def words (symbols : SymbolTable) (arguments : List Token) : Emission :=
  match Token.listOf Directive.words.spelling TokenKind.isWordItem arguments with
  | .error c => { complaint? := some c }
  | .ok items =>
    let (values, complaint?) := untilFailure [] (items.map (wordItem symbols))
    { bytes := values.flatMap fun v => Bytes.ofWord v.1
      references := values.zipIdx.filterMap fun ((_, symbol?), n) =>
        symbol?.map fun symbol => ⟨UInt32.ofNat (4 * n), symbol, .symbol⟩
      complaint? }

/-- How many bytes a skip leaves out. -/
def skipCount (arguments : List Token) : Except Complaint UInt32 :=
  match arguments with
  | [t] => if t.kind.isNumber then t.number else .error (Token.whole Directive.skip.spelling arguments)
  | _ => .error (Token.whole Directive.skip.spelling arguments)

def skip (arguments : List Token) : Emission :=
  match skipCount arguments with
  | .error c => { complaint? := some c }
  | .ok n => { bytes := List.replicate n.toNat 0 }

end Emission

namespace Shape

/-- The kinds of the arguments, commas included. -/
def arguments : Shape → List (TokenKind → Bool)
  | .none => []
  | .jump => [TokenKind.isOperand]
  | .branch => [TokenKind.isGeneral, (· = .comma), TokenKind.isGeneral, (· = .comma),
      TokenKind.isOperand]
  | .stack => [TokenKind.isGeneral]
  | .twoRegisters => [TokenKind.isGeneral, (· = .comma), TokenKind.isGeneral]
  | .oneRegister => [TokenKind.isGeneral]
  | .load => [TokenKind.isOperand, (· = .comma), TokenKind.isGeneral]
  | .store => [TokenKind.isGeneral, (· = .comma), TokenKind.isOperand]
  | .controlRead => [TokenKind.isControl, (· = .comma), TokenKind.isGeneral]
  | .controlWrite => [TokenKind.isGeneral, (· = .comma), TokenKind.isControl]

end Shape

namespace Instruction

/-- Holds the arguments to the kinds that the instruction takes. -/
def checkArguments (i : Instruction) (arguments : List Token) : Except Complaint Unit :=
  if arguments.length ≠ i.shape.arguments.length then .error (Token.whole i.name arguments)
  else match (arguments.zip i.shape.arguments).find? fun (t, accepts) => !accepts t.kind with
    | some (t, _) => .error ⟨.syntaxError, t.word⟩
    | none => .ok ()

/-- The fields, the literal and the reference of a statement, whose arguments have the right kinds.
Registers are looked at before any other operand. -/
def operands (symbols : SymbolTable) (i : Instruction) (arguments : List Token) :
    Except Complaint (Fields × Option Operand) :=
  match i.shape, arguments with
  | .none, [] => .ok ({ opcode := i.opcode }, none)
  | .jump, [target] => do
    let o ← Operand.jump symbols target
    return ({ opcode := o.opcode i, a := o.register }, some o)
  | .branch, [left, _, right, _, target] => do
    let b ← left.register
    let c ← right.register
    let o ← Operand.jump symbols target
    return ({ opcode := o.opcode i, a := o.register, b, c }, some o)
  | .stack, [register] => do
    let r ← register.register
    if i.mnemonic = .push then
      return ({ opcode := i.opcode, a := Register.stackPointer, c := r, displacement := 1 }, none)
    else
      return ({ opcode := i.opcode, a := r, b := Register.stackPointer, displacement := -1 }, none)
  | .twoRegisters, [source, _, destination] => do
    let s ← source.register
    let d ← destination.register
    if i.mnemonic = .xchg then
      return ({ opcode := i.opcode, b := s, c := d }, none)
    else
      return ({ opcode := i.opcode, a := d, b := d, c := s }, none)
  | .oneRegister, [register] => do
    let r ← register.register
    return ({ opcode := i.opcode, a := r, b := r }, none)
  | .load, [source, _, destination] => do
    let a ← destination.register
    let o ← Operand.data symbols source
    return ({ opcode := o.opcode i, a, b := o.register }, some o)
  | .store, [source, _, destination] => do
    let c ← source.register
    let o ← Operand.data symbols destination
    return ({ opcode := o.opcode i, a := o.register, c }, some o)
  | .controlRead, [source, _, destination] | .controlWrite, [source, _, destination] => do
    let b ← source.register
    let a ← destination.register
    return ({ opcode := i.opcode, a, b }, none)
  | _, _ => .error (Token.whole i.name arguments)

/-- What a statement with the instruction adds to its section. -/
def emission (symbols : SymbolTable) (i : Instruction) (arguments : List Token) : Emission :=
  match (do checkArguments i arguments; operands symbols i arguments : Except Complaint _) with
  | .error c => { complaint? := some c }
  | .ok (fields, operand?) =>
    { bytes := i.encode fields ((operand?.map Operand.value).getD 0)
      references := ((operand?.bind Operand.reference?).map fun (symbol, type) =>
        ⟨UInt32.ofNat wordSize, symbol, type⟩).toList }

end Instruction

end AsmKit
