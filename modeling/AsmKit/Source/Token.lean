import AsmKit.Error
import AsmKit.Machine.Instruction

/-
  Tokens of the source language. A lexeme gets the kind of the first rule it matches; only a
  mnemonic matches two, the rule for instructions and, behind it, the one for symbols.
-/

namespace AsmKit

inductive TokenKind where
  | none
  | comma
  | stop
  | directive
  /-- An operand in brackets. -/
  | bracket
  | register
  | specialRegister
  | statusRegister
  | decimal
  | hex
  | decimalLiteral
  | hexLiteral
  | instruction
  | label
  | symbolLiteral
  | symbol
deriving DecidableEq, Repr

namespace TokenKind

def name : TokenKind → Bytes
  | .none => text "none"
  | .comma => text "comma"
  | .stop => text "end"
  | .directive => text "directive"
  | .bracket => text "register indirect"
  | .register => text "register"
  | .specialRegister => text "special register"
  | .statusRegister => text "status register"
  | .decimal => text "decimal"
  | .hex => text "hex"
  | .decimalLiteral => text "decimal literal"
  | .hexLiteral => text "hex literal"
  | .instruction => text "instruction"
  | .label => text "label"
  | .symbolLiteral => text "symbol literal"
  | .symbol => text "symbol"

def isGeneral (k : TokenKind) : Bool := k = .register || k = .specialRegister

def isControl (k : TokenKind) : Bool := k = .statusRegister

def isNumber (k : TokenKind) : Bool :=
  k = .decimal || k = .hex || k = .decimalLiteral || k = .hexLiteral

/-- What may stand for an address or a value. -/
def isOperand (k : TokenKind) : Bool :=
  k = .bracket || k.isGeneral || k.isNumber || k = .symbol || k = .symbolLiteral

/-- What a list of words may hold. -/
def isWordItem (k : TokenKind) : Bool := k = .symbol || k = .decimal || k = .hex

end TokenKind

structure Token where
  kind : TokenKind
  /-- The lexeme without the colon of a label or the dollar sign of a literal. -/
  word : Bytes
deriving DecidableEq, Repr

namespace Lexeme

def dollar : UInt8 := 0x24
def colon : UInt8 := 0x3A
def comma : UInt8 := 0x2C
def leftBracket : UInt8 := 0x5B
def rightBracket : UInt8 := 0x5D
def hash : UInt8 := 0x23

/-- `p` holds behind a dollar sign. -/
def literal (p : Bytes → Bool) : Bytes → Bool
  | [] => false
  | b :: rest => b == dollar && p rest

/-- Anything between brackets that keeps to one line. -/
def isBracket (s : Bytes) : Bool :=
  s.head? == some leftBracket && s.tail.getLast? == some rightBracket && s.all (· != Ascii.newline)

/-- `%r` and one or two digits. -/
def isRegister : Bytes → Bool
  | 0x25 :: 0x72 :: digits => Bytes.isDecimal digits && digits.length ≤ 2
  | _ => false

/-- A name and a colon. -/
def isLabel (s : Bytes) : Bool := s.getLast? == some colon && Bytes.isIdentifier s.dropLast

def directives : List Bytes := [".global", ".extern", ".section", ".word", ".skip"].map text

def specialRegisters : List Bytes := ["%pc", "%sp"].map text

def statusRegisters : List Bytes := ["%status", "%handler", "%cause"].map text

/-- A condition, or none, and then `s` or nothing. -/
def suffixes : List Bytes :=
  ["", "eq", "ne", "gt", "ge", "lt", "le", "al"].flatMap fun c => [text c, text c ++ text "s"]

/-- The name of an instruction and a suffix. -/
def isInstruction (s : Bytes) : Bool :=
  Instruction.all.any fun i => i.name.isPrefixOf s && suffixes.contains (s.drop i.name.length)

structure Rule where
  kind : TokenKind
  accepts : Bytes → Bool

def rules : List Rule := [
  ⟨.comma, (· == [comma])⟩,
  ⟨.stop, (· == text ".end")⟩,
  ⟨.directive, directives.contains⟩,
  ⟨.bracket, isBracket⟩,
  ⟨.register, isRegister⟩,
  ⟨.specialRegister, specialRegisters.contains⟩,
  ⟨.statusRegister, statusRegisters.contains⟩,
  ⟨.decimal, Bytes.isDecimal⟩,
  ⟨.hex, Bytes.isHexadecimal⟩,
  ⟨.decimalLiteral, literal Bytes.isDecimal⟩,
  ⟨.hexLiteral, literal Bytes.isHexadecimal⟩,
  ⟨.instruction, isInstruction⟩,
  ⟨.label, isLabel⟩,
  ⟨.symbolLiteral, literal Bytes.isIdentifier⟩,
  ⟨.symbol, Bytes.isIdentifier⟩]

/-- The kind of the first of some rules that a lexeme matches. -/
def classifyBy (rules : List Rule) (s : Bytes) : TokenKind :=
  match rules.find? fun r => r.accepts s with
  | some r => r.kind
  | none => .none

def classify (s : Bytes) : TokenKind := classifyBy rules s

/-- The lexeme without what only marks its kind. -/
def undecorate (kind : TokenKind) (s : Bytes) : Bytes :=
  match kind with
  | .label => s.dropLast
  | .decimalLiteral | .hexLiteral | .symbolLiteral => s.tail
  | _ => s

end Lexeme

end AsmKit
