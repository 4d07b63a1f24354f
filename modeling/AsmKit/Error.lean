import AsmKit.Text.Number

/-
  What the tools report. A report has a kind, the names it concerns and, where known, a line, a
  file and a cause; causes that are not reports themselves are listed in `Cause`. All wording
  stands in this module.
-/

namespace AsmKit

namespace Error

inductive Kind where
  | internal
  | unknownToken
  | syntaxError
  | illegalLineStart
  | noSection
  | symbolRedefined
  | definingExtern
  | globalExtern
  | importingDefined
  | sectionRedefined
  | undefinedSymbol
  | operandTooLarge
  | unsupportedJumpOperand
  | labelSectionConflict
  | multipleDefinition
  | unresolvedSymbol
  | sectionsOverlap
  | addressOverflow
  | malformedObject
  | usage
  | badOpcode
  | truncated
  /-- A code that has no name. -/
  | unnamed (code : UInt8)
deriving DecidableEq, Repr, Inhabited

namespace Kind

/-- The named kinds in the order of their codes, with their texts. -/
def named : List (Kind × String) := [
  (.internal, "internal error"),
  (.unknownToken, "unknown token"),
  (.syntaxError, "syntax error"),
  (.illegalLineStart, "illegal line start"),
  (.noSection, "no section"),
  (.symbolRedefined, "symbol redefined"),
  (.definingExtern, "defining extern symbol"),
  (.globalExtern, "symbol both global and extern"),
  (.importingDefined, "importing defined symbol"),
  (.sectionRedefined, "section redefined"),
  (.undefinedSymbol, "undefined symbol"),
  (.operandTooLarge, "operand too large"),
  (.unsupportedJumpOperand, "unsupported jump operand"),
  (.labelSectionConflict, "label/section conflict"),
  (.multipleDefinition, "multiple definition"),
  (.unresolvedSymbol, "unresolved symbol"),
  (.sectionsOverlap, "sections overlap"),
  (.addressOverflow, "section runs past the end of memory"),
  (.malformedObject, "malformed object"),
  (.usage, "usage"),
  (.badOpcode, "bad opcode"),
  (.truncated, "truncated instruction")]

def ofCode (code : UInt8) : Kind :=
  match named[code.toNat]? with
  | some (k, _) => k
  | none => .unnamed code

def code (k : Kind) : UInt8 :=
  match k with
  | .unnamed code => code
  | k => UInt8.ofNat (named.findIdx fun entry => entry.1 == k)

def message (k : Kind) : Bytes :=
  match named.find? (fun entry => entry.1 == k) with
  | some (_, s) => text s
  | none => text "error kind " ++ Bytes.decimal k.code.toNat

end Kind

/-- A cause that carries no kind of its own. -/
inductive Cause where
  | note (message : Bytes)
  | number (refusal : Number.Refusal)
  | lineTooLong
  -- object text
  | sectionOutside
  | duplicateSection (name : Bytes)
  | duplicateSymbol (name : Bytes)
  | bytesBeforeSection
  | badByte (field : Bytes)
  | badFlag (field : Bytes)
  | symbolRowSize (fields : Nat)
  | symbolValue (refusal : Number.Refusal)
  | symbolNumber (refusal : Number.Refusal)
  | symbolSize (refusal : Number.Refusal)
  | relocationRowSize (fields : Nat)
  | relocationType (field : Bytes)
  | relocationLocation (refusal : Number.Refusal)
  | unexpectedLine (line : Bytes)
  -- sections in memory
  | patchPastEnd (offset : UInt32) (name : Bytes) (size : Nat)
  | bytesAt (size : UInt32) (address : UInt32)
  | emptyInterval (start stop : UInt32)
  -- arguments
  | unknownFlag (name : Bytes)
  | unknownShorthand (letter : UInt8) (argument : Bytes)
  | flagNeedsValue (argument : Bytes)
  | shorthandNeedsValue (letter : UInt8) (argument : Bytes)
  | badFlagForm (argument : Bytes)
  | badFlagValue (value flag : Bytes) (refusal : Number.Refusal)
  | exactArguments (wanted received : Nat)
  | leastArguments (wanted received : Nat)
  | mostArguments (wanted received : Nat)
  -- files
  | cannotOpen (path reason : Bytes)
  | cannotRead (path reason : Bytes)
deriving DecidableEq, Repr

def Cause.message : Cause → Bytes
  | .note message => message
  | .number refusal => refusal.message
  | .lineTooLong => text "bufio.Scanner: token too long"
  | .sectionOutside => text "section block outside of section code"
  | .duplicateSection name => text "duplicate section " ++ name.quoted
  | .duplicateSymbol name => text "duplicate symbol " ++ name.quoted
  | .bytesBeforeSection => text "section bytes before any section"
  | .badByte field => text "bad byte " ++ field.quoted
  | .badFlag field => text "bad flag " ++ field.quoted
  | .symbolRowSize n => text "symbol row has " ++ Bytes.decimal n ++ text " fields"
  | .symbolValue refusal => text "symbol value: " ++ refusal.message
  | .symbolNumber refusal => text "symbol number: " ++ refusal.message
  | .symbolSize refusal => text "symbol size: " ++ refusal.message
  | .relocationRowSize n => text "relocation row has " ++ Bytes.decimal n ++ text " fields"
  | .relocationType field => text "unknown relocation type " ++ field.quoted
  | .relocationLocation refusal => text "relocation location: " ++ refusal.message
  | .unexpectedLine line => text "unexpected " ++ line.quoted
  | .patchPastEnd offset name size =>
    text "patch at " ++ Bytes.prefixedHex offset.toNat ++ text " past end of section " ++ name
      ++ text " (" ++ Bytes.decimal size ++ text " bytes)"
  | .bytesAt size address =>
    Bytes.decimal size.toNat ++ text " bytes at " ++ Bytes.prefixedHex address.toNat
  | .emptyInterval start stop =>
    text "interval search tree invalid range: start value " ++ Bytes.decimal start.toNat
      ++ text " cannot be less than or equal to end value " ++ Bytes.decimal stop.toNat
  | .unknownFlag name => text "unknown flag: --" ++ name
  | .unknownShorthand letter argument =>
    text "unknown shorthand flag: " ++ Bytes.quotedChar letter ++ text " in -" ++ argument
  | .flagNeedsValue argument => text "flag needs an argument: " ++ argument
  | .shorthandNeedsValue letter argument =>
    text "flag needs an argument: " ++ Bytes.quotedChar letter ++ text " in -" ++ argument
  | .badFlagForm argument => text "bad flag syntax: " ++ argument
  | .badFlagValue value flag refusal =>
    text "invalid argument " ++ value.quoted ++ text " for " ++ flag.quoted ++ text " flag: "
      ++ refusal.message
  | .exactArguments wanted received =>
    text "accepts " ++ Bytes.decimal wanted ++ text " arg(s), received " ++ Bytes.decimal received
  | .leastArguments wanted received =>
    text "requires at least " ++ Bytes.decimal wanted ++ text " arg(s), only received "
      ++ Bytes.decimal received
  | .mostArguments wanted received =>
    text "accepts at most " ++ Bytes.decimal wanted ++ text " arg(s), received "
      ++ Bytes.decimal received
  | .cannotOpen path reason => text "open " ++ path ++ text ": " ++ reason
  | .cannotRead path reason => text "read " ++ path ++ text ": " ++ reason

/-- A diagnosis apart from its cause. An empty name, other name or file is none, and a line that
is not positive is none. -/
structure Report where
  kind : Kind
  name : Bytes := []
  other : Bytes := []
  line : Int := 0
  file : Bytes := []
deriving DecidableEq, Repr

def Report.message (r : Report) : Bytes :=
  (if r.file.isEmpty then [] else r.file ++ text ": ")
    ++ (if 0 < r.line then text "line " ++ Bytes.signed r.line ++ text ": " else [])
    ++ r.kind.message
    ++ (if r.name.isEmpty then []
        else if r.other.isEmpty then text ": " ++ r.name.quoted
        else text ": " ++ r.name.quoted ++ text " and " ++ r.other.quoted)

/-- Names the file, unless the report has one. -/
def Report.inFile (file : Bytes) (r : Report) : Report :=
  if r.file.isEmpty then { r with file } else r

end Error

/-- An error: a report, with or without an error behind it, or something less. -/
inductive Error where
  | bare (kind : Error.Kind)
  | plain (cause : Error.Cause)
  /-- Another error under a message that was fixed when the two were put together. -/
  | wrapped (message : Bytes) (inner : Error)
  | report (report : Error.Report)
  | because (report : Error.Report) (inner : Error)
deriving DecidableEq, Repr, Inhabited

namespace Error

def message : Error → Bytes
  | .bare kind => kind.message
  | .plain cause => cause.message
  | .wrapped message _ => message
  | .report r => r.message
  | .because r inner => r.message ++ text ": " ++ inner.message

/-- Puts a text in front of an error. -/
def wrap (label : Bytes) (e : Error) : Error := .wrapped (label ++ text ": " ++ e.message) e

/-- Every kind in the error, outermost first. -/
def kinds : Error → List Kind
  | .bare kind => [kind]
  | .plain _ => []
  | .wrapped _ inner => inner.kinds
  | .report r => [r.kind]
  | .because r inner => r.kind :: inner.kinds

/-- The outermost kind. -/
def kind? (e : Error) : Option Kind := e.kinds.head?

/-- Names the file the error arose in, unless its outermost report has one. -/
def inFile (file : Bytes) : Error → Error
  | .bare kind => .bare kind
  | .plain cause => .plain cause
  | .wrapped message inner => .wrapped message (inner.inFile file)
  | .report r => .report (r.inFile file)
  | .because r inner => .because (r.inFile file) inner

/-- An error about a name. -/
def about (kind : Kind) (name : Bytes) : Error := .report { kind, name }

/-- An error about a name on a line. -/
def atLine (kind : Kind) (line : Int) (name : Bytes) : Error := .report { kind, name, line }

/-- What is wrong with a statement, apart from where it stands. -/
structure Complaint where
  kind : Kind
  name : Bytes
deriving DecidableEq, Repr

def Complaint.onLine (c : Complaint) (line : Int) : Error := atLine c.kind line c.name

end Error

end AsmKit
