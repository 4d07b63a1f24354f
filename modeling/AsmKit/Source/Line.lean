import AsmKit.Source.Lexeme

/-
  Source lines. A line may define a label and then holds a directive, an instruction or nothing;
  `.end`, alone or behind a label, closes the source.
-/

namespace AsmKit

open Error (Complaint)

inductive Directive where
  | globals
  | externs
  | openSection
  | words
  | skip
deriving DecidableEq, Repr

namespace Directive

def all : List Directive := [.globals, .externs, .openSection, .words, .skip]

def spelling : Directive → Bytes
  | .globals => text ".global"
  | .externs => text ".extern"
  | .openSection => text ".section"
  | .words => text ".word"
  | .skip => text ".skip"

def ofSpelling? (s : Bytes) : Option Directive := all.find? fun d => d.spelling == s

end Directive

inductive Statement where
  | nothing
  | directive (directive : Directive) (arguments : List Token)
  | instruction (name : Bytes) (arguments : List Token)
  /-- Something that begins with neither. -/
  | stray (word : Bytes)
  /-- The end of the source. -/
  | stop
deriving DecidableEq, Repr

def Statement.ofTokens : List Token → Statement
  | [] => .nothing
  | head :: arguments =>
    match head.kind with
    | .directive =>
      match Directive.ofSpelling? head.word with
      | some d => .directive d arguments
      | none => .stray head.word
    | .instruction => .instruction head.word arguments
    | _ => .stray head.word

structure SourceLine where
  label? : Option Bytes
  statement : Statement
deriving DecidableEq, Repr

namespace SourceLine

/-- A line that ends the source, behind which nothing may stand. -/
def closing (label? : Option Bytes) : List Token → Except Complaint SourceLine
  | [] => .ok ⟨label?, .stop⟩
  | t :: _ => .error ⟨.syntaxError, t.word⟩

def ofTokens : List Token → Except Complaint SourceLine
  | [] => .ok ⟨none, .nothing⟩
  | head :: rest =>
    match head.kind with
    | .stop => closing none rest
    | .label =>
      match rest with
      | ⟨.stop, _⟩ :: after => closing (some head.word) after
      | _ => .ok ⟨some head.word, .ofTokens rest⟩
    | _ => .ok ⟨none, .ofTokens (head :: rest)⟩

/-- The statement of a line of the source, which may hold a comment. -/
def read (number : Nat) (line : Bytes) : Except Error SourceLine :=
  match Token.ofLine number (Lexeme.stripComment line) with
  | .error e => .error e
  | .ok tokens => (ofTokens tokens).mapError fun c => c.onLine number

end SourceLine

namespace Token

/-- Words with a space between each two. -/
def joined (tokens : List Token) : Bytes := Bytes.joinWith (text " ") (tokens.map Token.word)

/-- What a complaint about all arguments of `head` names. -/
def whole (head : Bytes) (arguments : List Token) : Complaint :=
  ⟨.syntaxError, head ++ text " " ++ joined arguments⟩

/-- The items of a list whose items have the right kind and have commas between them, behind those
found already, which are held last first. -/
def items (accepts : TokenKind → Bool) (found : List Token) :
    List Token → Except Complaint (List Token)
  | [] => .ok found.reverse
  | item :: rest =>
    if !accepts item.kind then .error ⟨.syntaxError, item.word⟩
    else match rest with
      | [] => .ok (item :: found).reverse
      | separator :: rest =>
        if separator.kind ≠ .comma then .error ⟨.syntaxError, separator.word⟩
        else items accepts (item :: found) rest

/-- The items of the list behind `head`, which is not empty and does not end in a comma. -/
def listOf (head : Bytes) (accepts : TokenKind → Bool) (arguments : List Token) :
    Except Complaint (List Token) :=
  if arguments.length % 2 = 0 then .error (whole head arguments) else items accepts [] arguments

/-- The value of a number. -/
def number (t : Token) : Except Complaint UInt32 :=
  (Bytes.readNumeral t.word).mapError fun _ => ⟨.operandTooLarge, t.word⟩

end Token

end AsmKit
