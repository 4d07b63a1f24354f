import AsmKit.Source.Token
import AsmKit.Text.Piece

/-
  Cutting a source line into lexemes. Separators and commas end a lexeme, a comma is a lexeme of
  its own, brackets keep their contents whole, and a colon that stands alone joins the lexeme
  before it.
-/

namespace AsmKit

namespace Lexeme

def isSeparator (b : UInt8) : Bool :=
  b == 0x20 || b == 0x09 || b == 0x0D || b == 0x0B || b == 0x0C

/-- The bytes that a word goes on with. -/
def isWordByte (b : UInt8) : Bool := !isSeparator b && b != comma && b != leftBracket

/-- Adds a word to the lexemes found, which are held last first. -/
def addWord (word : Bytes) (found : List Bytes) : List Bytes :=
  match found with
  | last :: before =>
    if word == [colon] && last != [comma] then (last ++ [colon]) :: before else word :: found
  | [] => [word]

/-- The lexemes of a line, behind those found already, which are held last first. -/
def cut (found : List Bytes) (line : Bytes) : List Bytes :=
  match line with
  | [] => found.reverse
  | b :: rest =>
    if isSeparator b then cut found rest
    else if b = comma then cut ([comma] :: found) rest
    else if b = leftBracket then
      match _h : rest.dropWhile (· != rightBracket) with
      | [] => (Bytes.trim (b :: rest) :: found).reverse
      | close :: after => cut ((b :: rest.takeWhile (· != rightBracket) ++ [close]) :: found) after
    else cut (addWord (b :: rest.takeWhile isWordByte) found) (rest.dropWhile isWordByte)
termination_by line.length
decreasing_by
  · simp
  · simp
  · have := (List.dropWhile_suffix (· != rightBracket) (l := rest)).length_le
    rw [_h] at this
    simp at this ⊢
    omega
  · have := (List.dropWhile_suffix isWordByte (l := rest)).length_le
    simp
    omega

def ofLine (line : Bytes) : List Bytes := cut [] line

/-- A line up to its comment. -/
def stripComment (line : Bytes) : Bytes := line.takeWhile (· != hash)

end Lexeme

namespace Token

def ofLexeme (lineNumber : Int) (lexeme : Bytes) : Except Error Token :=
  match Lexeme.classify lexeme with
  | .none => .error (.atLine .unknownToken lineNumber lexeme)
  | kind => .ok ⟨kind, Lexeme.undecorate kind lexeme⟩

/-- The tokens of a line that has no comment. -/
def ofLine (lineNumber : Int) (line : Bytes) : Except Error (List Token) :=
  (Lexeme.ofLine line).mapM (ofLexeme lineNumber)

end Token

end AsmKit
