import AsmKit.Text.Piece
import AsmKit.Text.Printable

/-
  Quoted text, as messages show names: printable characters stand for themselves, everything else
  is escaped, so the result is printable text between two quote marks.
-/

namespace AsmKit.Quoted

def escapeByte (b : UInt8) : Bytes := text "\\x" ++ Bytes.hex 2 b.toNat

/-- How a character stands inside quotes of the given kind. -/
def escapeChar (quote c : Char) : Bytes :=
  if c == quote || c == '\\' then text "\\" ++ text (String.singleton c)
  else if Printable.isPrintable c then text (String.singleton c)
  else match c.toNat with
    | 0x07 => text "\\a"
    | 0x08 => text "\\b"
    | 0x0C => text "\\f"
    | 0x0A => text "\\n"
    | 0x0D => text "\\r"
    | 0x09 => text "\\t"
    | 0x0B => text "\\v"
    | n =>
      if n < 0x80 then text "\\x" ++ Bytes.hex 2 n
      else if n < 0x10000 then text "\\u" ++ Bytes.hex 4 n
      else text "\\U" ++ Bytes.hex 8 n

def escape (quote : Char) (p : Piece) : Bytes :=
  match p.char? with
  | some c => escapeChar quote c
  | none => p.bytes.flatMap escapeByte

end AsmKit.Quoted

namespace AsmKit.Bytes

/-- The text between double quotes. -/
def quoted (s : Bytes) : Bytes :=
  text "\"" ++ s.pieces.flatMap (Quoted.escape '"') ++ text "\""

/-- The character of code `b` between single quotes. -/
def quotedChar (b : UInt8) : Bytes :=
  text "'" ++ Quoted.escapeChar '\x27' (Char.ofNat b.toNat) ++ text "'"

end AsmKit.Bytes
