import AsmKit.Bytes

/-
  The lines of a text. A line ends at a newline or at the end of the text, and loses one carriage
  return at its end. Reading stops before a line that is too long.
-/

namespace AsmKit

structure Lines where
  /-- The lines before the first one that is too long. -/
  lines : List Bytes
  overlong : Bool
deriving DecidableEq, Repr

namespace Lines

/-- Cuts text at its newlines, with the line being read and the lines before it, both held last
first. Nothing stands behind a final newline. -/
def cut (line : Bytes) (found : List Bytes) : Bytes → List Bytes
  | [] => (if line.isEmpty then found else line.reverse :: found).reverse
  | b :: rest =>
    if b == Ascii.newline then cut [] (line.reverse :: found) rest
    else cut (b :: line) found rest

def dropReturn (line : Bytes) : Bytes :=
  if line.getLast? == some Ascii.carriageReturn then line.dropLast else line

/-- The lines of `s`, of which each has fewer than `limit` bytes before its newline. -/
def read (limit : Nat) (s : Bytes) : Lines :=
  let raw := cut [] [] s
  { lines := (raw.takeWhile fun l => l.length < limit).map dropReturn
    overlong := raw.any fun l => limit ≤ l.length }

end Lines

end AsmKit
