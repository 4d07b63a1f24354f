import AsmKit.Error
import AsmKit.Event
import AsmKit.Linker.Basic

/-
  Placements as arguments: a section name, `@` and an address. The first placement of a section
  counts, later ones only draw a warning.
-/

namespace AsmKit

namespace Placements

/-- The argument as a complaint names it. -/
def title (arg : Bytes) : Bytes := text "-place=" ++ arg

/-- A name of word characters and the spelling of an address. -/
def split? (arg : Bytes) : Option (Bytes × Bytes) :=
  let name := arg.takeWhile Ascii.isWord
  match arg.dropWhile Ascii.isWord with
  | 0x40 :: address =>
    if !name.isEmpty && (Bytes.isDecimal address || Bytes.isHexadecimal address) then
      some (name, address)
    else none
  | _ => none

def readOne (arg : Bytes) : Except Error (Bytes × UInt32) :=
  match split? arg with
  | none => .error (.about .usage (title arg))
  | some (name, address) =>
    match address.readNumeral with
    | .error refusal => .error (.because { kind := .usage, name := title arg } (.plain (.number refusal)))
    | .ok value => .ok (name, value)

/-- Reads arguments, behind those read before; both results are held last first. -/
def readFrom (placements : Placements) (log : List Event) :
    List Bytes → Except Error Placements × List Event
  | [] => (.ok placements.reverse, log.reverse)
  | arg :: rest =>
    match readOne arg with
    | .error e => (.error e, log.reverse)
    | .ok (name, address) =>
      match placements.lookup name with
      | some earlier => readFrom placements (.placementIgnored arg name earlier :: log) rest
      | none => readFrom ((name, address) :: placements) log rest

/-- The placements that arguments name, and the warnings they draw. -/
def read (arguments : List Bytes) : Except Error Placements × List Event :=
  readFrom [] [] arguments

end Placements

end AsmKit
