import AsmKit.Error

/-
  Sections: a name, bytes and the address the linker gives them. Addresses are 32 bits wide and
  wrap.
-/

namespace AsmKit

structure Section where
  name : Bytes
  code : Bytes := []
  location : UInt32 := 0
  isPlaced : Bool := false
deriving DecidableEq, Repr

namespace Section

/-- How many bytes there are, counted in 32 bits: a section of 2³² bytes has length 0. -/
def length (s : Section) : UInt32 := UInt32.ofNat s.code.length

/-- The address behind the last byte. -/
def stop (s : Section) : UInt32 := s.location + s.length

def append (s : Section) (bytes : Bytes) : Section := { s with code := s.code ++ bytes }

def appendWord (s : Section) (w : UInt32) : Section := s.append (Bytes.ofWord w)

def appendZeros (s : Section) (n : UInt32) : Section := s.append (List.replicate n.toNat 0)

/-- Puts a word at an offset, where there have to be four bytes. -/
def patch (s : Section) (offset w : UInt32) : Except Error Section :=
  if s.code.length < offset.toNat + 4 then
    .error (.plain (.patchPastEnd offset s.name s.code.length))
  else
    .ok { s with
      code := s.code.take offset.toNat ++ Bytes.ofWord w ++ s.code.drop (offset.toNat + 4) }

/-- The word at an offset, where there are four bytes. -/
def word? (s : Section) (offset : UInt32) : Option UInt32 :=
  match s.code.drop offset.toNat with
  | b₃ :: b₂ :: b₁ :: b₀ :: _ => some (Bytes.word b₃ b₂ b₁ b₀)
  | _ => none

end Section

end AsmKit
