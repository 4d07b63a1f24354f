import AsmKit.Object.Relocation

/-
  What the tools do, as they do it. Milestones are few; details tell of every symbol and section.
-/

namespace AsmKit

inductive Event where
  -- assembling
  | assembling (file : Bytes) (lines : Nat)
  | assembled (file : Bytes) (sections symbols relocations : Nat)
  | sectionOpened (file : Bytes) (line : Nat) (name : Bytes)
  | labelDefined (file : Bytes) (line : Nat) (name sectionName : Bytes) (value : UInt32)
  | globalDeclared (file : Bytes) (line : Nat) (name : Bytes)
  | externDeclared (file : Bytes) (line : Nat) (name : Bytes)
  | endReached (file : Bytes) (line : Nat)
  -- linking
  | linking (objects : Nat)
  | linked (sections : Nat)
  | symbolMerged (name file : Bytes) (isGlobal isExtern : Bool)
  | placementUnused (name : Bytes)
  | sectionPlaced (name file : Bytes) (address length : UInt32)
  | relocated (file sectionName : Bytes) (location : UInt32) (symbol : Bytes) (address : UInt32)
      (type : RelocationType)
  -- commands
  | placementIgnored (argument name : Bytes) (address : UInt32)
  | writing (path : Bytes)
deriving DecidableEq, Repr

namespace Event

inductive Level where
  | warning
  | milestone
  | detail
deriving DecidableEq, Repr

def level : Event → Level
  | .placementIgnored .. => .warning
  | .assembling .. | .assembled .. | .linking .. | .linked .. | .writing .. => .milestone
  | _ => .detail

/-- A file and a line of it. -/
def position (file : Bytes) (line : Nat) : Bytes :=
  file ++ text ":" ++ Bytes.decimal line ++ text ": "

def truth (b : Bool) : Bytes := if b then text "true" else text "false"

def unusedMessage (name : Bytes) : Bytes :=
  text "placement for " ++ name ++ text " matches no section"

def message : Event → Bytes
  | .assembling file lines =>
    text "assembling " ++ file ++ text ": " ++ Bytes.decimal lines ++ text " lines"
  | .assembled file sections symbols relocations =>
    text "assembled " ++ file ++ text ": " ++ Bytes.decimal sections ++ text " sections, "
      ++ Bytes.decimal symbols ++ text " symbols, " ++ Bytes.decimal relocations
      ++ text " relocations"
  | .sectionOpened file line name => position file line ++ text "section " ++ name
  | .labelDefined file line name sectionName value =>
    position file line ++ text "label " ++ name ++ text " = " ++ sectionName ++ text "+"
      ++ Bytes.prefixedHex value.toNat
  | .globalDeclared file line name => position file line ++ text "global " ++ name
  | .externDeclared file line name => position file line ++ text "extern " ++ name
  | .endReached file line => file ++ text ": end at line " ++ Bytes.decimal line
  | .linking objects => text "linking " ++ Bytes.decimal objects ++ text " objects"
  | .linked sections => text "linked " ++ Bytes.decimal sections ++ text " sections"
  | .symbolMerged name file isGlobal isExtern =>
    text "symbol " ++ name ++ text " from " ++ file ++ text " (global=" ++ truth isGlobal
      ++ text " extern=" ++ truth isExtern ++ text ")"
  | .placementUnused name => unusedMessage name
  | .sectionPlaced name file address length =>
    text "section " ++ name ++ text " of " ++ file ++ text " at "
      ++ Bytes.prefixedHex address.toNat ++ text ", " ++ Bytes.decimal length.toNat
      ++ text " bytes"
  | .relocated file sectionName location symbol address type =>
    file ++ text ": " ++ sectionName ++ text "+" ++ Bytes.prefixedHex location.toNat ++ text " <- "
      ++ symbol ++ text " = " ++ Bytes.prefixedHex address.toNat ++ text " (" ++ type.spelling
      ++ text ")"
  | .placementIgnored argument name address =>
    text "-place=" ++ argument ++ text " ignored, " ++ name ++ text " already placed at "
      ++ Bytes.prefixedHex address.toNat
  | .writing path => text "writing " ++ path

end Event

end AsmKit
