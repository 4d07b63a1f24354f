import AsmKit.Bytes

/-
  Symbols and their table. The table is kept in ascending order of names, one symbol to a name, so
  that it is its own listing.
-/

namespace AsmKit

/-- The section of symbols that are referred to or imported but not defined. -/
def undefinedSection : Bytes := text "UND"

structure Symbol where
  name : Bytes
  sectionName : Bytes
  value : UInt32
  isGlobal : Bool := false
  isExtern : Bool := false
  number : Int64
  /-- The byte length of a section, -1 for any other symbol. -/
  size : Int64
  isDefined : Bool := false
  /-- The object a merged symbol came from. -/
  file : Bytes := []
deriving DecidableEq, Repr

namespace Symbol

/-- The size of a symbol that is not a section. -/
def noSize : Int64 := -1

def isSection (s : Symbol) : Bool := s.size != noSize

/-- Puts a symbol into an ascending list, in place of the one of its name. -/
def put (sym : Symbol) : List Symbol → List Symbol
  | [] => [sym]
  | s :: rest =>
    if s.name = sym.name then sym :: rest
    else if sym.name < s.name then sym :: s :: rest
    else s :: put sym rest

end Symbol

structure SymbolTable where
  /-- The symbols, ascending by name. -/
  entries : List Symbol := []
  /-- The number of the next new symbol. -/
  next : Int64 := 0
deriving DecidableEq, Repr

namespace SymbolTable

def get? (t : SymbolTable) (name : Bytes) : Option Symbol :=
  t.entries.find? fun s => s.name == name

def size (t : SymbolTable) : Nat := t.entries.length

/-- A new symbol under the next number, in place of any of its name. -/
def create (t : SymbolTable) (name sectionName : Bytes) (value : UInt32) (size : Int64) :
    SymbolTable where
  entries := Symbol.put { name, sectionName, value, number := t.next, size } t.entries
  next := t.next + 1

/-- Stores a symbol as it is, in place of any of its name. -/
def insert (t : SymbolTable) (sym : Symbol) : SymbolTable where
  entries := sym.put t.entries
  next := if t.next < sym.number + 1 then sym.number + 1 else t.next

/-- Changes the symbol of a name, which keeps its name. -/
def modify (t : SymbolTable) (name : Bytes) (f : Symbol → Symbol) : SymbolTable :=
  { t with entries := t.entries.map fun s => if s.name = name then { f s with name } else s }

end SymbolTable

end AsmKit
