import AsmKit.Bytes
import AsmKit.Ordered

/-
  Relocations and their table. The table is kept in ascending order of symbols, the relocations of
  one symbol in the order they were added. `RelocationBuckets` files them by symbol and sorts the
  symbols when it is listed; it comes to the same (`AsmKit.Proofs.RelocationOrder`).
-/

namespace AsmKit

inductive RelocationType where
  | none
  /-- Fills in the address of the symbol. -/
  | symbol
  /-- Fills in the address of the word that the instruction reads through. -/
  | symbolIndirect
deriving DecidableEq, Repr

namespace RelocationType

def all : List RelocationType := [.none, .symbol, .symbolIndirect]

def code (t : RelocationType) : UInt8 := UInt8.ofNat (all.idxOf t)

/-- The type of a code, `none` for a code that has no other. -/
def ofCode (code : UInt8) : RelocationType := all.getD code.toNat .none

def spelling : RelocationType → Bytes
  | .none => text "NONE"
  | .symbol => text "SYMBOL"
  | .symbolIndirect => text "SYMBOL_INDIRECT"

def ofSpelling? (s : Bytes) : Option RelocationType := all.find? fun t => t.spelling == s

end RelocationType

structure Relocation where
  symbol : Bytes
  type : RelocationType
  location : UInt32
  sectionName : Bytes
deriving DecidableEq, Repr

structure RelocationTable where
  /-- The relocations, ascending by symbol. -/
  entries : List Relocation := []
deriving DecidableEq, Repr

namespace RelocationTable

def add (t : RelocationTable) (r : Relocation) : RelocationTable where
  entries := Ordered.insert (fun a b => a.symbol ≤ b.symbol) r t.entries

/-- The relocations of one symbol, in the order they were added. -/
def get (t : RelocationTable) (symbol : Bytes) : List Relocation :=
  t.entries.filter fun r => r.symbol == symbol

def size (t : RelocationTable) : Nat := t.entries.length

end RelocationTable

/-- A bucket for each symbol, in no order of its own, and how many relocations there are in all. -/
structure RelocationBuckets where
  buckets : List (Bytes × List Relocation) := []
  count : Nat := 0
deriving DecidableEq, Repr

namespace RelocationBuckets

/-- Puts a relocation last into the bucket of its symbol. -/
def file (r : Relocation) : List (Bytes × List Relocation) → List (Bytes × List Relocation)
  | [] => [(r.symbol, [r])]
  | bucket :: rest =>
    if bucket.1 = r.symbol then (bucket.1, bucket.2 ++ [r]) :: rest else bucket :: file r rest

def add (t : RelocationBuckets) (r : Relocation) : RelocationBuckets where
  buckets := file r t.buckets
  count := t.count + 1

def get (t : RelocationBuckets) (symbol : Bytes) : List Relocation :=
  (t.buckets.find? fun bucket => bucket.1 == symbol).elim [] Prod.snd

def symbols (t : RelocationBuckets) : List Bytes := t.buckets.map Prod.fst

/-- The buckets one behind the other, by symbol. The symbols are gone through in any order. -/
def all (t : RelocationBuckets) (symbols : List Bytes) : List Relocation :=
  (Ordered.sort (fun a b => decide (a ≤ b)) symbols).flatMap t.get

end RelocationBuckets

end AsmKit
