import AsmKit.Linker.IntervalTree

/-
  No two sections of different names may share an address. Stretches of memory are looked at in
  turn, each against those before it, which are kept in a search tree.
-/

namespace AsmKit

/-- A stretch of memory with the name of what lies there. -/
structure Span where
  name : Bytes
  start : UInt32
  length : UInt32
deriving DecidableEq, Repr

namespace Span

/-- The address behind the last byte, which wraps. -/
def stop (s : Span) : UInt32 := s.start + s.length

/-- What the tree keeps a span under. It has one address more than the span. -/
def interval (s : Span) : Interval := ⟨s.start, s.stop⟩

/-- Without their ends, the two have an address in common. -/
def overlaps (s t : Span) : Bool := s.start < t.stop && t.start < s.stop

/-- Looks at spans in turn, after those in `before`. -/
def check (tree : IntervalTree Span) (before : tree.Tree) : List Span → Except Error Unit
  | [] => .ok ()
  | s :: rest =>
    if s.length = 0 then check tree before rest
    else match (tree.intersections before s.interval).find?
        fun t => t.name != s.name && s.overlaps t with
      | some t => .error (.report { kind := .sectionsOverlap, name := t.name, other := s.name })
      | none =>
        match tree.insert before s.interval s with
        | .error e => .error (.because { kind := .internal, name := s.name } e)
        | .ok after => check tree after rest

/-- Fails if two spans of different names share an address. Empty ones hold none. -/
def checkOverlap (tree : IntervalTree Span) (spans : List Span) : Except Error Unit :=
  check tree tree.empty spans

end Span

end AsmKit
