import AsmKit.Error

/-
  Search trees of intervals, as the check for overlaps uses them. The check works with any tree; one
  that keeps its intervals in an ascending list is `IntervalTree.sorted`.
-/

namespace AsmKit

/-- A stretch of addresses. Both ends count in. -/
structure Interval where
  start : UInt32
  stop : UInt32
deriving DecidableEq, Repr

namespace Interval

/-- The two have an address in common. -/
def Touches (i j : Interval) : Prop := j.start ≤ i.stop ∧ i.start ≤ j.stop

/-- By start, and by end where the starts are the same. -/
def Precedes (i j : Interval) : Prop := i.start < j.start ∨ i.start = j.start ∧ i.stop < j.stop

instance (i j : Interval) : Decidable (i.Touches j) := inferInstanceAs (Decidable (_ ∧ _))

instance (i j : Interval) : Decidable (i.Precedes j) := inferInstanceAs (Decidable (_ ∨ _))

variable {i j k : Interval}

theorem Precedes.asymm (h : i.Precedes j) : ¬ j.Precedes i := by
  unfold Precedes at *
  grind

theorem Precedes.trans (h : i.Precedes j) (h' : j.Precedes k) : i.Precedes k := by
  unfold Precedes at *
  grind

theorem precedes_of_not (hne : j ≠ i) (h : ¬ i.Precedes j) : j.Precedes i := by
  rcases i with ⟨istart, istop⟩
  rcases j with ⟨jstart, jstop⟩
  unfold Precedes at *
  grind

end Interval

/-- A search tree of intervals, with a value under each. -/
structure IntervalTree (α : Type) where
  Tree : Type
  empty : Tree
  /-- Puts a value under an interval, or tells what is wrong with the interval. -/
  insert : Tree → Interval → α → Except Error Tree
  /-- The value under an interval. -/
  find? : Tree → Interval → Option α
  /-- The values under all intervals that touch one. -/
  intersections : Tree → Interval → List α

namespace IntervalTree

variable {α : Type}

/-- Intervals and what is under them, in ascending order. -/
def Ascending (entries : List (Interval × α)) : Prop := entries.Pairwise fun x y => x.1.Precedes y.1

/-- Puts a value under an interval, in place of the one that is there. -/
def put (i : Interval) (a : α) : List (Interval × α) → List (Interval × α)
  | [] => [(i, a)]
  | x :: rest =>
    if x.1 = i then (i, a) :: rest
    else if i.Precedes x.1 then (i, a) :: x :: rest
    else x :: put i a rest

theorem mem_put {i : Interval} {a : α} {x : Interval × α} {entries : List (Interval × α)}
    (h : x ∈ put i a entries) : x = (i, a) ∨ x ∈ entries := by
  induction entries with
  | nil => exact .inl (List.mem_singleton.mp h)
  | cons y rest ih =>
    unfold put at h
    split at h
    · exact (List.mem_cons.mp h).imp_right (List.mem_cons_of_mem _)
    · split at h
      · exact List.mem_cons.mp h
      · rcases List.mem_cons.mp h with rfl | h
        · exact .inr (List.mem_cons_self ..)
        · exact (ih h).imp_right (List.mem_cons_of_mem _)

theorem ascending_put {i : Interval} {a : α} {entries : List (Interval × α)}
    (h : Ascending entries) : Ascending (put i a entries) := by
  induction entries with
  | nil => exact List.pairwise_singleton ..
  | cons x rest ih =>
    obtain ⟨hx, hrest⟩ := List.pairwise_cons.mp h
    unfold put
    split
    · next hsame => exact List.pairwise_cons.mpr ⟨fun y hy => hsame ▸ hx y hy, hrest⟩
    · next hne =>
      split
      · next hbefore =>
        refine List.pairwise_cons.mpr ⟨fun y hy => ?_, h⟩
        rcases List.mem_cons.mp hy with rfl | hy
        · exact hbefore
        · exact hbefore.trans (hx y hy)
      · next hbefore =>
        refine List.pairwise_cons.mpr ⟨fun y hy => ?_, ih hrest⟩
        rcases mem_put hy with rfl | hy
        · exact Interval.precedes_of_not hne hbefore
        · exact hx y hy

/-- A tree that is a list. An interval has to end behind its start. -/
def sorted (α : Type) : IntervalTree α where
  Tree := { entries : List (Interval × α) // Ascending entries }
  empty := ⟨[], List.Pairwise.nil⟩
  insert t i a :=
    if i.stop ≤ i.start then .error (.plain (.emptyInterval i.start i.stop))
    else .ok ⟨put i a t.val, ascending_put t.property⟩
  find? t i := t.val.lookup i
  intersections t i := (t.val.filter fun x => i.Touches x.1).map Prod.snd

end IntervalTree

end AsmKit
