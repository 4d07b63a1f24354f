import AsmKit.Linker.IntervalTree

/-
  What may be relied on of a search tree of intervals. What is in a tree is told by `find?`: inserting
  changes it at one interval, and the intersections are all there is under intervals that touch the
  one asked for (`Finds`). That a tree takes every interval that ends behind its start (`Accepts`) and
  gives intersections in ascending order (`InOrder`) is said apart, since not all that is proved of a
  check for overlaps rests on it. The tree that is a list does all of this.
-/

namespace AsmKit.IntervalTree

variable {α : Type}

/-- A value stays under its interval until it is replaced, and is found by every interval that touches
its own. -/
structure Finds (tree : IntervalTree α) : Prop where
  find?_empty : ∀ i, tree.find? tree.empty i = none
  find?_insert : ∀ {t t' i a}, tree.insert t i a = .ok t' →
    ∀ j, tree.find? t' j = if j = i then some a else tree.find? t j
  mem_intersections : ∀ {t i a}, a ∈ tree.intersections t i ↔
    ∃ j, tree.find? t j = some a ∧ i.Touches j

/-- Only an interval that does not end behind its start is refused. -/
structure Accepts (tree : IntervalTree α) : Prop where
  exists_insert : ∀ t i a, i.start < i.stop → ∃ t', tree.insert t i a = .ok t'

/-- Intersections come by start and end. -/
structure InOrder (tree : IntervalTree α) : Prop where
  ascending : ∀ t i, ∃ js : List Interval, js.Pairwise Interval.Precedes ∧
    (tree.intersections t i).map some = js.map (tree.find? t)

/-! ## The tree that is a list -/

theorem lookup_put (i j : Interval) (a : α) (entries : List (Interval × α)) :
    (put i a entries).lookup j = if j = i then some a else entries.lookup j := by
  have hfront (more : List (Interval × α)) :
      ((i, a) :: more).lookup j = if j = i then some a else more.lookup j := by
    rw [List.lookup_cons]
    by_cases h : j = i
    · rw [if_pos h, beq_iff_eq.mpr h]
    · rw [if_neg h, beq_false_of_ne h]
  induction entries with
  | nil => exact hfront []
  | cons x rest ih =>
    unfold put
    split
    · next hsame =>
      rw [hfront, List.lookup_cons, hsame]
      by_cases h : j = i
      · rw [if_pos h, if_pos h]
      · rw [if_neg h, if_neg h, beq_false_of_ne h]
    · next hother =>
      split
      · exact hfront (x :: rest)
      · rw [List.lookup_cons, List.lookup_cons, ih]
        by_cases h : j = i
        · rw [if_pos h, if_pos h, beq_false_of_ne (h ▸ Ne.symm hother)]
        · rw [if_neg h, if_neg h]

theorem lookup_eq_some_iff {entries : List (Interval × α)} (h : Ascending entries) {i : Interval}
    {a : α} : entries.lookup i = some a ↔ (i, a) ∈ entries := by
  induction entries with
  | nil => simp
  | cons x rest ih =>
    obtain ⟨hx, hrest⟩ := List.pairwise_cons.mp h
    obtain ⟨k, b⟩ := x
    rw [List.lookup_cons, List.mem_cons]
    by_cases hk : i = k
    · subst hk
      simp only [BEq.rfl, Option.some.injEq, Prod.mk.injEq, true_and]
      constructor
      · rintro rfl
        exact .inl rfl
      · rintro (rfl | hmem)
        · rfl
        · exact absurd (hx _ hmem) fun hself => hself.asymm hself
    · have hne : (i == k) = false := beq_eq_false_iff_ne.mpr hk
      simp only [hne, ih hrest, Prod.mk.injEq, hk, false_and, false_or]

theorem sorted_finds : (sorted α).Finds where
  find?_empty _ := rfl
  find?_insert {t t' i a} h j := by
    simp only [sorted] at h
    split at h
    · cases h
    · cases h
      exact lookup_put i j a t.val
  mem_intersections {t i a} := by
    simp only [sorted, List.mem_map, List.mem_filter, decide_eq_true_iff]
    constructor
    · rintro ⟨⟨j, b⟩, ⟨hmem, htouches⟩, rfl⟩
      exact ⟨j, (lookup_eq_some_iff t.property).mpr hmem, htouches⟩
    · rintro ⟨j, hfind, htouches⟩
      exact ⟨(j, a), ⟨(lookup_eq_some_iff t.property).mp hfind, htouches⟩, rfl⟩

theorem sorted_accepts : (sorted α).Accepts where
  exists_insert t i a h := by
    refine ⟨_, if_neg ?_⟩
    rw [UInt32.not_le]
    exact h

theorem sorted_inOrder : (sorted α).InOrder where
  ascending t i := by
    refine ⟨(t.val.filter fun x => i.Touches x.1).map Prod.fst, ?_, ?_⟩
    · rw [List.pairwise_map]
      exact t.property.filter _
    · simp only [sorted, List.map_map]
      refine List.map_congr_left fun x hx => ?_
      exact ((lookup_eq_some_iff t.property).mpr (List.mem_filter.mp hx).1).symm

end AsmKit.IntervalTree
