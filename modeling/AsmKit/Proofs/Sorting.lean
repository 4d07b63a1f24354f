import AsmKit.Ordered

/-
  Ascending lists. Inserting keeps a list ascending (`insert_pairwise`) and puts an element behind
  all that are equal to it (`filter_insert`), so sorting is stable (`filter_sort`). An ascending list
  is known from its stretches of equal elements (`eq_of_filter_eq`): a list has one stable sort only.
-/

namespace AsmKit.Ordered

variable {α : Type} {le : α → α → Bool}

theorem insert_last {x : α} {ys : List α} (h : ∀ y ∈ ys, le y x = true) :
    insert le x ys = ys ++ [x] := by
  induction ys with
  | nil => rfl
  | cons y ys ih =>
    unfold insert
    rw [if_pos (h y (List.mem_cons_self ..)), ih fun z hz => h z (List.mem_cons_of_mem y hz)]
    rfl

theorem insert_pairwise (htotal : ∀ a b, le a b = true ∨ le b a = true)
    (htrans : ∀ a b c, le a b = true → le b c = true → le a c = true) (x : α) {ys : List α}
    (h : ys.Pairwise fun a b => le a b = true) :
    (insert le x ys).Pairwise fun a b => le a b = true := by
  induction ys with
  | nil => exact List.pairwise_singleton _ x
  | cons y ys ih =>
    obtain ⟨hy, hys⟩ := List.pairwise_cons.mp h
    unfold insert
    split
    · next hle =>
      refine List.pairwise_cons.mpr ⟨fun z hz => ?_, ih hys⟩
      rcases List.mem_cons.mp ((insert_perm le x ys).mem_iff.mp hz) with rfl | hz
      · exact hle
      · exact hy z hz
    · next hle =>
      have hxy : le x y = true := (htotal x y).resolve_right hle
      refine List.pairwise_cons.mpr ⟨fun z hz => ?_, h⟩
      rcases List.mem_cons.mp hz with rfl | hz
      · exact hxy
      · exact htrans x y z hxy (hy z hz)

theorem sort_pairwise (htotal : ∀ a b, le a b = true ∨ le b a = true)
    (htrans : ∀ a b c, le a b = true → le b c = true → le a c = true) (xs : List α) :
    (sort le xs).Pairwise fun a b => le a b = true := by
  have h (acc : List α) (hacc : acc.Pairwise fun a b => le a b = true) :
      (xs.foldl (fun sorted x => insert le x sorted) acc).Pairwise fun a b => le a b = true := by
    induction xs generalizing acc with
    | nil => exact hacc
    | cons x xs ih => exact ih _ (insert_pairwise htotal htrans x hacc)
  exact h [] List.Pairwise.nil

/-! ## Equal elements -/

/-- An element goes behind the others of a class of equals. -/
theorem filter_insert (htrans : ∀ a b c, le a b = true → le b c = true → le a c = true)
    {p : α → Bool} (hp : ∀ a b, p a = true → p b = true → le a b = true) (x : α) {ys : List α}
    (hys : ys.Pairwise fun a b => le a b = true) :
    (insert le x ys).filter p = (ys ++ [x]).filter p := by
  induction ys with
  | nil => rfl
  | cons y ys ih =>
    obtain ⟨hy, hys⟩ := List.pairwise_cons.mp hys
    unfold insert
    split
    · rw [List.cons_append, List.filter_cons, List.filter_cons, ih hys]
    · next hlt =>
      by_cases hx : p x = true
      · -- what is behind `x` is greater, so none of it is equal to `x`
        have hnone : (y :: ys).filter p = [] := by
          rw [List.filter_eq_nil_iff]
          intro a ha hpa
          have hax := hp a x hpa hx
          obtain rfl | ha := List.mem_cons.mp ha
          · exact hlt hax
          · exact hlt (htrans y a x (hy a ha) hax)
        rw [List.filter_append, hnone, List.filter_cons_of_pos hx, hnone, List.nil_append,
          List.filter_cons_of_pos hx, List.filter_nil]
      · rw [List.filter_append, List.filter_cons_of_neg hx, List.filter_cons_of_neg hx,
          List.filter_nil, List.append_nil]

theorem filter_sort (htotal : ∀ a b, le a b = true ∨ le b a = true)
    (htrans : ∀ a b c, le a b = true → le b c = true → le a c = true) {p : α → Bool}
    (hp : ∀ a b, p a = true → p b = true → le a b = true) (xs : List α) :
    (sort le xs).filter p = xs.filter p := by
  have h (acc : List α) (hacc : acc.Pairwise fun a b => le a b = true) :
      (xs.foldl (fun sorted x => insert le x sorted) acc).filter p = (acc ++ xs).filter p := by
    induction xs generalizing acc with
    | nil => rw [List.append_nil, List.foldl_nil]
    | cons x xs ih =>
      rw [List.foldl_cons, ih _ (insert_pairwise htotal htrans x hacc), List.filter_append,
        filter_insert htrans hp x hacc, ← List.filter_append, List.append_assoc,
        List.singleton_append]
  exact h [] List.Pairwise.nil

section Keys

variable {β : Type} [BEq β] [LawfulBEq β] {key : α → β} {ys zs : List α}

theorem mem_iff_of_filter_eq (h : ∀ k, (ys.filter fun a => key a == k) = zs.filter fun a => key a == k)
    (a : α) : a ∈ ys ↔ a ∈ zs := by
  have ha := congrArg (a ∈ ·) (h (key a))
  simpa [List.mem_filter] using ha

/-- Ascending lists that agree on the elements of each key are the same. -/
theorem eq_of_filter_eq (hkey : ∀ a b, le a b = true → le b a = true → key a = key b)
    (hys : ys.Pairwise fun a b => le a b = true) (hzs : zs.Pairwise fun a b => le a b = true)
    (h : ∀ k, (ys.filter fun a => key a == k) = zs.filter fun a => key a == k) : ys = zs := by
  have hmem := mem_iff_of_filter_eq h
  induction ys generalizing zs with
  | nil =>
    cases zs with
    | nil => rfl
    | cons z zs => exact absurd ((hmem z).mpr List.mem_cons_self) List.not_mem_nil
  | cons y ys ih =>
    cases zs with
    | nil => exact absurd ((hmem y).mp List.mem_cons_self) List.not_mem_nil
    | cons z zs =>
      obtain ⟨hy, hys'⟩ := List.pairwise_cons.mp hys
      obtain ⟨hz, hzs'⟩ := List.pairwise_cons.mp hzs
      -- each of the two first elements stands in the other list, so neither key is the smaller one
      have hfirst : y = z := by
        rcases List.mem_cons.mp ((hmem y).mp List.mem_cons_self) with hyz | hyz
        · exact hyz
        · rcases List.mem_cons.mp ((hmem z).mpr List.mem_cons_self) with hzy | hzy
          · exact hzy.symm
          · have hsame : key z = key y := hkey z y (hz y hyz) (hy z hzy)
            have hk := h (key y)
            rw [List.filter_cons, if_pos (beq_self_eq_true _), List.filter_cons,
              if_pos (beq_iff_eq.mpr hsame)] at hk
            exact (List.cons.inj hk).1
      subst hfirst
      have hrest (k : β) : (ys.filter fun a => key a == k) = zs.filter fun a => key a == k := by
        have hk := h k
        rw [List.filter_cons, List.filter_cons] at hk
        split at hk
        · exact (List.cons.inj hk).2
        · exact hk
      rw [ih hys' hzs' hrest (mem_iff_of_filter_eq hrest)]

end Keys

end AsmKit.Ordered
