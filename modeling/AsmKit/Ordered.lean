/-
  Stable insertion into ordered lists. An element goes behind everything that is not greater, so
  elements that compare equal stay in the order they came in.
-/

namespace AsmKit.Ordered

/-- Puts `x` into an ascending list, behind what is not greater. -/
def insert {α : Type} (le : α → α → Bool) (x : α) : List α → List α
  | [] => [x]
  | y :: ys => if le y x then y :: insert le x ys else x :: y :: ys

/-- The elements in ascending order, equal ones as they came. -/
def sort {α : Type} (le : α → α → Bool) (xs : List α) : List α :=
  xs.foldl (fun sorted x => insert le x sorted) []

theorem insert_perm {α : Type} (le : α → α → Bool) (x : α) (ys : List α) :
    (insert le x ys).Perm (x :: ys) := by
  induction ys with
  | nil => exact List.Perm.refl _
  | cons y ys ih =>
    simp only [insert]
    split
    · exact (ih.cons y).trans (List.Perm.swap x y ys)
    · exact List.Perm.refl _

theorem sort_perm {α : Type} (le : α → α → Bool) (xs : List α) : (sort le xs).Perm xs := by
  have h : ∀ acc : List α, (xs.foldl (fun sorted x => insert le x sorted) acc).Perm (acc ++ xs) := by
    induction xs with
    | nil => intro acc; simp
    | cons x xs ih =>
      intro acc
      have moved : (insert le x acc ++ xs).Perm (x :: acc ++ xs) := (insert_perm le x acc).append_right xs
      exact (ih _).trans (moved.trans List.perm_middle.symm)
  simpa [sort] using h []

end AsmKit.Ordered
