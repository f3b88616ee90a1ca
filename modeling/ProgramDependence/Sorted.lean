/-!
# Stable sorting by a key

`sortBy` orders a list by an integer key and keeps the given order among equal keys.
-/

namespace ProgramDependence

variable {α : Type}

/-- Insert an element before the first one that must not come earlier. -/
def insertSorted (le : α → α → Bool) (x : α) : List α → List α
  | [] => [x]
  | y :: ys => if le x y then x :: y :: ys else y :: insertSorted le x ys

def sortWith (le : α → α → Bool) : List α → List α
  | [] => []
  | x :: xs => insertSorted le x (sortWith le xs)

def sortBy (key : α → Int) (xs : List α) : List α :=
  sortWith (fun a b => key a ≤ key b) xs

/-- Sort by two integer keys, the first one deciding unless it is equal. -/
def sortByTwo (first second : α → Int) (xs : List α) : List α :=
  sortWith (fun a b => first a < first b || (first a == first b && second a ≤ second b)) xs

theorem perm_insertSorted (le : α → α → Bool) (x : α) (xs : List α) :
    (insertSorted le x xs).Perm (x :: xs) := by
  induction xs with
  | nil => exact List.Perm.refl _
  | cons y ys ih =>
    by_cases h : le x y
    · simp [insertSorted, h]
    · simp only [insertSorted, h, Bool.false_eq_true, if_false]
      exact (List.Perm.cons y ih).trans (List.Perm.swap x y ys)

theorem perm_sortWith (le : α → α → Bool) (xs : List α) : (sortWith le xs).Perm xs := by
  induction xs with
  | nil => exact List.Perm.refl _
  | cons x xs ih => exact (perm_insertSorted le x _).trans (List.Perm.cons x ih)

section

variable {le : α → α → Bool} (htotal : ∀ a b, le a b = false → le b a = true)
  (htrans : ∀ a b c, le a b = true → le b c = true → le a c = true)
include htotal htrans

theorem pairwise_insertSorted (x : α) {xs : List α} (h : xs.Pairwise fun a b => le a b = true) :
    (insertSorted le x xs).Pairwise fun a b => le a b = true := by
  induction h with
  | nil => simp [insertSorted]
  | @cons y ys hy hys ih =>
    by_cases hxy : le x y = true
    · simp only [insertSorted, hxy, if_true]
      refine (List.pairwise_cons.2 ⟨hy, hys⟩).cons ?_
      intro z hz
      rcases List.mem_cons.1 hz with rfl | hz
      · exact hxy
      · exact htrans x y z hxy (hy z hz)
    · simp only [insertSorted, hxy, Bool.false_eq_true, if_false]
      refine ih.cons ?_
      intro z hz
      rcases List.mem_cons.1 ((perm_insertSorted le x ys).mem_iff.1 hz) with rfl | hz
      · exact htotal z y (Bool.eq_false_iff.2 hxy)
      · exact hy z hz

theorem pairwise_sortWith (xs : List α) : (sortWith le xs).Pairwise fun a b => le a b = true := by
  induction xs with
  | nil => exact .nil
  | cons x xs ih => exact pairwise_insertSorted htotal htrans x ih

end

/-- What is sorted by two keys is in the order of the first key and then of the second. -/
theorem pairwise_sortByTwo (first second : α → Int) (xs : List α) :
    (sortByTwo first second xs).Pairwise fun a b =>
      first a < first b ∨ first a = first b ∧ second a ≤ second b := by
  refine (pairwise_sortWith ?_ ?_ xs).imp fun hab => by simpa using hab
  · intro a b hab
    simp at hab ⊢
    omega
  · intro a b c hab hbc
    simp at hab hbc ⊢
    omega

end ProgramDependence
