
namespace BlockTree.Sorting

variable {α : Type}

def insert (le : α → α → Bool) (x : α) : List α → List α
  | [] => [x]
  | y :: ys => if le x y then x :: y :: ys else y :: insert le x ys

def sort (le : α → α → Bool) : List α → List α
  | [] => []
  | x :: xs => insert le x (sort le xs)

theorem insert_perm (le : α → α → Bool) (x : α) (ys : List α) :
    (insert le x ys).Perm (x :: ys) := by
  induction ys with
  | nil => exact .refl _
  | cons y ys ih =>
      unfold insert
      split
      · exact .refl _
      · exact (ih.cons y).trans (.swap ..)

theorem sort_perm (le : α → α → Bool) (xs : List α) : (sort le xs).Perm xs := by
  induction xs with
  | nil => exact .refl _
  | cons x xs ih => exact (insert_perm le x _).trans (ih.cons x)

theorem mem_sort {le : α → α → Bool} {x : α} {xs : List α} : x ∈ sort le xs ↔ x ∈ xs :=
  (sort_perm le xs).mem_iff

theorem insert_pairwise {le : α → α → Bool} (total : ∀ a b, le a b = true ∨ le b a = true)
    (trans : ∀ a b c, le a b = true → le b c = true → le a c = true) (x : α) {ys : List α}
    (h : ys.Pairwise (le · · = true)) : (insert le x ys).Pairwise (le · · = true) := by
  induction ys with
  | nil => simp [insert]
  | cons y ys ih =>
      obtain ⟨hy, hys⟩ := List.pairwise_cons.1 h
      unfold insert
      split
      case isTrue hxy =>
        refine List.pairwise_cons.2 ⟨fun z hz => ?_, h⟩
        rcases List.mem_cons.1 hz with rfl | hz
        · exact hxy
        · exact trans _ _ _ hxy (hy z hz)
      case isFalse hxy =>
        refine List.pairwise_cons.2 ⟨fun z hz => ?_, ih hys⟩
        rcases List.mem_cons.1 ((insert_perm le x ys).mem_iff.1 hz) with rfl | hz
        · exact (total y z).resolve_right hxy
        · exact hy z hz

theorem sort_pairwise {le : α → α → Bool} (total : ∀ a b, le a b = true ∨ le b a = true)
    (trans : ∀ a b c, le a b = true → le b c = true → le a c = true) (xs : List α) :
    (sort le xs).Pairwise (le · · = true) := by
  induction xs with
  | nil => exact .nil
  | cons x xs ih => exact insert_pairwise total trans x ih

theorem insert_of_le {le : α → α → Bool} {x : α} {ys : List α} (h : ∀ y ∈ ys, le x y = true) :
    insert le x ys = x :: ys := by
  cases ys with
  | nil => rfl
  | cons y ys => rw [insert, if_pos (h y (.head _))]

theorem sort_of_pairwise {le : α → α → Bool} {xs : List α} (h : xs.Pairwise (le · · = true)) :
    sort le xs = xs := by
  induction h with
  | nil => rfl
  | cons hx _ ih => rw [sort, ih, insert_of_le hx]

end BlockTree.Sorting
