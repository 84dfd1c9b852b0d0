/-!
# The latest of several

Where one name is defined more than once and the last definition counts.
-/

namespace Threefold

/-- The last element of a list with a property. -/
def latest? {α : Type} (p : α → Bool) (xs : List α) : Option α :=
  xs.foldl (fun found x => if p x then some x else found) none

theorem latest?_eq_find?_reverse {α : Type} (p : α → Bool) (xs : List α) :
    latest? p xs = xs.reverse.find? p := by
  suffices h : ∀ found : Option α,
      xs.foldl (fun found x => if p x then some x else found) found =
        (xs.reverse.find? p).or found by
    simpa [latest?] using h none
  induction xs with
  | nil => simp
  | cons x xs ih =>
    intro found
    simp only [List.foldl_cons, List.reverse_cons, List.find?_append, ih]
    by_cases hx : p x <;> cases hf : xs.reverse.find? p <;> simp [hx]

end Threefold
