/-!
# Numbering by first occurrence

Names that occur in a list, each once, in the order in which they first occur. A name keeps its
number when the list grows at its end.
-/

namespace Threefold.Numbering

/-- The numbered names after one more occurrence. -/
def add (names : List String) (x : String) : List String :=
  if x ∈ names then names else names ++ [x]

/-- The numbered names after some more occurrences. -/
def addAll (names : List String) (occurrences : List String) : List String :=
  occurrences.foldl add names

/-- The names of a list in the order of their first occurrence. -/
def ofList (occurrences : List String) : List String :=
  addAll [] occurrences

@[simp]
theorem addAll_nil (names : List String) : addAll names [] = names := rfl

@[simp]
theorem addAll_cons (names : List String) (x : String) (xs : List String) :
    addAll names (x :: xs) = addAll (add names x) xs := rfl

theorem addAll_append (names xs ys : List String) :
    addAll names (xs ++ ys) = addAll (addAll names xs) ys := by
  simp [addAll]

theorem mem_add {names : List String} {x y : String} : y ∈ add names x ↔ y ∈ names ∨ y = x := by
  unfold add
  split
  · constructor
    · exact Or.inl
    · rintro (h | rfl) <;> assumption
  · simp

theorem mem_addAll {names xs : List String} {y : String} :
    y ∈ addAll names xs ↔ y ∈ names ∨ y ∈ xs := by
  induction xs generalizing names with
  | nil => simp
  | cons x xs ih => simp [ih, mem_add, or_assoc]

end Threefold.Numbering
