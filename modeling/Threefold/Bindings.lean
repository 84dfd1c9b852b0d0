/-!
# Bindings

Values by key: what the variables of an activation hold, or what the symbols of a module stand for.
The main statement is `get?_set`: a key has the value that was last set, whatever was set for others.
-/

namespace Threefold

/-- Values by key, in the order in which the keys were first set. -/
structure Bindings (κ α : Type) where
  entries : List (κ × α)
  deriving DecidableEq, Repr

namespace Bindings

variable {κ α : Type} [DecidableEq κ]

/-- No keys. -/
def empty : Bindings κ α := ⟨[]⟩

/-- The value in the first entry of a key. -/
def lookup? : List (κ × α) → κ → Option α
  | [], _ => none
  | (l, w) :: rest, k => if l = k then some w else lookup? rest k

/-- The entries with another value for a key. -/
def update : List (κ × α) → κ → α → List (κ × α)
  | [], k, v => [(k, v)]
  | (l, w) :: rest, k, v => if l = k then (l, v) :: rest else (l, w) :: update rest k v

/-- The value of a key. -/
def get? (b : Bindings κ α) (k : κ) : Option α :=
  lookup? b.entries k

/-- The value of a key, or another one if it has none. -/
def getD (b : Bindings κ α) (k : κ) (missing : α) : α :=
  (b.get? k).getD missing

/-- The bindings with another value for a key. -/
def set (b : Bindings κ α) (k : κ) (v : α) : Bindings κ α :=
  ⟨update b.entries k v⟩

theorem lookup?_update (es : List (κ × α)) (k l : κ) (v : α) :
    lookup? (update es k v) l = if k = l then some v else lookup? es l := by
  induction es with
  | nil => rfl
  | cons e rest ih =>
    obtain ⟨m, w⟩ := e
    by_cases hk : m = k
    · subst hk
      by_cases hl : m = l <;> simp [update, lookup?, hl]
    · by_cases hl : m = l
      · subst hl
        simp [update, lookup?, hk, Ne.symm hk]
      · simp [update, lookup?, hk, hl, ih]

@[simp]
theorem get?_empty (k : κ) : (empty : Bindings κ α).get? k = none := rfl

theorem get?_set (b : Bindings κ α) (k l : κ) (v : α) :
    (b.set k v).get? l = if k = l then some v else b.get? l :=
  lookup?_update b.entries k l v

end Bindings

end Threefold
