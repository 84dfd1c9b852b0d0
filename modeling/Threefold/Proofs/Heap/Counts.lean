import Mathlib.Algebra.Group.Int.Defs
import Mathlib.Algebra.Group.Nat.Defs
import Threefold.Proofs.Heap.Traffic

/-!
# Counts in words

The references to an object are counted in a word. A count that wraps around becomes negative, and then
it can only be counted up: to whoever gives a reference back it looks as if nobody held the object. So
whether a count has wrapped around shows after each operation (`CountsFit`).

* `retainTimes_eq` says what it comes to if many references to one cell are taken.
* `finalState_releaseAll_countsFit` says that giving references back does not mend a count.
-/

namespace Threefold.Heap

namespace Cell

/-- The number of references that a cell counts: none if the count has wrapped around. -/
def count (c : Cell) : Nat :=
  c.references.toNatClampNeg

/-- A cell after a number of references to it were taken. -/
def takeTimes (n : Nat) (c : Cell) : Cell :=
  { c with references := c.references + Int32.ofNat n }

variable {c : Cell}

theorem count_lt (c : Cell) : c.count < 2 ^ 31 :=
  c.references.toNatClampNeg_lt

theorem nonneg_iff : 0 ≤ c.references ↔ 0 ≤ c.references.toInt := by
  rw [Int32.le_iff_toInt_le, Int32.toInt_zero]

theorem nonpos_iff : c.references ≤ 0 ↔ c.references.toInt ≤ 0 := by
  rw [Int32.le_iff_toInt_le, Int32.toInt_zero]

theorem toInt_references (fits : 0 ≤ c.references) : c.references.toInt = c.count := by
  rw [count, ← Int32.toNat_toInt, Int.toNat_of_nonneg (nonneg_iff.mp fits)]

theorem references_eq_zero (fits : 0 ≤ c.references) : c.references = 0 ↔ c.count = 0 := by
  rw [← Int32.toInt_inj, Int32.toInt_zero, toInt_references fits]
  omega

theorem takeTimes_take (n : Nat) (c : Cell) : c.take.takeTimes n = c.takeTimes (n + 1) := by
  simp only [takeTimes, take, Int32.ofNat_add, Cell.mk.injEq, true_and, and_true, Int32.add_assoc]
  rw [Int32.add_comm (Int32.ofNat n)]
  rfl

/-- What many references more make of a count: it wraps around if a word cannot count them. -/
theorem toInt_takeTimes {n : Nat} (lt : n < 2 ^ 31) (fits : 0 ≤ c.references) :
    (c.takeTimes n).references.toInt = c.count + n ∨
      2 ^ 31 ≤ c.count + n ∧ (c.takeTimes n).references.toInt = c.count + n - 2 ^ 32 := by
  have before := count_lt c
  rw [takeTimes, Int32.toInt_add, toInt_references fits, Int32.toInt_ofNat_of_lt lt, Int.bmod_def]
  omega

/-- One more reference makes the greatest count the least one. -/
theorem toInt_take (c : Cell) : c.take.references.toInt = c.references.toInt + 1 ∨
    c.references.toInt = 2 ^ 31 - 1 ∧ c.take.references.toInt = -2 ^ 31 := by
  have low := c.references.le_toInt
  have high := c.references.toInt_lt
  rw [take, Int32.toInt_add, Int32.toInt_one, Int.bmod_def]
  omega

theorem toInt_drop (held : ¬c.references ≤ 0) :
    c.drop.references.toInt = c.references.toInt - 1 := by
  have high := c.references.toInt_lt
  rw [nonpos_iff] at held
  rw [drop, Int32.toInt_sub, Int32.toInt_one, Int.bmod_def]
  omega

theorem freed_drop : c.drop.freed = true ↔ c.references.toInt = 1 := by
  rw [drop, beq_iff_eq, ← Int32.toInt_inj, Int32.toInt_one]

end Cell

/-- No count has wrapped around. -/
def CountsFit (h : Heap) : Prop :=
  ∀ c ∈ h.cells, 0 ≤ c.references

instance (h : Heap) : Decidable h.CountsFit :=
  inferInstanceAs (Decidable (∀ c ∈ h.cells, 0 ≤ c.references))

variable {h : Heap} {i : Nat} {c : Cell}

theorem CountsFit.cell (fit : h.CountsFit) (cell : h.cells[i]? = some c) : 0 ≤ c.references :=
  fit c (Array.mem_of_getElem? cell)

theorem countsFit_of_push {o : HeapObject}
    (fit : CountsFit { h with cells := h.cells.push ⟨o, 1, false⟩ }) : h.CountsFit :=
  fun c mem => fit c (Array.mem_push_of_mem _ mem)

theorem modify_id (cells : Array Cell) (i : Nat) : cells.modify i id = cells := by
  refine Array.ext_getElem? fun j => ?_
  rw [Array.getElem?_modify, Option.map_id, id, ite_self]

theorem modify_modify (cells : Array Cell) (i : Nat) (f g : Cell → Cell) :
    (cells.modify i f).modify i g = cells.modify i fun c => g (f c) := by
  refine Array.ext_getElem? fun j => ?_
  simp only [Array.getElem?_modify]
  split
  · exact Option.map_map g f _
  · rfl

/-! ## Taking references -/

/-- A plain number is not counted. -/
theorem retainTimes_uncounted {v : Value} (uncounted : v.tag.isCounted = false) (n : Nat) :
    retainTimes v n h = .ok () h := by
  have nothing : retain v h = .ok () h := by simp [retain, uncounted]
  induction n with
  | zero => rfl
  | succ n ih => simp only [retainTimes, Bind.bind, EStateM.bind, nothing, ih]

/-- To take references to what a value names, which is there, is to count them all at once. -/
theorem retainTimes_eq {v : Value} (counting : h.counting = true) (counted : v.tag.isCounted = true)
    (index : h.index? v.word = some i) (cell : h.cells[i]? = some c) (live : c.freed = false)
    (n : Nat) : retainTimes v n h = .ok () { h with
      cells := h.cells.modify i (Cell.takeTimes n), increments := h.increments + n } := by
  induction n generalizing h c with
  | zero =>
    have nothing : Cell.takeTimes 0 = id := by
      funext c
      simp [Cell.takeTimes]
    rw [nothing, modify_id]
    rfl
  | succ n ih =>
    obtain ⟨h', hh'⟩ : ∃ h', h' =
        { h with cells := h.cells.modify i Cell.take, increments := h.increments + 1 } := ⟨_, rfl⟩
    have first : retain v h = .ok () h' := by
      simp [retain, counting, counted, index, cell, live, hh']
    have cell' : h'.cells[i]? = some c.take := by
      rw [hh', Array.getElem?_modify, if_pos rfl, cell]
      rfl
    have index' : h'.index? v.word = some i := by
      rw [← index, hh']
      simp [index?]
    have rest := ih (by rw [hh', counting]) index' cell' live
    have cells : h'.cells.modify i (Cell.takeTimes n) = h.cells.modify i (Cell.takeTimes (n + 1)) := by
      rw [hh', modify_modify]
      exact congrArg _ (funext (Cell.takeTimes_take n))
    simp only [retainTimes, Bind.bind, EStateM.bind, first, rest, cells]
    rw [hh']
    simp only [Nat.add_right_comm h.increments 1 n, Nat.add_assoc]

/-! ## Giving references back -/

/-- A count that has wrapped around stays as it is when references are given back. -/
theorem drop_countsFit (hi : i < h.cells.size) (fit : (h.drop i hi).1.CountsFit) : h.CountsFit := by
  intro c mem
  obtain ⟨j, cell⟩ := Array.mem_iff_getElem?.mp mem
  unfold drop at fit
  dsimp only at fit
  split at fit
  case isTrue => exact fit c mem
  case isFalse held =>
    by_cases same : i = j
    · -- the cell that is given a reference back counts some
      subst same
      obtain rfl := Option.some.inj ((Array.getElem?_eq_getElem hi).symm.trans cell)
      simp only [Bool.or_eq_true, decide_eq_true_eq, not_or] at held
      rw [Cell.nonpos_iff] at held
      rw [Cell.nonneg_iff]
      omega
    · refine fit c (Array.mem_of_getElem? (i := j) ?_)
      rw [Array.getElem?_modify, if_neg same, cell]

theorem finalState_releaseAll_countsFit (pending : List Value) (h : Heap)
    (fit : (finalState (releaseAll h pending)).CountsFit) : h.CountsFit := by
  fun_induction releaseAll h pending with
  | case1 h => exact fit
  | case2 h v rest none => exact fit
  | case3 h v rest i found ih => exact drop_countsFit (index?_lt found) (ih fit)

theorem release_countsFit {v : Value} (fit : (finalState (release v h)).CountsFit) : h.CountsFit := by
  unfold release at fit
  split at fit
  · exact fit
  · exact finalState_releaseAll_countsFit [v] h fit

end Threefold.Heap
