import Mathlib.Algebra.BigOperators.Group.Finset.Piecewise
import Mathlib.Algebra.Order.BigOperators.Group.Finset
import Mathlib.Logic.Relation
import Threefold.Proofs.Heap.Conservation
import Threefold.Proofs.Heap.References

/-!
# Giving back a reference

To give back a reference may reclaim an array, so that what the array held is to be given back as well, and
so on. What is still to be given back is kept in a list; here it is a multiset of which any element may be
next (`Gives`). Which cells are reclaimed in the end is settled by the heap alone: they are the least set of
cells such that a cell is among them if it was not reclaimed before and is given back as many references as
it counts, by the first reference and by the cells that are among them (`Solves`). At every moment of a
cascade the heap is the one that it was, with what was given back so far taken off the counts
(`Underway`); so a cascade that is over has given back what the least such set says.

* `release_least` says this of `release`, and of every other order in which pending references are given
  back: none goes on for ever, none gets stuck, and all end in the same heap.
-/

namespace Threefold.Heap

open Finset

/-- Every heap that is used from its beginning on is tidy as long as no count has wrapped around. -/
theorem tidy_after {us : List Use} {console : Console}
    (fit : Use.CountsFit us ⟨.empty true, console⟩) :
    (Use.after us ⟨.empty true, console⟩).heap.Tidy :=
  (Use.balances_after (Use.balances_empty true) fit).tidy

/-- A cell after some references to it were given back: it is reclaimed with the last one that it
counts. -/
def Cell.spend (c : Cell) (n : Nat) : Cell :=
  { c with references := Int32.ofNat (c.count - n), freed := c.freed || c.count ≤ n }

/-- The references that the object in a cell holds. -/
def heldAt (h : Heap) (i : Nat) : Multiset Value :=
  ((h.objectAt? i).elim [] HeapObject.held : List Value)

/-- Every reference in a boxed array names a cell. -/
def Rooted (h : Heap) : Prop :=
  ∀ i, ∀ u ∈ h.heldAt i, ∃ j < h.cells.size, RefersTo u j

/-- The number of references to a cell. -/
def countAt (h : Heap) (i : Nat) : Nat :=
  (h.cells[i]?.map Cell.count).getD 0

/-- How often a cell is given a reference back if a reference is given back and some cells are
reclaimed. -/
def dues (h : Heap) (v : Value) (gone : Finset Nat) (i : Nat) : Nat :=
  (if RefersTo v i then 1 else 0) + ∑ j ∈ gone, mentions (h.heldAt j) i

/-- Some cells are just those that were there and that are given back all references that they count. -/
def Solves (h : Heap) (v : Value) (gone : Finset Nat) : Prop :=
  ∀ i, i ∈ gone ↔ ∃ c, h.cells[i]? = some c ∧ c.freed = false ∧ c.count ≤ h.dues v gone i

/-- The heap after every cell was given back some references. What is given back beyond the count of a
cell is counted as such. -/
def settle (h : Heap) (given : Nat → Nat) : Heap :=
  { h with
    cells := h.cells.mapIdx fun i c => c.spend (given i)
    decrements := h.decrements + ∑ i ∈ range h.cells.size, given i
    underflows := h.underflows + ∑ i ∈ range h.cells.size, (given i - h.countAt i) }

/-- One of the pending references is given back, whichever it is. What is to be given back on account of
that is pending then. -/
inductive Gives : Heap × Multiset Value → Heap × Multiset Value → Prop
  | give {h : Heap} {v : Value} {rest : Multiset Value} {i : Nat} (found : h.index? v.word = some i) :
    Gives (h, v ::ₘ rest) ((h.drop i (index?_lt found)).1, (h.drop i (index?_lt found)).2 + rest)

variable {h : Heap} {v : Value}

theorem dues_mono {gone gone' : Finset Nat} (sub : gone ⊆ gone') (i : Nat) :
    h.dues v gone i ≤ h.dues v gone' i :=
  Nat.add_le_add_left (sum_le_sum_of_subset sub) _

/-! ## What is settled -/

theorem Cell.toInt_spend (c : Cell) (n : Nat) :
    (c.spend n).references.toInt = (c.count - n : Nat) :=
  Int32.toInt_ofNat_of_lt (Nat.lt_of_le_of_lt (Nat.sub_le _ _) c.count_lt)

/-- One more reference to a cell that was given back some. -/
theorem Cell.drop_spend {c : Cell} {n : Nat} (live : c.freed = false) (more : n < c.count) :
    (c.spend n).drop = c.spend (n + 1) := by
  have counts := c.toInt_spend n
  have held : ¬(c.spend n).references ≤ 0 := by
    rw [nonpos_iff]
    omega
  have references : (c.spend n).drop.references = (c.spend (n + 1)).references := by
    rw [← Int32.toInt_inj, toInt_drop held, counts, c.toInt_spend]
    omega
  have freed : (c.spend n).drop.freed = (c.spend (n + 1)).freed := by
    rw [Bool.eq_iff_iff, freed_drop, counts]
    simp only [spend, live, Bool.false_or, decide_eq_true_eq]
    omega
  exact (Cell.mk.injEq ..).mpr ⟨rfl, references, freed⟩

/-- A cell that counts no more stays as it is. -/
theorem Cell.spend_succ {c : Cell} {n : Nat} (none : c.count ≤ n) : c.spend (n + 1) = c.spend n := by
  simp only [spend, Cell.mk.injEq, true_and]
  exact ⟨by rw [Nat.sub_eq_zero_of_le none, Nat.sub_eq_zero_of_le (Nat.le_succ_of_le none)],
    by simp [none, Nat.le_succ_of_le none]⟩

theorem Tidy.freed_iff (tidy : h.Tidy) {i : Nat} {c : Cell} (cell : h.cells[i]? = some c) :
    c.freed = true ↔ c.count = 0 := by
  obtain ⟨fits, freed⟩ := tidy i c cell
  rw [freed, Cell.references_eq_zero fits]

/-- A cell of a tidy heap that was given back nothing. -/
theorem Tidy.spend_zero (tidy : h.Tidy) {i : Nat} {c : Cell} (cell : h.cells[i]? = some c) :
    c.spend 0 = c := by
  have gone : (c.freed || decide (c.count ≤ 0)) = c.freed := by
    rw [Bool.eq_iff_iff]
    simp [tidy.freed_iff cell]
  rw [Cell.spend, gone, Nat.sub_zero, Cell.count, Int32.ofNat_toNatClampNeg _ (tidy i c cell).1]

theorem size_settle (given : Nat → Nat) : (h.settle given).cells.size = h.cells.size := by
  simp [settle]

theorem cell_settle {given : Nat → Nat} {i : Nat} {c : Cell} (cell : h.cells[i]? = some c) :
    (h.settle given).cells[i]? = some (c.spend (given i)) := by
  simp [settle, cell]

/-- Nothing changes where nothing is given back. -/
theorem settle_zero (tidy : h.Tidy) : h.settle (fun _ => 0) = h := by
  have cells : (h.settle fun _ => 0).cells = h.cells := by
    refine Array.ext_getElem? fun i => ?_
    cases cell : h.cells[i]? with
    | none => simp [settle, cell]
    | some c => rw [cell_settle cell, tidy.spend_zero cell]
  have sums : h.decrements + ∑ i ∈ range h.cells.size, 0 = h.decrements := by simp
  have sums' : h.underflows + ∑ i ∈ range h.cells.size, (0 - h.countAt i) = h.underflows := by simp
  rw [settle] at cells ⊢
  rw [sums, sums']
  simp only at cells
  rw [cells]

/-- The cells that are reclaimed with what they are given back. -/
def reclaimed (h : Heap) (given : Nat → Nat) : Finset Nat :=
  (range h.cells.size).filter fun i =>
    h.cells[i]?.map Cell.freed = some false ∧ h.countAt i ≤ given i

theorem mem_reclaimed (given : Nat → Nat) {i : Nat} {c : Cell} (cell : h.cells[i]? = some c) :
    i ∈ h.reclaimed given ↔ c.freed = false ∧ c.count ≤ given i := by
  have lt := (Array.getElem?_eq_some_iff.mp cell).1
  rw [reclaimed, Finset.mem_filter, mem_range, countAt, cell]
  simp [lt]

theorem mem_reclaimed_iff {given : Nat → Nat} {i : Nat} :
    i ∈ h.reclaimed given ↔ ∃ c, h.cells[i]? = some c ∧ c.freed = false ∧ c.count ≤ given i := by
  constructor
  · intro mem
    have lt : i < h.cells.size := by simpa using (mem_filter.mp mem).1
    exact ⟨_, Array.getElem?_eq_getElem lt, (mem_reclaimed given (Array.getElem?_eq_getElem lt)).mp mem⟩
  · rintro ⟨c, cell, gone⟩
    exact (mem_reclaimed given cell).mpr gone

/-- What was given back, and one more reference to a cell. -/
def once (given : Nat → Nat) (i j : Nat) : Nat :=
  given j + if j = i then 1 else 0

/-- One more is given back in all, and one more too many if the cell counts no more. -/
theorem sums_once (given count : Nat → Nat) {i n : Nat} (hi : i < n) :
    ∑ j ∈ range n, once given i j = ∑ j ∈ range n, given j + 1 ∧
      ∑ j ∈ range n, (once given i j - count j) =
        ∑ j ∈ range n, (given j - count j) + if count i ≤ given i then 1 else 0 := by
  constructor
  · simp [once, sum_add_distrib, hi]
  · have each (j : Nat) : once given i j - count j =
        given j - count j + if j = i then (if count i ≤ given i then 1 else 0) else 0 := by
      unfold once
      split
      case isTrue same =>
        subst same
        split <;> omega
      case isFalse => omega
    simp [each, sum_add_distrib, hi]

/-- One more reference to a cell given back changes that cell alone. -/
theorem settle_once {given : Nat → Nat} {i : Nat} {c : Cell} {f : Cell → Cell}
    (cell : h.cells[i]? = some c) (hf : f (c.spend (given i)) = c.spend (given i + 1)) :
    h.settle (once given i) = { h.settle given with
      cells := (h.settle given).cells.modify i f
      decrements := (h.settle given).decrements + 1
      underflows := (h.settle given).underflows + if c.count ≤ given i then 1 else 0 } := by
  have lt := (Array.getElem?_eq_some_iff.mp cell).1
  obtain ⟨sum, exceeded⟩ := sums_once given h.countAt lt
  rw [show h.countAt i = c.count by simp [countAt, cell]] at exceeded
  have cells : (h.settle (once given i)).cells = (h.settle given).cells.modify i f := by
    refine Array.ext_getElem? fun j => ?_
    rw [Array.getElem?_modify]
    cases cell' : h.cells[j]? with
    | none => simp [settle, cell']
    | some e =>
      rw [cell_settle cell', cell_settle cell']
      split
      case isTrue same =>
        subst same
        rw [cell] at cell'
        cases cell'
        rw [Option.map_some, hf]
        simp [once]
      case isFalse other => simp [once, Ne.symm other]
  unfold settle at cells ⊢
  simp only at cells
  simp only [cells, sum, exceeded, Nat.add_assoc]

/-- To give back one more reference after others were given back. -/
theorem drop_settle (tidy : h.Tidy) {given : Nat → Nat} {i : Nat} {c : Cell}
    (cell : h.cells[i]? = some c) (hi : i < (h.settle given).cells.size) :
    ((h.settle given).drop i hi).1 = h.settle (once given i) ∧
      (((h.settle given).drop i hi).2 : Multiset Value) =
        if c.freed = false ∧ c.count = given i + 1 then (c.object.held : Multiset Value) else 0 := by
  have counts := c.toInt_spend (given i)
  have here := Option.some.inj ((Array.getElem?_eq_getElem hi).symm.trans (cell_settle cell))
  unfold drop
  rw [here]
  dsimp only
  split
  case isTrue none =>
    have exceeded : c.count ≤ given i := by
      simp only [Bool.or_eq_true, decide_eq_true_eq] at none
      obtain gone | exceeded := none
      · simp only [Cell.spend, Bool.or_eq_true, decide_eq_true_eq] at gone
        obtain gone | exceeded := gone
        · rw [(tidy.freed_iff cell).mp gone]
          exact Nat.zero_le _
        · exact exceeded
      · rw [Cell.nonpos_iff, counts] at exceeded
        omega
    rw [settle_once (f := id) cell (Cell.spend_succ exceeded).symm, modify_id, if_pos exceeded,
      if_neg (by omega)]
    exact ⟨rfl, rfl⟩
  case isFalse held =>
    simp only [Bool.or_eq_true, not_or] at held
    have gone := held.1
    simp only [Cell.spend, Bool.or_eq_true, decide_eq_true_eq, not_or, Bool.not_eq_true] at gone
    obtain ⟨live, more⟩ := gone
    rw [settle_once (f := Cell.drop) cell (Cell.drop_spend live (Nat.lt_of_not_le more)), if_neg more,
      Nat.add_zero]
    refine ⟨rfl, ?_⟩
    have last : ((c.spend (given i)).references == 1) = true ↔ c.count = given i + 1 := by
      rw [beq_iff_eq, ← Int32.toInt_inj, counts, Int32.toInt_one]
      omega
    by_cases one : c.count = given i + 1
    · rw [if_pos (last.mpr one), if_pos ⟨live, one⟩, Multiset.coe_reverse]
      rfl
    · rw [if_neg (one ∘ last.mp), if_neg fun both => one both.2]
      rfl

/-! ## A cascade -/

/-- A cascade that is under way: the heap is the one that it was after some references were given back.
Together with those that are pending they are what is due on account of the cells that were reclaimed so
far, and these are reclaimed in every solution. -/
structure Underway (h : Heap) (v : Value) (given : Nat → Nat) (s : Heap × Multiset Value) : Prop where
  heap : s.1 = h.settle given
  due : ∀ i, given i + mentions s.2 i = h.dues v (h.reclaimed given) i
  least : ∀ gone, h.Solves v gone → h.reclaimed given ⊆ gone
  known : ∀ u ∈ s.2, ∃ i < h.cells.size, RefersTo u i

/-- Before anything is given back, no cell is reclaimed. -/
theorem Underway.start (tidy : h.Tidy) (known : ∃ i < h.cells.size, RefersTo v i) :
    h.Underway v (fun _ => 0) (h, {v}) := by
  have none : h.reclaimed (fun _ => 0) = ∅ := by
    refine eq_empty_of_forall_notMem fun i mem => ?_
    obtain ⟨c, cell, live, count⟩ := mem_reclaimed_iff.mp mem
    rw [(tidy.freed_iff cell).mpr (Nat.le_zero.mp count)] at live
    cases live
  refine ⟨(settle_zero tidy).symm, fun i => ?_, fun gone _ => ?_, fun u hu => ?_⟩
  · rw [none, dues, sum_empty, ← Multiset.cons_zero, mentions_cons, mentions_zero, Nat.zero_add,
      Nat.add_zero, Nat.zero_add]
  · rw [none]
    exact empty_subset gone
  · rwa [Multiset.mem_singleton.mp hu]

/-- The cells that are reclaimed once one more reference is given back. -/
theorem reclaimed_once (given : Nat → Nat) {i : Nat} {c : Cell} (cell : h.cells[i]? = some c) :
    h.reclaimed (once given i) =
      if c.freed = false ∧ c.count = given i + 1 then insert i (h.reclaimed given)
      else h.reclaimed given := by
  ext j
  have here := mem_reclaimed given cell
  by_cases hj : j = i
  · subst hj
    rw [mem_reclaimed _ cell]
    simp only [once, if_true]
    split
    case isTrue last => simp [last]
    case isFalse notLast =>
      rw [here]
      constructor
      · rintro ⟨live, count⟩
        exact ⟨live, by by_contra; exact notLast ⟨live, by omega⟩⟩
      · rintro ⟨live, count⟩
        exact ⟨live, by omega⟩
  · have other : j ∈ h.reclaimed (once given i) ↔ j ∈ h.reclaimed given := by
      simp only [mem_reclaimed_iff, once, if_neg hj, Nat.add_zero]
    rw [other]
    split
    · rw [mem_insert, or_iff_right hj]
    · rfl

theorem heldAt_eq {i : Nat} {c : Cell} (cell : h.cells[i]? = some c) :
    h.heldAt i = c.object.held := by
  simp [heldAt, objectAt?, cell]

theorem dues_insert {gone : Finset Nat} {i : Nat} (fresh : i ∉ gone) (j : Nat) :
    h.dues v (insert i gone) j = h.dues v gone j + mentions (h.heldAt i) j := by
  rw [dues, dues, sum_insert fresh]
  omega

/-- Whatever is given back next, a cascade stays under way. -/
theorem Underway.step (tidy : h.Tidy) (rooted : h.Rooted) {given : Nat → Nat}
    {s t : Heap × Multiset Value} (U : h.Underway v given s) (gives : Gives s t) :
    ∃ given', h.Underway v given' t := by
  obtain ⟨heap, due, least, known⟩ := U
  cases gives with
  | @give k u rest i found =>
    dsimp only at heap due known
    subst heap
    obtain ⟨-, -, counted, -⟩ := known u (Multiset.mem_cons_self u rest)
    have refers : RefersTo u i := refersTo_of_index counted found
    have inside := index?_lt found
    rw [size_settle] at inside
    obtain ⟨c, cell⟩ : ∃ c, h.cells[i]? = some c := ⟨_, Array.getElem?_eq_getElem inside⟩
    obtain ⟨dropped, pending⟩ := drop_settle tidy cell (index?_lt found)
    have here := mem_reclaimed given cell
    have paid (j : Nat) : once given i j + mentions rest j = h.dues v (h.reclaimed given) j := by
      have before := due j
      rw [mentions_cons] at before
      have same : (if RefersTo u j then 1 else 0) = if j = i then 1 else 0 := by
        by_cases hj : j = i
        · rw [if_pos hj, if_pos (hj ▸ refers)]
        · rw [if_neg hj, if_neg fun other => hj (other.unique refers)]
      rw [same] at before
      unfold once
      omega
    have reclaims := reclaimed_once given cell
    rw [dropped, pending]
    by_cases last : c.freed = false ∧ c.count = given i + 1
    · have fresh : i ∉ h.reclaimed given := by
        rw [here]
        omega
      rw [if_pos last] at reclaims ⊢
      refine ⟨once given i, rfl, fun j => ?_, fun gone solves => ?_, fun w hw => ?_⟩
      · rw [reclaims, dues_insert fresh, heldAt_eq cell, mentions_add, ← paid]
        omega
      · rw [reclaims]
        refine insert_subset ((solves i).mpr ⟨c, cell, last.1, ?_⟩) (least gone solves)
        have enough := dues_mono (h := h) (v := v) (least gone solves) i
        have now := paid i
        simp only [once, if_true] at now
        omega
      · obtain held | mem := Multiset.mem_add.mp hw
        · exact rooted i w (by rwa [heldAt_eq cell])
        · exact known w (Multiset.mem_cons_of_mem mem)
    · rw [if_neg last] at reclaims ⊢
      rw [zero_add]
      refine ⟨once given i, rfl, fun j => ?_, fun gone solves => ?_, fun w hw => ?_⟩
      · rw [reclaims]
        exact paid j
      · rw [reclaims]
        exact least gone solves
      · exact known w (Multiset.mem_cons_of_mem hw)

/-- A cascade that is over has given back what a solution says, and so the least one. -/
theorem Underway.solves {given : Nat → Nat} {k : Heap} (U : h.Underway v given (k, 0)) :
    k = h.settle (h.dues v (h.reclaimed given)) ∧ h.Solves v (h.reclaimed given) := by
  have all : given = h.dues v (h.reclaimed given) := funext fun i => by
    rw [← U.due i, mentions_zero, Nat.add_zero]
  refine ⟨U.heap.trans (congrArg h.settle all), fun i => ?_⟩
  rw [← all]
  exact mem_reclaimed_iff

/-- In a cascade that is not over, whatever is pending can be given back. -/
theorem Underway.next {given : Nat → Nat} {s : Heap × Multiset Value} (U : h.Underway v given s)
    (pending : s.2 ≠ 0) : ∃ t, Gives s t := by
  obtain ⟨k, p⟩ := s
  obtain ⟨u, mem⟩ := Multiset.exists_mem_of_ne_zero pending
  obtain ⟨rest, rfl⟩ := Multiset.exists_cons_of_mem mem
  obtain ⟨i, hi, refers⟩ := U.known u mem
  have found : k.index? u.word = some i :=
    index?_eq_some.mpr ⟨by rwa [show k = h.settle given from U.heap, size_settle], refers.2⟩
  exact ⟨_, .give found⟩

theorem Underway.reach (tidy : h.Tidy) (rooted : h.Rooted) {given : Nat → Nat}
    {s t : Heap × Multiset Value} (U : h.Underway v given s)
    (reach : Relation.ReflTransGen Gives s t) : ∃ given', h.Underway v given' t := by
  induction reach with
  | refl => exact ⟨given, U⟩
  | tail _ gives ih =>
    obtain ⟨given', U'⟩ := ih
    exact U'.step tidy rooted gives

/-- No order of giving back goes on for ever: with each reference that is given back, fewer are left that
are pending or may become so. -/
theorem acc_gives (s : Heap × Multiset Value) : Acc (fun t s => Gives s t) s := by
  suffices ∀ n s, s.1.owed + Multiset.card s.2 = n → Acc (fun t s => Gives s t) s from this _ s rfl
  intro n
  induction n using Nat.strongRecOn with
  | _ n ih =>
    intro s hs
    refine .intro s fun t gives => ih _ ?_ t rfl
    cases gives with
    | @give k u rest i found =>
      have owed := owed_drop k i (index?_lt found)
      simp only [Multiset.card_cons, Multiset.card_add, Multiset.coe_card] at hs ⊢
      omega

/-- The pending references in the order of a list. -/
theorem Underway.releaseAll (tidy : h.Tidy) (rooted : h.Rooted) {given : Nat → Nat} {k : Heap}
    {pending : List Value} (U : h.Underway v given (k, pending)) :
    ∃ k', Heap.releaseAll k pending = .ok () k' ∧ Relation.ReflTransGen Gives (k, pending) (k', 0) := by
  fun_induction Heap.releaseAll k pending generalizing given with
  | case1 k => exact ⟨k, rfl, .refl⟩
  | case2 k u rest none =>
    obtain ⟨i, hi, refers⟩ := U.known u (by simp)
    have found : k.index? u.word = some i :=
      index?_eq_some.mpr ⟨by rwa [show k = h.settle given from U.heap, size_settle], refers.2⟩
    rw [none] at found
    cases found
  | case3 k u rest i found ih =>
    have gives : Gives (k, (u :: rest : List Value)) ((k.drop i (index?_lt found)).1,
        ((k.drop i (index?_lt found)).2 ++ rest : List Value)) := by
      rw [← Multiset.cons_coe, ← Multiset.coe_add]
      exact .give found
    obtain ⟨given', U'⟩ := U.step tidy rooted gives
    obtain ⟨k', run, reach⟩ := ih U'
    exact ⟨k', run, .head gives reach⟩

/-- To give back a reference to a cell, on a heap that counts and whose boxed arrays hold references to
cells only, comes to an end, with whatever is reclaimed on account of it. The counts, the cells that are
reclaimed, and the references given back, in all and beyond those that there were, are those of the least
solution; the pending references may be given back in any order. -/
theorem release_least (counting : h.counting = true) (tidy : h.Tidy) (rooted : h.Rooted)
    (known : ∃ i < h.cells.size, RefersTo v i) :
    ∃ gone, h.Solves v gone ∧ (∀ other, h.Solves v other → gone ⊆ other) ∧
      release v h = .ok () (h.settle (h.dues v gone)) ∧
      Acc (fun t s => Gives s t) (h, {v}) ∧
      ∀ s, Relation.ReflTransGen Gives (h, {v}) s →
        (s.2 = 0 → s.1 = h.settle (h.dues v gone)) ∧ (s.2 ≠ 0 → ∃ t, Gives s t) := by
  have start : h.Underway v (fun _ => 0) (h, ([v] : List Value)) := .start tidy known
  obtain ⟨k, run, reach⟩ := start.releaseAll tidy rooted
  obtain ⟨given, ended⟩ := start.reach tidy rooted reach
  obtain ⟨settled, solves⟩ := ended.solves
  obtain ⟨-, -, counted, -⟩ := known
  refine ⟨h.reclaimed given, solves, ended.least, ?_, acc_gives _, fun s hs => ⟨fun done => ?_, ?_⟩⟩
  · rw [release, ← settled]
    simpa [counting, counted] using run
  · obtain ⟨given', ended'⟩ := start.reach tidy rooted hs
    obtain ⟨k', pending⟩ := s
    obtain rfl : pending = 0 := done
    obtain ⟨settled', solves'⟩ := ended'.solves
    have same := Subset.antisymm (ended'.least _ solves) (ended.least _ solves')
    rw [same] at settled'
    exact settled'
  · obtain ⟨given', ended'⟩ := start.reach tidy rooted hs
    exact ended'.next

/-- A boxed array that stands in itself, next to another array twice. Both arrays count too few
references. -/
def overdrawn : Heap where
  cells := #[
    ⟨.boxed #[⟨handle 1, .scalarArray⟩, ⟨handle 0, .boxedArray⟩, ⟨handle 1, .scalarArray⟩], 1, false⟩,
    ⟨.scalars #[5], 1, false⟩]
  counting := true
  increments := 0
  decrements := 0
  underflows := 0

theorem release_least_overdrawn :
    ∃ gone, overdrawn.Solves ⟨handle 0, .boxedArray⟩ gone ∧
      release ⟨handle 0, .boxedArray⟩ overdrawn =
        .ok () (overdrawn.settle (overdrawn.dues ⟨handle 0, .boxedArray⟩ gone)) ∧
      (finalState (release ⟨handle 0, .boxedArray⟩ overdrawn)).underflows = 2 := by
  have tidy : overdrawn.Tidy := by
    intro i c cell
    have mem := Array.mem_of_getElem? cell
    simp only [overdrawn, List.mem_toArray, List.mem_cons, List.not_mem_nil, or_false] at mem
    obtain rfl | rfl := mem <;> decide
  have rooted : overdrawn.Rooted := by
    intro i u hu
    match i with
    | 0 =>
      have held : ∀ u ∈ overdrawn.heldAt 0, ∃ j < 2, RefersTo u j := by decide
      exact held u hu
    | 1 => exact absurd hu (by decide +revert)
    | n + 2 => exact absurd hu (by simp [heldAt, objectAt?, overdrawn])
  obtain ⟨gone, solves, -, run, -⟩ := release_least (v := ⟨handle 0, .boxedArray⟩) rfl tidy rooted
    ⟨0, by decide, by decide⟩
  exact ⟨gone, solves, run, by decide +kernel⟩

end Threefold.Heap
