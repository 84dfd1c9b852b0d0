import Mathlib.Algebra.BigOperators.Group.List.Basic
import Mathlib.Algebra.Ring.Int.Defs
import Threefold.Proofs.Heap.Counts
import Threefold.Proofs.Heap.Effects

/-!
# Conservation of references

Whatever is done to a heap, well or badly, comes down to moves: an object is put on the heap with its one
reference, an object is changed in place, one reference to a cell is taken, or one is given back
(`Moves`). An operation that fails has made some of its moves and no others. Each move keeps the account of
the heap (`Balances`): the references to all cells are those that came with the cells and those that were
taken, without those that were given back by somebody who held them; and a cell is reclaimed when its last
reference is gone, and only then.

* `Use.moves` says of every use of a heap that it comes down to moves.
* `references_conserved` draws the balance of every sequence of uses. If all arrays are gone at its end, and
  no string was ever counted, then as many references were given back as were taken and came with arrays.
-/

namespace Threefold

namespace Heap

/-- The counts of the references to all objects together. -/
def total (h : Heap) : Int :=
  (h.cells.toList.map fun c => c.references.toInt).sum

/-- What is done to a heap, one move after the other, with the cells that are counted on the way. -/
inductive Moves : Heap → List Nat → Heap → Prop
  | rest (h : Heap) : Moves h [] h
  | allocate (h : Heap) (o : HeapObject) :
    Moves h [] { h with cells := h.cells.push ⟨o, 1, false⟩ }
  | change {h : Heap} {i : Nat} {c : Cell} {f : HeapObject → HeapObject} : h.cells[i]? = some c →
    (∀ o, (f o).isArray = o.isArray) →
    Moves h [] { h with cells := h.cells.modify i fun c => { c with object := f c.object } }
  | take {h : Heap} {i : Nat} {c : Cell} : h.cells[i]? = some c → c.freed = false →
    Moves h [i] { h with cells := h.cells.modify i Cell.take, increments := h.increments + 1 }
  | drop (h : Heap) (i : Nat) (hi : i < h.cells.size) : Moves h [i] (h.drop i hi).1
  | trans {h h' h'' : Heap} {is js : List Nat} : Moves h is h' → Moves h' js h'' →
    Moves h (is ++ js) h''

/-- A cell counts some references, or it is reclaimed and counts none. -/
def Tidy (h : Heap) : Prop :=
  ∀ (i : Nat) (c : Cell), h.cells[i]? = some c →
    0 ≤ c.references ∧ (c.freed = true ↔ c.references = 0)

/-- The account of a heap is in order. -/
structure Balances (h : Heap) : Prop where
  total : h.total + h.decrements = h.cells.size + h.increments + h.underflows
  tidy : h.Tidy

/-- A count has wrapped around after the heap had taken a number of references. So few were taken since
that it has not come back to where it was. -/
def Wrapped (h : Heap) (since : Nat) : Prop :=
  ∃ (i : Nat) (c : Cell), h.cells[i]? = some c ∧ c.references.toInt + 2 ^ 31 + since < h.increments

/-! ## What a move does to the account -/

theorem tidy_iff {c : Cell} : (0 ≤ c.references ∧ (c.freed = true ↔ c.references = 0)) ↔
    0 ≤ c.references.toInt ∧ (c.freed = true ↔ c.references.toInt = 0) := by
  rw [Cell.nonneg_iff, ← Int32.toInt_inj, Int32.toInt_zero]

theorem sum_references_set (cs : List Cell) {i : Nat} {c : Cell} (hi : cs[i]? = some c) (d : Cell) :
    ((cs.set i d).map fun c => c.references.toInt).sum + c.references.toInt =
      (cs.map fun c => c.references.toInt).sum + d.references.toInt := by
  induction cs generalizing i with
  | nil => cases hi
  | cons e cs ih =>
    cases i with
    | zero =>
      cases hi
      simp only [List.set_cons_zero, List.map_cons, List.sum_cons]
      omega
    | succ i =>
      have rest := ih (i := i) hi
      simp only [List.set_cons_succ, List.map_cons, List.sum_cons]
      omega

theorem total_modify {h h' : Heap} {i : Nat} {c : Cell} {f : Cell → Cell}
    (cell : h.cells[i]? = some c) (cells : h'.cells = h.cells.modify i f) :
    h'.total + c.references.toInt = h.total + (f c).references.toInt := by
  have set : h'.cells.toList = h.cells.toList.set i (f c) := by
    rw [cells, Array.toList_modify, List.modify_eq_set_getElem?, Array.getElem?_toList, cell]
    rfl
  rw [total, total, set]
  exact sum_references_set _ (by rw [Array.getElem?_toList, cell]) _

/-- A change to one cell, as the account has it. -/
theorem Balances.modify {h h' : Heap} {i : Nat} {c : Cell} {f : Cell → Cell} (balances : h.Balances)
    (cell : h.cells[i]? = some c) (cells : h'.cells = h.cells.modify i f)
    (tidy : 0 ≤ (f c).references.toInt ∧ ((f c).freed = true ↔ (f c).references.toInt = 0))
    (counts : (f c).references.toInt + h'.decrements + h.increments + h.underflows =
      c.references.toInt + h.decrements + h'.increments + h'.underflows) : h'.Balances := by
  refine ⟨?_, fun j d hd => ?_⟩
  · have moved := total_modify cell cells
    have before := balances.total
    have size : h'.cells.size = h.cells.size := by simp [cells]
    omega
  · rw [cells, Array.getElem?_modify] at hd
    split at hd
    case isTrue same =>
      rw [← same, cell] at hd
      cases hd
      exact tidy_iff.mpr tidy
    case isFalse => exact balances.tidy j d hd

theorem Balances.drop {h : Heap} (balances : h.Balances) (i : Nat) (hi : i < h.cells.size) :
    (h.drop i hi).1.Balances := by
  have cell : h.cells[i]? = some h.cells[i] := Array.getElem?_eq_getElem hi
  unfold Heap.drop
  dsimp only
  split
  · -- nobody held the reference
    refine ⟨?_, balances.tidy⟩
    have before := balances.total
    simp only [Heap.total] at before ⊢
    omega
  · rename_i live
    simp only [Bool.or_eq_true, decide_eq_true_eq, not_or, Bool.not_eq_true] at live
    have held := live.2
    rw [Cell.nonpos_iff] at held
    have less := Cell.toInt_drop live.2
    refine balances.modify cell rfl ⟨by omega, ?_⟩ ?_
    · rw [Cell.freed_drop]
      omega
    · simp only
      omega

theorem Balances.push {h : Heap} (balances : h.Balances) (o : HeapObject) :
    Balances { h with cells := h.cells.push ⟨o, 1, false⟩ } := by
  refine ⟨?_, fun i c cell => ?_⟩
  · have before := balances.total
    simp only [Heap.total, Array.toList_push, List.map_append, List.sum_append, Array.size_push,
      List.map_cons, List.map_nil, List.sum_cons, List.sum_nil, Int32.toInt_one] at before ⊢
    omega
  · simp only [Array.getElem?_push] at cell
    split at cell
    · cases cell
      simp
    · exact balances.tidy i c cell

/-- One more reference is on the account, or its count has wrapped around. -/
theorem Balances.take {h : Heap} {i : Nat} {c : Cell} (balances : h.Balances)
    (cell : h.cells[i]? = some c) (live : c.freed = false) {h' : Heap}
    (hh : h' = { h with cells := h.cells.modify i Cell.take, increments := h.increments + 1 })
    {since : Nat} (le : since ≤ h.increments) : h'.Balances ∨ h'.Wrapped since := by
  have nonneg := (tidy_iff.mp (balances.tidy i c cell)).1
  obtain more | ⟨-, wrapped⟩ := c.toInt_take
  · refine .inl (balances.modify cell (by rw [hh]) ⟨by omega, ?_⟩ ?_)
    · rw [show c.take.freed = c.freed from rfl, live, more]
      simp only [Bool.false_eq_true, false_iff]
      omega
    · rw [hh, more]
      simp only
      omega
  · refine .inr ⟨i, c.take, ?_, ?_⟩
    · rw [hh, Array.getElem?_modify, if_pos rfl, cell]
      rfl
    · rw [hh, wrapped]
      simp only
      omega

theorem Wrapped.modify {h h' : Heap} {since i : Nat} {f : Cell → Cell} (wrapped : h.Wrapped since)
    (cells : h'.cells = h.cells.modify i f)
    (counts : ∀ c, h.cells[i]? = some c →
      (f c).references.toInt + h.increments ≤ c.references.toInt + h'.increments)
    (more : h.increments ≤ h'.increments) : h'.Wrapped since := by
  obtain ⟨j, c, cell, low⟩ := wrapped
  by_cases same : i = j
  · subst same
    refine ⟨i, f c, by rw [cells, Array.getElem?_modify, if_pos rfl, cell]; rfl, ?_⟩
    have := counts c cell
    omega
  · exact ⟨j, c, by rw [cells, Array.getElem?_modify, if_neg same, cell], by omega⟩

theorem Wrapped.drop {h : Heap} {since : Nat} (wrapped : h.Wrapped since) (i : Nat)
    (hi : i < h.cells.size) : (h.drop i hi).1.Wrapped since := by
  unfold Heap.drop
  dsimp only
  split
  case isTrue => exact wrapped
  case isFalse live =>
    refine wrapped.modify (i := i) (f := Cell.drop) rfl (fun c cell => ?_) (Nat.le_refl _)
    obtain rfl := Option.some.inj ((Array.getElem?_eq_getElem hi).symm.trans cell)
    simp only [Bool.or_eq_true, decide_eq_true_eq, not_or] at live
    have less := Cell.toInt_drop live.2
    simp only
    omega

theorem Moves.increments_le {h h' : Heap} {is : List Nat} (moves : Moves h is h') :
    h.increments ≤ h'.increments := by
  induction moves with
  | rest | allocate | change => exact Nat.le_refl _
  | take => exact Nat.le_succ _
  | drop h i hi =>
    unfold Heap.drop
    dsimp only
    split <;> exact Nat.le_refl _
  | trans _ _ first second => exact Nat.le_trans first second

/-- Every move keeps the account in order unless it makes a count wrap around, and no move mends such a
count. -/
theorem Moves.balances {h h' : Heap} {is : List Nat} (moves : Moves h is h') {since : Nat}
    (le : since ≤ h.increments) (before : h.Balances ∨ h.Wrapped since) :
    h'.Balances ∨ h'.Wrapped since := by
  induction moves with
  | rest h => exact before
  | allocate h o =>
    refine before.imp (·.push o) fun ⟨i, c, cell, low⟩ => ⟨i, c, ?_, low⟩
    have lt := (Array.getElem?_eq_some_iff.mp cell).1
    rw [← cell, Array.getElem?_push_lt lt, Array.getElem?_eq_getElem lt]
  | @change h i c f cell array =>
    refine before.imp (fun balances => ?_) fun wrapped => ?_
    · exact balances.modify (f := fun c => { c with object := f c.object }) cell rfl
        (tidy_iff.mp (balances.tidy i c cell)) rfl
    · exact wrapped.modify (f := fun c => { c with object := f c.object }) rfl
        (fun _ _ => Int.le_refl _) (Nat.le_refl _)
  | @take h i c cell live =>
    obtain balances | wrapped := before
    · exact balances.take cell live rfl le
    · refine .inr (wrapped.modify (f := Cell.take) rfl (fun d _ => ?_) (Nat.le_succ _))
      have more := d.toInt_take
      simp only
      omega
  | drop h i hi => exact before.imp (·.drop i hi) (·.drop i hi)
  | trans first _ ih ih' =>
    exact ih' (Nat.le_trans le first.increments_le) (ih le before)

/-- Where no count is negative, none has wrapped around in fewer steps than a word can count. -/
theorem CountsFit.not_wrapped {h : Heap} (fit : h.CountsFit) {since : Nat}
    (few : h.increments ≤ since + 2 ^ 31) : ¬h.Wrapped since := by
  rintro ⟨i, c, cell, low⟩
  have nonneg := Cell.nonneg_iff.mp (fit.cell cell)
  omega

/-! ## Strings that are never counted -/

/-- A cell has a string. -/
def IsString (h : Heap) (i : Nat) : Prop :=
  ∃ c, h.cells[i]? = some c ∧ c.object.isArray = false

theorem isArray_modify {h h' : Heap} {i j : Nat} {c : Cell} {f : Cell → Cell}
    (cells : h'.cells = h.cells.modify i f) (array : ∀ c, (f c).object.isArray = c.object.isArray)
    (cell : h.cells[j]? = some c) :
    ∃ d, h'.cells[j]? = some d ∧ d.object.isArray = c.object.isArray := by
  rw [cells, Array.getElem?_modify, cell]
  split
  · exact ⟨f c, rfl, array c⟩
  · exact ⟨c, rfl, rfl⟩

/-- Objects stay strings or arrays. -/
theorem Moves.keeps {h h' : Heap} {is : List Nat} (moves : Moves h is h') {i : Nat} {c : Cell}
    (cell : h.cells[i]? = some c) :
    ∃ d, h'.cells[i]? = some d ∧ d.object.isArray = c.object.isArray := by
  induction moves generalizing c with
  | rest h => exact ⟨c, cell, rfl⟩
  | allocate h o =>
    have lt := (Array.getElem?_eq_some_iff.mp cell).1
    exact ⟨c, by rw [Array.getElem?_push_lt lt, ← cell, Array.getElem?_eq_getElem lt], rfl⟩
  | @change h j d f _ array =>
    exact isArray_modify (f := fun c => { c with object := f c.object }) rfl
      (fun c => array c.object) cell
  | take _ _ => exact isArray_modify (f := Cell.take) rfl (fun _ => rfl) cell
  | drop h j hj =>
    unfold Heap.drop
    dsimp only
    split
    · exact ⟨c, cell, rfl⟩
    · exact isArray_modify (f := Cell.drop) rfl (fun _ => rfl) cell
  | trans _ _ first second =>
    obtain ⟨d, hd, same⟩ := first cell
    obtain ⟨e, he, same'⟩ := second hd
    exact ⟨e, he, same'.trans same⟩

/-- Every string has the one reference with which it was put on the heap. -/
def StringsUncounted (h : Heap) : Prop :=
  ∀ (i : Nat) (c : Cell), h.cells[i]? = some c → c.object.isArray = false → c.references = 1

theorem StringsUncounted.modify {h h' : Heap} {i : Nat} {c : Cell} {f : Cell → Cell}
    (uncounted : h.StringsUncounted) (cells : h'.cells = h.cells.modify i f)
    (cell : h.cells[i]? = some c)
    (string : (f c).object.isArray = false → c.object.isArray = false ∧ (f c).references = c.references) :
    h'.StringsUncounted := by
  intro j d hd plain
  rw [cells, Array.getElem?_modify] at hd
  split at hd
  case isTrue same =>
    rw [← same, cell] at hd
    cases hd
    obtain ⟨before, references⟩ := string plain
    rw [references]
    exact uncounted i c cell before
  case isFalse => exact uncounted j d hd plain

/-- Moves that count no string leave all strings uncounted. -/
theorem Moves.stringsUncounted {h h' : Heap} {is : List Nat} (moves : Moves h is h')
    (plain : ∀ i ∈ is, ¬h'.IsString i) (uncounted : h.StringsUncounted) : h'.StringsUncounted := by
  induction moves with
  | rest h => exact uncounted
  | allocate h o =>
    intro i c cell string
    simp only [Array.getElem?_push] at cell
    split at cell
    · cases cell
      rfl
    · exact uncounted i c cell string
  | @change h i c f cell array =>
    exact uncounted.modify (f := fun c => { c with object := f c.object }) rfl cell fun string =>
      ⟨(array c.object).symm.trans string, rfl⟩
  | @take h i c cell live =>
    obtain ⟨d, hd, same⟩ := (Moves.take cell live).keeps cell
    have counted : ¬c.object.isArray = false := fun string =>
      plain i (List.mem_singleton_self i) ⟨d, hd, same.trans string⟩
    exact uncounted.modify (f := Cell.take) rfl cell fun string => absurd string counted
  | drop h i hi =>
    have cell : h.cells[i]? = some h.cells[i] := Array.getElem?_eq_getElem hi
    obtain ⟨d, hd, same⟩ := (Moves.drop h i hi).keeps cell
    have counted : ¬h.cells[i].object.isArray = false := fun string =>
      plain i (List.mem_singleton_self i) ⟨d, hd, same.trans string⟩
    unfold Heap.drop
    dsimp only
    split
    · exact uncounted
    · exact uncounted.modify (f := Cell.drop) rfl cell fun string => absurd string counted
  | @trans h h' h'' is js _ rest first second =>
    refine second (fun i hi => plain i (List.mem_append_right is hi)) (first (fun i hi => ?_) uncounted)
    rintro ⟨c, cell, string⟩
    obtain ⟨d, hd, same⟩ := rest.keeps cell
    exact plain i (List.mem_append_left js hi) ⟨d, hd, same.trans string⟩

/-- Where all strings are uncounted and all arrays are gone, the references that are left are those of the
strings. -/
theorem StringsUncounted.total {h : Heap} (uncounted : h.StringsUncounted) (balances : h.Balances)
    (gone : h.liveArrays = []) : h.total + h.arrays = h.cells.size := by
  have cells : ∀ c ∈ h.cells.toList,
      c.references.toInt + (if c.object.isArray then 1 else 0 : Nat) = 1 := by
    intro c hc
    obtain ⟨i, hi⟩ := List.mem_iff_getElem?.mp hc
    have cell := hi
    rw [Array.getElem?_toList] at cell
    cases array : c.object.isArray with
    | false => simp [uncounted i c cell array]
    | true =>
      have freed : c.freed = true := by
        by_contra live
        rw [liveArrays, List.map_eq_nil_iff, List.filter_eq_nil_iff] at gone
        refine gone (c, i) (List.mem_zipIdx_iff_getElem?.mpr hi) ?_
        simp [array, live]
      simp [(balances.tidy i c cell).2.mp freed]
  rw [Heap.total, arrays, ← Array.countP_toList, ← Array.length_toList]
  generalize h.cells.toList = cs at cells
  induction cs with
  | nil => rfl
  | cons c cs ih =>
    have first := cells c List.mem_cons_self
    have rest := ih fun d hd => cells d (List.mem_cons_of_mem c hd)
    simp only [List.map_cons, List.sum_cons, List.countP_cons, List.length_cons]
    omega

/-! ## Operations as moves -/

/-- Whatever an operation ends in, it comes down to moves, and it takes no more than a number of
references. -/
def IsMoves {α : Type} (taken : Nat) (op : Op α) : Prop :=
  ∀ h, ∃ is, Moves h is (finalState (op h)) ∧ (finalState (op h)).increments ≤ h.increments + taken

namespace IsMoves

variable {α β : Type} {l m n : Nat}

/-- Nothing was done. -/
theorem rest (h : Heap) (n : Nat) : ∃ is, Moves h is h ∧ h.increments ≤ h.increments + n :=
  ⟨[], .rest h, Nat.le_add_right _ n⟩

theorem pure (a : α) : IsMoves 0 (Pure.pure a : Op α) :=
  fun h => rest h 0

theorem throw (f : Fault) : IsMoves 0 (MonadExcept.throw f : Op α) :=
  fun h => rest h 0

theorem bind {op : Op α} {k : α → Op β} (first : IsMoves l op) (rest : ∀ a, IsMoves m (k a))
    (le : l + m ≤ n := by omega) : IsMoves n (op >>= k) := by
  intro h
  obtain ⟨is, moves, taken⟩ := first h
  simp only [Bind.bind, EStateM.bind]
  cases hop : op h with
  | error e h' =>
    rw [hop] at moves taken
    refine ⟨is, moves, Nat.le_trans taken ?_⟩
    omega
  | ok a h' =>
    rw [hop] at moves taken
    obtain ⟨js, moves', taken'⟩ := rest a h'
    refine ⟨is ++ js, moves.trans moves', Nat.le_trans taken' ?_⟩
    simp only [finalState] at taken
    omega

theorem mono {op : Op α} (moves : IsMoves m op) (le : m ≤ n) : IsMoves n op := by
  intro h
  obtain ⟨is, run, taken⟩ := moves h
  exact ⟨is, run, Nat.le_trans taken (Nat.add_le_add_left le _)⟩

end IsMoves

theorem allocate_isMoves (o : HeapObject) : IsMoves 0 (allocate o) :=
  fun h => ⟨[], .allocate h o, Nat.le_refl _⟩

theorem preload_isMoves (ss : List String) : IsMoves 0 (preload ss) := by
  induction ss with
  | nil => exact .pure []
  | cons s ss ih => exact .bind (m := 0) (allocate_isMoves _) fun _ => .bind ih fun _ => .pure _

theorem object_isMoves (n : Int32) : IsMoves 0 (object n) := by
  intro h
  have finds := object_finds h n
  generalize object n h = found at finds ⊢
  cases finds <;> exact IsMoves.rest h 0

theorem bytes_isMoves (n : Int32) : IsMoves 0 (bytes n) := by
  refine .bind (m := 0) (object_isMoves n) fun o => ?_
  cases o with
  | string bs => exact .pure bs
  | scalars words => exact .throw _
  | boxed values => exact .throw _

theorem tally_isMoves (n : Int32) : IsMoves 0 (tally n) := by
  intro h
  unfold tally
  cases h.index? n <;> exact IsMoves.rest h 0

theorem modifyObject_moves {h : Heap} {i : Nat} (inside : i < h.cells.size)
    {f : HeapObject → HeapObject} (array : ∀ o, (f o).isArray = o.isArray) :
    Moves h [] (finalState (modifyObject i f h)) :=
  .change (Array.getElem?_eq_getElem inside) array

theorem pushByte_isMoves (n : Int32) (b : UInt8) : IsMoves 0 (pushByte n b) := by
  refine .bind (m := 0) (bytes_isMoves n) fun _ h => ?_
  simp only [Bind.bind, EStateM.bind, index]
  cases hi : h.index? n with
  | none => exact IsMoves.rest h 0
  | some i =>
    exact ⟨[], modifyObject_moves (index?_lt hi) fun o => by cases o <;> rfl, Nat.le_refl _⟩

theorem retain_isMoves (v : Value) : IsMoves 1 (retain v) := by
  intro h
  unfold retain
  split
  · exact IsMoves.rest h 1
  · cases hi : h.index? v.word with
    | none => exact IsMoves.rest h 1
    | some i =>
      obtain ⟨c, cell⟩ : ∃ c, h.cells[i]? = some c := ⟨_, Array.getElem?_eq_getElem (index?_lt hi)⟩
      simp only [cell, Option.map_some, Option.getD_some]
      cases freed : c.freed with
      | true => exact IsMoves.rest h 1
      | false => exact ⟨[i], .take cell freed, Nat.le_refl _⟩

theorem retainTimes_isMoves (v : Value) (n : Nat) : IsMoves n (retainTimes v n) := by
  induction n with
  | zero => exact .pure ()
  | succ n ih => exact .bind (retain_isMoves v) fun _ => ih

theorem releaseAll_moves (h : Heap) (pending : List Value) :
    ∃ is, Moves h is (finalState (releaseAll h pending)) ∧
      (finalState (releaseAll h pending)).increments ≤ h.increments := by
  fun_induction releaseAll h pending with
  | case1 h => exact ⟨[], .rest h, Nat.le_refl _⟩
  | case2 h v rest none => exact ⟨[], .rest h, Nat.le_refl _⟩
  | case3 h v rest i found ih =>
    obtain ⟨is, moves, le⟩ := ih
    refine ⟨[i] ++ is, (Moves.drop h i (index?_lt found)).trans moves, Nat.le_trans le ?_⟩
    unfold Heap.drop
    dsimp only
    split <;> exact Nat.le_refl _

theorem release_isMoves (v : Value) : IsMoves 0 (release v) := by
  intro h
  unfold release
  split
  · exact IsMoves.rest h 0
  · exact releaseAll_moves h [v]

theorem storeAt_moves {h : Heap} {i : Nat} (inside : i < h.cells.size) (o : HeapObject) (p : Nat)
    (v : Value) : ∃ is, Moves h is (finalState (storeAt i o p v h)) ∧
      (finalState (storeAt i o p v h)).increments ≤ h.increments + 1 := by
  have array (o : HeapObject) : (Intrinsic.setElement p v o).isArray = o.isArray := by
    cases o <;> rfl
  have change := modifyObject_moves inside array
  cases o with
  | string bytes => exact ⟨[], change, Nat.le_succ _⟩
  | scalars words => exact ⟨[], change, Nat.le_succ _⟩
  | boxed values =>
    obtain ⟨js, rest, le⟩ := IsMoves.bind (retain_isMoves v)
      (fun _ => release_isMoves (values.getD p (.scalar 0))) (Nat.le_refl 1)
      (finalState (modifyObject i _ h))
    exact ⟨[] ++ js, change.trans rest, le⟩

end Heap

namespace Intrinsic

open Heap

/-- What a built-in function does to the heap comes down to moves. It takes no more references than a word
can count. -/
theorem Effect.moves {h : Heap} {i : Intrinsic} {arguments : List Value} {op : Heap.Op Reply}
    (effect : Effect h i arguments op) :
    ∃ is, Moves h is (finalState (op h)) ∧ (finalState (op h)).increments ≤ h.increments + 2 ^ 31 := by
  cases effect with
  | answer | outOfBounds | fail | get => exact IsMoves.rest h _
  | newString i arguments bytes =>
    exact IsMoves.bind (allocate_isMoves _) (fun _ => .pure _) (Nat.zero_le _) h
  | setByte i arguments p b inside =>
    exact ⟨[], modifyObject_moves inside fun o => by cases o <;> rfl, Nat.le_add_right _ _⟩
  | make n v size =>
    exact IsMoves.bind (allocate_isMoves _) (fun _ => .pure _) (Nat.zero_le _) h
  | makeBoxed n v size lt =>
    exact IsMoves.bind (m := 0) (retainTimes_isMoves v size)
      (fun _ => .bind (allocate_isMoves _) fun _ => .pure _) (Nat.le_of_lt lt) h
  | @set a n v k p c counted index cell live inside =>
    obtain ⟨is, moves, le⟩ := storeAt_moves (index?_lt index) c.object p v
    refine ⟨is, ?_⟩
    simp only [Bind.bind, EStateM.bind]
    cases run : storeAt k c.object p v h <;> rw [run] at moves le <;>
      exact ⟨moves, Nat.le_trans le (by omega)⟩

theorem call_moves (i : Intrinsic) (arguments : List Value) (w : World) :
    ∃ is, Moves w.heap is (finalState (i.call arguments w)).heap ∧
      (finalState (i.call arguments w)).heap.increments ≤ w.heap.increments + 2 ^ 31 := by
  obtain ⟨op, effect, same⟩ := call_effect i arguments w
  rw [← World.finalState_heapResult, same]
  exact effect.moves

end Intrinsic

/-! ## Sequences of uses -/

/-- What can be asked of a heap: an object or some strings are put on it, a handle is looked up, a byte is
appended to a string, a reference is taken or given back, or a built-in function is called. -/
inductive Use
  | allocate (o : HeapObject)
  | preload (ss : List String)
  | object (word : Int32)
  | bytes (word : Int32)
  | tally (word : Int32)
  | pushByte (word : Int32) (byte : UInt8)
  | retain (v : Value)
  | release (v : Value)
  | call (i : Intrinsic) (arguments : List Value)

namespace Use

open Heap

/-- The operation that is asked for. What it answers does not matter here. -/
def op : Use → World.Op Unit
  | allocate o => World.onHeap do let _ ← Heap.allocate o
  | preload ss => World.onHeap do let _ ← Heap.preload ss
  | object n => World.onHeap do let _ ← Heap.object n
  | bytes n => World.onHeap do let _ ← Heap.bytes n
  | tally n => World.onHeap do let _ ← Heap.tally n
  | pushByte n b => World.onHeap (Heap.pushByte n b)
  | retain v => World.onHeap (Heap.retain v)
  | release v => World.onHeap (Heap.release v)
  | call i arguments => do let _ ← i.call arguments

/-- The world after some uses, whether they succeed or fail. -/
def after (us : List Use) (w : World) : World :=
  us.foldl (fun w u => finalState (u.op w)) w

/-- No count has wrapped around after any of the uses. -/
def CountsFit (us : List Use) (w : World) : Prop :=
  ∀ n ≤ us.length, (after (us.take n) w).heap.CountsFit

instance (us : List Use) (w : World) : Decidable (CountsFit us w) :=
  inferInstanceAs (Decidable (∀ n ≤ us.length, (after (us.take n) w).heap.CountsFit))

theorem countsFit_cons {u : Use} {us : List Use} {w : World} (fit : CountsFit (u :: us) w) :
    (finalState (u.op w)).heap.CountsFit ∧ CountsFit us (finalState (u.op w)) :=
  ⟨fit 1 (Nat.le_add_left 1 _), fun n le => fit (n + 1) (Nat.succ_le_succ le)⟩

theorem moves_onHeap {α : Type} {op : Heap.Op α} (h : IsMoves (2 ^ 31) op) (w : World) :
    ∃ is, Moves w.heap is (finalState (World.onHeap op w)).heap ∧
      (finalState (World.onHeap op w)).heap.increments ≤ w.heap.increments + 2 ^ 31 := by
  rw [← World.finalState_heapResult, World.Lifts.onHeap]
  exact h w.heap

/-- Every use of a heap comes down to moves, also one that fails. -/
theorem moves (u : Use) (w : World) : ∃ is, Moves w.heap is (finalState (u.op w)).heap ∧
    (finalState (u.op w)).heap.increments ≤ w.heap.increments + 2 ^ 31 := by
  cases u with
  | allocate o => exact moves_onHeap (.bind (allocate_isMoves o) fun _ => .pure ()) w
  | preload ss => exact moves_onHeap (.bind (preload_isMoves ss) fun _ => .pure ()) w
  | object n => exact moves_onHeap (.bind (object_isMoves n) fun _ => .pure ()) w
  | bytes n => exact moves_onHeap (.bind (bytes_isMoves n) fun _ => .pure ()) w
  | tally n => exact moves_onHeap (.bind (tally_isMoves n) fun _ => .pure ()) w
  | pushByte n b => exact moves_onHeap ((pushByte_isMoves n b).mono (Nat.zero_le _)) w
  | retain v => exact moves_onHeap ((retain_isMoves v).mono (by decide)) w
  | release v => exact moves_onHeap ((release_isMoves v).mono (Nat.zero_le _)) w
  | call i arguments =>
    have moves := Intrinsic.call_moves i arguments w
    simp only [op, Bind.bind, EStateM.bind]
    cases run : i.call arguments w <;> rw [run] at moves <;> exact moves

theorem moves_after (us : List Use) (w : World) : ∃ is, Moves w.heap is (after us w).heap := by
  induction us generalizing w with
  | nil => exact ⟨[], .rest _⟩
  | cons u us ih =>
    obtain ⟨is, first, -⟩ := u.moves w
    obtain ⟨js, rest⟩ := ih (finalState (u.op w))
    exact ⟨is ++ js, first.trans rest⟩

/-- A use after which no count has wrapped around keeps the account in order. -/
theorem balances_op {u : Use} {w : World} (balances : w.heap.Balances)
    (fit : (finalState (u.op w)).heap.CountsFit) : (finalState (u.op w)).heap.Balances := by
  obtain ⟨is, moves, few⟩ := u.moves w
  exact (moves.balances (Nat.le_refl _) (.inl balances)).resolve_right (fit.not_wrapped few)

theorem balances_after {us : List Use} {w : World} (balances : w.heap.Balances)
    (fit : CountsFit us w) : (after us w).heap.Balances := by
  induction us generalizing w with
  | nil => exact balances
  | cons u us ih =>
    obtain ⟨here, rest⟩ := countsFit_cons fit
    exact ih (balances_op balances here) rest

theorem balances_empty (counting : Bool) : (Heap.empty counting).Balances :=
  ⟨rfl, fun _ _ cell => by simp [Heap.empty] at cell⟩

/-- On a heap that counts and that began empty, after any uses, whether they succeed or fail, as long as no
count has wrapped around: the references to all objects are as many as the objects and the references
taken, without those given back that somebody held; an object is reclaimed exactly when there is no
reference to it. If no string was counted on the way, all arrays are gone, and nothing was given back too
often, then the references given back are those taken and one for each array. -/
theorem references_conserved (us : List Use) (console : Console)
    (fit : CountsFit us ⟨.empty true, console⟩) :
    let h := (after us ⟨.empty true, console⟩).heap
    h.total = h.cells.size + h.increments - (h.decrements - h.underflows) ∧
    (∀ (i : Nat) (c : Cell), h.cells[i]? = some c → (c.freed = true ↔ c.references = 0)) ∧
    (∃ is, Moves (.empty true) is h) ∧
    ∀ is, Moves (.empty true) is h → (∀ i ∈ is, ¬h.IsString i) → h.isBalanced = true →
      h.decrements = h.increments + h.arrays := by
  intro h
  have balances : h.Balances := balances_after (balances_empty true) fit
  have total := balances.total
  refine ⟨by omega, fun i c cell => (balances.tidy i c cell).2,
    moves_after us ⟨.empty true, console⟩, fun js moves plain balanced => ?_⟩
  have uncounted : h.StringsUncounted :=
    moves.stringsUncounted plain fun _ _ cell => by simp [Heap.empty] at cell
  simp only [isBalanced, Bool.and_eq_true, List.isEmpty_iff, beq_iff_eq] at balanced
  have left := uncounted.total balances balanced.1
  omega

/-- An array is put into a boxed array twice, and both are given back, the boxed one last. -/
def nesting : List Use := [
  .call .arrMake [.scalar 1, .scalar 0], .call .arrMakeBoxed [.scalar 2, ⟨handle 0, .scalarArray⟩],
  .release ⟨handle 0, .scalarArray⟩, .release ⟨handle 1, .boxedArray⟩]

theorem references_conserved_nesting :
    CountsFit nesting ⟨.empty true, ⟨[], #[]⟩⟩ ∧
    (after nesting ⟨.empty true, ⟨[], #[]⟩⟩).heap.decrements =
      (after nesting ⟨.empty true, ⟨[], #[]⟩⟩).heap.increments + 2 := by
  have fit : CountsFit nesting ⟨.empty true, ⟨[], #[]⟩⟩ := by decide +kernel
  have cells : (after nesting ⟨.empty true, ⟨[], #[]⟩⟩).heap.cells =
      #[⟨.scalars #[0], 0, true⟩,
        ⟨.boxed #[⟨handle 0, .scalarArray⟩, ⟨handle 0, .scalarArray⟩], 0, true⟩] := by
    decide +kernel
  have arrays : (after nesting ⟨.empty true, ⟨[], #[]⟩⟩).heap.arrays = 2 := by decide +kernel
  obtain ⟨-, -, ⟨is, moves⟩, balanced⟩ := references_conserved nesting ⟨[], #[]⟩ fit
  refine ⟨fit, ?_⟩
  rw [← arrays]
  refine balanced is moves (fun i _ => ?_) (by decide +kernel)
  rintro ⟨c, cell, string⟩
  rw [cells] at cell
  have mem := Array.mem_of_getElem? cell
  simp only [List.mem_toArray, List.mem_cons, List.not_mem_nil, or_false] at mem
  obtain rfl | rfl := mem <;> cases string

/-- The heap after an array was put into a new boxed array as often as a word says. -/
theorem heap_arrMakeBoxed {w : World} {v : Value} {i : Nat} {c : Cell} {n : Int32}
    (counting : w.heap.counting = true) (counted : v.tag.isCounted = true)
    (index : w.heap.index? v.word = some i) (cell : w.heap.cells[i]? = some c)
    (live : c.freed = false) (nonneg : 0 ≤ n.toInt) :
    (finalState ((Use.call .arrMakeBoxed [.scalar n, v]).op w)).heap = { w.heap with
      cells := (w.heap.cells.modify i (Cell.takeTimes n.toInt.toNat)).push
        ⟨.boxed (.replicate n.toInt.toNat v), 1, false⟩
      increments := w.heap.increments + n.toInt.toNat } := by
  have size : Intrinsic.length .arrMakeBoxed n w = .ok n.toInt.toNat w := by
    rw [Intrinsic.length, if_pos nonneg]
    rfl
  have taken := retainTimes_eq counting counted index cell live n.toInt.toNat
  simp only [op, Intrinsic.call, Value.scalar, Bind.bind, EStateM.bind, World.onHeap, size, taken,
    Heap.allocate, finalState]
  rfl

/-- An array is put into a boxed array as often as a word can say. -/
def overfull : List Use := [
  .call .arrMake [.scalar 1, .scalar 0],
  .call .arrMakeBoxed [.scalar Int32.maxValue, ⟨handle 0, .scalarArray⟩]]

/-- Without room for the counts nothing is conserved: one reference more than a word can count makes the
count negative. -/
theorem total_of_overfull : ¬∀ (us : List Use) (console : Console),
    let h := (after us ⟨.empty true, console⟩).heap
    h.total = h.cells.size + h.increments - (h.decrements - h.underflows) := by
  intro conserved
  have total := conserved overfull ⟨[], #[]⟩
  obtain ⟨w, hw⟩ : ∃ w, w = finalState
      ((Use.call .arrMake [.scalar 1, .scalar 0]).op ⟨.empty true, ⟨[], #[]⟩⟩) := ⟨_, rfl⟩
  have heap : w.heap = ⟨#[⟨.scalars #[0], 1, false⟩], true, 0, 0, 0⟩ := by rw [hw]; rfl
  have full := heap_arrMakeBoxed (w := w) (v := ⟨handle 0, .scalarArray⟩) (i := 0)
    (c := ⟨.scalars #[0], 1, false⟩) (n := Int32.maxValue) (by rw [heap]) rfl (by rw [heap]; decide)
    (by rw [heap]; rfl) rfl (by decide)
  simp only [after, overfull, List.foldl_cons, List.foldl_nil, ← hw, full, heap] at total
  generalize HeapObject.boxed _ = o at total
  rw [show Int32.maxValue.toInt.toNat = 2147483647 from rfl] at total
  have wrapped : (Cell.takeTimes 2147483647 ⟨.scalars #[0], 1, false⟩).references.toInt =
      -2147483648 := by decide
  have cells : (Array.modify #[⟨.scalars #[0], 1, false⟩] 0 (Cell.takeTimes 2147483647)).toList =
      [Cell.takeTimes 2147483647 ⟨.scalars #[0], 1, false⟩] := rfl
  simp only [Heap.total, Array.toList_push, cells, List.map_append, List.map_cons, List.map_nil,
    List.sum_append, List.sum_cons, List.sum_nil, wrapped, Int32.toInt_one, Array.size_push,
    Array.size_modify] at total
  exact absurd total (by decide)

end Use

end Threefold
