import Mathlib.Data.Multiset.Bind
import Threefold.Proofs.Heap.Counts
import Threefold.Proofs.Heap.Kinds

/-!
# Counts of references

On a heap that counts, the number of references to an array is the number of times that somebody
outside holds the array, together with the number of times that it stands in a boxed array which was not
reclaimed; an array is reclaimed as soon as that number is zero (`Heap.Exact`). Taking and giving back
references moves values into and out of what is held outside; so does storing an element in a boxed
array, which lets go of the old one. While arrays are being reclaimed, what they held and is still to be
given back is held outside as well, so that the counts are exact at every moment of a cascade
(`releaseAll_exact`).
-/

namespace Threefold

namespace Heap

/-- A value is a reference to the array in a cell. -/
def RefersTo (v : Value) (i : Nat) : Prop :=
  v.tag.isCounted = true ∧ v.word.toInt = base + i

instance (v : Value) (i : Nat) : Decidable (RefersTo v i) :=
  inferInstanceAs (Decidable (_ ∧ _))

/-- The number of references to the array in a cell among some values. -/
def mentions (vs : Multiset Value) (i : Nat) : Nat :=
  vs.countP (RefersTo · i)

/-- The references that the array in a cell holds. A reclaimed array holds none. -/
def Cell.holds (c : Cell) : Multiset Value :=
  if c.freed then 0 else c.object.held

/-- The references that the arrays on a heap hold. -/
def embedded (h : Heap) : Multiset Value :=
  (h.cells.toList : Multiset Cell).bind Cell.holds

@[simp]
theorem mentions_zero (i : Nat) : mentions 0 i = 0 :=
  rfl

@[simp]
theorem mentions_add (vs us : Multiset Value) (i : Nat) :
    mentions (vs + us) i = mentions vs i + mentions us i :=
  Multiset.countP_add _ vs us

@[simp]
theorem mentions_cons (v : Value) (vs : Multiset Value) (i : Nat) :
    mentions (v ::ₘ vs) i = mentions vs i + if RefersTo v i then 1 else 0 :=
  Multiset.countP_cons _ v vs

theorem mentions_replicate (n : Nat) (v : Value) (i : Nat) :
    mentions (Multiset.replicate n v) i = if RefersTo v i then n else 0 := by
  induction n with
  | zero => simp
  | succ n ih =>
    rw [Multiset.replicate_succ, mentions_cons, ih]
    split <;> rfl

theorem mentions_pos {vs : Multiset Value} {v : Value} {i : Nat} (hv : v ∈ vs)
    (refers : RefersTo v i) : 0 < mentions vs i :=
  Multiset.countP_pos.mpr ⟨v, hv, refers⟩

theorem mentions_eq_zero {vs : Multiset Value} {i : Nat} (h : ∀ v ∈ vs, ¬RefersTo v i) :
    mentions vs i = 0 :=
  Multiset.countP_eq_zero.mpr h

theorem RefersTo.unique {v : Value} {i j : Nat} (hi : RefersTo v i) (hj : RefersTo v j) : i = j := by
  have := hi.2
  have := hj.2
  omega

/-- A plain number is no reference. -/
theorem not_refersTo {v : Value} (hv : v.tag.isCounted = false) (i : Nat) : ¬RefersTo v i := by
  rintro ⟨counted, -⟩
  rw [hv] at counted
  cases counted

theorem refersTo_of_index {h : Heap} {v : Value} {i : Nat} (counted : v.tag.isCounted = true)
    (index : h.index? v.word = some i) : RefersTo v i :=
  ⟨counted, (index?_eq_some.mp index).2⟩

/-! ## What arrays hold after a change to a cell -/

theorem bind_set {α : Type} (f : α → Multiset Value) (l : List α) {i : Nat} {a : α}
    (hi : l[i]? = some a) (b : α) :
    (l.set i b : Multiset α).bind f + f a = (l : Multiset α).bind f + f b := by
  induction l generalizing i with
  | nil => cases hi
  | cons c l ih =>
    cases i with
    | zero =>
      cases hi
      simp only [List.set_cons_zero, ← Multiset.cons_coe, Multiset.cons_bind]
      ac_rfl
    | succ i =>
      have rest := ih (i := i) hi
      simp only [List.set_cons_succ, ← Multiset.cons_coe, Multiset.cons_bind, add_assoc, rest]

theorem embedded_modify {h h' : Heap} {i : Nat} {c : Cell} {f : Cell → Cell}
    (cell : h.cells[i]? = some c) (cells : h'.cells = h.cells.modify i f) :
    h'.embedded + c.holds = h.embedded + (f c).holds := by
  have set : h'.cells.toList = h.cells.toList.set i (f c) := by
    rw [cells, Array.toList_modify, List.modify_eq_set_getElem?, Array.getElem?_toList, cell]
    rfl
  rw [embedded, embedded, set]
  exact bind_set _ _ (by rw [Array.getElem?_toList, cell]) _

theorem embedded_push {h h' : Heap} {c : Cell} (cells : h'.cells = h.cells.push c) :
    h'.embedded = h.embedded + c.holds := by
  rw [embedded, cells, Array.toList_push, ← Multiset.coe_add, Multiset.add_bind]
  simp [embedded]

/-- What a boxed array holds is held on the heap until it is reclaimed. -/
theorem mem_embedded {h : Heap} {i : Nat} {c : Cell} {v : Value} (cell : h.cells[i]? = some c)
    (live : c.freed = false) (hv : v ∈ c.object.elements) (counted : v.tag.isCounted = true) :
    v ∈ h.embedded := by
  refine Multiset.mem_bind.mpr ⟨c, ?_, ?_⟩
  · exact Multiset.mem_coe.mpr (Array.mem_toList_iff.mpr (Array.mem_of_getElem? cell))
  · rw [Cell.holds, live, if_neg Bool.false_ne_true, Multiset.mem_coe, HeapObject.held_eq]
    exact List.mem_filter.mpr ⟨hv, counted⟩

theorem exists_of_mem_embedded {h : Heap} {v : Value} (hv : v ∈ h.embedded) :
    v.tag.isCounted = true ∧ ∃ i o, h.objectAt? i = some o ∧ v ∈ o.elements := by
  obtain ⟨c, hc, hv⟩ := Multiset.mem_bind.mp hv
  rw [Multiset.mem_coe] at hc
  rw [Cell.holds] at hv
  split at hv
  · exact absurd hv (Multiset.notMem_zero v)
  · rw [Multiset.mem_coe, HeapObject.held_eq, List.mem_filter] at hv
    obtain ⟨i, hi⟩ := List.mem_iff_getElem?.mp hc
    rw [Array.getElem?_toList] at hi
    exact ⟨hv.2, i, c.object, by rw [objectAt?, hi]; rfl, hv.1⟩

/-! ## Exact counts -/

/-- A cell counts the references to it right if there are so many. An array is gone when there are
none. -/
def Cell.Right (c : Cell) (references : Nat) : Prop :=
  c.object.isArray = true → c.references.toInt = references ∧ (c.freed = true ↔ references = 0)

/-- The counts on a heap are exact when some values are held outside. -/
structure Exact (h : Heap) (outside : Multiset Value) : Prop where
  counting : h.counting = true
  sound : h.Sound
  known : ∀ v ∈ outside, h.Vouches v
  right : ∀ (i : Nat) (c : Cell), h.cells[i]? = some c → c.Right (mentions (outside + h.embedded) i)
  strings : ∀ (i : Nat) (c : Cell), h.cells[i]? = some c → c.object.isArray = false → c.freed = false
  underflows : h.underflows = 0

namespace Exact

variable {h h' : Heap} {outside : Multiset Value} {v : Value}

theorem vouches_of_mem (exact : h.Exact outside) (hv : v ∈ outside + h.embedded) : h.Vouches v := by
  obtain out | mem := Multiset.mem_add.mp hv
  · exact exact.known v out
  · obtain ⟨-, i, o, ho, hv⟩ := exists_of_mem_embedded mem
    exact exact.sound i o ho v hv

/-- A reference that is held names an array that is there. -/
theorem live (exact : h.Exact outside) (hv : v ∈ outside + h.embedded)
    (counted : v.tag.isCounted = true) :
    ∃ i c, h.index? v.word = some i ∧ h.cells[i]? = some c ∧ c.freed = false ∧
      c.references.toInt = mentions (outside + h.embedded) i ∧
      v.tag.kind? = some c.object.kind := by
  obtain ⟨i, k, index, kind, tag⟩ := (exact.vouches_of_mem hv).index counted
  simp only [kindAt?, objectAt?, Option.map_map, Option.map_eq_some_iff] at kind
  obtain ⟨c, cell, hk⟩ := kind
  have array : c.object.isArray = true := by
    rw [HeapObject.isArray, bne_iff_ne, ne_eq, show c.object.kind = k from hk]
    rintro rfl
    generalize v.tag = t at tag
    cases t <;> cases tag
  obtain ⟨references, freed⟩ := exact.right i c cell array
  have pos := mentions_pos hv (refersTo_of_index counted index)
  refine ⟨i, c, index, cell, ?_, references, by rw [tag, ← hk]; rfl⟩
  rw [← Bool.not_eq_true, freed]
  omega

/-- Only the number of references counts. -/
theorem of_mentions {outside' : Multiset Value} (exact : h.Exact outside)
    (known : ∀ v ∈ outside', h.Vouches v)
    (same : ∀ i, mentions outside' i = mentions outside i) : h.Exact outside' := by
  refine ⟨exact.counting, exact.sound, known, fun i c cell => ?_, exact.strings, exact.underflows⟩
  rw [mentions_add, same, ← mentions_add]
  exact exact.right i c cell

/-- Plain numbers may be held or not. -/
theorem cons_uncounted (hv : v.tag.isCounted = false) :
    h.Exact (v ::ₘ outside) ↔ h.Exact outside := by
  have same (i : Nat) : mentions (v ::ₘ outside) i = mentions outside i := by
    rw [mentions_cons, if_neg (not_refersTo hv i), Nat.add_zero]
  constructor
  · intro exact
    exact exact.of_mentions (fun u hu => exact.known u (Multiset.mem_cons_of_mem hu)) fun i =>
      (same i).symm
  · intro exact
    refine exact.of_mentions (fun u hu => ?_) same
    obtain rfl | mem := Multiset.mem_cons.mp hu
    · exact vouches_of_uncounted hv
    · exact exact.known u mem

/-- The counts after a change to the counts of one cell. -/
theorem of_modify {outside' : Multiset Value} {i : Nat} {c : Cell} {f : Cell → Cell}
    (exact : h.Exact outside) (cell : h.cells[i]? = some c)
    (cells : h'.cells = h.cells.modify i f) (object : ∀ c, (f c).object = c.object)
    (array : c.object.isArray = true) (counting : h'.counting = h.counting)
    (underflows : h'.underflows = h.underflows) (known : ∀ v ∈ outside', h.Vouches v)
    (right : (f c).Right (mentions (outside' + h'.embedded) i))
    (others : ∀ j, i ≠ j → mentions (outside' + h'.embedded) j = mentions (outside + h.embedded) j) :
    h'.Exact outside' := by
  have same := sameObjects_modify cells object
  refine ⟨counting.trans exact.counting, same.sound exact.sound,
    fun v hv => (known v hv).mono same.keepsKinds, ?_, ?_, underflows.trans exact.underflows⟩
  · intro j d hd
    rw [cells, Array.getElem?_modify] at hd
    split at hd
    case isTrue hij =>
      subst hij
      rw [cell] at hd
      cases hd
      exact right
    case isFalse hij =>
      rw [others j hij]
      exact exact.right j d hd
  · intro j d hd string
    rw [cells, Array.getElem?_modify] at hd
    split at hd
    case isTrue hij =>
      subst hij
      rw [cell] at hd
      cases hd
      rw [object, array] at string
      cases string
    case isFalse => exact exact.strings j d hd string

end Exact

theorem isArray_of_kind? {t : Tag} {o : HeapObject} (kind : t.kind? = some o.kind) :
    o.isArray = true := by
  cases o with
  | string bytes => cases t <;> cases kind
  | scalars words => rfl
  | boxed values => rfl

/-- A reference that is held, outside or by an array, can be taken a number of times more. The counts are
exact unless one has wrapped around. -/
theorem retainTimes_exact {h : Heap} {outside : Multiset Value} {v : Value} {n : Nat}
    (lt : n < 2 ^ 31) (exact : h.Exact outside)
    (hv : v.tag.isCounted = true → v ∈ outside + h.embedded) :
    ∃ h', retainTimes v n h = .ok () h' ∧
      (h'.CountsFit → h'.Exact (Multiset.replicate n v + outside)) := by
  cases counted : v.tag.isCounted with
  | false =>
    refine ⟨h, retainTimes_uncounted counted n, fun _ =>
      exact.of_mentions (fun u hu => ?_) fun i => ?_⟩
    · obtain copy | mem := Multiset.mem_add.mp hu
      · rw [Multiset.eq_of_mem_replicate copy]
        exact vouches_of_uncounted counted
      · exact exact.known u mem
    · rw [mentions_add, mentions_replicate, if_neg (not_refersTo counted i), Nat.zero_add]
  | true =>
    obtain ⟨i, c, index, cell, live, references, kind⟩ := exact.live (hv counted) counted
    have refers := refersTo_of_index counted index
    have run := retainTimes_eq exact.counting counted index cell live n
    obtain ⟨h', hh'⟩ : ∃ h', h' = { h with
      cells := h.cells.modify i (Cell.takeTimes n), increments := h.increments + n } := ⟨_, rfl⟩
    have cells : h'.cells = h.cells.modify i (Cell.takeTimes n) := by rw [hh']
    have cell' : h'.cells[i]? = some (c.takeTimes n) := by
      rw [cells, Array.getElem?_modify, if_pos rfl, cell]
      rfl
    have holds : (c.takeTimes n).holds = c.holds := rfl
    have embedded : h'.embedded = h.embedded :=
      add_right_cancel ((embedded_modify cell cells).trans (congrArg _ holds))
    refine ⟨h', by rw [run, hh'], fun fit => exact.of_modify (c := c) cell cells (fun _ => rfl)
      (isArray_of_kind? kind) (by rw [hh']) (by rw [hh']) ?_ ?_ ?_⟩
    · intro u hu
      obtain copy | mem := Multiset.mem_add.mp hu
      · rw [Multiset.eq_of_mem_replicate copy]
        exact exact.vouches_of_mem (hv counted)
      · exact exact.known u mem
    · intro array
      have nonneg := Cell.nonneg_iff.mp (fit.cell cell')
      have before : 0 ≤ c.references :=
        Cell.nonneg_iff.mpr (references ▸ Int.natCast_nonneg _)
      have counts := c.toInt_takeTimes lt before
      have count_lt := c.count_lt
      have positive := mentions_pos (hv counted) refers
      rw [Cell.toInt_references before] at references
      rw [embedded, mentions_add, mentions_add, mentions_replicate, if_pos refers]
      rw [mentions_add] at references positive
      rw [show (c.takeTimes n).freed = false from live]
      simp only [Bool.false_eq_true, false_iff]
      omega
    · intro j hij
      rw [embedded, mentions_add, mentions_add, mentions_replicate,
        if_neg fun hj => hij (refers.unique hj), mentions_add]
      omega

/-- A reference that is held, outside or by an array, can be taken once more. -/
theorem retain_exact {h : Heap} {outside : Multiset Value} {v : Value} (exact : h.Exact outside)
    (hv : v.tag.isCounted = true → v ∈ outside + h.embedded) :
    ∃ h', retain v h = .ok () h' ∧ (h'.CountsFit → h'.Exact (v ::ₘ outside)) := by
  obtain ⟨h', run, exact'⟩ := retainTimes_exact (n := 1) (by decide) exact hv
  refine ⟨h', ?_, by simpa using exact'⟩
  simp only [retainTimes, Bind.bind, EStateM.bind] at run
  cases retained : retain v h with
  | ok u h₁ =>
    rw [retained] at run
    exact run
  | error f h₁ =>
    rw [retained] at run
    cases run

/-- Giving back a reference that is held: what the array held is to be given back if that was the
last. -/
theorem drop_exact {h : Heap} {outside : Multiset Value} {v : Value} {i : Nat}
    (exact : h.Exact (v ::ₘ outside)) (counted : v.tag.isCounted = true)
    (index : h.index? v.word = some i) :
    (h.drop i (index?_lt index)).1.Exact (((h.drop i (index?_lt index)).2 : Multiset Value) + outside) := by
  obtain ⟨j, c, index', cell, live, references, kind⟩ :=
    exact.live (Multiset.mem_add.mpr (.inl (Multiset.mem_cons_self v outside))) counted
  obtain rfl : i = j := Option.some.inj (index.symm.trans index')
  have refers := refersTo_of_index counted index
  have lt := index?_lt index
  have hc : h.cells[i] = c :=
    Option.some.inj ((Array.getElem?_eq_getElem _).symm.trans cell)
  rw [mentions_add, mentions_cons, if_pos refers] at references
  have counts : ¬c.references ≤ 0 := by
    rw [Cell.nonpos_iff]
    omega
  have others (j : Nat) (hij : i ≠ j) : mentions (v ::ₘ outside) j = mentions outside j := by
    rw [mentions_cons, if_neg fun hj => hij (refers.unique hj), Nat.add_zero]
  have vouched (u : Value) (hu : u ∈ ((h.drop i (index?_lt index)).2 : Multiset Value) + outside) :
      h.Vouches u := by
    obtain held | mem := Multiset.mem_add.mp hu
    · exact (drop_vouches exact.sound (index?_lt index) u held).2
    · exact exact.known u (Multiset.mem_cons_of_mem mem)
  have array := isArray_of_kind? kind
  have holds : c.holds = c.object.held := by simp [Cell.holds, live]
  -- the cell after the drop, with what it held given up if this was the last reference
  have split : (h.drop i (index?_lt index)).1.cells = h.cells.modify i Cell.drop ∧
      (h.drop i (index?_lt index)).1.counting = h.counting ∧
      (h.drop i (index?_lt index)).1.underflows = h.underflows ∧
      ((h.drop i (index?_lt index)).2 : Multiset Value) + c.drop.holds = c.holds := by
    unfold drop
    rw [hc]
    simp only [live, Bool.false_or, decide_eq_true_eq]
    rw [if_neg counts]
    refine ⟨rfl, rfl, rfl, ?_⟩
    by_cases last : c.references = 1
    · simp [Cell.drop, Cell.holds, last, live]
    · simp [Cell.drop, Cell.holds, last, live]
  obtain ⟨cells, counting, underflows, given⟩ := split
  have embedded := embedded_modify cell cells
  -- all in all one reference fewer is held
  have total (j : Nat) : mentions (((h.drop i (index?_lt index)).2 : Multiset Value) + outside +
      (h.drop i (index?_lt index)).1.embedded) j = mentions outside j + mentions h.embedded j := by
    have moved := congrArg (mentions · j) embedded
    have freed := congrArg (mentions · j) given
    simp only [mentions_add] at moved freed ⊢
    omega
  refine exact.of_modify (c := c) cell cells (fun _ => rfl) array counting underflows vouched ?_ ?_
  · intro _
    rw [total, Cell.toInt_drop counts, Cell.freed_drop]
    omega
  · intro j hij
    rw [total, mentions_add, others j hij]

/-- Reclaiming arrays, and what they held, leaves the counts exact. -/
theorem releaseAll_exact {h : Heap} {pending : List Value} {outside : Multiset Value}
    (exact : h.Exact (pending + outside)) (counted : ∀ v ∈ pending, v.tag.isCounted = true) :
    ∃ h', releaseAll h pending = .ok () h' ∧ h'.Exact outside := by
  fun_induction releaseAll h pending with
  | case1 h => exact ⟨h, rfl, by simpa using exact⟩
  | case2 h v rest none =>
    obtain ⟨i, c, index, -⟩ := exact.live (v := v) (by simp) (counted v (by simp))
    rw [none] at index
    cases index
  | case3 h v rest i found ih =>
    rw [← Multiset.cons_coe, Multiset.cons_add] at exact
    have dropped := drop_exact exact (counted v (by simp)) found
    rw [← add_assoc, Multiset.coe_add] at dropped
    refine ih dropped fun u hu => ?_
    obtain held | mem := List.mem_append.mp hu
    · exact (drop_vouches exact.sound (index?_lt found) u held).1
    · exact counted u (List.mem_cons_of_mem v mem)

/-- A reference that is held can be given back. -/
theorem release_exact {h : Heap} {outside : Multiset Value} {v : Value}
    (exact : h.Exact (v ::ₘ outside)) : ∃ h', release v h = .ok () h' ∧ h'.Exact outside := by
  cases counted : v.tag.isCounted with
  | false => exact ⟨h, by simp [release, counted], (Exact.cons_uncounted counted).mp exact⟩
  | true =>
    have single : h.Exact ((([v] : List Value) : Multiset Value) + outside) := by simpa using exact
    obtain ⟨h', run, exact'⟩ := releaseAll_exact single (by simpa using counted)
    exact ⟨h', by rw [release]; simpa [exact.counting, counted] using run, exact'⟩

/-! ## Putting objects on the heap and changing them -/

theorem mentions_held (o : HeapObject) (i : Nat) :
    mentions o.held i = o.elements.countP (RefersTo · i) := by
  rw [mentions, Multiset.coe_countP, HeapObject.held_eq, List.countP_filter]
  refine List.countP_congr fun v _ => ?_
  simp only [Bool.and_eq_true, decide_eq_true_eq, and_iff_left_iff_imp]
  exact And.left

/-- All references name cells that are there. -/
theorem Exact.mentions_size {h : Heap} {outside : Multiset Value} (exact : h.Exact outside) :
    mentions (outside + h.embedded) h.cells.size = 0 := by
  refine mentions_eq_zero fun v hv refers => ?_
  obtain ⟨i, c, index, cell, -⟩ := exact.live hv refers.1
  obtain rfl := refers.unique (refersTo_of_index refers.1 index)
  have := index?_lt index
  omega

theorem pushString_exact {h h' : Heap} {outside : Multiset Value} {bytes : Array UInt8}
    (exact : h.Exact outside)
    (hh : h' = { h with cells := h.cells.push ⟨.string bytes, 1, false⟩ }) : h'.Exact outside := by
  subst hh
  refine ⟨exact.counting, sound_push rfl exact.sound (fun v hv => by cases hv),
    fun v hv => (exact.known v hv).mono (keepsKinds_push rfl), ?_, ?_, exact.underflows⟩
  · intro i c cell
    rw [embedded_push (c := ⟨.string bytes, 1, false⟩) rfl,
      show Cell.holds ⟨.string bytes, 1, false⟩ = 0 from rfl, add_zero]
    simp only [Array.getElem?_push] at cell
    split at cell
    · cases cell
      exact fun array => by cases array
    · exact exact.right i c cell
  · intro i c cell string
    simp only [Array.getElem?_push] at cell
    split at cell
    · cases cell
      rfl
    · exact exact.strings i c cell string

/-- A new array takes over the references to its elements. Its own first reference is held outside. -/
theorem pushArray_exact {h h' : Heap} {outside : Multiset Value} {o : HeapObject} {t : Tag}
    (exact : h.Exact (o.held + outside)) (kind : t.kind? = some o.kind)
    (elements : ∀ v ∈ o.elements, h.Vouches v)
    (hh : h' = { h with cells := h.cells.push ⟨o, 1, false⟩ }) (fits : h'.Fits) :
    h'.Exact (⟨handle h.cells.size, t⟩ ::ₘ outside) := by
  have size : h'.cells.size = h.cells.size + 1 := by simp [hh]
  have counted : t.isCounted = true := by rw [← Tag.kind?_isSome, kind]; rfl
  have refers : RefersTo ⟨handle h.cells.size, t⟩ h.cells.size := by
    refine ⟨counted, toInt_handle ?_⟩
    simp only [Fits] at fits
    omega
  have fresh := exact.mentions_size
  -- the references are those that were there before, and the new one
  have total (i : Nat) : mentions (⟨handle h.cells.size, t⟩ ::ₘ outside + h'.embedded) i =
      mentions (o.held + outside + h.embedded) i + if h.cells.size = i then 1 else 0 := by
    rw [embedded_push (c := ⟨o, 1, false⟩) (by rw [hh]),
      show Cell.holds ⟨o, 1, false⟩ = o.held from rfl]
    simp only [mentions_add, mentions_cons]
    by_cases hi : h.cells.size = i
    · rw [if_pos hi, if_pos (hi ▸ refers)]
      omega
    · rw [if_neg hi, if_neg fun hr => hi (refers.unique hr)]
      omega
  have pushed : h'.cells = h.cells.push ⟨o, 1, false⟩ := by rw [hh]
  refine ⟨by rw [hh]; exact exact.counting, sound_push pushed exact.sound elements, ?_, ?_, ?_,
    by rw [hh]; exact exact.underflows⟩
  · intro v hv
    obtain rfl | mem := Multiset.mem_cons.mp hv
    · exact vouches_push pushed fits kind
    · exact (exact.known v (Multiset.mem_add.mpr (.inr mem))).mono (keepsKinds_push pushed)
  · intro i c cell
    rw [total]
    rw [pushed, Array.getElem?_push] at cell
    split at cell
    case isTrue hi =>
      cases cell
      rw [if_pos hi.symm, hi, fresh]
      exact fun _ => ⟨rfl, by simp⟩
    case isFalse hi =>
      rw [if_neg (Ne.symm hi), Nat.add_zero]
      exact exact.right i c cell
  · intro i c cell string
    rw [pushed, Array.getElem?_push] at cell
    split at cell
    · cases cell
      rfl
    · exact exact.strings i c cell string

theorem modifyObject_ok (i : Nat) (f : HeapObject → HeapObject) (h : Heap) :
    ∃ h', modifyObject i f h = .ok () h' ∧
      h'.cells = h.cells.modify i fun c => { c with object := f c.object } :=
  ⟨_, rfl, rfl⟩

/-- The counts after a change to an object that leaves the number of references as they are. -/
theorem Exact.of_modifyObject {h h' : Heap} {outside outside' : Multiset Value} {i : Nat}
    {f : HeapObject → HeapObject} (exact : h.Exact outside)
    (run : modifyObject i f h = .ok () h') (harmless : h.Harmless f)
    (known : ∀ v ∈ outside', h.Vouches v)
    (same : ∀ j, mentions (outside' + h'.embedded) j = mentions (outside + h.embedded) j) :
    h'.Exact outside' := by
  have keeps := harmless.keepsKinds i
  have sound := harmless.sound exact.sound i
  rw [run] at keeps sound
  have cells : h'.cells = h.cells.modify i fun c => { c with object := f c.object } := by
    cases run
    rfl
  have array (o : HeapObject) : (f o).isArray = o.isArray := by
    rw [HeapObject.isArray, HeapObject.isArray, harmless.kind]
  refine ⟨?_, sound, fun v hv => (known v hv).mono keeps, ?_, ?_, ?_⟩
  · cases run
    exact exact.counting
  · intro j c cell
    rw [same]
    rw [cells, Array.getElem?_modify] at cell
    split at cell
    · obtain ⟨d, hd, rfl⟩ := Option.map_eq_some_iff.mp cell
      exact fun ha => exact.right j d hd (array d.object ▸ ha)
    · exact exact.right j c cell
  · intro j c cell string
    rw [cells, Array.getElem?_modify] at cell
    split at cell
    · obtain ⟨d, hd, rfl⟩ := Option.map_eq_some_iff.mp cell
      exact exact.strings j d hd (array d.object ▸ string)
    · exact exact.strings j c cell string
  · cases run
    exact exact.underflows

/-- A change to an object that holds nothing afterwards that it did not hold before. -/
theorem modifyObject_exact {h : Heap} {outside : Multiset Value} {i : Nat}
    {f : HeapObject → HeapObject} (exact : h.Exact outside) (harmless : h.Harmless f)
    {c : Cell} (cell : h.cells[i]? = some c) (held : (f c.object).held = c.object.held) :
    ∃ h', modifyObject i f h = .ok () h' ∧ h'.Exact outside := by
  obtain ⟨h', run, cells⟩ := modifyObject_ok i f h
  refine ⟨h', run, exact.of_modifyObject run harmless exact.known fun j => ?_⟩
  have embedded := embedded_modify cell cells
  rw [show Cell.holds { c with object := f c.object } = c.holds by simp [Cell.holds, held]] at embedded
  exact congrArg (fun e => mentions (outside + e) j) (add_right_cancel embedded)

/-- A value that is put into a boxed array is no longer held outside. The one that it replaces is. -/
theorem replace_exact {h : Heap} {rest : Multiset Value} {v : Value} {i p : Nat} {c : Cell}
    {values : Array Value} (exact : h.Exact (v ::ₘ rest)) (cell : h.cells[i]? = some c)
    (live : c.freed = false) (object : c.object = .boxed values) (inside : p < values.size) :
    ∃ h', modifyObject i (Intrinsic.setElement p v) h = .ok () h' ∧
      h'.Exact (values[p] ::ₘ rest) ∧ (v.tag.isCounted = true → v ∈ h'.embedded) := by
  have harmless := harmless_setElement (exact.known v (Multiset.mem_cons_self v rest)) p
  obtain ⟨h', run, cells⟩ := modifyObject_ok i (Intrinsic.setElement p v) h
  have embedded := embedded_modify cell cells
  refine ⟨h', run, exact.of_modifyObject run harmless ?_ fun j => ?_, fun counted => ?_⟩
  · intro u hu
    obtain rfl | mem := Multiset.mem_cons.mp hu
    · refine exact.sound i (.boxed values) (by rw [objectAt?, cell, ← object]; rfl) _ ?_
      simp [HeapObject.elements]
    · exact exact.known u (Multiset.mem_cons_of_mem mem)
  · have moved := congrArg (mentions · j) embedded
    simp only [Cell.holds, live, Bool.false_eq_true, if_false, mentions_add, mentions_held, object,
      Intrinsic.setElement, HeapObject.elements, Array.toList_setIfInBounds] at moved
    rw [List.countP_set (by simpa using inside)] at moved
    simp only [decide_eq_true_eq, Array.getElem_toList] at moved
    have old : (if RefersTo values[p] j then 1 else 0) ≤ values.toList.countP (RefersTo · j) := by
      split
      · exact List.countP_pos_iff.mpr ⟨values[p], by simp, by simpa⟩
      · exact Nat.zero_le _
    simp only [mentions_add, mentions_cons]
    omega
  · have cell' : h'.cells[i]? = some { c with object := Intrinsic.setElement p v c.object } := by
      rw [cells, Array.getElem?_modify, if_pos rfl, cell]
      rfl
    refine mem_embedded cell' live ?_ counted
    simp [object, Intrinsic.setElement, HeapObject.elements, List.mem_set, inside]

/-- Storing a value that is held, or a plain number, in an array that is there. -/
theorem storeAt_exact {h : Heap} {outside : Multiset Value} {v : Value} {i p : Nat} {c : Cell}
    (exact : h.Exact outside) (hv : v.tag.isCounted = true → v ∈ outside)
    (cell : h.cells[i]? = some c) (live : c.freed = false) (inside : p < c.object.size) :
    ∃ h', storeAt i c.object p v h = .ok () h' ∧ (h'.CountsFit → h'.Exact outside) := by
  -- a plain number may as well be held
  obtain ⟨rest, exact₀, back⟩ : ∃ rest, h.Exact (v ::ₘ rest) ∧
      ∀ h' : Heap, h'.Exact (v ::ₘ rest) → h'.Exact outside := by
    cases counted : v.tag.isCounted with
    | false =>
      exact ⟨outside, (Exact.cons_uncounted counted).mpr exact,
        fun h' => (Exact.cons_uncounted counted).mp⟩
    | true =>
      obtain ⟨rest, rfl⟩ := Multiset.exists_cons_of_mem (hv counted)
      exact ⟨rest, exact, fun h' => id⟩
  have harmless := harmless_setElement (exact₀.known v (Multiset.mem_cons_self v rest)) p
  cases object : c.object with
  | string bytes =>
    rw [object] at inside
    exact absurd inside (Nat.not_lt_zero p)
  | scalars words =>
    obtain ⟨h', run, exact'⟩ := modifyObject_exact exact harmless cell (by rw [object]; rfl)
    exact ⟨h', run, fun _ => exact'⟩
  | boxed values =>
    rw [object] at inside
    obtain ⟨h₁, replaced, exact₁, stored⟩ := replace_exact exact₀ cell live object inside
    obtain ⟨h₂, retained, exact₂⟩ := retain_exact (v := v) exact₁ fun counted =>
      Multiset.mem_add.mpr (.inr (stored counted))
    -- what was replaced can be given back whatever the counts are
    have same := retain_sameObjects v h₁
    rw [retained, finalState] at same
    obtain ⟨h₃, released⟩ := release_ok (same.sound exact₁.sound)
      ((exact₁.known _ (Multiset.mem_cons_self _ _)).mono same.keepsKinds)
    have exact₃ (fit : h₃.CountsFit) : h₃.Exact (v ::ₘ rest) := by
      have fit₂ := release_countsFit (v := values[p]) (h := h₂) (by rwa [released])
      have held := exact₂ fit₂
      rw [Multiset.cons_swap] at held
      obtain ⟨h₄, released', exact₄⟩ := release_exact held
      rw [released] at released'
      cases released'
      exact exact₄
    refine ⟨h₃, ?_, fun fit => back h₃ (exact₃ fit)⟩
    have previous : values.getD p (.scalar 0) = values[p] := by
      simp only [HeapObject.size] at inside
      simp [inside]
    simp only [storeAt, Bind.bind, EStateM.bind, replaced, retained, previous, released]

end Heap

end Threefold
