import Mathlib.Data.List.Nodup
import Threefold.Proofs.X86.Fitting
import Threefold.Proofs.X86.Staged
import Threefold.Proofs.X86.Standing

/-!
# The words of a frame

Everything that a routine keeps in memory has words of its own: its variables, the parameters, the
number of an exception that is handed over, the operands that no register holds, the saved base
pointer and the return address (`Part`). A frame is a row of slots of two words each. Slot 0 is the
base pointer and the return address, the parameters and the number of an exception are in the slots
above it, and the variables and operands in those below (`slots`). So two parts meet only if one is
a parameter and the other the variable that has its place (`meet`), and words at different offsets
share no byte as long as the offsets are words of the machine (`apart_of_ne`).

* `layout_disjoint` says which words a frame has, that they are disjoint, and that the lists of
  words by which the code of a routine begins and ends are complete.
-/

namespace Threefold.X86

/-- Two words of memory share no byte. The global words are in no frame. -/
def Operand.Apart : Operand → Operand → Prop
  | .memory b m, .memory b' n => b = b' ∧ (m.toInt + 4 ≤ n.toInt ∨ n.toInt + 4 ≤ m.toInt)
  | .global s, .global t => s ≠ t
  | .memory _ _, .global _ | .global _, .memory _ _ => True
  | _, _ => False

namespace Frame

/-- What has words around the base pointer of a routine. -/
inductive Part
  | variable (x : Bytecode.Variable)
  | parameter (i : Nat)
  | thrown
  | spill (n : Nat)
  | base
  | returnAddress
  deriving DecidableEq

/-- The words of a value. -/
def both (ws : Words) : List Operand :=
  [ws.value, ws.tag]

/-- The words of a part, if the frame has it. -/
def cells (f : Frame) : Part → List Operand
  | .variable x => (f.words? x).elim [] both
  | .parameter i => if i < f.parameters.length then both (parameterWords i) else []
  | .thrown => [f.thrownSlot]
  | .spill n => both (f.spill n)
  | .base => [.frame 0]
  | .returnAddress => [.frame 4]

/-- A parameter and the variable that has its place. -/
def Shares (f : Frame) : Part → Part → Prop
  | .variable x, .parameter i | .parameter i, .variable x => f.home? x = some (.parameter i)
  | _, _ => False

/-- The offsets of the words of a frame above and below the base pointer are words. -/
structure Fits (f : Frame) : Prop where
  below : f.size ≤ 2 ^ 31
  above : 8 * f.parameters.length + 8 < 2 ^ 31

/-- An operand on the machine stack is not beyond the offsets that are words. -/
def InReach (f : Frame) : Part → Prop
  | .spill n => f.size + 8 * (n + 1) ≤ 2 ^ 31
  | _ => True

/-! ## Homes -/

/-- The variables below the base pointer are none twice, no parameters, and not in global words. -/
structure Proper (f : Frame) : Prop where
  nodup : f.inner.Nodup
  other : ∀ x ∈ f.inner, x ≠ .thrownData ∧ x ∉ f.parameters

theorem Proper.place {f : Frame} (proper : f.Proper) (x : Bytecode.Variable) :
    (f.place x).Proper := by
  unfold Frame.place
  split
  · exact proper
  rename_i homeless
  split
  · exact ⟨proper.nodup, proper.other⟩
  rename_i plain
  simp only [home?, if_neg plain] at homeless
  cases given : f.parameters.idxOf? x with
  | some i => simp [given] at homeless
  | none =>
    simp only [given, Option.isSome_map, List.isSome_idxOf?] at homeless
    rw [List.idxOf?_eq_none_iff] at given
    refine ⟨List.nodup_append.mpr ⟨proper.nodup, by simp, fun y hy z hz => ?_⟩, fun y hy => ?_⟩
    · rw [List.mem_singleton.mp hz]
      rintro rfl
      exact homeless hy
    · obtain mem | mem := List.mem_append.mp hy
      · exact proper.other y mem
      · rw [List.mem_singleton.mp mem]
        exact ⟨plain, given⟩

theorem proper_ofRoutine (b : Bytecode) (r : Bytecode.Routine) : (ofRoutine b r).Proper := by
  have fold (xs : List Bytecode.Variable) {f : Frame} (proper : f.Proper) :
      (xs.foldl place f).Proper := by
    induction xs generalizing f with
    | nil => exact proper
    | cons x xs ih => exact ih (proper.place x)
  exact fold _ ⟨List.nodup_nil, fun x hx => absurd hx List.not_mem_nil⟩

variable {f : Frame} {x y : Bytecode.Variable}

theorem getElem?_of_idxOf? {xs : List Bytecode.Variable} {i : Nat} (h : xs.idxOf? x = some i) :
    xs[i]? = some x := by
  obtain ⟨hi, here, -⟩ := List.idxOf?_eq_some_iff.mp h
  rw [List.getElem?_eq_getElem hi, here]

/-- The variable that has a home. -/
def resident? (f : Frame) : Home → Option Bytecode.Variable
  | .parameter i => f.parameters[i]?
  | .inner i => f.inner[i]?
  | .payload => some .thrownData

theorem resident?_home? {h : Home} (hx : f.home? x = some h) : f.resident? h = some x := by
  unfold home? at hx
  split at hx
  · rename_i payload
    split at hx
    · cases hx
      exact congrArg some payload.symm
    · cases hx
  · split at hx
    · rename_i i found
      cases hx
      exact getElem?_of_idxOf? found
    · obtain ⟨i, found, rfl⟩ := Option.map_eq_some_iff.mp hx
      exact getElem?_of_idxOf? found

/-- A home belongs to one variable. -/
theorem home?_injective {h : Home} (hx : f.home? x = some h) (hy : f.home? y = some h) : x = y :=
  Option.some.inj ((resident?_home? hx).symm.trans (resident?_home? hy))

theorem Proper.home?_inner (proper : f.Proper) {i : Nat} :
    f.home? x = some (.inner i) ↔ f.inner[i]? = some x := by
  refine ⟨resident?_home?, fun h => ?_⟩
  obtain ⟨hi, here⟩ := List.getElem?_eq_some_iff.mp h
  obtain ⟨plain, given⟩ := proper.other x (here ▸ List.getElem_mem hi)
  have first : f.inner.idxOf? x = some i := by
    rw [List.idxOf?_eq_some_iff]
    refine ⟨hi, here, fun j hj same => ?_⟩
    exact Nat.ne_of_lt hj (proper.nodup.getElem_inj_iff.mp (same.trans here.symm))
  simp only [home?, if_neg plain, List.idxOf?_eq_none_iff.mpr given, first, Option.map_some]

/-- Below the base pointer there is a place for every number, and it is that of a variable. -/
theorem Proper.exists_home (proper : f.Proper) {i : Nat} :
    (∃ x, f.home? x = some (.inner i)) ↔ i < f.inner.length := by
  constructor
  · rintro ⟨x, h⟩
    exact home?_bound h
  · exact fun hi => ⟨_, proper.home?_inner.mpr (List.getElem?_eq_getElem hi)⟩

/-! ## Slots -/

/-- A part is in a slot of the frame. -/
inductive Occupies (f : Frame) : Part → Int → Prop
  | argument {x : Bytecode.Variable} {i : Nat} :
      f.home? x = some (.parameter i) → Occupies f (.variable x) (i + 1)
  | inner {x : Bytecode.Variable} {i : Nat} :
      f.home? x = some (.inner i) → Occupies f (.variable x) (-(i + 1))
  | parameter {i : Nat} : i < f.parameters.length → Occupies f (.parameter i) (i + 1)
  | thrown : Occupies f .thrown (f.parameters.length + 1)
  | spill {n : Nat} : Occupies f (.spill n) (-(f.inner.length + n + 1))
  | base : Occupies f .base 0
  | returnAddress : Occupies f .returnAddress 0

/-- Which word of its slot a part has. -/
def Half : Part → Int → Prop
  | .thrown, o | .base, o => o = 0
  | .returnAddress, o => o = 4
  | _, o => o = 0 ∨ o = 4

/-- A part has the word at an offset from the base pointer. -/
def Spans (f : Frame) (p : Part) (k : Int) : Prop :=
  ∃ s o, f.Occupies p s ∧ Half p o ∧ k = 8 * s + o

section Slots

variable {p q : Part} {s : Int} {i : Nat}

theorem Occupies.of_above (h : f.Occupies p s) (hs : s = i + 1) :
    (p = .parameter i ∨ ∃ x, p = .variable x ∧ f.home? x = some (.parameter i)) ∧
        i < f.parameters.length ∨
      p = .thrown ∧ i = f.parameters.length := by
  cases h with
  | @argument x j hx =>
    obtain rfl : i = j := by omega
    exact .inl ⟨.inr ⟨x, rfl, hx⟩, home?_bound hx⟩
  | @parameter j hj =>
    obtain rfl : i = j := by omega
    exact .inl ⟨.inl rfl, hj⟩
  | thrown => exact .inr ⟨rfl, by omega⟩
  | inner _ => omega
  | spill => omega
  | base => omega
  | returnAddress => omega

theorem Occupies.of_below (h : f.Occupies p s) (hs : s = -(i + 1)) :
    (∃ x, p = .variable x ∧ f.home? x = some (.inner i)) ∧ i < f.inner.length ∨
      ∃ n, p = .spill n ∧ i = f.inner.length + n := by
  cases h with
  | @inner x j hx =>
    obtain rfl : i = j := by omega
    exact .inl ⟨⟨x, rfl, hx⟩, home?_bound hx⟩
  | @spill n => exact .inr ⟨n, rfl, by omega⟩
  | argument _ => omega
  | parameter _ => omega
  | thrown => omega
  | base => omega
  | returnAddress => omega

theorem Occupies.of_middle (h : f.Occupies p s) (hs : s = 0) : p = .base ∨ p = .returnAddress := by
  cases h with
  | base => exact .inl rfl
  | returnAddress => exact .inr rfl
  | argument _ => omega
  | inner _ => omega
  | parameter _ => omega
  | thrown => omega
  | spill => omega

/-- Two parts in one slot are a parameter and its variable, or the base pointer and the return
address. -/
theorem meet (hp : f.Occupies p s) (hq : f.Occupies q s) :
    p = q ∨ f.Shares p q ∨
      (p = .base ∨ p = .returnAddress) ∧ (q = .base ∨ q = .returnAddress) := by
  obtain ⟨i, hs⟩ | hs | ⟨i, hs⟩ :
      (∃ i : Nat, s = i + 1) ∨ s = 0 ∨ ∃ i : Nat, s = -(i + 1) := by
    rcases Int.lt_trichotomy s 0 with low | rfl | high
    · exact .inr (.inr ⟨(-s - 1).toNat, by omega⟩)
    · exact .inr (.inl rfl)
    · exact .inl ⟨(s - 1).toNat, by omega⟩
  · rcases hp.of_above hs with ⟨hp, low⟩ | ⟨rfl, high⟩ <;>
      rcases hq.of_above hs with ⟨hq, low'⟩ | ⟨rfl, high'⟩
    · rcases hp with rfl | ⟨x, rfl, hx⟩ <;> rcases hq with rfl | ⟨y, rfl, hy⟩
      · exact .inl rfl
      · exact .inr (.inl hy)
      · exact .inr (.inl hx)
      · exact .inl (congrArg Part.variable (home?_injective hx hy))
    · omega
    · omega
    · exact .inl rfl
  · exact .inr (.inr ⟨hp.of_middle hs, hq.of_middle hs⟩)
  · rcases hp.of_below hs with ⟨⟨x, rfl, hx⟩, low⟩ | ⟨n, rfl, high⟩ <;>
      rcases hq.of_below hs with ⟨⟨y, rfl, hy⟩, low'⟩ | ⟨m, rfl, high'⟩
    · exact .inl (congrArg Part.variable (home?_injective hx hy))
    · omega
    · omega
    · exact .inl (congrArg Part.spill (by omega))

theorem Half.cases {o : Int} (h : Half p o) : o = 0 ∨ o = 4 := by
  cases p with
  | thrown => exact .inl h
  | base => exact .inl h
  | returnAddress => exact .inr h
  | _ => exact h

/-- No offset belongs to two parts, other than to a parameter and its variable. -/
theorem Spans.unique {k : Int} (hp : f.Spans p k) (hq : f.Spans q k) : p = q ∨ f.Shares p q := by
  obtain ⟨s, o, inP, halfP, rfl⟩ := hp
  obtain ⟨s', o', inQ, halfQ, same⟩ := hq
  have cases := halfP.cases
  have cases' := halfQ.cases
  obtain rfl : s = s' := by omega
  obtain rfl : o = o' := by omega
  rcases meet inP inQ with same | shares | ⟨rfl | rfl, rfl | rfl⟩
  · exact .inl same
  · exact .inr shares
  · exact .inl rfl
  · exact absurd (halfP.symm.trans halfQ) (by decide)
  · exact absurd (halfP.symm.trans halfQ) (by decide)
  · exact .inl rfl

theorem Spans.multiple {k : Int} (h : f.Spans p k) : k % 4 = 0 := by
  obtain ⟨s, o, -, half, rfl⟩ := h
  have cases := half.cases
  omega

theorem Spans.reach {k : Int} (h : f.Spans p k) (fits : f.Fits) (reach : f.InReach p) :
    -2 ^ 31 ≤ k ∧ k < 2 ^ 31 := by
  obtain ⟨s, o, occupies, half, rfl⟩ := h
  have cases := half.cases
  have below := fits.below
  have above := fits.above
  unfold size at below
  cases occupies with
  | argument hx =>
    have bound := home?_bound hx
    dsimp only at bound
    omega
  | inner hx =>
    have bound := home?_bound hx
    dsimp only at bound
    omega
  | parameter hi => omega
  | thrown => omega
  | spill =>
    simp only [InReach, size] at reach
    omega
  | base => omega
  | returnAddress => omega

end Slots

/-! ## Words -/

section Words

variable {p q : Part} {a a' : Operand}

/-- A part has a slot, a word of one, the global words, or nothing. -/
theorem cells_cases (f : Frame) (p : Part) :
    f.cells p = [] ∨
      (∃ k, f.cells p = both (wordsAt k) ∧ f.Spans p k ∧ f.Spans p (k + 4)) ∨
      (∃ k, f.cells p = [.frame k] ∧ f.Spans p k) ∨
      p = .variable .thrownData ∧ f.cells p = both (homeWords .payload) := by
  have slot {k s : Int} (words : f.cells p = both (wordsAt k)) (occupies : f.Occupies p s)
      (half : Half p 0 ∧ Half p 4) (hk : k = 8 * s) :
      ∃ k, f.cells p = both (wordsAt k) ∧ f.Spans p k ∧ f.Spans p (k + 4) :=
    ⟨k, words, ⟨s, 0, occupies, half.1, by omega⟩, ⟨s, 4, occupies, half.2, by omega⟩⟩
  cases p with
  | «variable» x =>
    have words : f.cells (.variable x) = ((f.home? x).map homeWords).elim [] both := rfl
    cases place : f.home? x with
    | none => exact .inl (by rw [words, place]; rfl)
    | some home =>
      rw [place] at words
      cases home with
      | parameter i =>
        exact .inr (.inl (slot words (.argument place) ⟨.inl rfl, .inr rfl⟩ (by omega)))
      | inner i => exact .inr (.inl (slot words (.inner place) ⟨.inl rfl, .inr rfl⟩ (by omega)))
      | payload =>
        have global := resident?_home? place
        cases global
        exact .inr (.inr (.inr ⟨rfl, words⟩))
  | parameter i =>
    have words : f.cells (.parameter i) =
      if i < f.parameters.length then both (parameterWords i) else [] := rfl
    split at words
    · rename_i hi
      exact .inr (.inl (slot words (.parameter hi) ⟨.inl rfl, .inr rfl⟩ (by omega)))
    · exact .inl words
  | spill n =>
    refine .inr (.inl (slot rfl .spill ⟨.inl rfl, .inr rfl⟩ ?_))
    unfold size
    omega
  | thrown => exact .inr (.inr (.inl ⟨_, rfl, ⟨_, 0, .thrown, rfl, by omega⟩⟩))
  | base => exact .inr (.inr (.inl ⟨0, rfl, ⟨0, 0, .base, rfl, rfl⟩⟩))
  | returnAddress => exact .inr (.inr (.inl ⟨4, rfl, ⟨0, 4, .returnAddress, rfl, rfl⟩⟩))

/-- A word of a part is at an offset that the part has, or it is a global word. -/
theorem spans_of_mem (h : a ∈ f.cells p) :
    (∃ k, f.Spans p k ∧ a = .frame k) ∨ p = .variable .thrownData ∧ ∃ s, a = .global s := by
  rcases f.cells_cases p with none | ⟨k, words, low, high⟩ | ⟨k, words, spans⟩ | ⟨global, words⟩
  · exact absurd (none ▸ h) List.not_mem_nil
  · rw [words] at h
    rcases List.mem_pair.mp h with rfl | rfl
    · exact .inl ⟨k, low, rfl⟩
    · exact .inl ⟨k + 4, high, rfl⟩
  · rw [words] at h
    exact .inl ⟨k, spans, List.mem_singleton.mp h⟩
  · rw [words] at h
    rcases List.mem_pair.mp h with rfl | rfl
    · exact .inr ⟨global, _, rfl⟩
    · exact .inr ⟨global, _, rfl⟩

theorem apart_of_ne {k l : Int} (hk : k % 4 = 0) (hl : l % 4 = 0)
    (reachK : -2 ^ 31 ≤ k ∧ k < 2 ^ 31) (reachL : -2 ^ 31 ≤ l ∧ l < 2 ^ 31) (ne : k ≠ l) :
    (Operand.frame k).Apart (.frame l) := by
  refine ⟨rfl, ?_⟩
  rw [Int32.toInt_ofInt_of_le reachK.1 reachK.2, Int32.toInt_ofInt_of_le reachL.1 reachL.2]
  omega

/-- Different parts that share no place have no byte in common. -/
theorem apart_of_mem (fits : f.Fits) (reachP : f.InReach p) (reachQ : f.InReach q) (ne : p ≠ q)
    (own : ¬ f.Shares p q) (ha : a ∈ f.cells p) (ha' : a' ∈ f.cells q) : a.Apart a' := by
  rcases spans_of_mem ha with ⟨k, spansP, rfl⟩ | ⟨rfl, s, rfl⟩ <;>
    rcases spans_of_mem ha' with ⟨l, spansQ, rfl⟩ | ⟨rfl, s', rfl⟩
  · refine apart_of_ne spansP.multiple spansQ.multiple (spansP.reach fits reachP)
      (spansQ.reach fits reachQ) ?_
    rintro rfl
    exact (spansP.unique spansQ).elim ne own
  · trivial
  · trivial
  · exact absurd rfl ne

/-- The words of one part have no byte in common. -/
theorem pairwise_cells (fits : f.Fits) (reach : f.InReach p) :
    (f.cells p).Pairwise Operand.Apart := by
  rcases f.cells_cases p with none | ⟨k, words, low, high⟩ | ⟨k, words, spans⟩ | ⟨global, words⟩
  · rw [none]
    exact List.Pairwise.nil
  · rw [words]
    exact List.pairwise_pair.mpr (apart_of_ne low.multiple high.multiple (low.reach fits reach)
      (high.reach fits reach) (by omega))
  · rw [words]
    exact List.pairwise_singleton _ _
  · rw [words]
    exact List.pairwise_pair.mpr (show Symbol.payload ≠ Symbol.payloadTag by decide)

end Words

/-! ## The words that a routine clears and gives back -/

section Lists

variable {a : Operand} {ws : Words}

/-- The cleared words are those of the variables below the base pointer. -/
theorem Proper.mem_innerCells (proper : f.Proper) :
    a ∈ f.innerCells ↔ ∃ x i, f.home? x = some (.inner i) ∧ a ∈ both (innerWords i) := by
  have word (i : Nat) : both (innerWords i) =
      [.frame (-4 * ((2 * i + 1 : Nat) + 1)), .frame (-4 * ((2 * i : Nat) + 1))] := by
    have high : -8 * ((i : Int) + 1) + 4 = -4 * ((2 * i : Nat) + 1) := by omega
    have low : -8 * ((i : Int) + 1) = -4 * ((2 * i + 1 : Nat) + 1) := by omega
    unfold both innerWords wordsAt
    rw [high, low]
  constructor
  · intro h
    obtain ⟨n, hn, rfl⟩ := List.mem_map.mp h
    have hn := List.mem_range.mp hn
    obtain ⟨x, hx⟩ := (proper.exists_home (i := n / 2)).mpr (by omega)
    refine ⟨x, n / 2, hx, ?_⟩
    rw [word]
    rcases Nat.mod_two_eq_zero_or_one n with even | odd
    · rw [show 2 * (n / 2) = n by omega]
      exact List.mem_pair.mpr (.inr rfl)
    · rw [show 2 * (n / 2) + 1 = n by omega]
      exact List.mem_pair.mpr (.inl rfl)
  · rintro ⟨x, i, hx, ha⟩
    have bound := home?_bound hx
    dsimp only at bound
    rw [word] at ha
    rcases List.mem_pair.mp ha with rfl | rfl
    · exact List.mem_map.mpr ⟨2 * i + 1, List.mem_range.mpr (by omega), rfl⟩
    · exact List.mem_map.mpr ⟨2 * i, List.mem_range.mpr (by omega), rfl⟩

theorem frame_injective {k l : Int} (reachK : -2 ^ 31 ≤ k ∧ k < 2 ^ 31)
    (reachL : -2 ^ 31 ≤ l ∧ l < 2 ^ 31) (same : Operand.frame k = .frame l) : k = l := by
  have word : Int32.ofInt k = Int32.ofInt l := by
    injection same
  have value := congrArg Int32.toInt word
  rwa [Int32.toInt_ofInt_of_le reachK.1 reachK.2, Int32.toInt_ofInt_of_le reachL.1 reachL.2] at value

theorem nodup_innerCells (fits : f.Fits) : f.innerCells.Nodup := by
  have below := fits.below
  unfold size at below
  refine List.Nodup.map_on (fun m hm n hn same => ?_) List.nodup_range
  have hm := List.mem_range.mp hm
  have hn := List.mem_range.mp hn
  have := frame_injective (by omega) (by omega) same
  omega

theorem getLast?_innerCells (h : f.inner ≠ []) : f.innerCells.getLast? = some (.frame (-f.size)) := by
  have positive := List.length_pos_iff.mpr h
  obtain ⟨n, hn⟩ : ∃ n, 2 * f.inner.length = n + 1 := ⟨2 * f.inner.length - 1, by omega⟩
  unfold innerCells size
  rw [hn, List.range_succ, List.map_append, List.map_singleton, List.getLast?_append_of_ne_nil]
  · simp only [List.getLast?_singleton]
    congr 2
    omega
  · exact List.cons_ne_nil _ _

/-- What is given back is every parameter, and every variable below the base pointer that can own
a reference which stays in the routine. -/
theorem Proper.mem_swept (proper : f.Proper) :
    ws ∈ f.swept ↔ (∃ i < f.parameters.length, ws = parameterWords i) ∨
      ∃ x i, f.home? x = some (.inner i) ∧ isSwept x ∧ ws = innerWords i := by
  unfold swept parameterSlots
  simp only [List.mem_append, List.mem_map, List.mem_range, List.mem_filter]
  refine or_congr (exists_congr fun i => and_congr_right fun _ => eq_comm) ?_
  constructor
  · rintro ⟨⟨x, i⟩, ⟨there, swept⟩, rfl⟩
    exact ⟨x, i, proper.home?_inner.mpr (List.mem_zipIdx_iff_getElem?.mp there), swept, rfl⟩
  · rintro ⟨x, i, hx, swept, rfl⟩
    exact ⟨⟨x, i⟩, ⟨List.mem_zipIdx_iff_getElem?.mpr (proper.home?_inner.mp hx), swept⟩, rfl⟩

theorem nodup_swept (fits : f.Fits) : f.swept.Nodup := by
  have below := fits.below
  have above := fits.above
  unfold size at below
  have parameters : f.parameterSlots.Nodup := by
    refine List.Nodup.map_on (fun i hi j hj same => ?_) List.nodup_range
    have hi := List.mem_range.mp hi
    have hj := List.mem_range.mp hj
    have := frame_injective (by omega) (by omega) (congrArg Words.value same)
    omega
  have numbers : ((f.inner.zipIdx.filter fun x => isSwept x.1).map Prod.snd).Sublist
      (List.range' 0 f.inner.length) := by
    rw [← List.zipIdx_map_snd]
    exact List.filter_sublist.map _
  have bound {j : Nat} (hj : j ∈ (f.inner.zipIdx.filter fun x => isSwept x.1).map Prod.snd) :
      j < f.inner.length := by
    have := List.mem_range'_1.mp (numbers.subset hj)
    omega
  have kept : (((f.inner.zipIdx.filter fun x => isSwept x.1).map Prod.snd).map
      innerWords).Nodup := by
    refine List.Nodup.map_on (fun i hi j hj same => ?_) (numbers.nodup List.nodup_range')
    have hi := bound hi
    have hj := bound hj
    have := frame_injective (by omega) (by omega) (congrArg Words.value same)
    omega
  rw [List.map_map] at kept
  refine List.nodup_append.mpr ⟨parameters, kept, ?_⟩
  rintro ws given _ other rfl
  obtain ⟨i, hi, rfl⟩ := List.mem_map.mp given
  obtain ⟨x, hx, same⟩ := List.mem_map.mp other
  have hi := List.mem_range.mp hi
  have hx := bound (List.mem_map_of_mem hx)
  have := frame_injective (by omega) (by omega) (congrArg Words.value same)
  omega

end Lists

/-! ## The layout -/

/-- **Frames have disjoint words.** If the offsets of a routine's frame are words, then

* every variable that the routine loads or stores has a home, and so has the number of an exception
  if the routine calls what can throw;
* no two parts of the frame have a byte in common, other than a parameter and its variable, and
  neither have the two words of a part;
* the words that are cleared when the routine begins are those of the variables below the base
  pointer, each once, and the last of them is where the operands begin;
* what the routine gives back when it returns is every parameter, and every variable below the base
  pointer that is no number of an exception and not the payload under way, each once. -/
theorem layout_disjoint (b : Bytecode) (r : Bytecode.Routine)
    (below : (ofRoutine b r).size ≤ 2 ^ 31) (above : 8 * r.parameters.length + 8 < 2 ^ 31) :
    let f := ofRoutine b r
    (∀ x, .load x ∈ r.code.toList ∨ .store x ∈ r.code.toList → (f.words? x).isSome) ∧
    (∀ callee, .call callee ∈ r.code.toList → b.canThrow callee → (f.words? .thrown).isSome) ∧
    (∀ p q, f.InReach p → f.InReach q → p ≠ q → ¬ f.Shares p q →
      ∀ a ∈ f.cells p, ∀ a' ∈ f.cells q, a.Apart a') ∧
    (∀ p, f.InReach p → (f.cells p).Pairwise Operand.Apart) ∧
    (f.innerCells.Nodup ∧
      (∀ a, a ∈ f.innerCells ↔ ∃ x i, f.home? x = some (.inner i) ∧ a ∈ both (innerWords i)) ∧
      (f.inner ≠ [] → f.innerCells.getLast? = some (.frame (-f.size)))) ∧
    (f.swept.Nodup ∧
      ∀ ws, ws ∈ f.swept ↔ (∃ i < r.parameters.length, ws = parameterWords i) ∨
        ∃ x i, f.home? x = some (.inner i) ∧ ws = innerWords i ∧
          x ≠ .pending ∧ x ≠ .thrown ∧ (∀ n, x ≠ .saved n) ∧ x ≠ .pendingData) := by
  intro f
  have proper := proper_ofRoutine b r
  have parameters : f.parameters.length = r.parameters.length := by
    rw [parameters_ofRoutine, List.length_map]
  have fits : f.Fits := ⟨below, parameters.symm ▸ above⟩
  have homed {x : Bytecode.Variable} {i : Bytecode.Instruction} (hi : i ∈ r.code.toList)
      (hx : mentioned? b i = some x) : (f.words? x).isSome := by
    rw [words?, Option.isSome_map]
    exact home?_ofRoutine hi hx
  refine ⟨fun x => ?_, fun callee called throws => homed called (if_pos throws),
    fun p q reachP reachQ ne own a ha a' ha' => apart_of_mem fits reachP reachQ ne own ha ha',
    fun p => pairwise_cells fits,
    ⟨nodup_innerCells fits, fun a => proper.mem_innerCells, getLast?_innerCells⟩,
    nodup_swept fits, fun ws => ?_⟩
  · rintro (loaded | stored)
    · exact homed loaded rfl
    · exact homed stored rfl
  · rw [proper.mem_swept, parameters]
    refine or_congr Iff.rfl (exists_congr fun x => exists_congr fun i => ?_)
    have kept : isSwept x = true ↔
        x ≠ .pending ∧ x ≠ .thrown ∧ (∀ n, x ≠ .saved n) ∧ x ≠ .pendingData := by
      cases x <;> simp [isSwept, Bytecode.Variable.isNumber]
    rw [kept]
    tauto

/-- A routine that calls itself, keeps the payload under way, and has a variable besides its
parameter. -/
theorem layout_disjoint_recursive :
    let r : Bytecode.Routine := ⟨⟨"f", 1⟩, ["a"],
      #[.load (.named "a"), .store (.named "x"), .load (.named "x"), .call (.routine ⟨"f", 1⟩),
        .load .thrownData, .store .pendingData, .returnValue], true⟩
    let f := ofRoutine ⟨[r], ⟨"main", 0⟩, [], []⟩ r
    f.inner = [.named "x", .thrown, .pendingData] ∧ f.words? .thrown = some (innerWords 1) ∧
    (∀ a ∈ f.cells (.variable .pendingData), ∀ a' ∈ f.cells (.spill 0), a.Apart a') ∧
    (∀ a ∈ f.cells (.variable (.named "a")), ∀ a' ∈ f.cells .returnAddress, a.Apart a') ∧
    innerWords 0 ∈ f.swept := by
  intro r f
  have operand : f.InReach (.spill 0) := show f.size + 8 * (0 + 1) ≤ 2 ^ 31 by decide
  obtain ⟨-, -, apart, -, -, -, swept⟩ :=
    layout_disjoint ⟨[r], ⟨"main", 0⟩, [], []⟩ r (by decide) (by decide)
  exact ⟨by decide, by decide, apart _ _ trivial operand (by decide) id,
    apart _ _ trivial trivial (by decide) id,
    (swept _).mpr (.inr ⟨.named "x", 0, by decide, rfl, nofun, nofun, nofun, nofun⟩)⟩

end Frame

end Threefold.X86
