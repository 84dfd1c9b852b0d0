import Threefold.Intrinsic.Call

/-!
# What the traffic on a heap only adds to

No operation on a heap takes cells away, lowers the number of references that were given back
without being held, or turns counting on or off. That holds whether the operation succeeds or
faults, so it holds at every moment of a run. The faults of the built-in functions are mistakes of
the running program (`Fault.isRuntime`).

* `call_adds` says both of every built-in function.
-/

namespace Threefold

/-- The state in which an operation ends. -/
def finalState {ε σ α : Type} : EStateM.Result ε σ α → σ
  | .ok _ s => s
  | .error _ s => s

/-- Whether a fault is a mistake that a running program makes in a call of a built-in function. -/
def Fault.isRuntime : Fault → Bool
  | .notAHandle _ | .reclaimed .. | .retainedReclaimed _ | .notAString _ | .scalarForArray ..
  | .stringForArray _ | .noInput | .negativeLength .. | .wrongArguments .. => true
  | _ => false

namespace Heap

/-- A heap may come after another one in a run. -/
structure Grows (h h' : Heap) : Prop where
  counting : h'.counting = h.counting
  size : h.cells.size ≤ h'.cells.size
  underflows : h.underflows ≤ h'.underflows

theorem Grows.refl (h : Heap) : h.Grows h :=
  ⟨rfl, Nat.le_refl _, Nat.le_refl _⟩

theorem Grows.trans {h h' h'' : Heap} (a : h.Grows h') (b : h'.Grows h'') : h.Grows h'' :=
  ⟨b.counting.trans a.counting, Nat.le_trans a.size b.size,
    Nat.le_trans a.underflows b.underflows⟩

end Heap

/-- An operation on a state with a heap only adds to the heap, and its errors are of a kind. -/
def Adds {ε σ α : Type} (heap : σ → Heap) (kind : ε → Bool) (op : EStateM ε σ α) : Prop :=
  ∀ s, (heap s).Grows (heap (finalState (op s))) ∧ ∀ e s', op s = .error e s' → kind e = true

namespace Adds

variable {ε σ α β : Type} {heap : σ → Heap} {kind : ε → Bool}

theorem pure (a : α) : Adds heap kind (Pure.pure a : EStateM ε σ α) :=
  fun _ => ⟨.refl _, fun _ _ he => by cases he⟩

theorem throw {e : ε} (h : kind e = true) :
    Adds heap kind (MonadExcept.throw e : EStateM ε σ α) := by
  refine fun _ => ⟨.refl _, fun e' s' he => ?_⟩
  cases he
  exact h

theorem bind {op : EStateM ε σ α} {k : α → EStateM ε σ β} (h : Adds heap kind op)
    (hk : ∀ a, Adds heap kind (k a)) : Adds heap kind (op >>= k) := by
  intro s
  have first := h s
  simp only [Bind.bind, EStateM.bind]
  cases hop : op s with
  | ok a s' =>
    rw [hop] at first
    exact ⟨first.1.trans (hk a s').1, (hk a s').2⟩
  | error e s' =>
    rw [hop] at first
    refine ⟨first.1, fun e' s'' he => ?_⟩
    cases he
    exact first.2 e s' rfl

theorem onHeap {op : Heap.Op α} {kind : Fault → Bool} (h : Adds id kind op) :
    Adds World.heap kind (World.onHeap op) := by
  intro w
  have first := h w.heap
  unfold World.onHeap
  dsimp only
  cases hop : op w.heap with
  | ok a s =>
    rw [hop] at first
    exact ⟨first.1, fun _ _ he => by cases he⟩
  | error e s =>
    rw [hop] at first
    refine ⟨first.1, fun e' w' he => ?_⟩
    cases he
    exact first.2 e s rfl

end Adds

namespace Heap

/-- An operation that fails only because a word names no object, or one that is gone. -/
abbrev AddsTo {α : Type} (op : Op α) : Prop :=
  Adds id Fault.isRuntime op

theorem allocate_adds (o : HeapObject) : AddsTo (allocate o) :=
  fun h => ⟨⟨rfl, by simp [allocate, finalState], Nat.le_refl _⟩, fun _ _ he => by cases he⟩

theorem index_adds (n : Int32) : AddsTo (index n) := by
  intro h
  unfold index
  cases h.index? n with
  | some i => exact Adds.pure i h
  | none => exact Adds.throw rfl h

theorem object_adds (n : Int32) : AddsTo (object n) := by
  intro h
  unfold object
  cases h.index? n with
  | none => exact Adds.throw rfl h
  | some i =>
    dsimp only
    cases h.cells[i]? with
    | none => exact Adds.throw rfl h
    | some c =>
      dsimp only
      split
      · exact Adds.throw rfl h
      · exact Adds.pure c.object h

theorem bytes_adds (n : Int32) : AddsTo (bytes n) := by
  refine .bind (object_adds n) fun o => ?_
  cases o with
  | string bs => exact .pure bs
  | scalars words => exact .throw rfl
  | boxed values => exact .throw rfl

theorem modifyObject_adds (i : Nat) (f : HeapObject → HeapObject) : AddsTo (modifyObject i f) :=
  fun h => ⟨⟨rfl, by simp [modifyObject, finalState], Nat.le_refl _⟩, fun _ _ he => by cases he⟩

theorem retain_adds (v : Value) : AddsTo (retain v) := by
  intro h
  unfold retain
  split
  · exact Adds.pure () h
  · cases h.index? v.word with
    | none => exact Adds.throw rfl h
    | some i =>
      dsimp only
      split
      · exact Adds.throw rfl h
      · exact ⟨⟨rfl, by simp [finalState], Nat.le_refl _⟩, fun _ _ he => by cases he⟩

theorem retainTimes_adds (v : Value) (n : Nat) : AddsTo (retainTimes v n) := by
  induction n with
  | zero => exact .pure ()
  | succ n ih => exact .bind (retain_adds v) fun _ => ih

theorem drop_grows (h : Heap) (i : Nat) (hi : i < h.cells.size) : h.Grows (h.drop i hi).1 := by
  unfold drop
  dsimp only
  split
  · exact ⟨rfl, Nat.le_refl _, Nat.le_succ _⟩
  · exact ⟨rfl, by simp, Nat.le_refl _⟩

theorem releaseAll_adds (h : Heap) (pending : List Value) :
    h.Grows (finalState (releaseAll h pending)) ∧
      ∀ e h', releaseAll h pending = .error e h' → e.isRuntime = true := by
  fun_induction releaseAll h pending with
  | case1 h => exact ⟨.refl h, fun _ _ he => by cases he⟩
  | case2 h v rest none =>
    refine ⟨.refl h, fun e h' he => ?_⟩
    cases he
    rfl
  | case3 h v rest i found ih => exact ⟨(drop_grows h i _).trans ih.1, ih.2⟩

theorem release_adds (v : Value) : AddsTo (release v) := by
  intro h
  unfold release
  split
  · exact Adds.pure () h
  · exact releaseAll_adds h [v]

/-- Putting strings on the heap does not fail, and yields a handle for each. -/
theorem preload_ok (ss : List String) (h : Heap) :
    ∃ pool h', preload ss h = .ok pool h' ∧ pool.length = ss.length := by
  induction ss generalizing h with
  | nil => exact ⟨[], h, rfl, rfl⟩
  | cons s ss ih =>
    obtain ⟨pool, h', hp, hl⟩ := ih { h with cells := h.cells.push ⟨.ofString s, 1, false⟩ }
    refine ⟨handle h.cells.size :: pool, h', ?_, by rw [List.length_cons, hl]; rfl⟩
    simp only [preload, Bind.bind, EStateM.bind, allocate, hp]
    rfl

end Heap

namespace Intrinsic

/-- An operation of a built-in function. -/
abbrev AddsTo {α : Type} (op : World.Op α) : Prop :=
  Adds World.heap Fault.isRuntime op

theorem read_adds : AddsTo World.read := by
  rintro ⟨heap, ⟨input, output⟩⟩
  cases input with
  | nil => exact Adds.throw rfl _
  | cons n rest => exact ⟨.refl heap, fun _ _ he => by cases he⟩

theorem write_adds (n : Int32) : AddsTo (World.write n) :=
  fun w => ⟨.refl w.heap, fun _ _ he => by cases he⟩

theorem newString_adds (bytes : Array UInt8) : AddsTo (newString bytes) :=
  .bind (.onHeap (Heap.allocate_adds _)) fun _ => .pure _

theorem length_adds (i : Intrinsic) (n : Int32) : AddsTo (length i n) := by
  unfold length
  split
  · exact .pure _
  · exact .throw rfl

theorem bytesOf_adds (v : Value) : AddsTo (bytesOf v) :=
  .onHeap (Heap.bytes_adds v.word)

theorem arrayHandle_adds (i : Intrinsic) (v : Value) : AddsTo (arrayHandle i v) := by
  unfold arrayHandle Heap.expectArray
  by_cases counted : v.tag.isCounted = true
  · rw [if_pos counted]
    exact .pure v.word
  · rw [if_neg counted]
    exact .throw rfl

theorem arrayLength_adds (i : Intrinsic) (o : HeapObject) : AddsTo (arrayLength i o) := by
  cases o with
  | scalars words => exact .pure _
  | boxed values => exact .pure _
  | string bytes => exact .throw rfl

theorem modifyObject_adds (n : Int32) (f : HeapObject → HeapObject) :
    AddsTo (modifyObject n f) :=
  .onHeap (.bind (Heap.index_adds n) fun i => Heap.modifyObject_adds i f)

theorem store_adds (n : Int32) (o : HeapObject) (p : Nat) (v : Value) :
    AddsTo (store n o p v) := by
  cases o with
  | boxed values =>
    exact .bind (modifyObject_adds n _) fun _ => .bind (.onHeap (Heap.retain_adds v)) fun _ =>
      .onHeap (Heap.release_adds _)
  | scalars words => exact modifyObject_adds n _
  | string bytes => exact modifyObject_adds n _

/-- What is found at a position, or an index out of bounds. -/
theorem position_adds {index : Int32} {length : Nat} {k : Nat → World.Op Reply}
    (hk : ∀ p, AddsTo (k p)) :
    AddsTo (match position? index length with
      | some p => k p
      | none => return .outOfBounds index) := by
  cases position? index length with
  | some p => exact hk p
  | none => exact .pure _

/-- A built-in function only adds to the heap, and only faults as a running program makes it. -/
theorem call_adds (i : Intrinsic) (arguments : List Value) : AddsTo (i.call arguments) := by
  unfold call
  split
  case h_1 => exact .bind read_adds fun _ => .pure _
  case h_2 v => exact .bind (write_adds _) fun _ => .pure _
  case h_3 n b => exact .bind (length_adds _ _) fun _ => newString_adds _
  case h_4 s t => exact .bind (bytesOf_adds s) fun _ => .bind (bytesOf_adds t) fun _ => .pure _
  case h_5 s n => exact .bind (bytesOf_adds s) fun _ => position_adds fun _ => .pure _
  case h_6 s => exact .bind (bytesOf_adds s) fun _ => newString_adds _
  case h_7 s n b =>
    exact .bind (bytesOf_adds s) fun _ => position_adds fun _ =>
      .bind (modifyObject_adds _ _) fun _ => .pure _
  case h_8 s t => exact .bind (bytesOf_adds s) fun _ => .bind (bytesOf_adds t) fun _ => newString_adds _
  case h_9 s start count =>
    refine .bind (bytesOf_adds s) fun _ => ?_
    split
    · exact newString_adds _
    · exact .pure _
  case h_10 s => exact .bind (bytesOf_adds s) fun _ => .pure _
  case h_11 n v =>
    exact .bind (length_adds _ _) fun _ => .bind (.onHeap (Heap.allocate_adds _)) fun _ => .pure _
  case h_12 n v =>
    exact .bind (length_adds _ _) fun _ => .bind (.onHeap (Heap.retainTimes_adds v _)) fun _ =>
      .bind (.onHeap (Heap.allocate_adds _)) fun _ => .pure _
  case h_13 a n =>
    exact .bind (arrayHandle_adds _ a) fun _ => .bind (.onHeap (Heap.object_adds _)) fun o =>
      .bind (arrayLength_adds _ o) fun _ => position_adds fun _ => .pure _
  case h_14 a n v =>
    exact .bind (arrayHandle_adds _ a) fun _ => .bind (.onHeap (Heap.object_adds _)) fun o =>
      .bind (arrayLength_adds _ o) fun _ => position_adds fun _ =>
        .bind (store_adds _ _ _ _) fun _ => .pure _
  case h_15 a =>
    exact .bind (arrayHandle_adds _ a) fun _ => .bind (.onHeap (Heap.object_adds _)) fun o =>
      .bind (arrayLength_adds _ o) fun _ => .pure _
  case h_16 => exact .throw rfl

end Intrinsic

end Threefold
