import Threefold.Proofs.Heap.Kinds

/-!
# What the catalogue says about the built-in functions

The catalogue has, for every built-in function, its number of arguments, whether it can find an index
out of bounds, the tag of its result, and whether the result is a new array. What the functions do is
defined elsewhere, and machine code is generated from the catalogue alone.

`Comes` lists all that can come of a call (`call_comes`). From it, and from what a call with an index out
of bounds comes to (`call_of_misses`), `call_catalogued` proves the entries of the catalogue right, and
that a call changes no object but the one that a setter addresses, and of that one at most the addressed
part.
-/

namespace Threefold

namespace HeapObject

/-- What is in an object, in order. A string has its bytes in it, as numbers. -/
def contents : HeapObject → List Value
  | string bytes => bytes.toList.map fun b => .scalar (.ofNat b.toNat)
  | scalars words => words.toList.map .scalar
  | boxed values => values.toList

/-- The number of bytes of a string, or of elements of an array. -/
def length (o : HeapObject) : Nat :=
  o.contents.length

/-- One object is the other one, but for what is at one position. -/
structure Differs (o o' : HeapObject) (position : Nat) : Prop where
  kind : o'.kind = o.kind
  length : o'.length = o.length
  same : ∀ j, j ≠ position → o'.contents[j]? = o.contents[j]?

theorem length_string (bytes : Array UInt8) : (string bytes).length = bytes.size := by
  simp [length, contents]

theorem length_of_isArray {o : HeapObject} (array : o.kind ≠ .string) : o.length = o.size := by
  cases o with
  | string => exact absurd rfl array
  | scalars words => simp [length, contents, size]
  | boxed values => simp [length, contents, size]

theorem differs_setByte (bytes : Array UInt8) (p : Nat) (b : UInt8) :
    (string bytes).Differs (Intrinsic.setByte p b (string bytes)) p := by
  refine ⟨rfl, by simp [Intrinsic.setByte, length, contents], fun j other => ?_⟩
  simp only [Intrinsic.setByte, contents, List.getElem?_map, Array.getElem?_toList]
  rw [Array.getElem?_setIfInBounds_ne other.symm]

theorem differs_setElement (o : HeapObject) (p : Nat) (v : Value) :
    o.Differs (Intrinsic.setElement p v o) p := by
  cases o with
  | string bytes => exact ⟨rfl, rfl, fun _ _ => rfl⟩
  | scalars words =>
    refine ⟨rfl, by simp [Intrinsic.setElement, length, contents], fun j other => ?_⟩
    simp only [Intrinsic.setElement, contents, List.getElem?_map, Array.getElem?_toList]
    rw [Array.getElem?_setIfInBounds_ne other.symm]
  | boxed values =>
    refine ⟨rfl, by simp [Intrinsic.setElement, length, contents], fun j other => ?_⟩
    simp only [Intrinsic.setElement, contents, Array.getElem?_toList]
    rw [Array.getElem?_setIfInBounds_ne other.symm]

end HeapObject

namespace Heap

/-- A word is the handle of an object that is not gone. -/
def Names (h : Heap) (word : Int32) (k : Nat) (o : HeapObject) : Prop :=
  h.index? word = some k ∧ ∃ c, h.cells[k]? = some c ∧ c.freed = false ∧ c.object = o

variable {h : Heap} {word : Int32} {k : Nat} {o : HeapObject}

theorem objectAt?_isSome {i : Nat} : (h.objectAt? i).isSome ↔ i < h.cells.size := by
  simp [Heap.objectAt?]

theorem SameObjects.size {h' : Heap} (same : h.SameObjects h') : h'.cells.size = h.cells.size := by
  have known (i : Nat) : i < h'.cells.size ↔ i < h.cells.size := by
    rw [← objectAt?_isSome, ← objectAt?_isSome, same i]
  have here := known h.cells.size
  have there := known h'.cells.size
  omega

theorem Names.objectAt? (names : h.Names word k o) : h.objectAt? k = some o := by
  obtain ⟨-, c, cell, -, rfl⟩ := names
  rw [Heap.objectAt?, cell]
  rfl

theorem Names.object (names : h.Names word k o) : object word h = .ok o h := by
  obtain ⟨index, c, cell, live, rfl⟩ := names
  simp only [Heap.object, index, cell, live]
  rfl

theorem names_of_object {h' : Heap} (found : object word h = .ok o h') :
    h' = h ∧ ∃ k, h.Names word k o := by
  have finds := object_finds h word
  rw [found] at finds
  generalize hr : EStateM.Result.ok o h' = r at finds
  cases finds with
  | absent => cases hr
  | reclaimed => cases hr
  | found index cell live =>
    cases hr
    exact ⟨rfl, _, index, _, cell, live, rfl⟩

end Heap

namespace Intrinsic

/-- The first argument of a function that reads strings or arrays is the handle of one. -/
def Addresses (h : Heap) (i : Intrinsic) (v : Value) (k : Nat) (o : HeapObject) : Prop :=
  h.Names v.word k o ∧ (i.readsStrings = true ∧ o.kind = .string ∨
    i.readsArray = true ∧ v.tag.isCounted = true ∧ o.kind ≠ .string)

/-- The index among the arguments is out of bounds, in an object of some length. Where it is the start
of a part of a string, the whole part is meant. -/
def Outside (i : Intrinsic) (length : Nat) (index : Value) (rest : List Value) : Prop :=
  match i, rest with
  | .strSub, [count] => index.word.toInt < 0 ∨ count.word.toInt < 0 ∨
      (length : Int) < index.word.toInt + count.word.toInt
  | _, _ => index.word.toInt < 0 ∨ (length : Int) ≤ index.word.toInt

/-- A function that can throw gets an index that is out of bounds in the object that it addresses. -/
def Misses (h : Heap) (i : Intrinsic) (arguments : List Value) (n : Int32) : Prop :=
  i.canThrow = true ∧ arguments.length = i.arity ∧ ∃ v index rest k o,
    arguments = v :: index :: rest ∧ n = index.word ∧ i.Addresses h v k o ∧
      i.Outside o.length index rest

/-- A setter replaces what is at a position of the object that it addresses. -/
def Sets (h : Heap) (i : Intrinsic) (arguments : List Value) (k : Nat) (o o' : HeapObject) : Prop :=
  (i = .strSet ∨ i = .arrSet) ∧ ∃ (v index new : Value) (p : Nat),
    arguments = [v, index, new] ∧ i.Addresses h v k o ∧ index.word.toInt = p ∧ p < o.length ∧ o.Differs o' p

/-! ## Positions and objects -/

theorem position?_eq_some {n : Int32} {length p : Nat} :
    position? n length = some p ↔ n.toInt = p ∧ p < length := by
  unfold position?
  split
  · rw [Option.some.injEq]
    omega
  · simp only [reduceCtorEq, false_iff]
    omega

theorem position?_eq_none {n : Int32} {length : Nat} :
    position? n length = none ↔ n.toInt < 0 ∨ (length : Int) ≤ n.toInt := by
  unfold position?
  split
  · simp only [reduceCtorEq, false_iff]
    omega
  · simp only [true_iff]
    omega

variable {i : Intrinsic} {arguments : List Value} {w : World}

theorem bytesOf_of_names {v : Value} {k : Nat} {bytes : Array UInt8}
    (names : w.heap.Names v.word k (.string bytes)) : bytesOf v w = .ok bytes w := by
  simp only [bytesOf, World.onHeap, Heap.bytes, Bind.bind, EStateM.bind, names.object]
  rfl

/-! ## What can come of a call -/

/-- What can come of a call. -/
inductive Comes (w : World) (i : Intrinsic) (arguments : List Value) :
    EStateM.Result Fault World Reply → Prop
  | fails {f : Fault} {h' : Heap} : w.heap.SameObjects h' →
    Comes w i arguments (.error f ⟨h', w.console⟩)
  | misses {n : Int32} : i.Misses w.heap arguments n →
    Comes w i arguments (.ok (.outOfBounds n) w)
  | answers {n : Int32} {console : Console} : i.resultTag? = some .scalar →
    Comes w i arguments (.ok (.scalar n) ⟨w.heap, console⟩)
  | copies {bytes : Array UInt8} : i.resultTag? = some .scalar →
    Comes w i arguments (.ok (.scalar (Heap.handle w.heap.cells.size))
      ⟨{ w.heap with cells := w.heap.cells.push ⟨.string bytes, 1, false⟩ }, w.console⟩)
  | makes {o : HeapObject} {t : Tag} {h' : Heap} : i.resultTag? = some t →
    w.heap.SameObjects h' → o.isArray = true →
    Comes w i arguments (.ok (.returned ⟨Heap.handle h'.cells.size, t⟩)
      ⟨{ h' with cells := h'.cells.push ⟨o, 1, false⟩ }, w.console⟩)
  | gets {v : Value} : i = .arrGet → Comes w i arguments (.ok (.returned v) w)
  | sets {k : Nat} {o o' : HeapObject} {r : EStateM.Result Fault World Reply} :
    i.Sets w.heap arguments k o o' →
    (∀ j, (finalState r).heap.objectAt? j = if k = j then some o' else w.heap.objectAt? j) →
    (∀ reply w', r = .ok reply w' → reply = Reply.scalar 0) → Comes w i arguments r

namespace Comes

theorem fail {f : Fault} : Comes w i arguments (.error f w) :=
  .fails (.refl w.heap)

theorem newString {bytes : Array UInt8} (tag : i.resultTag? = some .scalar) :
    Comes w i arguments (Intrinsic.newString bytes w) :=
  .copies tag

/-- A setter answers when it is done. -/
theorem set {op : World.Op Unit} {k : Nat} {o o' : HeapObject} (sets : i.Sets w.heap arguments k o o')
    (objects : ∀ j, (World.heapResult (op w) |> finalState).objectAt? j =
      if k = j then some o' else w.heap.objectAt? j) :
    Comes w i arguments ((do
      op
      return Reply.scalar 0) w) := by
  simp only [World.finalState_heapResult] at objects
  simp only [Bind.bind, EStateM.bind]
  cases run : op w with
  | error f w' =>
    rw [run] at objects
    exact .sets sets objects fun _ _ h => by cases h
  | ok u w' =>
    rw [run] at objects
    refine .sets sets objects fun _ _ h => ?_
    cases h
    rfl

/-- The bytes of a string come from an object, or the call fails. -/
theorem bytesOf {v : Value} {next : Array UInt8 → World.Op Reply}
    (h : ∀ bytes k, w.heap.Names v.word k (.string bytes) → Comes w i arguments (next bytes w)) :
    Comes w i arguments ((Intrinsic.bytesOf v >>= next) w) := by
  simp only [Bind.bind, EStateM.bind, Intrinsic.bytesOf, World.onHeap, Heap.bytes]
  cases found : Heap.object v.word w.heap with
  | error f h' =>
    have finds := Heap.object_finds w.heap v.word
    rw [found] at finds
    generalize hr : EStateM.Result.error f h' = r at finds
    cases finds with
    | absent => cases hr; exact .fail
    | reclaimed => cases hr; exact .fail
    | found => cases hr
  | ok o h' =>
    obtain ⟨rfl, k, names⟩ := Heap.names_of_object found
    cases o with
    | string bytes => exact h bytes k names
    | scalars words => exact .fail
    | boxed values => exact .fail

/-- An array comes from an object, or the call fails. -/
theorem array {a : Value} {next : Int32 → HeapObject → Nat → World.Op Reply}
    (reads : i.readsArray = true)
    (h : ∀ o k, i.Addresses w.heap a k o → Comes w i arguments (next a.word o o.length w)) :
    Comes w i arguments ((do
      let handle ← arrayHandle i a
      let o ← World.onHeap (Heap.object handle)
      let length ← arrayLength i o
      next handle o length) w) := by
  unfold arrayHandle Heap.expectArray
  by_cases counted : a.tag.isCounted = true
  case neg =>
    rw [if_neg counted]
    exact .fail
  rw [if_pos counted]
  simp only [Bind.bind, EStateM.bind, Pure.pure, EStateM.pure, World.onHeap]
  cases found : Heap.object a.word w.heap with
  | error f h' =>
    have finds := Heap.object_finds w.heap a.word
    rw [found] at finds
    generalize hr : EStateM.Result.error f h' = r at finds
    cases finds with
    | absent => cases hr; exact .fail
    | reclaimed => cases hr; exact .fail
    | found => cases hr
  | ok o h' =>
    obtain ⟨rfl, k, names⟩ := Heap.names_of_object found
    cases o with
    | string bytes => exact .fail
    | scalars words =>
      have kind : (HeapObject.scalars words).kind ≠ .string := by simp [HeapObject.kind]
      have addressed := h (.scalars words) k ⟨names, .inr ⟨reads, counted, kind⟩⟩
      rwa [HeapObject.length_of_isArray kind] at addressed
    | boxed values =>
      have kind : (HeapObject.boxed values).kind ≠ .string := by simp [HeapObject.kind]
      have addressed := h (.boxed values) k ⟨names, .inr ⟨reads, counted, kind⟩⟩
      rwa [HeapObject.length_of_isArray kind] at addressed

/-- A position in an object, or an index out of bounds. -/
theorem position {v index : Value} {rest : List Value} {k : Nat} {o : HeapObject}
    {next : Nat → World.Op Reply} (throws : i.canThrow = true) (arity : rest.length + 2 = i.arity)
    (sub : i ≠ .strSub) (addressed : i.Addresses w.heap v k o)
    (h : ∀ p : Nat, index.word.toInt = p → p < o.length → Comes w i (v :: index :: rest) (next p w)) :
    Comes w i (v :: index :: rest) ((match position? index.word o.length with
      | some p => next p
      | none => return .outOfBounds index.word) w) := by
  cases found : position? index.word o.length with
  | none =>
    refine .misses ⟨throws, arity, v, index, rest, k, o, rfl, rfl, addressed, ?_⟩
    unfold Outside
    split
    · exact absurd rfl sub
    · exact position?_eq_none.mp found
  | some p =>
    obtain ⟨value, inside⟩ := position?_eq_some.mp found
    exact h p value inside

end Comes

theorem objectAt?_modify {h : Heap} {n : Int32} {k : Nat} {o : HeapObject}
    (names : h.Names n k o) (f : HeapObject → HeapObject) (j : Nat) :
    (finalState (Heap.modifyObject k f h)).objectAt? j =
      if k = j then some (f o) else h.objectAt? j := by
  rw [Heap.objectAt?_modifyObject]
  split
  case isTrue same => rw [← same, names.objectAt?, Option.map_some]
  case isFalse => rfl

/-- What a setter does to the objects. -/
theorem objectAt?_storeAt {h : Heap} {n : Int32} {k p : Nat} {o : HeapObject} {v : Value}
    (names : h.Names n k o) (j : Nat) : (finalState (Heap.storeAt k o p v h)).objectAt? j =
      if k = j then some (setElement p v o) else h.objectAt? j := by
  have set := objectAt?_modify names (setElement p v) j
  cases o with
  | string bytes => exact set
  | scalars words => exact set
  | boxed values =>
    simp only [Heap.storeAt, Bind.bind, EStateM.bind]
    generalize hm : Heap.modifyObject k (setElement p v) h = r at set
    cases r with
    | error e h₁ => exact set
    | ok u h₁ =>
      dsimp only [finalState] at set ⊢
      have retained := Heap.retain_sameObjects v h₁ j
      cases hr : Heap.retain v h₁ with
      | error e h₂ =>
        rw [hr] at retained
        exact retained.trans set
      | ok u h₂ =>
        rw [hr] at retained
        have released := Heap.release_sameObjects (values.getD p (.scalar 0)) h₂ j
        exact released.trans (retained.trans set)

/-- All that can come of a call. -/
theorem call_comes (i : Intrinsic) (arguments : List Value) (w : World) :
    Comes w i arguments (i.call arguments w) := by
  unfold call
  split
  case h_1 =>
    obtain ⟨heap, ⟨input, output⟩⟩ := w
    cases input with
    | nil => exact .fail
    | cons n rest => exact .answers rfl
  case h_2 v => exact .answers rfl
  case h_3 n b =>
    unfold length
    split
    · exact .newString rfl
    · exact .fail
  case h_4 s t => exact .bytesOf fun _ _ _ => .bytesOf fun _ _ _ => .answers rfl
  case h_5 s n =>
    refine .bytesOf fun bytes k names => ?_
    rw [← HeapObject.length_string]
    exact .position rfl rfl (by decide) ⟨names, .inl ⟨rfl, rfl⟩⟩ fun _ _ _ => .answers rfl
  case h_6 s => exact .bytesOf fun _ _ _ => .newString rfl
  case h_7 s n b =>
    refine .bytesOf fun bytes k names => ?_
    rw [← HeapObject.length_string]
    have addressed : Intrinsic.strSet.Addresses w.heap s k (.string bytes) :=
      ⟨names, .inl ⟨rfl, rfl⟩⟩
    refine .position rfl rfl (by decide) addressed fun p value inside => ?_
    refine .set ⟨.inl rfl, s, n, b, p, rfl, addressed, value, inside,
      HeapObject.differs_setByte bytes p (byte b.word)⟩ fun j => ?_
    rw [modifyObject_lifts names.1]
    exact objectAt?_modify names _ j
  case h_8 s t => exact .bytesOf fun _ _ _ => .bytesOf fun _ _ _ => .newString rfl
  case h_9 s start count =>
    refine .bytesOf fun bytes k names => ?_
    split
    case isTrue => exact .newString rfl
    case isFalse outside =>
      refine .misses ⟨rfl, rfl, s, start, [count], k, _, rfl, rfl, ⟨names, .inl ⟨rfl, rfl⟩⟩, ?_⟩
      rw [HeapObject.length_string]
      simp only [Outside]
      omega
  case h_10 s => exact .bytesOf fun _ _ _ => .answers rfl
  case h_11 n v =>
    unfold length
    split
    · exact .makes rfl (.refl w.heap) rfl
    · exact .fail
  case h_12 n v =>
    unfold length
    split
    case isFalse => exact .fail
    simp only [Bind.bind, EStateM.bind, Pure.pure, EStateM.pure, World.onHeap]
    have same := Heap.retainTimes_sameObjects v n.word.toInt.toNat w.heap
    cases run : Heap.retainTimes v n.word.toInt.toNat w.heap with
    | error f h' =>
      rw [run] at same
      exact .fails same
    | ok u h' =>
      rw [run] at same
      exact .makes rfl same rfl
  case h_13 a n =>
    exact .array rfl fun o k addressed => .position rfl rfl (by decide) addressed fun _ _ _ => .gets rfl
  case h_14 a n v =>
    refine .array rfl fun o k addressed => .position rfl rfl (by decide) addressed fun p value inside => ?_
    obtain ⟨names, -⟩ := id addressed
    refine .set ⟨.inr rfl, a, n, v, p, rfl, addressed, value, inside, o.differs_setElement p v⟩
      fun j => ?_
    rw [store_lifts names.1]
    exact objectAt?_storeAt names j
  case h_15 a => exact .array rfl fun _ _ _ => .answers rfl
  case h_16 => exact .fail

/-! ## Indices out of bounds -/

theorem Addresses.bytes {v : Value} {k : Nat} {o : HeapObject} (addressed : i.Addresses w.heap v k o)
    (reads : i.readsArray = false) : ∃ bytes, o = .string bytes ∧ bytesOf v w = .ok bytes w := by
  obtain ⟨names, ⟨-, kind⟩ | ⟨array, -⟩⟩ := addressed
  · cases o with
    | string bytes => exact ⟨bytes, rfl, bytesOf_of_names names⟩
    | scalars words => cases kind
    | boxed values => cases kind
  · rw [reads] at array
    cases array

theorem Addresses.array {a : Value} {k : Nat} {o : HeapObject} (addressed : i.Addresses w.heap a k o)
    (reads : i.readsStrings = false) (next : Int32 → HeapObject → Nat → World.Op Reply) :
    (do
      let handle ← arrayHandle i a
      let o ← World.onHeap (Heap.object handle)
      let length ← arrayLength i o
      next handle o length) w = next a.word o o.length w := by
  obtain ⟨names, ⟨strings, -⟩ | ⟨-, counted, kind⟩⟩ := addressed
  · rw [reads] at strings
    cases strings
  · rw [HeapObject.length_of_isArray kind]
    unfold arrayHandle Heap.expectArray
    rw [if_pos counted]
    simp only [Bind.bind, EStateM.bind, Pure.pure, EStateM.pure, World.onHeap, names.object]
    cases o with
    | string bytes => exact absurd rfl kind
    | scalars words => rfl
    | boxed values => rfl

/-- An index out of bounds is found. -/
theorem call_of_misses {n : Int32} (misses : i.Misses w.heap arguments n) :
    i.call arguments w = .ok (.outOfBounds n) w := by
  obtain ⟨throws, arity, v, index, rest, k, o, rfl, rfl, addressed, outside⟩ := misses
  have length : rest.length + 2 = i.arity := arity
  cases i with
  | strGet =>
    obtain rfl : rest = [] := List.length_eq_zero_iff.mp (@Nat.add_right_cancel _ 2 0 length)
    obtain ⟨bytes, rfl, found⟩ := addressed.bytes rfl
    rw [HeapObject.length_string] at outside
    simp only [call, Bind.bind, EStateM.bind, found, position?_eq_none.mpr outside]
    rfl
  | strSet =>
    obtain ⟨b, rfl⟩ := List.length_eq_one_iff.mp (@Nat.add_right_cancel _ 2 1 length)
    obtain ⟨bytes, rfl, found⟩ := addressed.bytes rfl
    rw [HeapObject.length_string] at outside
    simp only [call, Bind.bind, EStateM.bind, found, position?_eq_none.mpr outside]
    rfl
  | strSub =>
    obtain ⟨count, rfl⟩ := List.length_eq_one_iff.mp (@Nat.add_right_cancel _ 2 1 length)
    obtain ⟨bytes, rfl, found⟩ := addressed.bytes rfl
    rw [HeapObject.length_string] at outside
    simp only [Outside] at outside
    simp only [call, Bind.bind, EStateM.bind, found]
    rw [if_neg (by omega)]
    rfl
  | arrGet =>
    obtain rfl : rest = [] := List.length_eq_zero_iff.mp (@Nat.add_right_cancel _ 2 0 length)
    refine (addressed.array rfl _).trans ?_
    rw [position?_eq_none.mpr outside]
    rfl
  | arrSet =>
    obtain ⟨new, rfl⟩ := List.length_eq_one_iff.mp (@Nat.add_right_cancel _ 2 1 length)
    refine (addressed.array rfl _).trans ?_
    rw [position?_eq_none.mpr outside]
    rfl
  | _ => cases throws

/-! ## The catalogue -/

/-- A call does what the catalogue says of the function, and changes no object but the one that it
sets. -/
structure Catalogued (i : Intrinsic) (arguments : List Value) (w : World) : Prop where
  /-- It finds an index out of bounds if there is one, and then has changed nothing. -/
  misses : ∀ n w', i.call arguments w = .ok (.outOfBounds n) w' ↔
    w' = w ∧ i.Misses w.heap arguments n
  tagged : ∀ v w', i.call arguments w = .ok (.returned v) w' → ∀ t, i.resultTag? = some t → v.tag = t
  /-- A result that belongs to the caller is the handle of a new array with one reference. -/
  owned : ∀ v w', i.call arguments w = .ok (.returned v) w' → i.returnsOwned = true →
    w'.heap.cells.size = w.heap.cells.size + 1 ∧ v.word = Heap.handle w.heap.cells.size ∧
      (∃ c, w'.heap.cells[w.heap.cells.size]? = some c ∧ c.object.isArray = true ∧
        c.references = 1 ∧ c.freed = false) ∧
      (w'.heap.Fits → w.heap.index? v.word = none ∧ w'.heap.index? v.word = some w.heap.cells.size)
  /-- An object stays as it is, but for what a setter replaces. -/
  changed : ∀ k o, w.heap.objectAt? k = some o → ∃ o',
    (finalState (i.call arguments w)).heap.objectAt? k = some o' ∧
      (o' = o ∨ i.Sets w.heap arguments k o o')

theorem Comes.changed {r : EStateM.Result Fault World Reply} (comes : Comes w i arguments r) {k : Nat}
    {o : HeapObject} (there : w.heap.objectAt? k = some o) :
    ∃ o', (finalState r).heap.objectAt? k = some o' ∧ (o' = o ∨ i.Sets w.heap arguments k o o') := by
  have pushed {h h' : Heap} {c : Heap.Cell} (same : w.heap.SameObjects h)
      (cells : h'.cells = h.cells.push c) : h'.objectAt? k = some o := by
    rw [← same k] at there
    rw [Heap.objectAt?, cells, Array.getElem?_push_lt (Heap.objectAt?_lt there),
      ← Array.getElem?_eq_getElem]
    exact there
  cases comes with
  | fails same => exact ⟨o, (same k).trans there, .inl rfl⟩
  | misses => exact ⟨o, there, .inl rfl⟩
  | answers => exact ⟨o, there, .inl rfl⟩
  | copies => exact ⟨o, pushed (.refl w.heap) rfl, .inl rfl⟩
  | makes tag same array => exact ⟨o, pushed same rfl, .inl rfl⟩
  | gets => exact ⟨o, there, .inl rfl⟩
  | @sets k' o₁ o' r sets objects =>
    by_cases same : k' = k
    · subst same
      obtain ⟨-, v, index, new, p, -, addressed, -⟩ := id sets
      obtain rfl := Option.some.inj (addressed.1.objectAt?.symm.trans there)
      exact ⟨o', by rw [objects, if_pos rfl], .inr sets⟩
    · exact ⟨o, by rw [objects, if_neg same, there], .inl rfl⟩

/-- A function that finds an index out of bounds has changed nothing. -/
theorem Comes.misses_of_outOfBounds {n : Int32} {w' : World}
    (comes : Comes w i arguments (.ok (.outOfBounds n) w')) :
    w' = w ∧ i.Misses w.heap arguments n := by
  generalize hr : EStateM.Result.ok (Reply.outOfBounds n) w' = r at comes
  cases comes with
  | misses misses =>
    cases hr
    exact ⟨rfl, misses⟩
  | sets sets objects answer =>
    cases answer _ _ hr.symm
  | _ => cases hr

theorem Comes.tag_eq {v : Value} {w' : World} {t : Tag}
    (comes : Comes w i arguments (.ok (.returned v) w')) (tag : i.resultTag? = some t) : v.tag = t := by
  generalize hr : EStateM.Result.ok (Reply.returned v) w' = r at comes
  cases comes with
  | fails => cases hr
  | misses => cases hr
  | answers scalar =>
    cases hr
    exact Option.some.inj (scalar.symm.trans tag)
  | copies scalar =>
    cases hr
    exact Option.some.inj (scalar.symm.trans tag)
  | makes array =>
    cases hr
    exact Option.some.inj (array.symm.trans tag)
  | gets get =>
    rw [get] at tag
    cases tag
  | sets sets objects answer =>
    cases answer _ _ hr.symm
    obtain ⟨rfl | rfl, -⟩ := sets
    · exact Option.some.inj tag
    · exact Option.some.inj tag

/-- A result that belongs to the caller is an array that was put on the heap. -/
theorem Comes.makes_of_returnsOwned {v : Value} {w' : World}
    (comes : Comes w i arguments (.ok (.returned v) w')) (owned : i.returnsOwned = true) :
    ∃ (o : HeapObject) (h' : Heap), o.isArray = true ∧ w.heap.SameObjects h' ∧
      v.word = Heap.handle h'.cells.size ∧
        w'.heap = { h' with cells := h'.cells.push ⟨o, 1, false⟩ } := by
  have array : i.resultTag? ≠ some .scalar := by
    cases i <;> simp [returnsOwned] at owned <;> simp [resultTag?]
  generalize hr : EStateM.Result.ok (Reply.returned v) w' = r at comes
  cases comes with
  | fails => cases hr
  | misses => cases hr
  | answers scalar => exact absurd scalar array
  | copies scalar => exact absurd scalar array
  | @makes o t h' tag same isArray =>
    cases hr
    exact ⟨o, h', isArray, same, rfl, rfl⟩
  | gets get =>
    rw [get] at owned
    cases owned
  | sets sets objects answer =>
    obtain ⟨rfl | rfl, -⟩ := sets <;> cases owned

/-- Only a built-in function that can throw finds an index out of bounds. -/
theorem call_answers {reply : Reply} {w' : World} (never : i.canThrow = false)
    (called : i.call arguments w = .ok reply w') : ∃ v, reply = .returned v := by
  cases reply with
  | returned v => exact ⟨v, rfl⟩
  | outOfBounds n =>
    obtain ⟨-, throws, -⟩ := (called ▸ call_comes i arguments w).misses_of_outOfBounds
    rw [never] at throws
    cases throws

/-- Every other function than the makers of arrays and the reader of their elements answers with a plain
number. -/
theorem call_scalar {v : Value} {w' : World} (get : i ≠ .arrGet) (make : i ≠ .arrMake)
    (makeBoxed : i ≠ .arrMakeBoxed) (called : i.call arguments w = .ok (.returned v) w') :
    v.tag = .scalar := by
  refine (called ▸ call_comes i arguments w).tag_eq ?_
  cases i <;> first | rfl | contradiction

/-- The catalogue tells the truth about every call of every built-in function. -/
theorem call_catalogued (i : Intrinsic) (arguments : List Value) (w : World) :
    i.Catalogued arguments w where
  misses n w' := by
    refine ⟨fun run => ?_, ?_⟩
    · exact (run ▸ call_comes i arguments w).misses_of_outOfBounds
    · rintro ⟨rfl, misses⟩
      exact call_of_misses misses
  tagged v w' run t tag := (run ▸ call_comes i arguments w).tag_eq tag
  owned v w' run owned := by
    obtain ⟨o, h', isArray, same, word, heap⟩ :=
      (run ▸ call_comes i arguments w).makes_of_returnsOwned owned
    have size := same.size
    rw [heap, word]
    refine ⟨by rw [Array.size_push, size], by rw [size], ⟨⟨o, 1, false⟩, ?_, isArray, rfl, rfl⟩,
      fun fits => ⟨?_, ?_⟩⟩
    · rw [← size, Array.getElem?_push_size]
    · rw [Heap.Fits, Array.size_push] at fits
      rw [← Option.not_isSome_iff_eq_none, Option.isSome_iff_exists]
      rintro ⟨j, found⟩
      obtain ⟨inside, value⟩ := Heap.index?_eq_some.mp found
      rw [Heap.toInt_handle (by omega)] at value
      omega
    · rw [← size]
      exact fits.index?_handle (by rw [Array.size_push]; omega)
  changed k o there := (call_comes i arguments w).changed there

end Intrinsic

end Threefold
