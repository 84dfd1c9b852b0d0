import Mathlib.Algebra.Group.Nat.Defs
import Threefold.Proofs.Heap.Traffic

/-!
# What a call of a built-in function does to the heap

Whatever a built-in function is called with, what it does to the heap is one of a few operations: it
leaves the heap alone and answers or fails, puts a string or an array on it, or changes an object in
place (`Intrinsic.Effect`, `call_effect`). Everything that calls preserve is shown of these operations.
-/

namespace Threefold

namespace HeapObject

/-- The values in a boxed array. -/
def elements : HeapObject → List Value
  | boxed values => values.toList
  | _ => []

/-- The number of elements of an array. -/
def size : HeapObject → Nat
  | scalars words => words.size
  | boxed values => values.size
  | string _ => 0

theorem held_eq (o : HeapObject) : o.held = o.elements.filter (·.tag.isCounted) := by
  cases o <;> rfl

end HeapObject

namespace World

/-- What an operation on the world comes to on the heap. -/
def heapResult {α : Type} : EStateM.Result Fault World α → EStateM.Result Fault Heap α
  | .ok a w => .ok a w.heap
  | .error e w => .error e w.heap

theorem finalState_heapResult {α : Type} (r : EStateM.Result Fault World α) :
    finalState (World.heapResult r) = (finalState r).heap := by
  cases r <;> rfl

/-- An operation on the world that does to the heap what an operation on the heap does. -/
def Lifts {α : Type} (op : Op α) (heapOp : Heap.Op α) : Prop :=
  ∀ w, heapResult (op w) = heapOp w.heap

namespace Lifts

variable {α β : Type}

theorem pure (a : α) : Lifts (Pure.pure a) (Pure.pure a) :=
  fun _ => rfl

theorem onHeap (op : Heap.Op α) : Lifts (World.onHeap op) op := by
  intro w
  unfold World.onHeap
  dsimp only
  cases op w.heap <;> rfl

theorem bind {op : Op α} {heapOp : Heap.Op α} {k : α → Op β} {heapK : α → Heap.Op β} {w : World}
    (h : heapResult (op w) = heapOp w.heap) (hk : ∀ a, Lifts (k a) (heapK a)) :
    heapResult ((op >>= k) w) = (heapOp >>= heapK) w.heap := by
  simp only [Bind.bind, EStateM.bind]
  cases hop : op w with
  | ok a w' =>
    rw [hop] at h
    rw [← h]
    exact hk a w'
  | error e w' =>
    rw [hop] at h
    rw [← h]
    rfl

end Lifts

end World

namespace Heap

/-- The object in a cell. -/
def objectAt? (h : Heap) (i : Nat) : Option HeapObject :=
  h.cells[i]?.map Cell.object

/-- Store a value in the array in a cell. A boxed array takes a reference to the new element, and then
gives back the one it held to the old element. -/
def storeAt (i : Nat) (o : HeapObject) (position : Nat) (v : Value) : Op Unit :=
  match o with
  | .boxed values => do
    modifyObject i (Intrinsic.setElement position v)
    retain v
    release (values.getD position (.scalar 0))
  | _ => modifyObject i (Intrinsic.setElement position v)

/-- What can come of looking up a handle. -/
inductive Finds (h : Heap) (word : Int32) : EStateM.Result Fault Heap HeapObject → Prop
  | absent : h.index? word = none → Finds h word (.error (.notAHandle word) h)
  | reclaimed {i : Nat} {c : Cell} : h.index? word = some i → h.cells[i]? = some c → c.freed = true →
    Finds h word (.error (.reclaimed c.object.kind word) h)
  | found {i : Nat} {c : Cell} : h.index? word = some i → h.cells[i]? = some c → c.freed = false →
    Finds h word (.ok c.object h)

theorem object_finds (h : Heap) (word : Int32) : Finds h word (object word h) := by
  unfold object
  cases hi : h.index? word with
  | none => exact .absent hi
  | some i =>
    have lt := index?_lt hi
    have hc : h.cells[i]? = some h.cells[i] := Array.getElem?_eq_getElem _
    dsimp only
    rw [hc]
    dsimp only
    cases freed : h.cells[i].freed with
    | true => exact .reclaimed hi hc freed
    | false => exact .found hi hc freed

end Heap

/-- Whether a fault says that a handle names nothing, what is gone, or a string in place of an
array. -/
def Fault.isLookup : Fault → Bool
  | .notAHandle _ | .reclaimed .. | .retainedReclaimed _ | .stringForArray _ => true
  | _ => false

namespace Intrinsic

/-- Whether a function reads strings that its arguments name, whatever their tags. -/
def readsStrings : Intrinsic → Bool
  | strCmp | strGet | strDup | strSet | strCat | strSub | strLen => true
  | _ => false

/-- Whether a function looks its first argument up as an array. -/
def readsArray : Intrinsic → Bool
  | arrGet | arrSet | arrLen => true
  | _ => false

theorem readsStrings_eq_false {i : Intrinsic} (h : i.readsArray = true) : i.readsStrings = false := by
  cases i <;> simp [readsArray, readsStrings] at h ⊢

/-- Whether a function looks an argument up on the heap: a string function whatever the tag of the
argument, an array function only an array. -/
def LooksUp (i : Intrinsic) (v : Value) : Prop :=
  i.readsStrings = true ∨ i.readsArray = true ∧ v.tag.isCounted = true

/-- Why a call fails without having touched the heap. -/
inductive Cause (h : Heap) (i : Intrinsic) (arguments : List Value) : Fault → Prop
  | absent {v : Value} : v ∈ arguments → i.LooksUp v → h.index? v.word = none →
    Cause h i arguments (.notAHandle v.word)
  | reclaimed {v : Value} {k : Nat} {c : Heap.Cell} : v ∈ arguments → i.LooksUp v →
    h.index? v.word = some k → h.cells[k]? = some c → c.freed = true →
    Cause h i arguments (.reclaimed c.object.kind v.word)
  | string {v : Value} {k : Nat} {bytes : Array UInt8} : v ∈ arguments → v.tag.isCounted = true →
    h.index? v.word = some k → h.objectAt? k = some (.string bytes) →
    Cause h i arguments (.stringForArray i)
  | other {f : Fault} : f.isLookup = false → Cause h i arguments f

/-- What a call does to the heap. -/
inductive Effect (h : Heap) : Intrinsic → List Value → Heap.Op Reply → Prop
  | answer (i : Intrinsic) (arguments : List Value) (n : Int32) :
    Effect h i arguments (return .scalar n)
  | outOfBounds (i : Intrinsic) (arguments : List Value) (n : Int32) :
    Effect h i arguments (return .outOfBounds n)
  | fail {i : Intrinsic} {arguments : List Value} {f : Fault} : Cause h i arguments f →
    Effect h i arguments (throw f)
  | newString (i : Intrinsic) (arguments : List Value) (bytes : Array UInt8) :
    Effect h i arguments (do return .scalar (← Heap.allocate (.string bytes)))
  | setByte (i : Intrinsic) (arguments : List Value) {k : Nat} (position : Nat) (b : UInt8) :
    k < h.cells.size → Effect h i arguments (do
      Heap.modifyObject k (Intrinsic.setByte position b)
      return .scalar 0)
  | make (n v : Value) (size : Nat) :
    Effect h .arrMake [n, v] (do
      let handle ← Heap.allocate (.scalars (.replicate size v.word))
      return .returned ⟨handle, .scalarArray⟩)
  | makeBoxed (n v : Value) (size : Nat) (lt : size < 2 ^ 31) :
    Effect h .arrMakeBoxed [n, v] (do
      Heap.retainTimes v size
      let handle ← Heap.allocate (.boxed (.replicate size v))
      return .returned ⟨handle, .boxedArray⟩)
  | get {a n : Value} {k position : Nat} {c : Heap.Cell} : a.tag.isCounted = true →
    h.index? a.word = some k → h.cells[k]? = some c → c.freed = false → position < c.object.size →
    Effect h .arrGet [a, n] (return .returned (element c.object position))
  | set {a n v : Value} {k position : Nat} {c : Heap.Cell} : a.tag.isCounted = true →
    h.index? a.word = some k → h.cells[k]? = some c → c.freed = false → position < c.object.size →
    Effect h .arrSet [a, n, v] (do
      Heap.storeAt k c.object position v
      return .scalar 0)

/-- What a call in some world does to its heap. -/
def Affects (i : Intrinsic) (arguments : List Value) (op : World.Op Reply) (w : World) : Prop :=
  ∃ heapOp, Effect w.heap i arguments heapOp ∧ World.heapResult (op w) = heapOp w.heap

variable {i : Intrinsic} {arguments : List Value} {w : World}

theorem Affects.answer (n : Int32) : Affects i arguments (return .scalar n) w :=
  ⟨_, .answer i arguments n, rfl⟩

theorem Affects.outOfBounds (n : Int32) : Affects i arguments (return .outOfBounds n) w :=
  ⟨_, .outOfBounds i arguments n, rfl⟩

theorem Affects.fail {f : Fault} (h : Cause w.heap i arguments f) :
    Affects i arguments (throw f) w :=
  ⟨_, .fail h, rfl⟩

theorem Affects.newString (bytes : Array UInt8) :
    Affects i arguments (Intrinsic.newString bytes) w :=
  ⟨_, .newString i arguments bytes, World.Lifts.bind (World.Lifts.onHeap _ w) fun _ => .pure _⟩

/-- A position, or an index out of bounds. -/
theorem Affects.position {index : Int32} {length : Nat} {k : Nat → World.Op Reply}
    (hk : ∀ p, p < length → Affects i arguments (k p) w) :
    Affects i arguments (match position? index length with
      | some p => k p
      | none => return .outOfBounds index) w := by
  cases hp : position? index length with
  | none => exact .outOfBounds index
  | some p =>
    refine hk p ?_
    simp only [position?] at hp
    split at hp
    case isTrue inside =>
      cases hp
      exact inside.2
    case isFalse => cases hp

/-- A length, or the fault of a negative one. -/
theorem Affects.length {n : Int32} {k : Nat → World.Op Reply}
    (hk : ∀ size < 2 ^ 31, Affects i arguments (k size) w) :
    Affects i arguments (Intrinsic.length i n >>= k) w := by
  unfold Intrinsic.length
  split
  · refine hk _ ?_
    have := n.toInt_lt
    omega
  · exact .fail (.other rfl)

/-- The bytes of a string, which a word alone names. -/
theorem Affects.bytesOf {v : Value} {k : Array UInt8 → World.Op Reply} (hv : v ∈ arguments)
    (reads : i.readsStrings = true)
    (hk : ∀ bytes n, w.heap.index? v.word = some n → Affects i arguments (k bytes) w) :
    Affects i arguments (Intrinsic.bytesOf v >>= k) w := by
  unfold Affects
  simp only [Bind.bind, EStateM.bind, Intrinsic.bytesOf, World.onHeap, Heap.bytes]
  have finds := Heap.object_finds w.heap v.word
  generalize Heap.object v.word w.heap = found at finds ⊢
  cases finds with
  | absent none => exact ⟨_, .fail (.absent hv (.inl reads) none), rfl⟩
  | reclaimed index cell freed =>
    exact ⟨_, .fail (.reclaimed hv (.inl reads) index cell freed), rfl⟩
  | @found n c index cell live =>
    obtain ⟨o, references, freed⟩ := c
    cases o with
    | string bytes => exact hk bytes n index
    | scalars words => exact ⟨_, .fail (.other (f := .notAString .scalarArray) rfl), rfl⟩
    | boxed values => exact ⟨_, .fail (.other (f := .notAString .boxedArray) rfl), rfl⟩

/-- The array that a value names, and its length. -/
theorem Affects.array {a : Value} {k : Int32 → HeapObject → Nat → World.Op Reply}
    (ha : a ∈ arguments) (reads : i.readsArray = true)
    (hk : ∀ n c, a.tag.isCounted = true → w.heap.index? a.word = some n → w.heap.cells[n]? = some c →
      c.freed = false → Affects i arguments (k a.word c.object c.object.size) w) :
    Affects i arguments (do
      let handle ← arrayHandle i a
      let o ← World.onHeap (Heap.object handle)
      let length ← arrayLength i o
      k handle o length) w := by
  by_cases counted : a.tag.isCounted = true
  case neg =>
    unfold arrayHandle Heap.expectArray
    rw [if_neg counted]
    exact .fail (.other rfl)
  unfold arrayHandle Heap.expectArray
  rw [if_pos counted]
  unfold Affects
  simp only [Bind.bind, EStateM.bind, Pure.pure, EStateM.pure, World.onHeap]
  have finds := Heap.object_finds w.heap a.word
  generalize Heap.object a.word w.heap = found at finds ⊢
  cases finds with
  | absent none => exact ⟨_, .fail (.absent ha (.inr ⟨reads, counted⟩) none), rfl⟩
  | reclaimed index cell freed =>
    exact ⟨_, .fail (.reclaimed ha (.inr ⟨reads, counted⟩) index cell freed), rfl⟩
  | @found n c index cell live =>
    obtain ⟨o, references, freed⟩ := c
    cases o with
    | string bytes =>
      have there : w.heap.objectAt? n = some (.string bytes) := by
        rw [Heap.objectAt?, cell]
        rfl
      exact ⟨_, .fail (.string ha counted index there), rfl⟩
    | scalars words => exact hk n _ counted index cell live
    | boxed values => exact hk n _ counted index cell live

theorem modifyObject_lifts {n : Int32} {k : Nat} {f : HeapObject → HeapObject} {w : World}
    (index : w.heap.index? n = some k) :
    World.heapResult (modifyObject n f w) = Heap.modifyObject k f w.heap := by
  rw [modifyObject, World.Lifts.onHeap]
  simp only [Bind.bind, EStateM.bind, Heap.index, index]

theorem store_lifts {n : Int32} {k p : Nat} {o : HeapObject} {v : Value} {w : World}
    (index : w.heap.index? n = some k) :
    World.heapResult (store n o p v w) = Heap.storeAt k o p v w.heap := by
  cases o with
  | boxed values =>
    exact World.Lifts.bind (modifyObject_lifts index) fun _ _ =>
      World.Lifts.bind (World.Lifts.onHeap _ _) fun _ => World.Lifts.onHeap _
  | scalars words => exact modifyObject_lifts index
  | string bytes => exact modifyObject_lifts index

/-- What a built-in function does to the heap is one of the operations of `Effect`. -/
theorem call_effect (i : Intrinsic) (arguments : List Value) (w : World) :
    Affects i arguments (i.call arguments) w := by
  unfold call
  split
  case h_1 =>
    obtain ⟨heap, ⟨input, output⟩⟩ := w
    cases input with
    | nil => exact .fail (.other (f := .noInput) rfl)
    | cons n rest => exact ⟨_, .answer .read [] n, rfl⟩
  case h_2 v => exact ⟨_, .answer .write [v] 0, rfl⟩
  case h_3 n b => exact .length fun _ _ => .newString _
  case h_4 s t =>
    exact .bytesOf (by simp) rfl fun _ _ _ => .bytesOf (by simp) rfl fun _ _ _ => .answer _
  case h_5 s n => exact .bytesOf (by simp) rfl fun _ _ _ => .position fun _ _ => .answer _
  case h_6 s => exact .bytesOf (by simp) rfl fun _ _ _ => .newString _
  case h_7 s n b =>
    refine .bytesOf (by simp) rfl fun _ k index => .position fun p _ => ?_
    exact ⟨_, .setByte .strSet [s, n, b] p (byte b.word) (Heap.index?_lt index),
      World.Lifts.bind (modifyObject_lifts index) fun _ => .pure _⟩
  case h_8 s t =>
    exact .bytesOf (by simp) rfl fun _ _ _ => .bytesOf (by simp) rfl fun _ _ _ => .newString _
  case h_9 s start count =>
    refine .bytesOf (by simp) rfl fun _ _ _ => ?_
    split
    · exact .newString _
    · exact .outOfBounds _
  case h_10 s => exact .bytesOf (by simp) rfl fun _ _ _ => .answer _
  case h_11 n v =>
    exact .length fun size _ => ⟨_, .make n v size,
      World.Lifts.bind (World.Lifts.onHeap _ w) fun _ => .pure _⟩
  case h_12 n v =>
    exact .length fun size lt => ⟨_, .makeBoxed n v size lt,
      World.Lifts.bind (World.Lifts.onHeap _ w) fun _ =>
        fun _ => World.Lifts.bind (World.Lifts.onHeap _ _) fun _ => .pure _⟩
  case h_13 a n =>
    exact .array (by simp) rfl fun _ _ counted index cell live => .position fun _ inside =>
      ⟨_, .get counted index cell live inside, rfl⟩
  case h_14 a n v =>
    exact .array (by simp) rfl fun _ _ counted index cell live => .position fun _ inside =>
      ⟨_, .set counted index cell live inside,
        World.Lifts.bind (store_lifts index) fun _ => .pure _⟩
  case h_15 a => exact .array (by simp) rfl fun _ _ _ _ _ _ => .answer _
  case h_16 => exact .fail (.other rfl)

end Intrinsic

end Threefold
