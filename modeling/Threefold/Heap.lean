import Threefold.Fault
import Threefold.Value

/-!
# The heap

Strings and arrays live on a heap and are known by their handles, which are plain words. A new
object has one reference, which belongs to whoever asked for it. A counting heap keeps track of
references: taking one more is counted as an increment, giving one back as a decrement, and the
array whose last reference is given back is reclaimed and gives back the references that its
elements hold. Giving back a reference that nobody holds changes nothing but is counted too. A heap
that does not count never reclaims anything. The references to one object are counted in a word:
whoever takes one more than a word can count makes the count negative, and the object looks as if
nobody held it.

An operation that fails leaves the heap as it was at the moment of the failure.
-/

namespace Threefold

/-- What lives on the heap. -/
inductive HeapObject
  | string (bytes : Array UInt8)
  | scalars (words : Array Int32)
  | boxed (values : Array Value)
  deriving DecidableEq, Repr

namespace HeapObject

/-- The kind of an object. -/
def kind : HeapObject → ObjectKind
  | string _ => .string
  | scalars _ => .scalarArray
  | boxed _ => .boxedArray

/-- Whether an object is an array. -/
def isArray (o : HeapObject) : Bool :=
  o.kind != .string

/-- The string object of a text. -/
def ofString (s : String) : HeapObject :=
  string s.toUTF8.data

/-- The references that an object holds, in order. -/
def held : HeapObject → List Value
  | boxed values => values.toList.filter (·.tag.isCounted)
  | _ => []

end HeapObject

namespace Heap

/-- A place on the heap: an object, the count of references to it, and whether it was reclaimed. The
count is a word and wraps around like any other. -/
structure Cell where
  object : HeapObject
  references : Int32
  freed : Bool
  deriving DecidableEq, Repr

/-- A cell after one reference to it was given back. -/
def Cell.drop (c : Cell) : Cell :=
  { c with references := c.references - 1, freed := c.references == 1 }

/-- A cell after one reference to it was taken. -/
def Cell.take (c : Cell) : Cell :=
  { c with references := c.references + 1 }

end Heap

/-- The cells of a heap in the order of their allocation, whether it counts references, and the
traffic so far. -/
structure Heap where
  cells : Array Heap.Cell
  counting : Bool
  increments : Nat
  decrements : Nat
  underflows : Nat
  deriving DecidableEq, Repr

namespace Heap

/-- A heap with nothing on it. -/
def empty (counting : Bool) : Heap :=
  ⟨#[], counting, 0, 0, 0⟩

/-- An operation on a heap: it yields a result or a fault, and in both cases a heap. -/
abbrev Op := EStateM Fault Heap

/-- The handle of the first object. Smaller words are no handles. -/
def base : Nat := 0x1000

/-- The handle of the cell with a given index. -/
def handle (index : Nat) : Int32 :=
  Int32.ofNat (base + index)

/-- The index of the cell that a handle names. -/
def index? (h : Heap) (word : Int32) : Option Nat :=
  let i := word.toInt - base
  if 0 ≤ i ∧ i.toNat < h.cells.size then some i.toNat else none

theorem index?_lt {h : Heap} {word : Int32} {i : Nat} (hi : h.index? word = some i) :
    i < h.cells.size := by
  simp only [index?] at hi
  split at hi
  · simp only [Option.some.injEq] at hi
    omega
  · simp at hi

/-- Put a new object on the heap. -/
def allocate (o : HeapObject) : Op Int32 := fun h =>
  .ok (handle h.cells.size) { h with cells := h.cells.push ⟨o, 1, false⟩ }

/-- Put one string after another on the heap. -/
def preload : List String → Op (List Int32)
  | [] => return []
  | s :: rest => do
    let n ← allocate (.ofString s)
    return n :: (← preload rest)

/-- The index of the cell that a handle names, or a fault. -/
def index (word : Int32) : Op Nat := fun h =>
  match h.index? word with
  | some i => .ok i h
  | none => .error (.notAHandle word) h

/-- The object that a handle names. -/
def object (word : Int32) : Op HeapObject := fun h =>
  match h.index? word with
  | none => .error (.notAHandle word) h
  | some i =>
    match h.cells[i]? with
    | none => .error (.notAHandle word) h
    | some c => if c.freed then .error (.reclaimed c.object.kind word) h else .ok c.object h

/-- The bytes of the string that a handle names. -/
def bytes (word : Int32) : Op (Array UInt8) := do
  match ← object word with
  | .string bs => return bs
  | o => throw (.notAString o.kind)

/-- Change the object of a cell. -/
def modifyObject (i : Nat) (f : HeapObject → HeapObject) : Op Unit := fun h =>
  .ok () { h with cells := h.cells.modify i fun c => { c with object := f c.object } }

/-- Append a byte to the string that a handle names. -/
def pushByte (word : Int32) (byte : UInt8) : Op Unit := do
  let _ ← bytes word
  let i ← index word
  modifyObject i fun
    | .string bs => .string (bs.push byte)
    | o => o

/-- The count of references to the object that a handle names. -/
def tally (word : Int32) : Op Int32 := fun h =>
  match h.index? word with
  | none => .error (.notAHandle word) h
  | some i => .ok ((h.cells[i]?.map Cell.references).getD 0) h

/-- The number of references to the object that a handle names: none if their count has wrapped
around. -/
def references (word : Int32) : Op Nat :=
  return (← tally word).toNatClampNeg

/-- Take one more reference to what a value names, if it is an array and references count. -/
def retain (v : Value) : Op Unit := fun h =>
  if !h.counting || !v.tag.isCounted then .ok () h
  else
    match h.index? v.word with
    | none => .error (.notAHandle v.word) h
    | some i =>
      if (h.cells[i]?.map Cell.freed).getD false then .error (.retainedReclaimed v.word) h
      else .ok () { h with cells := h.cells.modify i Cell.take, increments := h.increments + 1 }

/-- Take a number of references to what a value names. -/
def retainTimes (v : Value) : Nat → Op Unit
  | 0 => return ()
  | n + 1 => do
    retain v
    retainTimes v n

/-- Give back one reference to a cell: the heap, and what the cell held if that was the last
reference, the last element first. -/
def drop (h : Heap) (i : Nat) (hi : i < h.cells.size) : Heap × List Value :=
  let c := h.cells[i]
  if c.freed || c.references ≤ 0 then
    ({ h with decrements := h.decrements + 1, underflows := h.underflows + 1 }, [])
  else
    ({ h with cells := h.cells.modify i Cell.drop, decrements := h.decrements + 1 },
      if c.references == 1 then c.object.held.reverse else [])

/-- The number of references that a cell will give back when it is reclaimed. -/
def Cell.owed (c : Cell) : Nat :=
  if c.freed then 0 else c.object.held.length

/-- The number of references that cells together can still give back. -/
def Cell.owedByAll : List Cell → Nat
  | [] => 0
  | c :: rest => c.owed + owedByAll rest

/-- The number of references that the cells of a heap can still give back. -/
def owed (h : Heap) : Nat :=
  Cell.owedByAll h.cells.toList

theorem Cell.owedByAll_set (cs : List Cell) (i : Nat) (hi : i < cs.length) (c : Cell) :
    owedByAll (cs.set i c) + cs[i].owed = owedByAll cs + c.owed := by
  induction cs generalizing i with
  | nil => simp at hi
  | cons d rest ih =>
    cases i with
    | zero =>
      simp only [List.set_cons_zero, owedByAll, List.getElem_cons_zero]
      omega
    | succ i =>
      have := ih i (by simpa using hi)
      simp only [List.set_cons_succ, owedByAll, List.getElem_cons_succ]
      omega

/-- What a cell held is no longer owed once it is to be given back. -/
theorem owed_drop (h : Heap) (i : Nat) (hi : i < h.cells.size) :
    (h.drop i hi).1.owed + (h.drop i hi).2.length = h.owed := by
  unfold drop owed
  dsimp only
  split
  · rfl
  · rename_i hc
    simp only [Bool.or_eq_true, decide_eq_true_eq, not_or, Bool.not_eq_true] at hc
    have hset : (h.cells.modify i Cell.drop).toList = h.cells.toList.set i h.cells[i].drop := by
      rw [← Array.toList_set _ _ _ hi]
      congr 1
      apply Array.ext
      · simp
      · intro j _ _
        simp only [Array.getElem_modify, Array.getElem_set]
        split
        · subst_vars; rfl
        · rfl
    have hsum := Cell.owedByAll_set h.cells.toList i (by simpa using hi) h.cells[i].drop
    have before : h.cells[i].owed = h.cells[i].object.held.length := by
      rw [Cell.owed, hc.1]
      rfl
    rw [Array.getElem_toList, before] at hsum
    rw [hset]
    by_cases h1 : h.cells[i].references = 1
    · have last : h.cells[i].drop.owed = 0 := by simp [Cell.owed, Cell.drop, h1]
      simp only [h1, beq_self_eq_true, if_true, List.length_reverse]
      omega
    · have more : h.cells[i].drop.owed = h.cells[i].object.held.length := by
        simp [Cell.owed, Cell.drop, h1]
      simp only [beq_false_of_ne h1, Bool.false_eq_true, if_false, List.length_nil]
      omega

/-- Give back the references that values hold, one after the other, and whatever is given back on
account of that before the next one. -/
def releaseAll (h : Heap) (pending : List Value) : EStateM.Result Fault Heap Unit :=
  match pending with
  | [] => .ok () h
  | v :: rest =>
    match hi : h.index? v.word with
    | none => .error (.notAHandle v.word) h
    | some i =>
      releaseAll (h.drop i (index?_lt hi)).1 ((h.drop i (index?_lt hi)).2 ++ rest)
termination_by h.owed + pending.length
decreasing_by
  have := owed_drop h i (index?_lt hi)
  simp only [List.length_append, List.length_cons]
  omega

/-- Give back one reference to what a value names, if it is an array and references count. -/
def release (v : Value) : Op Unit := fun h =>
  if !h.counting || !v.tag.isCounted then .ok () h else releaseAll h [v]

/-- The handle of the array that a value names, or a fault on behalf of an operation. -/
def expectArray (v : Value) (operation : String) : Except Fault Int32 :=
  if v.tag.isCounted then .ok v.word else .error (.scalarForArray operation v.word)

/-- The number of arrays that were ever on the heap. -/
def arrays (h : Heap) : Nat :=
  h.cells.countP fun c => c.object.isArray

/-- The handles of the arrays that were not reclaimed, in the order of their allocation. -/
def liveArrays (h : Heap) : List Int32 :=
  (h.cells.toList.zipIdx.filter fun c => c.1.object.isArray && !c.1.freed).map fun c => handle c.2

/-- Whether every array was reclaimed and no reference given back twice. -/
def isBalanced (h : Heap) : Bool :=
  h.liveArrays.isEmpty && h.underflows == 0

end Heap

end Threefold
