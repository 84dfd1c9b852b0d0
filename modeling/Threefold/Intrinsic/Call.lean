import Threefold.World

/-!
# What the built-in functions do

All executors call built-in functions through `Intrinsic.call`, so they agree on them. Such a
function returns a value, finds an index out of bounds, or faults. An index out of bounds is
reported before anything has changed. Strings are strings of bytes.
-/

namespace Threefold

namespace Intrinsic

/-- What a built-in function answers. -/
inductive Reply
  | returned (v : Value)
  | outOfBounds (index : Int32)
  deriving DecidableEq, Repr

/-- A plain number as an answer. -/
def Reply.scalar (n : Int32) : Reply :=
  .returned (.scalar n)

/-- The position that an index names in a sequence of a given length. -/
def position? (index : Int32) (length : Nat) : Option Nat :=
  if 0 ≤ index.toInt ∧ index.toInt.toNat < length then some index.toInt.toNat else none

/-- The length that a word names, or a fault on behalf of a function. -/
def length (i : Intrinsic) (n : Int32) : World.Op Nat :=
  if 0 ≤ n.toInt then return n.toInt.toNat else throw (.negativeLength i n)

/-- The lowest byte of a word. -/
def byte (n : Int32) : UInt8 :=
  n.toUInt32.toUInt8

/-- The sign of the comparison of two strings, byte by byte. -/
def compareBytes : List UInt8 → List UInt8 → Int32
  | [], [] => 0
  | [], _ :: _ => -1
  | _ :: _, [] => 1
  | a :: as, b :: bs => if a < b then -1 else if b < a then 1 else compareBytes as bs

/-- Put a new string on the heap and answer with its handle. -/
def newString (bytes : Array UInt8) : World.Op Reply :=
  return .scalar (← World.onHeap (Heap.allocate (.string bytes)))

/-- The handle of the array that a value names, or a fault on behalf of a function. -/
def arrayHandle (i : Intrinsic) (v : Value) : World.Op Int32 :=
  match Heap.expectArray v i.name with
  | .ok n => return n
  | .error e => throw e

/-- The length of an object that must be an array. -/
def arrayLength (i : Intrinsic) : HeapObject → World.Op Nat
  | .scalars words => return words.size
  | .boxed values => return values.size
  | .string _ => throw (.stringForArray i)

/-- The element of an array at a position. -/
def element (o : HeapObject) (position : Nat) : Value :=
  match o with
  | .scalars words => .scalar (words.getD position 0)
  | .boxed values => values.getD position (.scalar 0)
  | .string _ => .scalar 0

/-- The array with another element at a position. An array of plain numbers keeps the word
alone. -/
def setElement (position : Nat) (v : Value) : HeapObject → HeapObject
  | .scalars words => .scalars (words.setIfInBounds position v.word)
  | .boxed values => .boxed (values.setIfInBounds position v)
  | o => o

/-- The string with another byte at a position. -/
def setByte (position : Nat) (b : UInt8) : HeapObject → HeapObject
  | .string bytes => .string (bytes.setIfInBounds position b)
  | o => o

/-- The bytes of the string that a value names. -/
def bytesOf (v : Value) : World.Op (Array UInt8) :=
  World.onHeap (Heap.bytes v.word)

/-- Change the object that a handle names. -/
def modifyObject (handle : Int32) (f : HeapObject → HeapObject) : World.Op Unit :=
  World.onHeap do
    let i ← Heap.index handle
    Heap.modifyObject i f

/-- Store a value in an array that was found to have the position. A boxed array takes a reference
to the new element, and then gives back the one it held to the old element. -/
def store (handle : Int32) (o : HeapObject) (position : Nat) (v : Value) : World.Op Unit :=
  match o with
  | .boxed values => do
    let previous := values.getD position (.scalar 0)
    modifyObject handle (setElement position v)
    World.onHeap (Heap.retain v)
    World.onHeap (Heap.release previous)
  | _ => modifyObject handle (setElement position v)

/-- Call a built-in function. -/
def call (i : Intrinsic) (arguments : List Value) : World.Op Reply :=
  match i, arguments with
  | .read, [] => return .scalar (← World.read)
  | .write, [v] => do
    World.write v.word
    return .scalar 0
  | .strMake, [n, b] => do
    newString (.replicate (← length .strMake n.word) (byte b.word))
  | .strCmp, [s, t] => do
    let left ← bytesOf s
    let right ← bytesOf t
    return .scalar (compareBytes left.toList right.toList)
  | .strGet, [s, n] => do
    let bytes ← bytesOf s
    match position? n.word bytes.size with
    | some p => return .scalar (.ofNat (bytes.getD p 0).toNat)
    | none => return .outOfBounds n.word
  | .strDup, [s] => do
    newString (← bytesOf s)
  | .strSet, [s, n, b] => do
    let bytes ← bytesOf s
    match position? n.word bytes.size with
    | some p => do
      modifyObject s.word (setByte p (byte b.word))
      return .scalar 0
    | none => return .outOfBounds n.word
  | .strCat, [s, t] => do
    let left ← bytesOf s
    let right ← bytesOf t
    newString (left ++ right)
  | .strSub, [s, start, count] => do
    let bytes ← bytesOf s
    if 0 ≤ start.word.toInt ∧ 0 ≤ count.word.toInt ∧
        start.word.toInt.toNat + count.word.toInt.toNat ≤ bytes.size then
      newString (bytes.extract start.word.toInt.toNat
        (start.word.toInt.toNat + count.word.toInt.toNat))
    else return .outOfBounds start.word
  | .strLen, [s] => do
    return .scalar (.ofNat (← bytesOf s).size)
  | .arrMake, [n, v] => do
    let size ← length .arrMake n.word
    let handle ← World.onHeap (Heap.allocate (.scalars (.replicate size v.word)))
    return .returned ⟨handle, .scalarArray⟩
  | .arrMakeBoxed, [n, v] => do
    let size ← length .arrMakeBoxed n.word
    World.onHeap (Heap.retainTimes v size)
    let handle ← World.onHeap (Heap.allocate (.boxed (.replicate size v)))
    return .returned ⟨handle, .boxedArray⟩
  | .arrGet, [a, n] => do
    let handle ← arrayHandle .arrGet a
    let o ← World.onHeap (Heap.object handle)
    match position? n.word (← arrayLength .arrGet o) with
    | some p => return .returned (element o p)
    | none => return .outOfBounds n.word
  | .arrSet, [a, n, v] => do
    let handle ← arrayHandle .arrSet a
    let o ← World.onHeap (Heap.object handle)
    match position? n.word (← arrayLength .arrSet o) with
    | some p => do
      store handle o p v
      return .scalar 0
    | none => return .outOfBounds n.word
  | .arrLen, [a] => do
    let handle ← arrayHandle .arrLen a
    let o ← World.onHeap (Heap.object handle)
    return .scalar (.ofNat (← arrayLength .arrLen o))
  | i, arguments => throw (.wrongArguments i arguments.length)

end Intrinsic

end Threefold
