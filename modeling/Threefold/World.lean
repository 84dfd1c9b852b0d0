import Threefold.Heap

/-!
# The world of a run

What a running program shares with its surroundings, whichever executor runs it: the heap, the
numbers it has yet to read and the numbers it has written. A run that ends without a fault has an
outcome: what it wrote, and the exception that left the entry function, if one did.
-/

namespace Threefold

/-- The numbers still to be read, and the numbers written. -/
structure Console where
  input : List Int32
  output : Array Int32
  deriving DecidableEq, Repr

/-- The heap and the console. -/
structure World where
  heap : Heap
  console : Console
  deriving DecidableEq, Repr

namespace World

/-- The world before a run. -/
def start (counting : Bool) (input : List Int32) : World :=
  ⟨.empty counting, ⟨input, #[]⟩⟩

/-- An operation on the world: it yields a result or a fault, and in both cases a world. -/
abbrev Op := EStateM Fault World

/-- An operation on the heap, as one on the world. -/
def onHeap {α : Type} (op : Heap.Op α) : Op α := fun ⟨heap, console⟩ =>
  match op heap with
  | .ok a heap => .ok a ⟨heap, console⟩
  | .error e heap => .error e ⟨heap, console⟩

/-- Take the next number of the input. -/
def read : Op Int32 := fun ⟨heap, console⟩ =>
  match console.input with
  | [] => .error .noInput ⟨heap, console⟩
  | n :: rest => .ok n ⟨heap, { console with input := rest }⟩

/-- Write a number. -/
def write (n : Int32) : Op Unit := fun ⟨heap, console⟩ =>
  .ok () ⟨heap, { console with output := console.output.push n }⟩

end World

/-- An exception that left the entry function. -/
structure Uncaught where
  id : Int32
  name : String
  payload : Int32
  deriving DecidableEq, Repr

/-- How a run ended. -/
structure Outcome where
  output : List Int32
  uncaught : Option Uncaught
  deriving DecidableEq, Repr

end Threefold
