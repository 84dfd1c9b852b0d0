import Threefold.Bytecode
import Threefold.X86

/-!
# Frames

Where the variables of a routine are while it runs. Everything takes two words, the value and above
it the tag. Above the saved base pointer and the return address are the parameters, and above them
is a slot that callers of a routine that can throw leave for the number of an exception. Below are
the other variables, in the order in which the code first mentions them, and then the operands that
no register holds. The payload that a callee has handed over is in two global words, which all
frames share.
-/

namespace Threefold.X86

/-- The two words of a value: its own, and that of its tag. -/
structure Words where
  value : Operand
  tag : Operand
  deriving DecidableEq, Repr

/-- Where a variable is. -/
inductive Home
  | parameter (i : Nat)
  | inner (i : Nat)
  /-- In the global words that all frames share. -/
  | payload
  deriving DecidableEq, Repr

/-- What the places in a frame follow from: the parameters, the other variables that have a place in
it, and whether the global words of a payload are used. -/
structure Frame where
  parameters : List Bytecode.Variable
  inner : List Bytecode.Variable
  usesPayload : Bool
  deriving DecidableEq, Repr

namespace Frame

/-- Where a variable is, if it has a place. Of two parameters with one name it is the first. -/
def home? (f : Frame) (x : Bytecode.Variable) : Option Home :=
  if x = .thrownData then if f.usesPayload then some .payload else none
  else
    match f.parameters.idxOf? x with
    | some i => some (.parameter i)
    | none => (f.inner.idxOf? x).map .inner

/-- The frame with a place for a variable. -/
def place (f : Frame) (x : Bytecode.Variable) : Frame :=
  if (f.home? x).isSome then f
  else if x = .thrownData then { f with usesPayload := true }
  else { f with inner := f.inner ++ [x] }

/-- The variable for which an instruction needs a place. After a call that can throw, the number of
the exception is looked for in a variable. -/
def mentioned? (b : Bytecode) : Bytecode.Instruction → Option Bytecode.Variable
  | .load x | .store x => some x
  | .call callee => if b.canThrow callee then some .thrown else none
  | _ => none

/-- The frame of a routine. -/
def ofRoutine (b : Bytecode) (r : Bytecode.Routine) : Frame :=
  (r.code.toList.filterMap (mentioned? b)).foldl place ⟨r.parameters.map .named, [], false⟩

/-- The words of the value at an offset from the base pointer. -/
def wordsAt (offset : Int) : Words :=
  ⟨.frame offset, .frame (offset + 4)⟩

/-- The words of a parameter. -/
def parameterWords (i : Nat) : Words :=
  wordsAt (8 + 8 * i)

/-- The words of another variable of the frame. -/
def innerWords (i : Nat) : Words :=
  wordsAt (-8 * (i + 1))

/-- The words of what has a given home. -/
def homeWords : Home → Words
  | .parameter i => parameterWords i
  | .inner i => innerWords i
  | .payload => ⟨.global Symbol.payload, .global Symbol.payloadTag⟩

/-- The words of a variable, if it has a place. -/
def words? (f : Frame) (x : Bytecode.Variable) : Option Words :=
  (f.home? x).map homeWords

/-- The number of bytes that the variables below the base pointer take. -/
def size (f : Frame) : Nat :=
  8 * f.inner.length

/-- Every word of those variables, from the highest to the lowest. -/
def innerCells (f : Frame) : List Operand :=
  (List.range (2 * f.inner.length)).map fun (n : Nat) => .frame (-4 * (n + 1))

/-- The word that a caller leaves for the number of an exception. -/
def thrownSlot (f : Frame) : Operand :=
  .frame (8 + 8 * f.parameters.length)

/-- The words of an operand on the machine stack. -/
def spill (f : Frame) (n : Nat) : Words :=
  wordsAt (-f.size - 8 * (n + 1))

/-- The words of all parameters. -/
def parameterSlots (f : Frame) : List Words :=
  (List.range f.parameters.length).map parameterWords

/-- Whether a variable gives its reference back when the routine returns. What is under way moves
to the caller with its payload. -/
def isSwept (x : Bytecode.Variable) : Bool :=
  !x.isNumber && x != .pendingData

/-- The words of everything that gives its reference back when the routine returns. -/
def swept (f : Frame) : List Words :=
  f.parameterSlots ++ (f.inner.zipIdx.filter fun x => isSwept x.1).map fun x => innerWords x.2

end Frame

end Threefold.X86
