import Threefold.Bindings
import Threefold.Heap
import Threefold.X86.Trap

/-!
# Modules in memory

A module before its first instruction is executed: its code as one sequence, with the place of every
function and label in it, and its data. A word has an address; a string is put on the heap, and its
symbol stands for its handle. The symbol of a datum is the last one in front of it that no other
datum has taken. Where a symbol or label is defined twice, the later definition counts.
-/

namespace Threefold.X86

/-- A module in memory. -/
structure Image where
  code : Array Instruction
  functions : Bindings Symbol Nat
  labels : Bindings Label Nat
  /-- The address of a word, or the handle of a string. -/
  data : Bindings Symbol Int32
  words : List (UInt32 × Int32)

namespace Image

/-- What is known between two lines of a module: the part in front, the current section, the symbol
that the next datum takes, and the address of the next word. -/
structure Loading where
  image : Image
  current : Section
  pending : Option Symbol
  address : UInt32
  heap : Heap

/-- The address of the first word. -/
def base : UInt32 := 0x00010000

/-- Nothing loaded yet. -/
def Loading.start : Loading :=
  ⟨⟨#[], .empty, .empty, .empty, []⟩, .code, none, base, .empty true⟩

/-- The image in which the symbol that is pending stands for a word. -/
def name (image : Image) (pending : Option Symbol) (n : Int32) : Image :=
  match pending with
  | some s => { image with data := image.data.set s n }
  | none => image

/-- Take one more line of a module. -/
def Loading.add (l : Loading) : Directive → Except Trap Loading
  | .enter s => .ok { l with current := s }
  | .export _ | .comment _ => .ok l
  | .symbol s =>
    if l.current = .code then
      .ok { l with image.functions := l.image.functions.set s l.image.code.size }
    else .ok { l with pending := some s }
  | .label label => .ok { l with image.labels := l.image.labels.set label l.image.code.size }
  | .string s =>
    match Heap.allocate (.ofString s) l.heap with
    | .ok n heap => .ok { l with image := l.image.name l.pending n, pending := none, heap }
    | .error f _ => .error (.fault f)
  | .word n =>
    let image := l.image.name l.pending l.address.toInt32
    .ok { l with
      image := { image with words := image.words ++ [(l.address, n)] }
      pending := none
      address := l.address + 4 }
  | .instruction i =>
    if l.current = .code then .ok { l with image.code := l.image.code.push i }
    else .error (.outsideCode i)

/-- Take the lines of a module one after the other. -/
def Loading.addAll (l : Loading) : List Directive → Except Trap Loading
  | [] => .ok l
  | d :: rest => do (← l.add d).addAll rest

end Image

/-- A module in memory, and the heap with its strings. -/
def Assembly.load (a : Assembly) : Except Trap (Image × Heap) := do
  let l ← Image.Loading.start.addAll a.directives
  return (l.image, l.heap)

end Threefold.X86
