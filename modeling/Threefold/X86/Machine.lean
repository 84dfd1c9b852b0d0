import Std.Data.TreeMap
import Threefold.Intrinsic.Call
import Threefold.X86.Image

/-!
# The machine

Eight registers, words in memory at any address that was written before, and the flags that
arithmetic sets. Instructions are executed one at a time from the symbol `main`, until it returns to
the host. The functions of the run-time library are not code: a call of one of them takes its
arguments from the machine stack, does its work on the heap and the console, and spoils two
registers, as any callee may. The host expects its stack and some of its registers as it left them.
-/

namespace Threefold.X86

/-- The words in the registers. -/
structure Registers where
  eax : Int32
  ebx : Int32
  ecx : Int32
  edx : Int32
  esi : Int32
  edi : Int32
  ebp : Int32
  esp : Int32
  deriving DecidableEq, Repr

namespace Registers

/-- The word in a register. -/
def get (rs : Registers) : Register → Int32
  | .eax => rs.eax
  | .ebx => rs.ebx
  | .ecx => rs.ecx
  | .edx => rs.edx
  | .esi => rs.esi
  | .edi => rs.edi
  | .ebp => rs.ebp
  | .esp => rs.esp

/-- The registers with another word in one of them. -/
def set (rs : Registers) (r : Register) (n : Int32) : Registers :=
  match r with
  | .eax => { rs with eax := n }
  | .ebx => { rs with ebx := n }
  | .ecx => { rs with ecx := n }
  | .edx => { rs with edx := n }
  | .esi => { rs with esi := n }
  | .edi => { rs with edi := n }
  | .ebp => { rs with ebp := n }
  | .esp => { rs with esp := n }

theorem get_set (rs : Registers) (r s : Register) (n : Int32) :
    (rs.set r n).get s = if s = r then n else rs.get s := by
  cases r <;> cases s <;> rfl

end Registers

/-- What the last arithmetic instruction has found. -/
structure Flags where
  zero : Bool
  sign : Bool
  overflow : Bool
  deriving DecidableEq, Repr

namespace Flags

/-- The flags of a result. -/
def ofResult (n : Int32) (overflow : Bool) : Flags :=
  ⟨n == 0, n < 0, overflow⟩

/-- Whether a condition holds. -/
def holds (f : Flags) : Condition → Bool
  | .equal => f.zero
  | .notEqual => !f.zero
  | .less => f.sign != f.overflow
  | .lessOrEqual => f.zero || f.sign != f.overflow
  | .greater => !f.zero && f.sign == f.overflow
  | .greaterOrEqual => f.sign == f.overflow

end Flags

/-- Whether a number is a word. -/
def fits (n : Int) : Bool :=
  Int32.minValue.toInt ≤ n && n ≤ Int32.maxValue.toInt

/-- The state of the machine and of its surroundings. -/
structure Machine where
  registers : Registers
  memory : Std.TreeMap UInt32 Int32
  flags : Flags
  world : World

namespace Machine

/-- An operation of the machine: it yields a result or a trap. -/
abbrev Op := EStateM Trap Machine

/-- The end of the machine stack. -/
def stackTop : UInt32 := 0x00f00000

/-- The address to which `main` returns. -/
def hostAddress : Int32 := -1

/-- What a call of the run-time library leaves in the registers that it spoils. -/
def spoiled : Int32 := 0x0bad0bad

/-- The registers in which the host keeps words of its own, with these words. -/
def hostRegisters : List (Register × Int32) :=
  [(.ebx, 0x5eed0001), (.esi, 0x5eed0002), (.edi, 0x5eed0003)]

/-- The machine before its first instruction. -/
def start (words : List (UInt32 × Int32)) (heap : Heap) (input : List Int32) : Machine :=
  ⟨⟨0, 0, 0, 0, 0, 0, 0, 0⟩, .ofList words, ⟨false, false, false⟩, ⟨heap, ⟨input, #[]⟩⟩⟩

/-- An operation on the world, as one of the machine. -/
def onWorld {α : Type} (op : World.Op α) : Op α := fun ⟨registers, memory, flags, world⟩ =>
  match op world with
  | .ok a world => .ok a ⟨registers, memory, flags, world⟩
  | .error f world => .error (.fault f) ⟨registers, memory, flags, world⟩

/-- The word in a register. -/
def get (r : Register) : Op Int32 := fun m =>
  .ok (m.registers.get r) m

/-- Put a word into a register. -/
def set (r : Register) (n : Int32) : Op Unit := fun m =>
  .ok () { m with registers := m.registers.set r n }

/-- The word at an address. -/
def load (address : UInt32) : Op Int32 := fun m =>
  match m.memory[address]? with
  | some n => .ok n m
  | none => .error (.uninitialised address) m

/-- Put a word at an address. -/
def store (address : UInt32) (n : Int32) : Op Unit := fun ⟨registers, memory, flags, world⟩ =>
  .ok () ⟨registers, memory.insert address n, flags, world⟩

/-- Set the flags for a result. -/
def setFlags (n : Int32) (overflow : Bool) : Op Unit := fun m =>
  .ok () { m with flags := .ofResult n overflow }

/-- Whether a condition holds. -/
def holds (c : Condition) : Op Bool := fun m =>
  .ok (m.flags.holds c) m

/-- What a symbol of data stands for. -/
def datum (image : Image) (s : Symbol) : Op Int32 :=
  match image.data.get? s with
  | some n => return n
  | none => throw (.undefinedData s)

/-- The address that a register and an offset give. -/
def address (base : Register) (offset : Int32) : Op UInt32 := do
  return ((← get base) + offset).toUInt32

/-- The word that an operand stands for. -/
def read (image : Image) : Operand → Op Int32
  | .immediate n => return n
  | .address s => datum image s
  | .register r => get r
  | .memory base offset => do load (← address base offset)
  | .global s => do load (← datum image s).toUInt32

/-- Put a word where an operand says. -/
def write (image : Image) (o : Operand) (n : Int32) : Op Unit :=
  match o with
  | .register r => set r n
  | .memory base offset => do store (← address base offset) n
  | .global s => do store (← datum image s).toUInt32 n
  | .immediate _ | .address _ => throw (.notWritable o)

/-- Put a word on the machine stack. -/
def push (n : Int32) : Op Unit := do
  let top := (← get .esp) - 4
  set .esp top
  store top.toUInt32 n

/-- Take a word from the machine stack. -/
def pop : Op Int32 := do
  let top ← get .esp
  let n ← load top.toUInt32
  set .esp (top + 4)
  return n

/-- The index to which a label leads. -/
def find (image : Image) (l : Label) : Op Nat :=
  match image.labels.get? l with
  | some index => return index
  | none => throw (.undefinedLabel l)

/-- Divide the double word in two registers by a word. -/
def divide (divisor : Int32) : Op Unit := do
  let dividend := (← get .edx).toInt * 0x100000000 + (← get .eax).toUInt32.toNat
  if divisor = 0 then throw .divisionByZero
  let quotient := dividend.tdiv divisor.toInt
  if !fits quotient then throw (.quotientOverflow dividend divisor.toInt)
  set .eax (.ofInt quotient)
  set .edx (.ofInt (dividend.tmod divisor.toInt))

/-- An argument of a call of the run-time library. The first one is on top of the machine stack. -/
def argument (base : UInt32) (i : Nat) : Op Value := do
  let address := base + 8 * .ofNat i
  let n ← load address
  let code ← load (address + 4)
  match Tag.ofCode? code with
  | some tag => return ⟨n, tag⟩
  | none => throw (.invalidTag code i n)

/-- Put the answer of a built-in function where its caller expects it: a value in registers, an
index out of bounds in the slot above the arguments and in the words of a payload. -/
def answer (image : Image) (base : UInt32) (i : Intrinsic) : Intrinsic.Reply → Op Unit
  | .returned v => do
    set .eax v.word
    set .ebx v.tag.code
  | .outOfBounds index => do
    store (base + 8 * .ofNat i.arity) Exceptions.outOfBounds
    let payload ← datum image Symbol.payload
    let tag ← datum image Symbol.payloadTag
    store payload.toUInt32 index
    store tag.toUInt32 Tag.scalar.code
    set .eax 0
    set .ebx 0

/-- The built-in function behind a symbol. -/
def intrinsic? (s : Symbol) : Option Intrinsic :=
  Intrinsic.all.find? (·.nativeSymbol = s)

/-- The work of a function of the run-time library. -/
def serve (image : Image) (s : Symbol) (base : UInt32) : Op Unit :=
  if s = Symbol.retain then do
    let v ← argument base 0
    onWorld (World.onHeap (Heap.retain v))
  else if s = Symbol.release then do
    let v ← argument base 0
    onWorld (World.onHeap (Heap.release v))
  else
    match intrinsic? s with
    | none => throw (.undefinedSymbol s)
    | some i => do
      let arguments ← (List.range i.arity).mapM (argument base)
      answer image base i (← onWorld (i.call arguments))

/-- Call a function of the run-time library. -/
def callLibrary (image : Image) (s : Symbol) : Op Unit := do
  serve image s (← get .esp).toUInt32
  set .ecx spoiled
  set .edx spoiled

/-- Add to or subtract from a destination. -/
def arithmetic (image : Image) (op : Int → Int → Int) (source destination : Operand)
    (keep : Bool) : Op Unit := do
  let d ← read image destination
  let s ← read image source
  let exact := op d.toInt s.toInt
  if keep then write image destination (.ofInt exact)
  setFlags (.ofInt exact) (!fits exact)

/-- Combine the bits of a destination with those of a source. -/
def bitwise (image : Image) (op : Int32 → Int32 → Int32) (source destination : Operand)
    (keep : Bool) : Op Unit := do
  let d ← read image destination
  let s ← read image source
  if keep then write image destination (op d s)
  setFlags (op d s) false

/-- Return to the address on top of the machine stack: the index of the next instruction, or none
for the host. -/
def leave (image : Image) : Op (Option Nat) := do
  let address ← pop
  if address = hostAddress then return none
  else if 0 ≤ address.toInt ∧ address.toInt.toNat < image.code.size then
    return some address.toInt.toNat
  else throw (.badReturn address)

/-- Execute an instruction: the index of the one after it, or none once the host is returned to. -/
def execute (image : Image) (i : Instruction) (next : Nat) : Op (Option Nat) :=
  match i with
  | .mov s d => do
    write image d (← read image s)
    return next
  | .movzbl s d => do
    set d ((← get s.full) &&& 0xff)
    return next
  | .add s d => do
    arithmetic image (· + ·) s d true
    return next
  | .sub s d => do
    arithmetic image (· - ·) s d true
    return next
  | .imul s d => do
    let left ← get d
    set d (left * (← read image s))
    return next
  | .and s d => do
    bitwise image (· &&& ·) s d true
    return next
  | .or s d => do
    bitwise image (· ||| ·) s d true
    return next
  | .cmp s d => do
    arithmetic image (· - ·) s d false
    return next
  | .test s d => do
    bitwise image (· &&& ·) s d false
    return next
  | .set c d => do
    set d.full (((← get d.full) &&& ~~~0xff) ||| truth (← holds c))
    return next
  | .cltd => do
    set .edx (if (← get .eax) < 0 then -1 else 0)
    return next
  | .idiv d => do
    divide (← read image d)
    return next
  | .push s => do
    push (← read image s)
    return next
  | .pop d => do
    write image d (← pop)
    return next
  | .call s =>
    match image.functions.get? s with
    | some index => do
      push (.ofNat next)
      return some index
    | none => do
      callLibrary image s
      return next
  | .jmp l => some <$> find image l
  | .jcc c l => do
    if ← holds c then some <$> find image l else return some next
  | .ret => leave image

/-- Execute instructions from an index on until the host is returned to, but at most as many as
remain of a limit: the number of those that then remain. -/
def run (image : Image) (limit : Nat) : Nat → Nat → Op Nat
  | 0, _ => throw (.stepLimit limit)
  | remaining + 1, index =>
    match image.code[index]? with
    | none => throw (.ranPast index)
    | some i => do
      match ← execute image i (index + 1) with
      | some next => run image limit remaining next
      | none => return remaining

/-- What the host does before a call of `main`. -/
def enter : Op Unit := do
  set .esp stackTop.toInt32
  hostRegisters.forM fun (r, n) => set r n
  push hostAddress

/-- What the host checks after it. -/
def check : Op Unit := do
  let top := (← get .esp).toUInt32
  if top ≠ stackTop then throw (.unbalancedStack top stackTop)
  hostRegisters.forM fun (r, n) => do
    if (← get r) ≠ n then throw (.lostRegister r)

/-- The exception that has left the program, if one has. -/
def uncaught (a : Assembly) (image : Image) : Op (Option Uncaught) :=
  match image.data.get? Symbol.uncaught with
  | none => return none
  | some address => do
    let id ← load address.toUInt32
    if id = 0 then return none
    let payload ← load (← datum image Symbol.payload).toUInt32
    return some ⟨id, (a.exceptionName? id).getD "", payload⟩

end Machine

/-- How a run of machine code ended. -/
structure Run where
  outcome : Outcome
  exitCode : Int32
  steps : Nat
  heap : Heap
  deriving DecidableEq, Repr

namespace Assembly

/-- Run a module in memory. -/
def runImage (a : Assembly) (image : Image) (limit : Nat) :
    Machine.Op (Option Uncaught × Int32 × Nat) :=
  match image.functions.get? Symbol.main with
  | none => throw .noMain
  | some index => do
    Machine.enter
    let remaining ← Machine.run image limit limit index
    Machine.check
    let exitCode ← Machine.get .eax
    return (← Machine.uncaught a image, exitCode, limit - remaining)

/-- Run a module with an input, for at most a number of instructions. -/
def run (a : Assembly) (input : List Int32) (limit : Nat) : Except Trap Run := do
  let (image, heap) ← a.load
  match a.runImage image limit (.start image.words heap input) with
  | .ok (uncaught, exitCode, steps) m =>
    return ⟨⟨m.world.console.output.toList, uncaught⟩, exitCode, steps, m.world.heap⟩
  | .error t _ => throw t

end Assembly

end Threefold.X86
