import Threefold.Bindings
import Threefold.Bytecode
import Threefold.Intrinsic.Call
import Threefold.Latest

/-!
# Running bytecode

A machine with a stack of activations. The activation of a routine holds its variables and operands
and the index of the next instruction. A routine that hands an exception over leaves it in its
caller's variables when it returns, which is where the caller's code looks for it. A variable that
was never stored to is the number zero. The machine takes one instruction at a time; a run is bounded
by the number of instructions.
-/

namespace Threefold.Bytecode

namespace Machine

/-- An exception on its way to a caller: its number and its payload. -/
abbrev Transferred := Value × Value

/-- The activation of a routine. The operands are listed from the top of the stack. -/
structure Activation where
  routine : Routine
  bindings : Bindings Variable Value
  operands : List Value
  next : Nat
  transferred : Option Transferred

namespace Activation

/-- The activation that a call starts. -/
def start (r : Routine) (arguments : List Value) : Activation :=
  ⟨r, (r.parameters.zip arguments).foldl (fun xs p => xs.set (.named p.1) p.2) .empty, [], 0, none⟩

/-- The value of a variable. -/
def load (a : Activation) (x : Variable) : Value :=
  a.bindings.getD x (.scalar 0)

/-- Give a value to a variable. -/
def store (a : Activation) (x : Variable) (v : Value) : Activation :=
  { a with bindings := a.bindings.set x v }

/-- Put a value on top of the operands. -/
def push (a : Activation) (v : Value) : Activation :=
  { a with operands := v :: a.operands }

/-- Leave an exception that was handed over where the code looks for it. -/
def receive (a : Activation) : Option Transferred → Activation
  | none => a
  | some (n, payload) => (a.store .thrown n).store .thrownData payload

end Activation

/-- What a program provides to its run: its routines, and the handles of its string literals. -/
structure Image where
  routines : List Routine
  pool : Array Int32

/-- The routine that a call reaches. Of two routines with one signature it is the later one. -/
def Image.routine? (image : Image) (s : Signature) : Option Routine :=
  latest? (fun r => r.signature = s) image.routines

/-- What comes after an instruction. -/
inductive Progress
  | running (w : World) (a : Activation) (callers : List Activation)
  | ended (w : World) (value : Value) (transferred : Option Transferred)
  | fault (f : Fault)

/-- Return a value to the caller, or end the run. -/
def leave (w : World) (v : Value) (transferred : Option Transferred) :
    List Activation → Progress
  | [] => .ended w v transferred
  | caller :: callers => .running w ((caller.receive transferred).push v) callers

/-- Start the activation of a routine on top of others. -/
def enter (image : Image) (w : World) (s : Signature) (arguments : List Value)
    (callers : List Activation) : Progress :=
  match image.routine? s with
  | some r => .running w (.start r arguments) callers
  | none => .fault (.notCompiled s)

/-- Call a built-in function. An index out of bounds is an exception that is handed over. -/
def callIntrinsic (w : World) (i : Intrinsic) (arguments : List Value) (a : Activation)
    (callers : List Activation) : Progress :=
  match i.call arguments w with
  | .ok (.returned v) w => .running w (a.push v) callers
  | .ok (.outOfBounds n) w =>
    .running w ((a.receive (some (.scalar Exceptions.outOfBounds, .scalar n))).push (.scalar 0))
      callers
  | .error f _ => .fault f

/-- Execute an instruction, which is no longer the next one. -/
def execute (image : Image) (i : Instruction) (w : World) (a : Activation)
    (callers : List Activation) : Progress :=
  match i with
  | .push n => .running w (a.push (.scalar n)) callers
  | .pushLiteral i =>
    match image.pool[i]? with
    | some n => .running w (a.push (.scalar n)) callers
    | none => .fault (.noLiteral i)
  | .load x => .running w (a.push (a.load x)) callers
  | .store x =>
    match a with
    | ⟨r, xs, v :: vs, n, t⟩ => .running w ⟨r, xs.set x v, vs, n, t⟩ callers
    | ⟨r, _, [], n, _⟩ => .fault (.underflow r.signature n)
  | .unary op =>
    match a with
    | ⟨r, xs, v :: vs, n, t⟩ => .running w ⟨r, xs, .scalar (op.eval v.word) :: vs, n, t⟩ callers
    | ⟨r, _, [], n, _⟩ => .fault (.underflow r.signature n)
  | .binary op =>
    match a with
    | ⟨r, xs, right :: left :: vs, n, t⟩ =>
      match op.eval? left.word right.word with
      | some m => .running w ⟨r, xs, .scalar m :: vs, n, t⟩ callers
      | none => .fault (.arithmetic left.word op right.word)
    | ⟨r, _, _, n, _⟩ => .fault (.underflow r.signature n)
  | .jump target => .running w { a with next := target } callers
  | .jumpIfZero target =>
    match a with
    | ⟨r, xs, v :: vs, n, t⟩ =>
      .running w ⟨r, xs, vs, if v.word = 0 then target else n, t⟩ callers
    | ⟨r, _, [], n, _⟩ => .fault (.underflow r.signature n)
  | .call callee =>
    if a.operands.length < callee.arity then
      .fault (.tooFewOperands callee.signature a.operands.length)
    else
      let arguments := (a.operands.take callee.arity).reverse
      let a := { a with operands := a.operands.drop callee.arity }
      match callee with
      | .routine s => enter image w s arguments (a :: callers)
      | .intrinsic i => callIntrinsic w i arguments a callers
  | .pop =>
    match a with
    | ⟨r, xs, _ :: vs, n, t⟩ => .running w ⟨r, xs, vs, n, t⟩ callers
    | ⟨r, _, [], n, _⟩ => .fault (.underflow r.signature n)
  | .returnValue =>
    match a.operands with
    | v :: _ => leave w v a.transferred callers
    | [] => .fault (.underflow a.routine.signature a.next)
  | .returnZero => leave w (.scalar 0) a.transferred callers
  | .transfer =>
    .running w { a with transferred := some (a.load .pending, a.load .pendingData) } callers

/-- Take the next instruction and execute it. -/
def step (image : Image) (w : World) (a : Activation) (callers : List Activation) : Progress :=
  match a.routine.code[a.next]? with
  | none => .fault (.ranPast a.routine.signature a.next)
  | some i => execute image i w { a with next := a.next + 1 } callers

/-- How a run ended: the world, and the exception that left the first routine. -/
abbrev Ending := World × Option Transferred

/-- Take instructions until the run ends, or as many as are allowed. -/
def run (image : Image) (fuel : Nat) (p : Progress) : Option (Except Fault Ending) :=
  match p with
  | .ended w _ transferred => some (.ok (w, transferred))
  | .fault f => some (.error f)
  | .running w a callers =>
    match fuel with
    | 0 => none
    | fuel + 1 => run image fuel (step image w a callers)

end Machine

/-- The program as it is before a run, and the world with its string literals on the heap. -/
def load (b : Bytecode) (input : List Int32) : Machine.Image × World :=
  let ⟨heap, console⟩ := World.start false input
  match Heap.preload b.literals heap with
  | .ok pool heap => (⟨b.routines, pool.toArray⟩, ⟨heap, console⟩)
  | .error _ heap => (⟨b.routines, #[]⟩, ⟨heap, console⟩)

/-- The outcome of a run that ended. -/
def outcome (b : Bytecode) (e : Machine.Ending) : Outcome :=
  ⟨e.1.console.output.toList, e.2.map fun (n, payload) =>
    ⟨n.word, (b.exceptionName? n.word).getD "", payload.word⟩⟩

/-- The outcome of a program, or its fault; none if the bound on the number of instructions is too
small. -/
def run (b : Bytecode) (input : List Int32) (fuel : Nat) : Option (Except Fault Outcome) :=
  let (image, w) := b.load input
  (Machine.run image fuel (Machine.enter image w b.entry [] [])).map fun e => e.map b.outcome

end Threefold.Bytecode
