import Threefold.Bindings
import Threefold.X86.Frame
import Threefold.X86.Refusal

/-!
# Lowering bytecode to machine code

Every routine is lowered on its own, one instruction after the other. An instruction becomes a piece
of machine code that depends on the shape of the operands where it begins; the pieces of a routine
follow each other behind a prologue. Whoever puts a reference in a second place takes a reference,
and whoever gives up a place gives one back.

A caller leaves a zero on the stack for a callee that can throw. The callee puts the number of an
exception there before it returns, and the caller moves it to the variable in which its own code
looks for it. The payload goes through two global words.

Ways meet where jumps go to. The shape of the operands there is what the first way to get there has;
all other ways must have the same. Code that no jump reaches, and that nothing falls into, begins
without operands.
-/

namespace Threefold.X86

/-- What the code of a routine depends on. -/
structure Context where
  bytecode : Bytecode
  routine : Bytecode.Routine
  frame : Frame

namespace Context

/-- The context of a routine. -/
def ofRoutine (b : Bytecode) (r : Bytecode.Routine) : Context :=
  ⟨b, r, .ofRoutine b r⟩

/-- The symbol of the routine. -/
def symbol (c : Context) : Symbol :=
  .ofSignature c.bytecode.entry c.routine.signature

/-- Whether the host calls the routine. -/
def isEntry (c : Context) : Bool :=
  c.routine.signature = c.bytecode.entry

/-- The label at an index of the bytecode. -/
def label (c : Context) (index : Nat) : Label :=
  ⟨c.symbol, index⟩

/-- The words of an operand. -/
def slotWords (c : Context) (s : Slot) : Words :=
  match s.place with
  | .pair p => ⟨p.value, p.tag⟩
  | .spilled n => c.frame.spill n

/-- The words of a variable, which must have a place. -/
def words (c : Context) (x : Bytecode.Variable) : Except Refusal Words :=
  match c.frame.words? x with
  | some ws => .ok ws
  | none => .error (.noHome x)

end Context

/-- A piece of machine code. -/
abbrev Code := List Instruction

namespace Code

/-- Move a word. No instruction moves from memory to memory. -/
def move (source destination : Operand) : Code :=
  if source.isMemory && destination.isMemory then
    [.mov source Register.eax, .mov Register.eax destination]
  else [.mov source destination]

/-- Move both words of a value. -/
def moveWords (source destination : Words) : Code :=
  move source.value destination.value ++ move source.tag destination.tag

/-- Make a value the operand on top of a number of others. -/
def pushAt (depth : Nat) (ws : Words) : Code :=
  match Place.atDepth depth with
  | .pair p => [.mov ws.value p.value, .mov ws.tag p.tag]
  | .spilled _ => [.push ws.tag, .push ws.value]

/-- Take a number of values off the machine stack. -/
def drop (n : Nat) : Code :=
  if n = 0 then [] else [.add (.immediate (.ofNat (8 * n))) Register.esp]

/-- Take those of some operands off the machine stack that are on it. -/
def dropSpilled (slots : List Slot) : Code :=
  drop (slots.countP (·.place.isSpilled))

/-- Put the registers of operands on the machine stack. -/
def save (depth : Nat) : Code :=
  (Pair.inUse depth).flatMap fun p => [.push p.value, .push p.tag]

/-- Take the registers of operands back from the machine stack. -/
def restore (depth : Nat) : Code :=
  (Pair.inUse depth).reverse.flatMap fun p => [.pop p.tag, .pop p.value]

/-- Call one of the two functions that count references, with a number of operands to be kept. -/
def count (symbol : Symbol) (ws : Words) (depth : Nat) : Code :=
  save depth ++ [.push ws.tag, .push ws.value, .call symbol] ++ drop 1 ++ restore depth

/-- Take a reference. -/
def retain (ws : Words) (depth : Nat) : Code :=
  count Symbol.retain ws depth

/-- Give a reference back. -/
def release (ws : Words) (depth : Nat) : Code :=
  count Symbol.release ws depth

/-- The words of a result that is not yet an operand. -/
def result : Words :=
  ⟨Register.eax, Register.ebx⟩

/-- Keep a result on the machine stack while other code runs. -/
def parked (code : Code) : Code :=
  [.push Register.ebx, .push Register.eax] ++ code ++ [.pop Register.eax, .pop Register.ebx]

/-- Give back what the operands own that an instruction has used up, the topmost first. -/
def releaseOwned (c : Context) (slots : List Slot) (depth : Nat) : Code :=
  (slots.reverse.filter (·.owned)).flatMap fun s => release (c.slotWords s) depth

/-- Give back what used operands own while a number is kept, and take them off the stack. -/
def discard (c : Context) (slots : List Slot) (depth : Nat) : Code :=
  (if slots.any (·.owned) then
    [.push Register.eax] ++ releaseOwned c slots depth ++ [.pop Register.eax]
  else []) ++ dropSpilled slots

/-- Make a truth value of a number. -/
def normalise (source : Operand) (byte : ByteRegister) : Code :=
  [.mov source byte.full, .cmp (.immediate 0) byte.full, .set .notEqual byte,
    .movzbl byte byte.full]

/-- Make a truth value of a comparison of two operands. -/
def compare (left right : Operand) (condition : Condition) : Code :=
  [.mov left Register.eax, .cmp right Register.eax, .set condition .al, .movzbl .al .eax]

/-- Divide two numbers. The instruction also uses a register that holds a tag. -/
def divide (left right : Operand) (result : Code) : Code :=
  [.mov right Register.ebx, .mov left Register.eax, .push Register.edx, .cltd,
    .idiv Register.ebx] ++ result ++ [.pop Register.edx]

/-- Compute the result of an operator. -/
def binary (op : BinaryOp) (left right : Operand) : Code :=
  match op with
  | .plus => [.mov left Register.eax, .add right Register.eax]
  | .minus => [.mov left Register.eax, .sub right Register.eax]
  | .times => [.mov left Register.eax, .imul right .eax]
  | .div => divide left right []
  | .rem => divide left right [.mov Register.edx Register.eax]
  | .and => normalise left .al ++ normalise right .bl ++ [.and Register.ebx Register.eax]
  | .or => normalise left .al ++ normalise right .bl ++ [.or Register.ebx Register.eax]
  | .eq => compare left right .equal
  | .ne => compare left right .notEqual
  | .gt => compare left right .greater
  | .lt => compare left right .less
  | .le => compare left right .lessOrEqual
  | .ge => compare left right .greaterOrEqual

/-- Begin a routine: the registers of the host are kept, the variables are zero, and the routine
takes a reference of its own to every argument. -/
def prologue (c : Context) : Code :=
  (if c.isEntry then [.push Register.ebx, .push Register.esi, .push Register.edi] else []) ++
    [.push Register.ebp, .mov Register.esp Register.ebp] ++
    (if c.frame.size = 0 then []
      else [.sub (.immediate (.ofNat c.frame.size)) Register.esp]) ++
    (c.frame.innerCells.map fun cell => .mov (.immediate 0) cell) ++
    (c.frame.parameterSlots.flatMap fun ws => retain ws 0)

/-- Give back what the variables of a routine hold. -/
def sweep (c : Context) : Code :=
  c.frame.swept.flatMap fun ws => release ws 0

/-- Leave a routine, once its result is where the caller expects it. -/
def epilogue (c : Context) : Code :=
  [.mov Register.ebp Register.esp, .pop Register.ebp] ++
    (if c.isEntry then [.pop Register.edi, .pop Register.esi, .pop Register.ebx] else []) ++ [.ret]

/-- Return a value that is already in its registers. The host takes zero for success. -/
def returnValue (c : Context) : Code :=
  (if c.frame.swept.isEmpty then [] else parked (sweep c)) ++
    (if c.isEntry then [.mov (.immediate 0) Register.eax] else []) ++ epilogue c

/-- Return zero. -/
def returnZero (c : Context) : Code :=
  sweep c ++ [.mov (.immediate 0) Register.eax, .mov (.immediate 0) Register.ebx] ++ epilogue c

/-- Store a value in a variable that may hold a reference. The old one is given back before a new
one is taken. -/
def storeCounted (source destination : Words) (owned : Bool) (depth : Nat) : Code :=
  release destination depth ++ moveWords source destination ++ retain destination depth ++
    if owned then release destination depth else []

/-- The part of a call up to the return: copies of the arguments are on the machine stack, the first
on top. -/
def enter (c : Context) (symbol : Symbol) (canThrow : Bool) (arguments : List Slot)
    (depth : Nat) : Code :=
  save depth ++ (if canThrow then [.push (.immediate 0)] else []) ++
    (arguments.reverse.flatMap fun s => [.push (c.slotWords s).tag, .push (c.slotWords s).value]) ++
    [.call symbol]

/-- The part of a call behind the return. The result is retained while the arguments, of which one
may be its only owner, are still alive. -/
def resume (c : Context) (tag : Option Tag) (thrown : Option Operand) (retained : Bool)
    (arguments : List Slot) (depth : Nat) : Code :=
  (tag.elim [] fun t => [.mov (.immediate t.code) Register.ebx]) ++ drop arguments.length ++
    (thrown.elim [] fun x => [.pop x]) ++ restore depth ++
    (if retained then parked (retain result depth) else []) ++
    (if arguments.any (·.owned) then parked (releaseOwned c arguments depth) else []) ++
    dropSpilled arguments

end Code

namespace Lowering

/-- The operand on top, which an instruction needs. -/
def pop (s : Operands) (origin : String) : Except Refusal (Slot × Operands) :=
  match s.pop? with
  | some r => .ok r
  | none => .error (.noOperand origin)

/-- The operands on top that an instruction needs. -/
def popMany (s : Operands) (n : Nat) (origin : String) : Except Refusal (List Slot × Operands) :=
  match s.popMany? n with
  | some r => .ok r
  | none => .error (.tooFewOperands origin n s.depth)

/-- The symbol that a call goes to. -/
def target (c : Context) : Bytecode.Callee → Except Refusal Symbol
  | .routine s =>
    if (c.bytecode.routine? s).isSome then .ok (.ofSignature c.bytecode.entry s)
    else .error (.notCompiled s)
  | .intrinsic i => .ok i.nativeSymbol

/-- Where the number of an exception goes that a callee hands over. -/
def thrownWord (c : Context) (callee : Bytecode.Callee) : Except Refusal (Option Operand) :=
  if c.bytecode.canThrow callee then return some (← c.words .thrown).value else return none

/-- The tag of a result that is known beforehand. -/
def knownTag? : Bytecode.Callee → Option Tag
  | .intrinsic i => i.resultTag?
  | .routine _ => none

/-- Whether a caller has to take a reference to a result. -/
def isRetained : Bytecode.Callee → Bool
  | .intrinsic i => i.retainsResult
  | .routine _ => false

/-- Whether the operand that a call leaves owns a reference. -/
def isOwned : Bytecode.Callee → Bool
  | .intrinsic i => i.returnsOwned || i.retainsResult
  | .routine _ => true

/-- A call, with the operands that are left and its result on top of them. -/
def call (c : Context) (s : Operands) (callee : Bytecode.Callee) :
    Except Refusal (Code × Operands) := do
  let symbol ← target c callee
  let (arguments, below) ← popMany s callee.arity ("Call " ++ callee.text)
  let thrown ← thrownWord c callee
  return (Code.enter c symbol (c.bytecode.canThrow callee) arguments s.depth ++
      Code.resume c (knownTag? callee) thrown (isRetained callee) arguments s.depth ++
      Code.pushAt below.depth Code.result,
    below.push (isOwned callee))

/-- Hand an exception over to the caller. The host finds it in a word of its own. -/
def transfer (c : Context) : Except Refusal (List Directive) := do
  if !c.isEntry && !c.routine.canThrow then
    return [.comment "unreachable: this function cannot throw"]
  let exception ← c.words .pending
  let payload ← c.words .pendingData
  let destination := if c.isEntry then .global Symbol.uncaught else c.frame.thrownSlot
  return (Code.move exception.value destination ++
    Code.moveWords payload (Frame.homeWords .payload)).map .instruction

/-- The code of an instruction that begins with given operands, and the operands behind it. -/
def code (c : Context) (index : Nat) (s : Operands) (i : Bytecode.Instruction) :
    Except Refusal (List Directive × Operands) :=
  match i with
  | .push n => done (Code.pushAt s.depth ⟨.immediate n, .immediate 0⟩) (s.push false)
  | .pushLiteral n =>
    if n < c.bytecode.literals.length then
      done (Code.pushAt s.depth ⟨.address (.ofLiteral n), .immediate 0⟩) (s.push false)
    else .error (.noLiteral index c.routine.signature n c.bytecode.literals.length)
  | .load x => do
    let ws ← c.words x
    done (Code.pushAt s.depth ws) (s.push (x = .thrownData))
  | .store x => do
    let (slot, below) ← pop s "St"
    let home ← c.words x
    let ws := c.slotWords slot
    done ((if x.isNumber then Code.moveWords ws home
      else Code.storeCounted ws home slot.owned s.depth) ++ Code.dropSpilled [slot]) below
  | .pop => do
    let (slot, below) ← pop s "Pop"
    done (Code.releaseOwned c [slot] s.depth ++ Code.dropSpilled [slot]) below
  | .unary .not => do
    let (slot, below) ← pop s i.text
    done (Code.compare (c.slotWords slot).value (.immediate 0) .equal ++
      Code.discard c [slot] s.depth ++ Code.pushAt below.depth ⟨Register.eax, .immediate 0⟩)
      (below.push false)
  | .binary op => do
    match ← popMany s 2 i.text with
    | ([left, right], below) =>
      done (Code.binary op (c.slotWords left).value (c.slotWords right).value ++
        Code.discard c [left, right] s.depth ++
        Code.pushAt below.depth ⟨Register.eax, .immediate 0⟩) (below.push false)
    | (_, below) => done [] below
  | .jumpIfZero target => do
    let (slot, below) ← pop s "Jz"
    done ([.mov (c.slotWords slot).value Register.eax] ++ Code.discard c [slot] s.depth ++
      [.test Register.eax Register.eax, .jcc .equal (c.label target)]) below
  | .jump target => done [.jmp (c.label target)] s
  | .call callee => do
    let (code, after) ← call c s callee
    done code after
  | .returnValue => do
    let (slot, below) ← pop s "Ret1"
    let ws := c.slotWords slot
    done ([.mov ws.value Register.eax, .mov ws.tag Register.ebx] ++ Code.dropSpilled [slot] ++
      Code.returnValue c) below
  | .returnZero => done (Code.returnZero c) s
  | .transfer => do
    return (← transfer c, s)
where
  /-- Instructions, and the operands behind them. -/
  done (code : Code) (s : Operands) : Except Refusal (List Directive × Operands) :=
    .ok (code.map .instruction, s)

/-- What is known between two instructions: the operands, unless nothing falls through from the one
to the other, and the operands that were found at the targets of jumps so far. -/
structure Flow where
  falling : Option Operands
  recorded : Bindings Nat Operands

/-- The operands at an index, and what is known then. -/
def Flow.arrive (c : Context) (targets : List Nat) (index : Nat) (f : Flow) :
    Except Refusal (Operands × Flow) :=
  if targets.contains index then
    match f.recorded.get? index, f.falling with
    | some recorded, some falling =>
      if recorded = falling then .ok (falling, f)
      else .error (.unequalFall index c.routine.signature recorded falling)
    | some recorded, none => .ok (recorded, f)
    | none, _ =>
      let s := f.falling.getD .empty
      .ok (s, { f with recorded := f.recorded.set index s })
  else .ok (f.falling.getD .empty, f)

/-- What is known about the target of a jump that leaves an index with given operands. -/
def Flow.jump (c : Context) (index target : Nat) (s : Operands) (f : Flow) :
    Except Refusal Flow :=
  match f.recorded.get? target with
  | some recorded =>
    if recorded = s then .ok f
    else .error (.unequalJump target c.routine.signature recorded s index)
  | none => .ok { f with recorded := f.recorded.set target s }

/-- A bytecode instruction with the operands with which it begins, and its machine code. -/
structure Step where
  operands : Operands
  directives : List Directive

/-- The step of the instruction at an index, and what is known behind it. -/
def step (c : Context) (targets : List Nat) (index : Nat) (i : Bytecode.Instruction)
    (f : Flow) : Except Refusal (Step × Flow) := do
  let (s, f) ← f.arrive c targets index
  let (directives, after) ← code c index s i
  let f ← match i.target? with
    | some target => f.jump c index target after
    | none => pure f
  let label := if targets.contains index then [Directive.label (c.label index)] else []
  return (⟨s, label ++ [.comment (toString index ++ ": " ++ i.text)] ++ directives⟩,
    { f with falling := if i.endsFlow then none else some after })

/-- The steps of the rest of a routine, from an index on. -/
def steps (c : Context) (targets : List Nat) :
    Nat → List Bytecode.Instruction → Flow → Except Refusal (List Step)
  | _, [], f => if f.falling.isSome then .error (.noReturn c.routine.signature) else .ok []
  | index, i :: rest, f => do
    let (s, f) ← step c targets index i f
    return s :: (← steps c targets (index + 1) rest f)

/-- The targets of the jumps from an index on, which must lie in the routine. -/
def targets (r : Bytecode.Routine) :
    Nat → List Bytecode.Instruction → Except Refusal (List Nat)
  | _, [] => .ok []
  | index, i :: rest =>
    match i.target? with
    | none => targets r (index + 1) rest
    | some target =>
      if target < r.code.size then return target :: (← targets r (index + 1) rest)
      else .error (.jumpOutside i index r.signature target r.code.size)

/-- The steps of a routine. -/
def routineSteps (c : Context) : Except Refusal (List Step) := do
  let code := c.routine.code.toList
  let targets ← targets c.routine 0 code
  steps c targets 0 code ⟨some .empty, .empty⟩

/-- The machine code of a routine. -/
def routine (b : Bytecode) (r : Bytecode.Routine) : Except Refusal (List Directive) := do
  let c := Context.ofRoutine b r
  let steps ← routineSteps c
  return [.export c.symbol, .symbol c.symbol] ++ (Code.prologue c).map .instruction ++
    steps.flatMap Step.directives

/-- The section of the string literals, if there are any. -/
def literals (ss : List String) : List Directive :=
  if ss.isEmpty then []
  else .enter .constants ::
    ss.zipIdx.flatMap fun (s, i) => [.symbol (.ofLiteral i), .string s]

/-- The section of the global words. -/
def globals : List Directive :=
  .enter .data :: [Symbol.payload, Symbol.payloadTag, Symbol.uncaught].flatMap fun s =>
    [.export s, .symbol s, .word 0]

end Lowering

end X86

/-- The machine code of a program. -/
def Bytecode.lower (b : Bytecode) : Except X86.Refusal X86.Assembly := do
  if (b.routine? b.entry).isNone then throw (.noEntry b.entry)
  let bodies ← b.routines.mapM (X86.Lowering.routine b)
  return ⟨[.enter .code] ++ bodies.flatten ++ X86.Lowering.literals b.literals ++
    X86.Lowering.globals, b.exceptions⟩

end Threefold
