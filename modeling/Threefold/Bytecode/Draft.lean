import Threefold.Bytecode
import Threefold.Report

/-!
# Code under construction

Code is written from its start to its end. A jump whose target is not known yet is reserved, and
gets its target later, once and only once; an attempt to give a target to anything else fails and
changes nothing. The code is finished when every jump has its target.
-/

namespace Threefold.Bytecode

/-- The parts of a function that control can leave. -/
inductive ScopeKind
  | body
  | attempt
  | catching
  | cleanup
  deriving DecidableEq, Repr

/-- What a part of a function is called in messages. -/
def ScopeKind.title : ScopeKind → String
  | body => "FunctionBody"
  | attempt => "TryBody"
  | catching => "CatchBody"
  | cleanup => "Finally"

/-- How the number of a scope is shown in messages. -/
def scopeText (id : Nat) : String :=
  "HandlerId(" ++ toString id ++ ")"

/-- The rules of its own that a compilation can break. -/
inductive Mistake
  | notReserved (slot : Nat)
  | noTarget (slot : Nat) (origin : String)
  | wrongScope (expected found : Nat) (kind : ScopeKind)
  | noScope (expected : Nat)
  | uncaughtThrow (slot : Nat)
  | closedScope (id : Nat)
  | openScopes (function : Signature)
  | unnumberedException (exception : String)
  | literalNotPooled (text : String)
  | unboundCall (text : String) (location : Location)
  deriving DecidableEq, Repr

namespace Mistake

/-- What is said about a mistake. -/
def message : Mistake → String
  | notReserved slot => "Slot " ++ toString slot ++ " is not a pending jump"
  | noTarget slot origin =>
    "Jump at " ++ toString slot ++ " emitted by '" ++ origin ++ "' was never given a target"
  | wrongScope expected found kind =>
    "Exit handlers popped out of order: expected " ++ scopeText expected ++ ", found " ++
      scopeText found ++ " (" ++ kind.title ++ ")"
  | noScope expected => "Exit handler " ++ scopeText expected ++ " popped from an empty stack"
  | uncaughtThrow slot => "Throw at " ++ toString slot ++ " has no interested exit handler"
  | closedScope id => "Normal exit registered on inactive handler " ++ scopeText id
  | openScopes f => "Exit handlers left open after compiling " ++ f.text
  | unnumberedException x => "Exception type " ++ x ++ " was never given an id"
  | literalNotPooled s => "String literal \"" ++ s ++ "\" is missing from the pool"
  | unboundCall text _ => "Unresolved call '" ++ text ++ "' reached the bytecode compiler"

/-- The place of a mistake, where it has one. -/
def location : Mistake → Location
  | unboundCall _ location => location
  | _ => .unknown

/-- What goes with the message. -/
def notes : Mistake → List Report.Note
  | unboundCall _ _ => [(.stage, "Bytecode Compilation")]
  | _ => []

/-- The report on a mistake. -/
def report (m : Mistake) : Report :=
  ⟨.compilation, m.message, m.location, m.notes⟩

end Mistake

namespace Draft

/-- The two jumps. -/
inductive JumpKind
  | always
  | ifZero
  deriving DecidableEq, Repr

/-- The jump to a target. -/
def JumpKind.instruction : JumpKind → Nat → Instruction
  | always => .jump
  | ifZero => .jumpIfZero

/-- A place in the code: an instruction, or a jump without a target and what it was written for. -/
inductive Slot
  | filled (i : Instruction)
  | reserved (kind : JumpKind) (origin : String)
  deriving DecidableEq, Repr

end Draft

/-- Code under construction. -/
structure Draft where
  slots : Array Draft.Slot
  deriving DecidableEq, Repr

namespace Draft

/-- No code yet. -/
def empty : Draft := ⟨#[]⟩

/-- The index of whatever is written next. -/
def next (d : Draft) : Nat :=
  d.slots.size

/-- Write an instruction. -/
def emit (d : Draft) (i : Instruction) : Draft :=
  ⟨d.slots.push (.filled i)⟩

/-- Reserve a jump. Its slot is the index of whatever was written next. -/
def reserve (d : Draft) (kind : JumpKind) (origin : String) : Draft :=
  ⟨d.slots.push (.reserved kind origin)⟩

@[simp]
theorem next_emit (d : Draft) (i : Instruction) : (d.emit i).next = d.next + 1 := by
  simp [next, emit]

@[simp]
theorem next_reserve (d : Draft) (kind : JumpKind) (origin : String) :
    (d.reserve kind origin).next = d.next + 1 := by
  simp [next, reserve]

/-- Give its target to a reserved jump. -/
def resolve (slot target : Nat) : EStateM Mistake Draft Unit := fun d =>
  match d.slots[slot]? with
  | some (.reserved kind _) =>
    .ok () ⟨d.slots.setIfInBounds slot (.filled (kind.instruction target))⟩
  | _ => .error (.notReserved slot) d

/-- Give one target to several reserved jumps, up to the first that is not reserved. -/
def resolveAll (slots : List Nat) (target : Nat) : EStateM Mistake Draft Unit :=
  match slots with
  | [] => return ()
  | slot :: rest => do
    resolve slot target
    resolveAll rest target

/-- The instructions of slots that start at an index, or the first jump without a target. -/
def finishFrom (index : Nat) : List Slot → Except Mistake (List Instruction)
  | [] => .ok []
  | .filled i :: rest => do
    return i :: (← finishFrom (index + 1) rest)
  | .reserved _ origin :: _ => .error (.noTarget index origin)

/-- The finished code. -/
def finish (d : Draft) : Except Mistake (Array Instruction) := do
  return (← finishFrom 0 d.slots.toList).toArray

end Draft

end Threefold.Bytecode
