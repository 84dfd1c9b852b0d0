import Threefold.Bytecode.Scopes
import Threefold.Program.Display
import Threefold.Program.Literals
import Threefold.Program.Throwing

/-!
# Compiling programs to bytecode

The code of a function is written in one pass. Returning and throwing share one mechanism: the
number of the exception goes into one variable and the payload into another, and control goes to the
innermost open part of the function that wants exceptions. The whole body is such a part; what ends
there is a return, or goes to the caller. After a call that can throw, the code looks whether the
callee has handed an exception over; if so it drops the operands of the expression that was being
evaluated and throws.

The code of a block that runs in any case is entered with the exception under way, or zero, and goes
on with it afterwards.
-/

namespace Threefold.Bytecode

namespace Compilation

/-- What is known of the whole program while a function is compiled. -/
structure Context where
  exceptions : List String
  literals : List String
  throwing : List Signature

/-- The state of a compilation: the code so far and the open parts of the function, the number of
operands at this point of the code, and how many blocks that run in any case and how many array
literals were met. -/
structure State where
  draft : Draft
  scopes : Scopes
  depth : Nat
  cleanups : Nat
  arrays : Nat

/-- Nothing compiled yet. -/
def State.start : State :=
  ⟨.empty, .empty, 0, 0, 0⟩

/-- A step of a compilation. -/
abbrev Step := EStateM Mistake State

/-- An operation on the code. -/
def onDraft {α : Type} (op : EStateM Mistake Draft α) : Step α := fun s =>
  match op s.draft with
  | .ok a draft => .ok a { s with draft }
  | .error e draft => .error e { s with draft }

/-- An operation on the open parts. -/
def onScopes {α : Type} (op : EStateM Mistake Scopes α) : Step α := fun s =>
  match op s.scopes with
  | .ok a scopes => .ok a { s with scopes }
  | .error e scopes => .error e { s with scopes }

/-- The index of whatever is written next. -/
def here : Step Nat :=
  return (← get).draft.next

/-- Write an instruction. -/
def emit (i : Instruction) : Step Unit :=
  modify fun s => { s with draft := s.draft.emit i, depth := s.depth - i.pops + i.pushes }

/-- Write instructions. -/
def emitAll (code : List Instruction) : Step Unit :=
  code.forM emit

/-- Write a jump that is taken on zero and has no target yet. -/
def reserveIfZero (origin : String) : Step Nat := fun s =>
  .ok s.draft.next { s with draft := s.draft.reserve .ifZero origin, depth := s.depth - 1 }

/-- Write a jump that has no target yet. -/
def reserve (origin : String) : Step Nat := fun s =>
  .ok s.draft.next { s with draft := s.draft.reserve .always origin }

/-- Let a jump go to whatever is written next. -/
def resolveHere (slot : Nat) : Step Unit := do
  onDraft (Draft.resolve slot (← here))

/-- Let several jumps go to a target. -/
def resolveAll (slots : List Nat) (target : Nat) : Step Unit :=
  onDraft (Draft.resolveAll slots target)

/-- Open a part of the function. -/
def openScope (kind : ScopeKind) (catches : Bool) : Step Nat := fun s =>
  .ok s.scopes.next { s with scopes := s.scopes.push kind catches }

/-- Close a part of the function. -/
def closeScope (id : Nat) : Step Scope :=
  onScopes (Scopes.pop id)

/-- Jump to where exceptions go. -/
def throwEdge (origin : String) : Step Unit := do
  let slot ← reserve origin
  onScopes (Scopes.addThrow slot)

/-- Jump to where a part goes when it is done. -/
def exitEdge (id : Nat) (origin : String) : Step Unit := do
  let slot ← reserve origin
  onScopes (Scopes.addExit id slot)

/-- The number of a type of exception. -/
def number (cx : Context) (x : String) : Step Int32 :=
  match Exceptions.number? cx.exceptions x with
  | some n => return n
  | none => throw (.unnumberedException x)

/-- Look for an exception that a callee has handed over. -/
def checkThrown (origin : String) : Step Unit := do
  emit (.load .thrown)
  let fine ← reserveIfZero origin
  emitAll [.load .thrown, .store .pending, .load .thrownData, .store .pendingData, .push 0,
    .store .thrown]
  let depth := (← get).depth
  emitAll (.replicate depth .pop)
  throwEdge origin
  modify fun s => { s with depth }
  resolveHere fine

mutual

/-- Code that leaves the value of an expression on the stack. -/
def compileExpr (cx : Context) : Expr → Step Unit
  | .const n => emit (.push n)
  | .string s =>
    match cx.literals.idxOf? s with
    | some i => do
      emit (.pushLiteral i)
      emit (.call (.intrinsic .strDup))
    | none => throw (.literalNotPooled s)
  | .array boxed items => do
    let array := Variable.array (← get).arrays
    modify fun s => { s with arrays := s.arrays + 1 }
    emitAll [.push (.ofNat items.length), .push 0,
      .call (.intrinsic (if boxed then .arrMakeBoxed else .arrMake)), .store array]
    compileItems cx array 0 items
    emit (.load array)
  | .var x => emit (.load (.named x))
  | .unary op e => do
    compileExpr cx e
    emit (.unary op)
  | .binary op l r => do
    compileExpr cx l
    compileExpr cx r
    emit (.binary op)
  | .call callee arguments location => do
    let text := (Expr.call callee arguments location).text
    let target ← match callee with
      | .declared s => pure (Callee.routine s)
      | .intrinsic i => pure (Callee.intrinsic i)
      | .unbound _ _ => throw (.unboundCall text location)
    compileExprs cx arguments
    emit (.call target)
    if callee.canThrow cx.throwing then checkThrown ("call " ++ text)

/-- Code that leaves the values of expressions on the stack, the last one on top. -/
def compileExprs (cx : Context) : List Expr → Step Unit
  | [] => return ()
  | e :: rest => do
    compileExpr cx e
    compileExprs cx rest

/-- Code that stores the values of expressions in an array, from an index on. -/
def compileItems (cx : Context) (array : Variable) (index : Nat) : List Expr → Step Unit
  | [] => return ()
  | e :: rest => do
    emit (.load array)
    emit (.push (.ofNat index))
    compileExpr cx e
    emit (.call (.intrinsic .arrSet))
    checkThrown ("element " ++ toString index ++ " of array literal")
    emit .pop
    compileItems cx array (index + 1) rest

end

mutual

/-- Code that executes a statement. It leaves the stack as it was. -/
def compileStmt (cx : Context) : Stmt → Step Unit
  | .skip => return ()
  | .assign x e => do
    compileExpr cx e
    emit (.store (.named x))
  | .branch c yes no => do
    let origin := "if " ++ c.text
    compileExpr cx c
    let toNo ← reserveIfZero origin
    compileStmt cx yes
    let pastNo ← reserve origin
    resolveHere toNo
    compileStmt cx no
    resolveHere pastNo
  | .loop c body => do
    let start ← here
    compileExpr cx c
    let exit ← reserveIfZero ("while " ++ c.text)
    compileStmt cx body
    emit (.jump start)
    resolveHere exit
  | .chain s t => do
    compileStmt cx s
    compileStmt cx t
  | .leave e => do
    emit (.push Exceptions.returning)
    emit (.store .pending)
    compileExpr cx e
    emit (.store .pendingData)
    throwEdge ("return " ++ e.text)
  | .perform c => do
    compileExpr cx c.expr
    emit .pop
  | .throwing x e => do
    let n ← number cx x
    emit (.push n)
    emit (.store .pending)
    compileExpr cx e
    emit (.store .pendingData)
    throwEdge ("throw (" ++ x ++ " " ++ e.text ++ ")")
  | .attempt body [] none => compileStmt cx body
  | .attempt body catches cleanup => do
    let scope ← openScope .attempt true
    compileStmt cx body
    exitEdge scope "try"
    let closed ← closeScope scope
    resolveAll closed.throws (← here)
    let (exits, throws) ← compileCatches cx cleanup.isSome catches
    compileCleanup cx (closed.exits ++ exits) throws cleanup

/-- Code that catches exceptions, branch by branch, and the slots of the jumps that leave it because
a branch is done and because of an exception in a branch. -/
def compileCatches (cx : Context) (catchesInside : Bool) : List Catch → Step (List Nat × List Nat)
  | [] => return ([], [])
  | .on x target body :: rest => do
    let origin := "catch (" ++ x ++ " " ++ target ++ ")"
    let n ← number cx x
    emitAll [.load .pending, .push n, .binary .eq]
    let next ← reserveIfZero origin
    emitAll [.load .pendingData, .store (.named target), .push 0, .store .pending, .push 0,
      .store .pendingData]
    let scope ← openScope .catching catchesInside
    compileStmt cx body
    exitEdge scope origin
    let closed ← closeScope scope
    resolveHere next
    let (exits, throws) ← compileCatches cx catchesInside rest
    return (closed.exits ++ exits, closed.throws ++ throws)

/-- Code for the end of a statement that catches: what runs in any case, which every jump goes to,
or else a jump to where exceptions go, past which the other jumps go. -/
def compileCleanup (cx : Context) (exits throws : List Nat) : Option Stmt → Step Unit
  | none => do
    throwEdge "unmatched exception"
    resolveAll exits (← here)
  | some s => do
    let start ← here
    resolveAll exits start
    resolveAll throws start
    let n := (← get).cleanups
    modify fun s => { s with cleanups := s.cleanups + 1 }
    emitAll [.load .pending, .store (.saved n), .load .pendingData, .store (.savedData n), .push 0,
      .store .pending]
    let scope ← openScope .cleanup false
    compileStmt cx s
    let _ ← closeScope scope
    emit (.load (.saved n))
    let done ← reserveIfZero "finally"
    emitAll [.load (.saved n), .store .pending, .load (.savedData n), .store .pendingData, .push 0,
      .store (.savedData n)]
    throwEdge "rethrow after finally"
    resolveHere done

end

/-- Code for a function: its body, and where its exceptions and returns end. -/
def compileBody (cx : Context) (f : Function) : Step Unit := do
  let scope ← openScope .body true
  compileStmt cx f.body
  emit .returnZero
  let closed ← closeScope scope
  resolveAll closed.throws (← here)
  emitAll [.load .pending, .push Exceptions.returning, .binary .eq]
  let uncaught ← reserveIfZero ("exit of " ++ f.signature.text)
  emitAll [.load .pendingData, .returnValue]
  resolveHere uncaught
  emitAll [.transfer, .returnZero]

/-- The routine of a function. -/
def compileFunction (cx : Context) (f : Function) : Except Mistake Routine :=
  match compileBody cx f .start with
  | .error e _ => .error e
  | .ok () s =>
    if s.scopes.isEmpty then
      s.draft.finish.map fun code =>
        ⟨f.signature, f.parameters, code, decide (f.signature ∈ cx.throwing)⟩
    else .error (.openScopes f.signature)

end Compilation

end Bytecode

namespace Program

/-- The bytecode of a program. -/
def compile (p : Program) : Except Bytecode.Mistake Bytecode := do
  let cx : Bytecode.Compilation.Context := ⟨p.exceptions, p.literals, p.throwing⟩
  let routines ← p.functions.mapM (Bytecode.Compilation.compileFunction cx)
  return ⟨routines, p.entry, p.literals, p.exceptions⟩

end Program

end Threefold
