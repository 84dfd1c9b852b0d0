import Threefold.Bindings
import Threefold.Intrinsic.Call
import Threefold.Latest
import Threefold.Program.Exceptions
import Threefold.Program.Literals

/-!
# Evaluation

The meaning of a program, read off its tree. Evaluating an expression or executing a statement is
done, or unwinds, because a function returns or an exception is under way, or faults. Unwinding
keeps the world and the variables as they are; a fault ends the run. Variables belong to one
activation of a function, and one that was never assigned is the number zero.

The rules are written as a function of a bound on the depth of the derivation, and a derivation that
needs more is `exhausted`. A larger bound never changes any other result.
-/

namespace Threefold

namespace Evaluation

/-- The variables of an activation. -/
abbrev Variables := Bindings String Value

/-- The value of a variable. -/
def Variables.load (xs : Variables) (x : String) : Value :=
  xs.getD x (.scalar 0)

/-- The variables of an activation that starts: the parameters, with their arguments. -/
def Variables.bind (parameters : List String) (arguments : List Value) : Variables :=
  (parameters.zip arguments).foldl (fun xs p => xs.set p.1 p.2) .empty

/-- Why what follows is skipped. -/
inductive Unwinding
  | returning (v : Value)
  | thrown (exception : Int32) (payload : Value)
  deriving DecidableEq, Repr

/-- What comes of evaluating or executing something, and the state after it. -/
inductive Result (σ α : Type)
  | done (a : α) (s : σ)
  | unwinding (u : Unwinding) (s : σ)
  | fault (f : Fault)
  | exhausted

/-- A computation on a state that can be unwound. -/
abbrev Action (σ α : Type) := σ → Result σ α

namespace Action

variable {σ α β : Type}

/-- Do nothing. -/
@[inline]
def pure (a : α) : Action σ α := fun s => .done a s

/-- Go on with what was computed. -/
@[inline]
def bind (m : Action σ α) (k : α → Action σ β) : Action σ β := fun s =>
  match m s with
  | .done a s => k a s
  | .unwinding u s => .unwinding u s
  | .fault f => .fault f
  | .exhausted => .exhausted

instance : Monad (Action σ) where
  pure := pure
  bind := bind

/-- Give up for want of depth. -/
@[inline]
def exhausted : Action σ α := fun _ => .exhausted

/-- End the run. -/
@[inline]
def fault (f : Fault) : Action σ α := fun _ => .fault f

/-- Skip what follows. -/
@[inline]
def unwind (u : Unwinding) : Action σ α := fun s => .unwinding u s

end Action

/-- What a program provides to its evaluation: its functions, its exceptions by number, and the
handles of its string literals. -/
structure Context where
  program : Program
  exceptions : List String
  literals : List String
  pool : Array Int32

/-- The function that a call reaches. Of two functions with one signature it is the later one. -/
def Context.function? (cx : Context) (s : Signature) : Option Function :=
  latest? (fun f => f.signature = s) cx.program.functions

/-- The state of an activation: the world and its variables. -/
structure Scope where
  world : World
  bindings : Variables

/-- A computation on the world, within an activation. It can read the variables. -/
@[inline]
def Scope.lift {α : Type} (m : Variables → Action World α) : Action Scope α := fun ⟨w, xs⟩ =>
  match m xs w with
  | .done a w => .done a ⟨w, xs⟩
  | .unwinding u w => .unwinding u ⟨w, xs⟩
  | .fault f => .fault f
  | .exhausted => .exhausted

/-- Assign to a variable. -/
@[inline]
def Scope.store (x : String) (v : Value) : Action Scope Unit := fun ⟨w, xs⟩ =>
  .done () ⟨w, xs.set x v⟩

/-- Call a built-in function. An index out of bounds is thrown. -/
def callIntrinsic (i : Intrinsic) (arguments : List Value) : Action World Value := fun w =>
  match i.call arguments w with
  | .ok (.returned v) w => .done v w
  | .ok (.outOfBounds n) w => .unwinding (.thrown Exceptions.outOfBounds (.scalar n)) w
  | .error f _ => .fault f

/-- The value of an operation. -/
def operate (op : BinaryOp) (l r : Value) : Action World Value :=
  match op.eval? l.word r.word with
  | some n => Action.pure (.scalar n)
  | none => Action.fault (.arithmetic l.word op r.word)

/-- A copy of a string literal. -/
def literal (cx : Context) (s : String) : Action World Value :=
  match (cx.literals.idxOf? s).bind (cx.pool[·]?) with
  | some n => callIntrinsic .strDup [.scalar n]
  | none => Action.fault (.literalNotPooled s)

/-- The branch that catches an exception. -/
def Context.handler? (cx : Context) (catches : List Catch) (exception : Int32) : Option Catch :=
  catches.find? fun c => Exceptions.number? cx.exceptions c.exception = some exception

mutual

/-- The value of an expression. -/
def evaluate (cx : Context) (fuel : Nat) (e : Expr) (xs : Variables) : Action World Value :=
  match fuel with
  | 0 => Action.exhausted
  | fuel + 1 =>
    match e with
    | .const n => Action.pure (.scalar n)
    | .string s => literal cx s
    | .var x => Action.pure (xs.load x)
    | .array boxed items => do
      let array ← callIntrinsic (if boxed then .arrMakeBoxed else .arrMake)
        [.scalar (.ofNat items.length), .scalar 0]
      fill cx fuel array 0 items xs
      return array
    | .unary op e => do
      let v ← evaluate cx fuel e xs
      return .scalar (op.eval v.word)
    | .binary op l r => do
      let l ← evaluate cx fuel l xs
      let r ← evaluate cx fuel r xs
      operate op l r
    | .call callee arguments _ => do
      let vs ← evaluateAll cx fuel arguments xs
      match callee with
      | .declared s => call cx fuel s vs
      | .intrinsic i => callIntrinsic i vs
      | .unbound name arity => Action.fault (.unboundCall ⟨name, arity⟩)

/-- The values of expressions, from the first to the last. -/
def evaluateAll (cx : Context) (fuel : Nat) (es : List Expr) (xs : Variables) :
    Action World (List Value) :=
  match fuel with
  | 0 => Action.exhausted
  | fuel + 1 =>
    match es with
    | [] => Action.pure []
    | e :: rest => do
      let v ← evaluate cx fuel e xs
      let vs ← evaluateAll cx fuel rest xs
      return v :: vs

/-- Store the values of expressions in an array, each as soon as it is known. -/
def fill (cx : Context) (fuel : Nat) (array : Value) (index : Nat) (es : List Expr)
    (xs : Variables) : Action World Unit :=
  match fuel with
  | 0 => Action.exhausted
  | fuel + 1 =>
    match es with
    | [] => Action.pure ()
    | e :: rest => do
      let v ← evaluate cx fuel e xs
      let _ ← callIntrinsic .arrSet [array, .scalar (.ofNat index), v]
      fill cx fuel array (index + 1) rest xs

/-- The value that a function returns. -/
def call (cx : Context) (fuel : Nat) (s : Signature) (arguments : List Value) :
    Action World Value :=
  match fuel with
  | 0 => Action.exhausted
  | fuel + 1 =>
    match cx.function? s with
    | none => Action.fault (.undeclared s)
    | some f => fun w =>
      match execute cx fuel f.body ⟨w, .bind f.parameters arguments⟩ with
      | .done () s => .done (.scalar 0) s.world
      | .unwinding (.returning v) s => .done v s.world
      | .unwinding u s => .unwinding u s.world
      | .fault f => .fault f
      | .exhausted => .exhausted

/-- Execute a statement. -/
def execute (cx : Context) (fuel : Nat) (s : Stmt) : Action Scope Unit :=
  match fuel with
  | 0 => Action.exhausted
  | fuel + 1 =>
    match s with
    | .skip => Action.pure ()
    | .assign x e => do
      let v ← Scope.lift (evaluate cx fuel e)
      Scope.store x v
    | .branch c yes no => do
      let v ← Scope.lift (evaluate cx fuel c)
      if v.word ≠ 0 then execute cx fuel yes else execute cx fuel no
    | .loop c body => repeatWhile cx fuel c body
    | .chain s t => do
      execute cx fuel s
      execute cx fuel t
    | .leave e => do
      let v ← Scope.lift (evaluate cx fuel e)
      Action.unwind (.returning v)
    | .perform c => do
      let _ ← Scope.lift (evaluate cx fuel c.expr)
    | .throwing x e =>
      match Exceptions.number? cx.exceptions x with
      | none => Action.fault (.unnumberedException x)
      | some n => do
        let v ← Scope.lift (evaluate cx fuel e)
        Action.unwind (.thrown n v)
    | .attempt body catches cleanup => fun s =>
      match attempt cx fuel body catches s with
      | .done () s => finish cx fuel cleanup none s
      | .unwinding u s => finish cx fuel cleanup (some u) s
      | r => r

/-- Execute a statement as long as a condition holds. -/
def repeatWhile (cx : Context) (fuel : Nat) (c : Expr) (body : Stmt) : Action Scope Unit :=
  match fuel with
  | 0 => Action.exhausted
  | fuel + 1 => fun s =>
    match Scope.lift (evaluate cx fuel c) s with
    | .done v s =>
      if v.word ≠ 0 then
        match execute cx fuel body s with
        | .done () s => repeatWhile cx fuel c body s
        | r => r
      else .done () s
    | .unwinding u s => .unwinding u s
    | .fault f => .fault f
    | .exhausted => .exhausted

/-- Execute a statement, and the branch that catches its exception, if it ends with one and there
is such a branch. -/
def attempt (cx : Context) (fuel : Nat) (body : Stmt) (catches : List Catch) : Action Scope Unit :=
  match fuel with
  | 0 => Action.exhausted
  | fuel + 1 => fun s =>
    match execute cx fuel body s with
    | .unwinding (.thrown n v) s =>
      match cx.handler? catches n with
      | some c => (Action.bind (Scope.store c.target v) fun _ => execute cx fuel c.body) s
      | none => .unwinding (.thrown n v) s
    | r => r

/-- Execute what runs in any case, then go on unwinding if nothing else unwinds. -/
def finish (cx : Context) (fuel : Nat) (cleanup : Option Stmt) (pending : Option Unwinding) :
    Action Scope Unit :=
  match fuel with
  | 0 => Action.exhausted
  | fuel + 1 => do
    match cleanup with
    | some s => execute cx fuel s
    | none => Action.pure ()
    match pending with
    | some u => Action.unwind u
    | none => Action.pure ()

end

/-- The world before a run, with the string literals of the program on the heap. -/
def start (p : Program) (input : List Int32) : Context × World :=
  let ⟨heap, console⟩ := World.start false input
  match Heap.preload p.literals heap with
  | .ok pool heap => (⟨p, p.exceptions, p.literals, pool.toArray⟩, ⟨heap, console⟩)
  | .error _ heap => (⟨p, p.exceptions, p.literals, #[]⟩, ⟨heap, console⟩)

end Evaluation

namespace Program

open Evaluation in
/-- The outcome of a program, or its fault; none if the bound on the depth is too small. -/
def run (p : Program) (input : List Int32) (fuel : Nat) : Option (Except Fault Outcome) :=
  let (cx, w) := start p input
  match call cx fuel p.entry [] w with
  | .done _ w => some (.ok ⟨w.console.output.toList, none⟩)
  | .unwinding (.returning _) w => some (.ok ⟨w.console.output.toList, none⟩)
  | .unwinding (.thrown n v) w =>
    some (.ok ⟨w.console.output.toList,
      some ⟨n, (Exceptions.name? cx.exceptions n).getD "", v.word⟩⟩)
  | .fault f => some (.error f)
  | .exhausted => none

end Program

end Threefold
