import Threefold.Program

/-!
# Which functions can end with an exception

A function can throw if its body has a throw statement or an array literal, calls a built-in
function that can find an index out of bounds, or calls a function that can throw. Whether an
exception would be caught plays no part. The set of these functions grows from the empty one, pass
by pass over the program, until a pass adds nothing.
-/

namespace Threefold

/-- Whether a call can end with an exception, given the functions that can. -/
def Callee.canThrow (throwing : List Signature) : Callee → Bool
  | .unbound _ _ => false
  | .declared s => decide (s ∈ throwing)
  | .intrinsic i => i.canThrow

mutual

/-- Whether an expression can end with an exception, given the functions that can. Filling an
array counts as storing at an index. -/
def Expr.canThrow (throwing : List Signature) : Expr → Bool
  | .const _ | .var _ | .string _ => false
  | .array _ _ => true
  | .unary _ e => e.canThrow throwing
  | .binary _ l r => l.canThrow throwing || r.canThrow throwing
  | .call callee arguments _ => callee.canThrow throwing || Expr.anyCanThrow throwing arguments

/-- Whether one of some expressions can end with an exception. -/
def Expr.anyCanThrow (throwing : List Signature) : List Expr → Bool
  | [] => false
  | e :: rest => e.canThrow throwing || Expr.anyCanThrow throwing rest

end

mutual

/-- Whether a statement can end with an exception, given the functions that can. -/
def Stmt.canThrow (throwing : List Signature) : Stmt → Bool
  | .skip => false
  | .throwing _ _ => true
  | .assign _ e | .leave e => e.canThrow throwing
  | .branch c yes no => c.canThrow throwing || yes.canThrow throwing || no.canThrow throwing
  | .loop c body => c.canThrow throwing || body.canThrow throwing
  | .chain s t => s.canThrow throwing || t.canThrow throwing
  | .perform c => c.expr.canThrow throwing
  | .attempt body catches cleanup =>
    body.canThrow throwing || Catch.anyCanThrow throwing catches ||
      Stmt.cleanupCanThrow throwing cleanup

/-- Whether one of some catch branches can end with an exception. -/
def Catch.anyCanThrow (throwing : List Signature) : List Catch → Bool
  | [] => false
  | .on _ _ s :: rest => s.canThrow throwing || Catch.anyCanThrow throwing rest

/-- Whether what runs in any case can end with an exception. -/
def Stmt.cleanupCanThrow (throwing : List Signature) : Option Stmt → Bool
  | none => false
  | some s => s.canThrow throwing

end

namespace Program

/-- The functions that can throw after one more function was looked at. -/
def addThrowing (throwing : List Signature) (f : Function) : List Signature :=
  if f.signature ∉ throwing ∧ f.body.canThrow throwing then f.signature :: throwing else throwing

/-- The functions that can throw after one more pass over the program. -/
def throwingPass (p : Program) (throwing : List Signature) : List Signature :=
  p.functions.foldl addThrowing throwing

/-- The functions that can throw after a number of passes, or as many as make a difference. -/
def throwingWithin (p : Program) : Nat → List Signature → List Signature
  | 0, throwing => throwing
  | n + 1, throwing =>
    let more := p.throwingPass throwing
    if more.length = throwing.length then throwing else p.throwingWithin n more

/-- The functions that can end with an exception. Every pass but the last adds one of the functions
of the program. -/
def throwing (p : Program) : List Signature :=
  p.throwingWithin (p.functions.length + 1) []

end Program

end Threefold
