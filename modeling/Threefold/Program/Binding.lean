import Threefold.Program
import Threefold.Report

/-!
# Binding calls

Binding replaces every call by name with a call of the one function that has this name and takes
this number of arguments, be it declared or built in. It refuses a program in which two functions
collide, in which the entry is missing, or in which a call means nothing; the first of these in the
order of the text decides. A call that is already bound to a declared function stays as it is, if
that function exists.
-/

namespace Threefold

namespace Program

/-- Why calls cannot be bound. -/
inductive Unbound
  | ambiguous (signature : Signature)
  | missing (signature : Signature)
  | noEntry (signature : Signature)
  deriving DecidableEq, Repr

namespace Unbound

/-- What is said about calls that cannot be bound. -/
def message : Unbound → String
  | ambiguous s => "Ambiguous function " ++ s.name ++ ", " ++ toString s.arity ++ " arguments."
  | missing s => "Unresolved function " ++ s.name ++ ", " ++ toString s.arity ++ " arguments."
  | noEntry s => "The entry function " ++ s.text ++ " is not declared"

/-- The stage and the advice that go with the message. -/
def notes : Unbound → List Report.Note
  | ambiguous _ =>
    [(.stage, "Call Resolution"),
      (.suggestion, "Rename the function or change its number of parameters")]
  | missing _ =>
    [(.stage, "Call Resolution"),
      (.suggestion, "Check the function name and the number of arguments")]
  | noEntry _ => []

/-- The report on a failure to bind. -/
def report (e : Located Unbound) : Report :=
  ⟨.binding, e.value.message, e.location, e.value.notes⟩

end Unbound

/-- The callee of a call once it is bound, in a program that declares the given functions. -/
def bindCallee (declared : List Signature) (location : Location) :
    Callee → Except (Located Unbound) Callee
  | .unbound name arity =>
    let s : Signature := ⟨name, arity⟩
    if s ∈ declared then .ok (.declared s)
    else
      match Intrinsic.ofSignature? s with
      | some i => .ok (.intrinsic i)
      | none => .error ⟨.missing s, location⟩
  | .declared s => if s ∈ declared then .ok (.declared s) else .error ⟨.missing s, location⟩
  | .intrinsic i => .ok (.intrinsic i)

mutual

/-- An expression with its calls bound. -/
def bindExpr (declared : List Signature) : Expr → Except (Located Unbound) Expr
  | .const n => .ok (.const n)
  | .string s => .ok (.string s)
  | .var x => .ok (.var x)
  | .array boxed items => do
    return .array boxed (← bindExprs declared items)
  | .unary op e => do
    return .unary op (← bindExpr declared e)
  | .binary op l r => do
    let l ← bindExpr declared l
    let r ← bindExpr declared r
    return .binary op l r
  | .call callee arguments location => do
    let arguments ← bindExprs declared arguments
    let callee ← bindCallee declared location callee
    return .call callee arguments location

/-- Expressions with their calls bound. -/
def bindExprs (declared : List Signature) : List Expr → Except (Located Unbound) (List Expr)
  | [] => .ok []
  | e :: rest => do
    let e ← bindExpr declared e
    let rest ← bindExprs declared rest
    return e :: rest

end

/-- A call with itself and the calls in its arguments bound. -/
def bindCall (declared : List Signature) (c : Call) : Except (Located Unbound) Call := do
  let arguments ← bindExprs declared c.arguments
  let callee ← bindCallee declared c.location c.callee
  return ⟨callee, arguments, c.location⟩

mutual

/-- A statement with its calls bound. -/
def bindStmt (declared : List Signature) : Stmt → Except (Located Unbound) Stmt
  | .skip => .ok .skip
  | .assign x e => do
    return .assign x (← bindExpr declared e)
  | .branch c yes no => do
    let c ← bindExpr declared c
    let yes ← bindStmt declared yes
    let no ← bindStmt declared no
    return .branch c yes no
  | .loop c body => do
    let c ← bindExpr declared c
    let body ← bindStmt declared body
    return .loop c body
  | .chain s t => do
    let s ← bindStmt declared s
    let t ← bindStmt declared t
    return .chain s t
  | .leave e => do
    return .leave (← bindExpr declared e)
  | .perform c => do
    return .perform (← bindCall declared c)
  | .attempt body catches cleanup => do
    let body ← bindStmt declared body
    let catches ← bindCatches declared catches
    let cleanup ← bindCleanup declared cleanup
    return .attempt body catches cleanup
  | .throwing x e => do
    return .throwing x (← bindExpr declared e)

/-- Catch branches with their calls bound. -/
def bindCatches (declared : List Signature) : List Catch → Except (Located Unbound) (List Catch)
  | [] => .ok []
  | .on e x s :: rest => do
    let s ← bindStmt declared s
    let rest ← bindCatches declared rest
    return .on e x s :: rest

/-- What runs in any case, with its calls bound. -/
def bindCleanup (declared : List Signature) : Option Stmt → Except (Located Unbound) (Option Stmt)
  | none => .ok none
  | some s => do
    return some (← bindStmt declared s)

end

/-- A function with its calls bound. -/
def bindFunction (declared : List Signature) (f : Function) : Except (Located Unbound) Function := do
  return { f with body := ← bindStmt declared f.body }

/-- Check that no function has the signature of a built-in one or of one declared before it. -/
def checkDistinct (earlier : List Signature) : List Function → Except (Located Unbound) Unit
  | [] => .ok ()
  | f :: rest =>
    if (Intrinsic.ofSignature? f.signature).isSome ∨ f.signature ∈ earlier then
      .error ⟨.ambiguous f.signature, f.location⟩
    else checkDistinct (f.signature :: earlier) rest

/-- The program with every call bound. -/
def bind (p : Program) : Except (Located Unbound) Program := do
  checkDistinct [] p.functions
  if p.entry ∉ p.signatures then
    throw ⟨.noEntry p.entry, .unknown⟩
  let functions ← p.functions.mapM (bindFunction p.signatures)
  return { p with functions }

end Program

end Threefold
