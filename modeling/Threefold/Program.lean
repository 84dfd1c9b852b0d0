import Threefold.Intrinsic
import Threefold.Location
import Threefold.Operator

/-!
# Programs

The tree form of a program: a list of functions and the one where it starts. A call is first known
by the name and the number of arguments it was written with; binding turns that into a call of a
declared function or of a built-in one. The order of the declarations matters, since exceptions and
string literals are numbered in it.
-/

namespace Threefold

/-- What a call calls. -/
inductive Callee
  /-- Whatever has this name and takes this number of arguments. -/
  | unbound (name : String) (arity : Nat)
  /-- A function of the program. -/
  | declared (signature : Signature)
  /-- A built-in function. -/
  | intrinsic (i : Intrinsic)
  deriving DecidableEq, Repr

/-- The name of what is called. -/
def Callee.name : Callee → String
  | unbound name _ => name
  | declared s => s.name
  | intrinsic i => i.name

/-- Expressions. -/
inductive Expr
  | const (n : Int32)
  | string (text : String)
  /-- An array of its items: of plain numbers, or boxed, of values with their tags. -/
  | array (boxed : Bool) (items : List Expr)
  | var (name : String)
  | unary (op : UnaryOp) (operand : Expr)
  | binary (op : BinaryOp) (left right : Expr)
  | call (callee : Callee) (arguments : List Expr) (location : Location)
  deriving Repr

/-- A call and the place it was written in. -/
structure Call where
  callee : Callee
  arguments : List Expr
  location : Location
  deriving Repr

namespace Call

/-- A call as it is written: by name. -/
def named (name : String) (arguments : List Expr) (location : Location) : Call :=
  ⟨.unbound name arguments.length, arguments, location⟩

/-- The value of a call. -/
def expr (c : Call) : Expr :=
  .call c.callee c.arguments c.location

end Call

mutual

/-- Statements. -/
inductive Stmt
  | skip
  | assign (target : String) (value : Expr)
  | branch (condition : Expr) (yes no : Stmt)
  | loop (condition : Expr) (body : Stmt)
  | chain (first second : Stmt)
  | leave (value : Expr)
  | perform (call : Call)
  | attempt (body : Stmt) (catches : List Catch) (cleanup : Option Stmt)
  | throwing (exception : String) (payload : Expr)

/-- What to do with one type of exception: its payload goes into a variable, then the body runs. -/
inductive Catch
  | on (exception : String) (target : String) (body : Stmt)

end

namespace Catch

/-- The type of exception that is caught. -/
def exception : Catch → String
  | on e _ _ => e

/-- The variable that receives the payload. -/
def target : Catch → String
  | on _ x _ => x

/-- What runs once the payload is in its variable. -/
def body : Catch → Stmt
  | on _ _ s => s

end Catch

namespace Stmt

/-- A list of statements as one statement. -/
def ofList : List Stmt → Stmt
  | [] => skip
  | [s] => s
  | s :: rest => chain s (ofList rest)

/-- Whether a statement is the one that does nothing. -/
def isSkip : Stmt → Bool
  | skip => true
  | _ => false

end Stmt

/-- A function of a program. -/
structure Function where
  name : String
  parameters : List String
  body : Stmt
  location : Location

namespace Function

/-- What a function is called by. -/
def signature (f : Function) : Signature :=
  ⟨f.name, f.parameters.length⟩

end Function

/-- The functions of a program in the order of their declaration, and the one where it starts. -/
structure Program where
  functions : List Function
  entry : Signature

namespace Program

/-- The function with a given signature. -/
def function? (p : Program) (s : Signature) : Option Function :=
  p.functions.find? (·.signature = s)

/-- The signatures of the functions, in the order of their declaration. -/
def signatures (p : Program) : List Signature :=
  p.functions.map Function.signature

end Program

end Threefold
