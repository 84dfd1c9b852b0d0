import Threefold.Numbering
import Threefold.Program

/-!
# Exception numbers

At run time an exception is a number. The exception of the built-in functions has number one, and
the types that a program throws or catches follow in the order in which they first occur: function
by function, each body from its start to its end, the type of a catch branch before its body. Zero
is no exception, and minus one stands for a return that is under way.
-/

namespace Threefold

mutual

/-- The types of exceptions that a statement throws or catches, in the order of the text. -/
def Stmt.exceptions : Stmt → List String
  | .skip | .assign _ _ | .leave _ | .perform _ => []
  | .branch _ yes no => yes.exceptions ++ no.exceptions
  | .loop _ body => body.exceptions
  | .chain s t => s.exceptions ++ t.exceptions
  | .attempt body catches cleanup =>
    body.exceptions ++ Catch.exceptions catches ++ Stmt.cleanupExceptions cleanup
  | .throwing x _ => [x]

/-- The types of exceptions that catch branches name, and those in their bodies. -/
def Catch.exceptions : List Catch → List String
  | [] => []
  | .on x _ s :: rest => x :: s.exceptions ++ Catch.exceptions rest

/-- The types of exceptions in what runs in any case. -/
def Stmt.cleanupExceptions : Option Stmt → List String
  | none => []
  | some s => s.exceptions

end

/-- The types of exceptions that a program can name at run time: the first has number one. -/
def Program.exceptions (p : Program) : List String :=
  Numbering.ofList (Intrinsic.outOfBounds :: p.functions.flatMap fun f => f.body.exceptions)

namespace Exceptions

/-- The number that says that a function is returning. -/
def returning : Int32 := -1

/-- The number of the exception that built-in functions throw. -/
def outOfBounds : Int32 := 1

/-- The number of a type of exception. -/
def number? (names : List String) (x : String) : Option Int32 :=
  (names.idxOf? x).map fun i => .ofNat (i + 1)

/-- The type of exception with a given number. -/
def listed? (names : List String) (n : Int32) : Option String :=
  if 1 ≤ n.toInt then names[n.toInt.toNat - 1]? else none

/-- What a number stands for: a type of exception, or a return. -/
def name? (names : List String) (n : Int32) : Option String :=
  if n = returning then some "ReturnNormally" else listed? names n

end Exceptions

end Threefold
