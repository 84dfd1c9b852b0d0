import Threefold.Intrinsic
import Threefold.Operator
import Threefold.Report

/-!
# Faults

A fault ends a run at once. It is not an exception: no program can catch it. Most faults are
mistakes of the running program; the last few say that a program reached an executor that no earlier
stage should have let through.
-/

namespace Threefold

/-- The kinds of things on the heap. -/
inductive ObjectKind
  | string
  | scalarArray
  | boxedArray
  deriving DecidableEq, Repr

/-- What a kind of thing is called in messages. -/
def ObjectKind.title : ObjectKind → String
  | string => "string"
  | scalarArray => "scalar array"
  | boxedArray => "boxed array"

/-- Why a run ended before the program did. -/
inductive Fault
  | notAHandle (word : Int32)
  | reclaimed (kind : ObjectKind) (handle : Int32)
  | retainedReclaimed (handle : Int32)
  | notAString (found : ObjectKind)
  | scalarForArray (operation : String) (found : Int32)
  | stringForArray (operation : Intrinsic)
  | noInput
  | negativeLength (operation : Intrinsic) (length : Int32)
  | wrongArguments (operation : Intrinsic) (given : Nat)
  | arithmetic (left : Int32) (op : BinaryOp) (right : Int32)
  | underflow (function : Signature) (index : Nat)
  | tooFewOperands (callee : Signature) (operands : Nat)
  | noLiteral (index : Nat)
  | notCompiled (function : Signature)
  | ranPast (function : Signature) (index : Nat)
  | undeclared (function : Signature)
  | unboundCall (function : Signature)
  | unnumberedException (exception : String)
  | literalNotPooled (text : String)
  deriving DecidableEq, Repr

namespace Fault

/-- What is said about a fault. -/
def message : Fault → String
  | notAHandle n => toString n ++ " is not a heap handle"
  | reclaimed kind n =>
    "Use after free: " ++ kind.title ++ " " ++ toString n ++ " was already reclaimed"
  | retainedReclaimed n =>
    "Use after free: retained array " ++ toString n ++ " after it was reclaimed"
  | notAString found => "Expected a string, found a " ++ found.title
  | scalarForArray operation n => operation ++ " expects an array, found the scalar " ++ toString n
  | stringForArray i => i.name ++ " expects an array, found a string"
  | noInput => "read() called with no input left"
  | negativeLength i n => i.name ++ " called with the negative length " ++ toString n
  | wrongArguments i n =>
    i.name ++ " expects " ++ toString i.arity ++ " arguments, got " ++ toString n
  | arithmetic l op r =>
    "Arithmetic fault: " ++ toString l ++ " " ++ op.symbol ++ " " ++ toString r
  | underflow f n => "Operand stack underflow in " ++ f.text ++ " at " ++ toString n
  | tooFewOperands f n => "Call to " ++ f.text ++ " with only " ++ toString n ++ " operands"
  | noLiteral n => "Literal pool has no entry " ++ toString n
  | notCompiled f => "Call to " ++ f.text ++ " which was never compiled"
  | ranPast f n => f.text ++ " ran past its last instruction (" ++ toString n ++ ")"
  | undeclared f => "Call to undeclared function " ++ f.text
  | unboundCall f => "Unresolved call to " ++ f.text ++ " reached the interpreter"
  | unnumberedException x => "Exception type " ++ x ++ " has no id"
  | literalNotPooled s => "String literal \"" ++ s ++ "\" is missing from the pool"

/-- Whose mistake a fault is. -/
def kind : Fault → Report.Kind
  | undeclared _ | unboundCall _ | unnumberedException _ | literalNotPooled _ => .compilation
  | _ => .execution

/-- The report on a fault. A running program has no place in its text. -/
def report (f : Fault) : Report :=
  ⟨f.kind, f.message, .unknown, []⟩

end Fault

end Threefold
