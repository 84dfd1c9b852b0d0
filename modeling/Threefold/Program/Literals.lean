import Threefold.Numbering
import Threefold.Program

/-!
# String literals

The string literals of a program, each once, in the order in which they first occur in the text.
They are put on the heap before the program starts, and evaluating one makes a copy of it.
-/

namespace Threefold

mutual

/-- The string literals of an expression, in the order of the text. -/
def Expr.literals : Expr → List String
  | .const _ | .var _ => []
  | .string s => [s]
  | .array _ items => Expr.listLiterals items
  | .unary _ e => e.literals
  | .binary _ l r => l.literals ++ r.literals
  | .call _ arguments _ => Expr.listLiterals arguments

/-- The string literals of expressions. -/
def Expr.listLiterals : List Expr → List String
  | [] => []
  | e :: rest => e.literals ++ Expr.listLiterals rest

end

mutual

/-- The string literals of a statement, in the order of the text. -/
def Stmt.literals : Stmt → List String
  | .skip => []
  | .assign _ e | .leave e | .throwing _ e => e.literals
  | .branch c yes no => c.literals ++ yes.literals ++ no.literals
  | .loop c body => c.literals ++ body.literals
  | .chain s t => s.literals ++ t.literals
  | .perform c => c.expr.literals
  | .attempt body catches cleanup =>
    body.literals ++ Catch.literals catches ++ Stmt.cleanupLiterals cleanup

/-- The string literals of catch branches. -/
def Catch.literals : List Catch → List String
  | [] => []
  | .on _ _ s :: rest => s.literals ++ Catch.literals rest

/-- The string literals of what runs in any case. -/
def Stmt.cleanupLiterals : Option Stmt → List String
  | none => []
  | some s => s.literals

end

/-- The pool of the string literals of a program. -/
def Program.literals (p : Program) : List String :=
  Numbering.ofList (p.functions.flatMap fun f => f.body.literals)

end Threefold
