import Threefold.Program
import Threefold.Text.Blank

/-!
# The printed form of a program

Every operation stands in parentheses, so that precedence plays no part, and every statement stands
on a line of its own, indented by its depth. What the parser expanded is shown expanded. A call
that is not bound yet carries a question mark.
-/

namespace Threefold

/-- How the name of a call is shown. -/
def Callee.text : Callee → String
  | .unbound name _ => name ++ "?"
  | c => c.name

mutual

/-- An expression as it is shown. -/
def Expr.text : Expr → String
  | .const n => toString n
  | .string s => "\"" ++ s ++ "\""
  | .array false items => "[" ++ ", ".intercalate (Expr.texts items) ++ "]"
  | .array true items => "\x7b" ++ ", ".intercalate (Expr.texts items) ++ "\x7d"
  | .var x => x
  | .unary op e => op.symbol ++ "(" ++ e.text ++ ")"
  | .binary op l r => "(" ++ l.text ++ " " ++ op.symbol ++ " " ++ r.text ++ ")"
  | .call callee arguments _ => callee.text ++ "(" ++ ", ".intercalate (Expr.texts arguments) ++ ")"

/-- A list of expressions, each as it is shown. -/
def Expr.texts : List Expr → List String
  | [] => []
  | e :: rest => e.text :: Expr.texts rest

end

/-- A call as it is shown. -/
def Call.text (c : Call) : String :=
  c.expr.text

/-- A line of text at a depth of nesting. -/
def indented (depth : Nat) (line : String) : String :=
  "".pushn ' ' (4 * depth) ++ line

mutual

/-- The lines of a statement at a depth of nesting. -/
def Stmt.lines (depth : Nat) : Stmt → List String
  | .skip => [indented depth "skip"]
  | .assign x e => [indented depth (x ++ " := " ++ e.text)]
  | .branch c yes no =>
    indented depth ("if " ++ c.text ++ " then") :: yes.lines (depth + 1) ++
      (if no.isSkip then [] else indented depth "else" :: no.lines (depth + 1)) ++
      [indented depth "fi"]
  | .loop c body =>
    indented depth ("while " ++ c.text ++ " do") :: body.lines (depth + 1) ++ [indented depth "od"]
  | .chain s t => s.lines depth ++ t.lines depth
  | .leave e => [indented depth ("return " ++ e.text)]
  | .perform c => [indented depth c.text]
  | .attempt body catches cleanup =>
    indented depth "try" :: body.lines (depth + 1) ++ Catch.lines depth catches ++
      Stmt.cleanupLines depth cleanup ++ [indented depth "yrt"]
  | .throwing x e => [indented depth ("throw (" ++ x ++ " " ++ e.text ++ ")")]

/-- The lines of the catch branches of a statement. -/
def Catch.lines (depth : Nat) : List Catch → List String
  | [] => []
  | .on e x s :: rest =>
    indented depth ("catch (" ++ e ++ " " ++ x ++ ")") :: s.lines (depth + 1) ++
      Catch.lines depth rest

/-- The lines of what runs in any case. -/
def Stmt.cleanupLines (depth : Nat) : Option Stmt → List String
  | none => []
  | some s => indented depth "finally" :: s.lines (depth + 1)

end

/-- Lines of text, each of them ended. -/
def unlines (lines : List String) : String :=
  String.join (lines.map (· ++ "\n"))

/-- A statement as it is shown. -/
def Stmt.text (s : Stmt) : String :=
  String.ofList (Text.trimEnd (unlines (s.lines 0)).toList)

/-- A function as it is shown. -/
def Function.text (f : Function) : String :=
  unlines (("fun " ++ f.name ++ "(" ++ ", ".intercalate f.parameters ++ ") begin") ::
    f.body.lines 1) ++ "end"

/-- A program as it is shown. -/
def Program.text (p : Program) : String :=
  unlines (p.functions.map Function.text) ++ "# entry: " ++ p.entry.text

end Threefold
