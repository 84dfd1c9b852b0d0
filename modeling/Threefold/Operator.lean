import Threefold.Value

/-!
# Operators

Arithmetic is that of 32-bit two's complement words and wraps. Division and remainder round toward
zero and have no result where the machine would trap: when the divisor is zero, and when the
quotient of the smallest word by minus one would not fit. Any word but zero counts as true.
-/

namespace Threefold

/-- The operators with one operand. -/
inductive UnaryOp
  | not
  deriving DecidableEq, Repr

namespace UnaryOp

/-- The result of an operator. -/
def eval : UnaryOp → Int32 → Int32
  | not, n => truth (n == 0)

/-- The operator as it is written. -/
def symbol : UnaryOp → String
  | not => "!"

end UnaryOp

/-- The operators with two operands. -/
inductive BinaryOp
  | plus
  | minus
  | times
  | div
  | rem
  | and
  | or
  | eq
  | ne
  | gt
  | lt
  | le
  | ge
  deriving DecidableEq, Repr

namespace BinaryOp

/-- Every operator with two operands. -/
def all : List BinaryOp :=
  [plus, minus, times, div, rem, and, or, eq, ne, gt, lt, le, ge]

/-- Whether a division of two words traps. -/
def traps (l r : Int32) : Bool :=
  r == 0 || (l == Int32.minValue && r == -1)

/-- The result of an operator, unless the machine would trap. -/
def eval? (op : BinaryOp) (l r : Int32) : Option Int32 :=
  match op with
  | plus => some (l + r)
  | minus => some (l - r)
  | times => some (l * r)
  | div => if traps l r then none else some (l / r)
  | rem => if traps l r then none else some (l % r)
  | and => some (truth (l != 0 && r != 0))
  | or => some (truth (l != 0 || r != 0))
  | eq => some (truth (l == r))
  | ne => some (truth (l != r))
  | gt => some (truth (r < l))
  | lt => some (truth (l < r))
  | le => some (truth (l ≤ r))
  | ge => some (truth (r ≤ l))

/-- Whether an operator combines truth values. -/
def isLogical : BinaryOp → Bool
  | and | or => true
  | _ => false

/-- Whether an operator compares numbers. -/
def isComparison : BinaryOp → Bool
  | eq | ne | gt | lt | le | ge => true
  | _ => false

/-- The operator as it is written. -/
def symbol : BinaryOp → String
  | plus => "+"
  | minus => "-"
  | times => "*"
  | div => "/"
  | rem => "%"
  | and => "&&"
  | or => "!!"
  | eq => "=="
  | ne => "!="
  | gt => ">"
  | lt => "<"
  | le => "<="
  | ge => ">="

/-- The operator with a given written form. -/
def ofSymbol? (s : String) : Option BinaryOp :=
  all.find? (·.symbol = s)

end BinaryOp

end Threefold
