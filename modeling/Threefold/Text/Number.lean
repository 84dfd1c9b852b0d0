/-!
# Numbers in text

Decimal numbers as they are written outside of programs: digits, with a sign in front if need be.
-/

namespace Threefold.Text

/-- The value of a digit. -/
def digit? (c : Char) : Option Nat :=
  if c.isDigit then some (c.toNat - '0'.toNat) else none

/-- The number with given digits. -/
def ofDigits (cs : List Char) : Nat :=
  cs.foldl (fun n c => 10 * n + (digit? c).getD 0) 0

/-- A number without a sign. -/
def nat? (cs : List Char) : Option Nat :=
  if cs.isEmpty || !cs.all Char.isDigit then none else some (ofDigits cs)

/-- A number that may have a sign. -/
def int? : List Char → Option Int
  | '-' :: cs => (nat? cs).map fun n => -n
  | '+' :: cs => (nat? cs).map Int.ofNat
  | cs => (nat? cs).map Int.ofNat

/-- A number that may have a sign, if it is a word. -/
def word? (cs : List Char) : Option Int32 := do
  let n ← int? cs
  if Int32.minValue.toInt ≤ n ∧ n ≤ Int32.maxValue.toInt then some (.ofInt n) else none

end Threefold.Text
