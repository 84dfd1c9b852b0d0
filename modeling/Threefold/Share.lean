/-!
# Shares

How much of a whole a part is, in percent with one decimal place. The share is worked out as machines
do that keep a number as 53 binary digits: the quotient is rounded to such a number, then its
hundredfold, and only then the decimal place is cut. Of two nearest numbers each step takes the even
one.
-/

namespace Threefold.Share

/-- The whole number nearest to a quotient, and of two the even one. -/
def nearest (n d : Nat) : Nat :=
  let q := n / d
  let r := n % d
  if 2 * r < d then q
  else if 2 * r = d then q + q % 2
  else q + 1

/-- A fraction as the nearest number of 53 binary digits, which is a fraction again. -/
def binary (n d : Nat) : Nat × Nat :=
  let least := 0x10000000000000
  let shift := 52 + d.log2 - n.log2
  let shift := if n <<< shift < d * least then shift + 1 else shift
  (nearest (n <<< shift) d, 1 <<< shift)

/-- The tenths of a percent that a part is of a whole. -/
def tenths (part whole : Nat) : Nat :=
  let (n, d) := binary part whole
  let (n, d) := binary (100 * n) d
  nearest (10 * n) d

/-- The percent that a part is of a whole, as they are written. -/
def text (part whole : Nat) : String :=
  let n := tenths part whole
  toString (n / 10) ++ "." ++ toString (n % 10)

end Threefold.Share
