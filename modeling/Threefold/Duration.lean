/-!
# Durations

How long something took, as it is shown: in the largest unit of which there is at least one, with
as many digits behind the point as are needed.
-/

namespace Threefold.Duration

/-- The digits of a fraction behind the point, which has a given number of places. -/
def fraction (n places : Nat) : String :=
  let digits := toString n
  let padded := "".pushn '0' (places - digits.length) ++ digits
  let kept := (padded.toList.reverse.dropWhile (· = '0')).reverse
  if kept.isEmpty then "" else "." ++ String.ofList kept

/-- A number of nanoseconds. -/
def text (n : Nat) : String :=
  if 1000000000 ≤ n then toString (n / 1000000000) ++ fraction (n % 1000000000) 9 ++ "s"
  else if 1000000 ≤ n then toString (n / 1000000) ++ fraction (n % 1000000) 6 ++ "ms"
  else if 1000 ≤ n then toString (n / 1000) ++ fraction (n % 1000) 3 ++ "µs"
  else toString n ++ "ns"

end Threefold.Duration
