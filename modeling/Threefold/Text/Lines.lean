/-!
# Lines

The lines of a text. A line ends with a line feed, or with a carriage return and a line feed. What
follows the last line feed is a line if there is something.
-/

namespace Threefold.Text

/-- The lines of a text, without what ends them. -/
def lines : List Char → List (List Char)
  | [] => []
  | '\n' :: rest => [] :: lines rest
  | '\r' :: '\n' :: rest => [] :: lines rest
  | c :: rest =>
    match lines rest with
    | [] => [[c]]
    | line :: others => (c :: line) :: others

/-- The line with a given number, counted from zero. -/
def line? (s : String) (n : Nat) : Option String :=
  (lines s.toList)[n]?.map String.ofList

end Threefold.Text
