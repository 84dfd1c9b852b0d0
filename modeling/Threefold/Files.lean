import Threefold.Path

/-!
# Files

What the command line needs of its surroundings: files to read and write, a place to print to, and a
clock. It is given as a record of operations, so that the same commands work on real files and on
files in memory.
-/

namespace Threefold

/-- Why a file cannot be used. -/
inductive FileError
  | notFound
  | alreadyThere
  | notAFolder
  | isAFolder
  | nameTooLong
  /-- Another reason, in the words of the system. -/
  | other (text : String)
  deriving DecidableEq, Repr

/-- What is said about a file that cannot be used. -/
def FileError.message : FileError → String
  | notFound => "No such file or directory (os error 2)"
  | alreadyThere => "File exists (os error 17)"
  | notAFolder => "Not a directory (os error 20)"
  | isAFolder => "Is a directory (os error 21)"
  | nameTooLong => "File name too long (os error 36)"
  | other text => text

/-- What can be done with files, the screen and the clock. -/
structure Surroundings (m : Type → Type) where
  /-- The folder in which relative paths start, if it is known. -/
  workingFolder : m (Option Path)
  /-- The text of a file. -/
  readText : Path → m (Except FileError String)
  /-- Whether there is a file or a folder. -/
  isThere : Path → m Bool
  /-- The names of what a folder holds. -/
  names : Path → m (List String)
  /-- Make a folder, and those that lead to it. -/
  makeFolder : Path → m (Except FileError Unit)
  /-- Write the text of a file. -/
  writeText : Path → String → m (Except FileError Unit)
  /-- Print a text. -/
  print : String → m Unit
  /-- A number of nanoseconds that grows with time. -/
  clock : m Nat

end Threefold
