import Threefold.CommandLine

/-!
# The program

The command line on real files. A failure of the system is told apart only as far as commands show
it.
-/

namespace Threefold.Main

/-- The result of a piece of work on files, or why it failed. -/
def attempt {α : Type} (work : IO α) (reason : IO.Error → FileError) :
    IO (Except FileError α) := do
  try
    return .ok (← work)
  catch e => return .error (reason e)

/-- Why a piece of work on a path failed, in the words of the system if there are no others. -/
def reason : IO.Error → FileError
  | .noFileOrDirectory _ _ _ => .notFound
  | .alreadyExists _ _ _ => .alreadyThere
  | e => .other (toString e)

/-- The text of a file. -/
def readText (p : Path) : IO (Except FileError String) := do
  let full := (← IO.currentDir) / p.text
  if ← full.isDir then return .error .isAFolder
  match ← attempt (IO.FS.readBinFile full) reason with
  | .error e => return .error e
  | .ok bytes =>
    match String.fromUTF8? bytes with
    | some text => return .ok text
    | none => return .error (.other "stream did not contain valid UTF-8")

/-- The names of what a folder holds. -/
def names (p : Path) : IO (List String) := do
  let full := (← IO.currentDir) / p.text
  if ← full.isDir then
    return (← full.readDir).toList.map fun entry => entry.fileName
  else return []

/-- Make a folder, and those that lead to it. -/
def makeFolder (p : Path) : IO (Except FileError Unit) := do
  let full := (← IO.currentDir) / p.text
  if ← full.isDir then return .ok ()
  else if ← full.pathExists then return .error .alreadyThere
  else attempt (IO.FS.createDirAll full) reason

/-- Write the text of a file. -/
def writeText (p : Path) (text : String) : IO (Except FileError Unit) := do
  let full := (← IO.currentDir) / p.text
  if ← full.isDir then return .error .isAFolder
  else attempt (IO.FS.writeFile full text) reason

/-- Real files as the surroundings of a command. -/
def surroundings : Surroundings IO where
  workingFolder := do return some (.ofText (← IO.currentDir).toString)
  readText := readText
  isThere p := do ((← IO.currentDir) / p.text).pathExists
  names := names
  makeFolder := makeFolder
  writeText := writeText
  print text := do (← IO.getStdout).putStr text
  clock := IO.monoNanosNow

end Threefold.Main

/-- Do what the arguments of the program ask for. -/
def main (arguments : List String) : IO Unit :=
  Threefold.CommandLine.run Threefold.Main.surroundings arguments
