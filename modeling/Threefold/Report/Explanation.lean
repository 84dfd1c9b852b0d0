import Threefold.Report
import Threefold.Text.Lines

/-!
# Reports for readers

How a report is shown to whoever asked for the work: its file and line and what is wrong, and where
it concerns the text of a program, the line in question with a mark under the place. What is wrong
with the compiler itself is shown with its notes.
-/

namespace Threefold.Report

/-- What is in front of a report, from the name of its file and its line, the first being one. -/
def heading (k : Kind) (file : String) (line : Nat) : String :=
  match k with
  | .syntactic =>
    (if file.isEmpty then "" else "\n(╯°□°)╯  🔥🔥 " ++ file ++ " 🔥🔥  Σ(°△°;) \n") ++
      "Syntax\nLine " ++ toString line ++ "\n"
  | .binding =>
    (if file.isEmpty then "" else "\n(ಠ_ಠ) " ++ file ++ "\n") ++
      "Resolution\nLine " ++ toString line ++ "\n"
  | .file => "🏚 Can't find/read file or directory: " ++ file ++ "\n"
  | .settings =>
    "\n (-_-)  🔥🔥🔥🔥 " ++ file ++ " 🔥🔥🔥🔥  <(^~^)/ \nCONFIG FILE ISSUE - "
  | .compilation =>
    "\nヽ༼☉ ‿ ⚆༽ﾉ  🔥🔥🔥🔥 BYTECODE COMPILER BUG - \n" ++
      "compiler developer skill issue (not your fault)\n"
  | .lowering =>
    "\nヽ༼☉ ‿ ⚆༽ﾉ  🔥🔥🔥🔥 NATIVE CODEGEN BUG - \n" ++
      "compiler developer skill issue (not your fault)\n"
  | .execution => "\n(ﾉ☉_⚆)ﾉ  Program fault: "

/-- Whether a kind of report concerns the text of a program. -/
def Kind.hasSource : Kind → Bool
  | .syntactic | .binding => true
  | _ => false

/-- Whether a kind of report is shown with its notes. -/
def Kind.hasNotes : Kind → Bool
  | .compilation | .lowering => true
  | _ => false

/-- The length of the mark under a place: that of the place, counted in a word, and at least one. -/
def markLength (l : Location) : Nat :=
  (max ((l.stop.column - l.start.column + 1).bmod 0x100000000) 1).toNat

/-- A line of a program with a mark under a place in it. An empty line is not shown. -/
def snippet (line : String) (l : Location) : String :=
  if line.isEmpty then ""
  else
    "\n" ++ line ++ "\n" ++ "".pushn ' ' (l.start.column - 1).toNat ++
      "".pushn '^' (markLength l) ++ "\n"

/-- The number of lines that can be told apart. A line in front of the first is shown as one of the
last of them. -/
def lineCount : Nat := 0x10000000000000000

/-- The number under which a line is shown, the first being one. -/
def shownLine (line : Int) : Nat :=
  ((line + 1) % lineCount).toNat

/-- The line of a text that is counted from zero, or nothing where there is no such line. -/
def sourceLine (source : Option String) (line : Int) : String :=
  if line < 0 then "" else (source.bind (Text.line? · line.toNat)).getD ""

/-- A report as it is shown, from the name under which its file is shown and the text of the
file, if there is one. -/
def explanation (r : Report) (file : String) (source : Option String) : String :=
  heading r.kind file (shownLine r.location.start.line) ++ r.message ++ "\n" ++
    (if r.kind.hasNotes then
      String.join (r.notes.map fun (label, text) => label.name ++ ": " ++ text ++ "\n")
    else "") ++
    (if r.kind.hasSource then
      snippet (sourceLine source r.location.start.line) r.location
    else "")

end Threefold.Report
