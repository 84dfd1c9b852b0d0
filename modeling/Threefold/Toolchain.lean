import Threefold.Bytecode.Compilation
import Threefold.Bytecode.Machine
import Threefold.Duration
import Threefold.Evaluation
import Threefold.Files
import Threefold.Program.Source
import Threefold.Report.Explanation
import Threefold.Settings
import Threefold.X86.Lowering
import Threefold.X86.Machine
import Threefold.X86.Trap

/-!
# The toolchain

What is done with the program in a file: it is read together with the settings beside it, compiled to
bytecode, and then run by one of three executors or written down as machine code. Every step stops
at the first thing that is wrong.
-/

namespace Threefold

/-- The executors. -/
inductive Backend
  | tree
  | stack
  | native
  deriving DecidableEq, Repr

namespace Backend

/-- Every executor. -/
def all : List Backend := [tree, stack, native]

/-- The name of an executor. -/
def name : Backend → String
  | tree => "tree"
  | stack => "stack"
  | native => "native"

/-- The executor with a given name. -/
def ofName? (s : String) : Option Backend :=
  all.find? (·.name = s)

end Backend

/-- The report on a file that cannot be used. -/
def FileError.report (e : FileError) (p : Path) (doing : String) : Report :=
  ⟨.file, doing ++ e.message, .ofFile p.text, []⟩

/-- A program in its two forms. -/
structure Compiled where
  program : Program
  bytecode : Bytecode

namespace Compiled

/-- The program in the text of a file. -/
def ofSource (p : Path) (source : String) : Except Report Compiled := do
  let program ← Program.load p.text source Program.entryName
  let bytecode ← program.compile.mapError Bytecode.Mistake.report
  return ⟨program, bytecode⟩

/-- The machine code of a program. -/
def lower (c : Compiled) : Except Report X86.Assembly :=
  c.bytecode.lower.mapError X86.Refusal.report

/-- The number of steps that an interpreter may take. It is more than can be waited for. -/
def patience : Nat := 0x4000000000000000

/-- Run a program on an executor, with numbers to be read. There is no outcome of a run that takes
too long. -/
def run (c : Compiled) (b : Backend) (input : List Int32) (limit : Nat) :
    Option (Except Report Outcome) :=
  match b with
  | .tree => (c.program.run input patience).map fun r => r.mapError Fault.report
  | .stack => (c.bytecode.run input patience).map fun r => r.mapError Fault.report
  | .native => some do
    let a ← c.lower
    let r ← (a.run input limit).mapError X86.Trap.report
    return r.outcome

end Compiled

namespace Toolchain

variable {m : Type → Type} [Monad m]

/-- The text of a program, which must have the extension of programs. -/
def readSource (s : Surroundings m) (p : Path) : m (Except Report String) := do
  if p.extension? ≠ some Settings.sourceExtension then
    let e := FileError.other
      ("Source files must have the ." ++ Settings.sourceExtension ++ " extension")
    return .error (e.report p "")
  else
    return (← s.readText p).mapError fun e => e.report p ""

/-- The settings beside a program. -/
def readSettings (s : Surroundings m) (source : Path) : m (Except Report Settings) := do
  let p := (source.parent?.getD ⟨false, []⟩).join (.ofText Settings.fileName)
  if !(← s.isThere p) then return .ok .default
  match ← s.readText p with
  | .error e => return .error (e.report p "")
  | .ok text =>
    match Settings.ofText? text with
    | some settings => return .ok settings
    | none =>
      return .error ⟨.settings, "The settings cannot be read", .ofFile p.text, []⟩

/-- A program and its settings after the switches of the command line. -/
def load (s : Surroundings m) (p : Path) (flags : List Flag) :
    m (Except Report (Compiled × Settings)) := do
  match ← readSource s p with
  | .error r => return .error r
  | .ok source =>
    match ← readSettings s p with
    | .error r => return .error r
    | .ok settings =>
      return (Compiled.ofSource p source).map fun c => (c, settings.apply flags)

/-- Print how long something took, unless the switches say not to. -/
def printTime (s : Surroundings m) (flags : List Flag) (start : Nat) (what : String) : m Unit := do
  if !flags.contains .hideTimers then
    let stop ← s.clock
    s.print ("\n" ++ what ++ " in: " ++ Duration.text (stop - start) ++ "\n")

/-- Write the text of a file and make the folder that it is in. -/
def write (s : Surroundings m) (p : Path) (text : String) : m (Except Report Unit) := do
  let folder := p.parent?.getD ⟨false, []⟩
  match ← s.makeFolder folder with
  | .error e => return .error (e.report folder "Error creating the output folder: ")
  | .ok _ =>
    return (← s.writeText p text).mapError fun e => e.report p "Error writing file: "

/-- Write the machine code of a program where its settings say: the path of what was written. -/
def build (s : Surroundings m) (p : Path) (flags : List Flag) : m (Except Report Path) := do
  let start ← s.clock
  match ← load s p flags with
  | .error r => return .error r
  | .ok (c, settings) =>
    match c.lower with
    | .error r => return .error r
    | .ok a =>
      let target := settings.assemblyPath p
      match ← write s target (a.text settings.platform settings.comments) with
      | .error r => return .error r
      | .ok _ =>
        printTime s flags start ("Built " ++ target.text)
        return .ok target

/-- Run a program on an executor. -/
def run (s : Surroundings m) (p : Path) (b : Backend) (input : List Int32) (flags : List Flag) :
    m (Option (Except Report Outcome)) := do
  let start ← s.clock
  match ← load s p flags with
  | .error r => return some (.error r)
  | .ok (c, settings) =>
    match c.run b input settings.stepLimit with
    | some (.ok o) =>
      printTime s flags start ("Ran on the " ++ b.name ++ " backend")
      return some (.ok o)
    | r => return r

/-- The name under which a file is shown: its path from the working folder, if it lies there. -/
def shownPath (s : Surroundings m) (file : String) : m String := do
  match ← s.workingFolder with
  | none => return file
  | some folder =>
    match (Path.ofText file).within? (.ofText (Path.unmarked folder.text)) with
    | some p => return p.text
    | none => return file

/-- Show a report. The mark of a verbatim path is neither shown nor used to find the text. -/
def explain (s : Surroundings m) (r : Report) : m Unit := do
  let file := Path.unmarked r.location.file
  let source ←
    if r.kind.hasSource then Except.toOption <$> s.readText (.ofText file)
    else pure none
  s.print (r.explanation (← shownPath s file) source)

/-- Show reports, and then warnings. -/
def explainAll (s : Surroundings m) (reports : List Report) (warnings : List String) : m Unit := do
  for r in reports do explain s r
  for w in warnings do s.print ("Warning: " ++ w ++ "\n")

end Toolchain

end Threefold
