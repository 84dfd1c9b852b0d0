import Threefold.Path
import Threefold.Platform
import Threefold.Toml.Reader

/-!
# Settings

What can be set for the programs of a folder, in a file beside them: the platform, the folder for
machine code, whether that has comments, and the limit on the instructions of a simulated run. What
is not set has a value of its own, and switches on the command line win over the file.
-/

namespace Threefold

/-- The settings of a folder. -/
structure Settings where
  platform : Platform
  outputFolder : Path
  comments : Bool
  stepLimit : Nat
  deriving DecidableEq, Repr

/-- The switches of the command line. -/
inductive Flag
  | hideTimers
  | windows
  | unix
  | noComments
  deriving DecidableEq, Repr

/-- The switch with a given written form. -/
def Flag.ofText? (s : String) : Option Flag :=
  match s with
  | "--hide-timers" => some hideTimers
  | "--windows" => some windows
  | "--unix" => some unix
  | "--no-comments" => some noComments
  | _ => none

namespace Settings

/-- The settings of a folder that has none. -/
def default : Settings :=
  ⟨.unix, .ofText "build", true, 50000000⟩

/-- The name of the file that holds settings. -/
def fileName : String := "triad.toml"

/-- The extension of programs. -/
def sourceExtension : String := "expr"

/-- The extension of machine code. -/
def assemblyExtension : String := "s"

/-- The platform with a given name. -/
def platformOfName? (s : String) : Option Platform :=
  match s with
  | "unix" => some .unix
  | "windows" => some .windows
  | _ => none

/-- A platform. It is given by its name, or by a table in which that name stands for nothing. -/
def platform? : Toml → Option Platform
  | .string s => platformOfName? s
  | .table [(s, .array [])] | .table [(s, .table [])] => platformOfName? s
  | _ => none

/-- A text. -/
def text? : Toml → Option String
  | .string s => some s
  | _ => none

/-- A truth value. -/
def truth? : Toml → Option Bool
  | .boolean b => some b
  | _ => none

/-- A number of steps, which must fit in 64 bits. -/
def count? : Toml → Option Nat
  | .integer n => if 0 ≤ n ∧ n < 0x10000000000000000 then some n.toNat else none
  | _ => none

/-- A value from a table, or another one where the table has none. -/
def field? {α : Type} (t : Toml.Table) (key : String) (read? : Toml → Option α)
    (missing : Option α) : Option α :=
  match Toml.get? t key with
  | some v => read? v
  | none => missing

/-- The settings in a text. -/
def ofText? (s : String) : Option Settings := do
  let t ← Toml.ofText? s
  let t ← Toml.known? ["target_platform", "output_folder", "emit_comments",
    "simulator_step_limit"] t
  return {
    platform := ← field? t "target_platform" platform? (some default.platform)
    outputFolder :=
      ← field? t "output_folder" (fun v => (text? v).map Path.ofText) (some default.outputFolder)
    comments := ← field? t "emit_comments" truth? (some default.comments)
    stepLimit := ← field? t "simulator_step_limit" count? (some default.stepLimit) }

/-- The settings after a switch. -/
def applyFlag (s : Settings) : Flag → Settings
  | .windows => { s with platform := .windows }
  | .unix => { s with platform := .unix }
  | .noComments => { s with comments := false }
  | .hideTimers => s

/-- The settings after some switches, of which the last wins. -/
def apply (s : Settings) (flags : List Flag) : Settings :=
  flags.foldl applyFlag s

/-- Where the machine code of a program is written. -/
def assemblyPath (s : Settings) (source : Path) : Path :=
  let folder := source.parent?.getD ⟨false, []⟩
  let stem := source.stem?.getD ""
  ((folder.join s.outputFolder).join (.ofText stem)).withExtension assemblyExtension

end Settings

end Threefold
