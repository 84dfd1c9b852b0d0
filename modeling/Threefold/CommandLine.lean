import Threefold.Bytecode.Json
import Threefold.Cases
import Threefold.Text.Blank
import Threefold.Text.Number

/-!
# The command line

A command is the first argument, and the program it is about the first one behind it that is no
switch and no value of a switch. Switches that concern the toolchain may stand anywhere.
-/

namespace Threefold

namespace CommandLine

/-- What can be asked for. -/
inductive Command
  | build (p : Path)
  | run (p : Path) (b : Backend) (input : List Int32)
  | bytecode (p : Path) (json : Bool)
  | help
  | cases
  deriving DecidableEq, Repr

/-- Why arguments are no command. -/
inductive Refusal
  | noCommand
  | unknownCommand (s : String)
  | noPath (command : String)
  | noValue (switch : String)
  | unknownBackend (s : String)
  | notAWord (s : String)
  deriving DecidableEq, Repr

/-- What is said about arguments that are no command. -/
def Refusal.message : Refusal → String
  | noCommand => "No command given"
  | unknownCommand s => "Invalid command: '" ++ s ++ "'"
  | noPath command => "The " ++ command ++ " command needs a path to a source file"
  | noValue switch => "Missing value for " ++ switch
  | unknownBackend s => "Unknown backend: '" ++ s ++ "'. Expected tree, stack or native."
  | notAWord s => "Invalid --input value: '" ++ s ++ "' is not a 32-bit integer"

/-- The first argument that is no switch and no value of one. -/
def path? : List String → Option Path
  | [] => none
  | [s] => if s.startsWith "--" then none else some (.ofText s)
  | s :: t :: rest =>
    if s = "--backend" || s = "--input" then path? rest
    else if s.startsWith "--" then path? (t :: rest)
    else some (.ofText s)

/-- The parts of a text between commas. -/
def splitCommas : List Char → List (List Char)
  | [] => [[]]
  | ',' :: rest => [] :: splitCommas rest
  | c :: rest =>
    match splitCommas rest with
    | [] => [[c]]
    | part :: others => (c :: part) :: others

/-- The numbers in a text, which commas separate. -/
def input (s : String) : Except Refusal (List Int32) :=
  let parts := (splitCommas s.toList).map Text.trim
  (parts.filter fun part => !part.isEmpty).mapM fun part =>
    match Text.word? part with
    | some n => .ok n
    | none => .error (.notAWord (String.ofList part))

/-- The executor and the input that switches choose. Of two choices the later one counts. -/
def choices (b : Backend) (ns : List Int32) :
    List String → Except Refusal (Backend × List Int32)
  | [] => .ok (b, ns)
  | [s] => if s = "--backend" || s = "--input" then .error (.noValue s) else .ok (b, ns)
  | s :: t :: rest =>
    if s = "--backend" then
      match Backend.ofName? t with
      | some b => choices b ns rest
      | none => .error (.unknownBackend t)
    else if s = "--input" then
      match input t with
      | .ok ns => choices b ns rest
      | .error e => .error e
    else choices b ns (t :: rest)

/-- The program that a command is about. -/
def pathOf (command : String) (arguments : List String) : Except Refusal Path :=
  match path? arguments with
  | some p => .ok p
  | none => .error (.noPath command)

/-- The command that arguments stand for. -/
def Command.ofArguments : List String → Except Refusal Command
  | [] => .error .noCommand
  | "help" :: _ => .ok .help
  | "build" :: rest => return .build (← pathOf "build" rest)
  | "run" :: rest => do
    let p ← pathOf "run" rest
    let (b, ns) ← choices .stack [] rest
    return .run p b ns
  | "bytecode" :: rest => return .bytecode (← pathOf "bytecode" rest) (rest.contains "--json")
  | "tests" :: _ => .ok .cases
  | s :: _ => .error (.unknownCommand s)

/-- What the program is. -/
def title : String :=
  "------------------------------------\n" ++
  "triad: an expression language compiler with three backends\n" ++
  "Usage: <command> <args>\n"

/-- The commands and switches. -/
def commands : String :=
  "\nCommands:\n" ++
  "  build <file.expr>                 - Compiles to x86 assembly in the output folder\n" ++
  "  run <file.expr>                   - Runs a program and prints its output\n" ++
  "      --backend tree|stack|native   (default: stack)\n" ++
  "      --input 1,2,3                 values returned by read()\n" ++
  "  bytecode <file.expr> [--json]     - Prints the compiled stack program\n" ++
  "  tests                             - Runs the integration cases\n" ++
  "  help\n" ++
  "\nFlags:\n" ++
  "  --hide-timers\n" ++
  "  --windows       (prefix global symbols with '_')\n" ++
  "  --unix\n" ++
  "  --no-comments   (no source annotations in the assembly)\n"

/-- An outcome as it is printed. -/
def outcomeText (o : Outcome) : String :=
  String.join (o.output.map fun n => toString n ++ "\n") ++
    o.uncaught.elim "" fun u =>
      "Uncaught exception " ++ u.name ++ " (id " ++ toString u.id ++ ") with payload " ++
        toString u.payload ++ "\n"

/-- Bytecode as it is printed. -/
def bytecodeText (b : Bytecode) (json : Bool) : String :=
  if json then b.json.pretty ++ "\n"
  else
    String.join (b.routines.map Bytecode.Routine.text) ++
      String.join (b.literals.zipIdx.map fun (s, i) =>
        "#" ++ toString i ++ " " ++ Text.quote s ++ "\n")

variable {m : Type → Type} [Monad m]

/-- Print what came of the work, or why there is nothing. -/
def finish {α : Type} (s : Surroundings m) (text : α → String) : Except Report α → m Unit
  | .ok a => s.print (text a)
  | .error r => Toolchain.explain s r

/-- Do what a command asks for. -/
def perform (s : Surroundings m) (flags : List Flag) : Command → m Unit
  | .help => s.print (title ++ commands)
  | .build p => do
    finish s (fun target => "Wrote " ++ Text.quote target.text ++ "\n")
      (← Toolchain.build s p flags)
  | .run p b ns => do
    match ← Toolchain.run s p b ns flags with
    | some r => finish s outcomeText r
    | none => return
  | .bytecode p json => do
    finish s (fun (c, _) => bytecodeText c.bytecode json) (← Toolchain.load s p flags)
  | .cases => do
    let _ ← Cases.run s flags

/-- Do what arguments ask for. -/
def run (s : Surroundings m) (arguments : List String) : m Unit :=
  if arguments.isEmpty then s.print (title ++ commands)
  else
    match Command.ofArguments arguments with
    | .ok command => perform s (arguments.filterMap Flag.ofText?) command
    | .error e => s.print (e.message ++ "\n" ++ commands)

end CommandLine

end Threefold
