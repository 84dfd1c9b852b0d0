import Threefold.Share
import Threefold.Text.Quoted
import Threefold.Toolchain

/-!
# Cases

Programs in two folders that show what the toolchain does. A program in the first one must write what
the file beside it says, on every executor; a program in the second one must be refused by the
compiler. The cases of a folder are taken in the order of their names.
-/

namespace Threefold.Cases

/-- What a program must do: the numbers it reads and writes, and the exception that leaves it. -/
structure Expectation where
  input : List Int32
  output : List Int32
  uncaught : Option String
  deriving DecidableEq, Repr

namespace Expectation

/-- A word. -/
def word? : Toml → Option Int32
  | .integer n =>
    if Int32.minValue.toInt ≤ n ∧ n ≤ Int32.maxValue.toInt then some (.ofInt n) else none
  | _ => none

/-- A list of words. -/
def words? : Toml → Option (List Int32)
  | .array vs => vs.mapM word?
  | _ => none

/-- The expectation in a text. -/
def ofText? (s : String) : Option Expectation := do
  let t ← Toml.ofText? s
  let t ← Toml.known? ["input", "output", "uncaught"] t
  return {
    input := ← Settings.field? t "input" words? (some [])
    output := ← Settings.field? t "output" words? none
    uncaught := ← Settings.field? t "uncaught" (fun v => (Settings.text? v).map some) (some none) }

end Expectation

/-- How many cases went which way. -/
structure Summary where
  passed : Nat
  failed : Nat
  refused : Nat
  accepted : Nat
  deriving DecidableEq, Repr

namespace Summary

/-- No cases. -/
def zero : Summary := ⟨0, 0, 0, 0⟩

/-- The number of cases. -/
def total (s : Summary) : Nat :=
  s.passed + s.failed + s.refused + s.accepted

/-- The number of cases that went as they should. -/
def correct (s : Summary) : Nat :=
  s.passed + s.refused

/-- The last words on all cases. -/
def verdict (s : Summary) : String :=
  if s.correct = s.total then "\n🎉 All tests behaved as expected!\n"
  else "\n⚠ " ++ Share.text s.correct s.total ++ " % of tests behaved as expected\n"

end Summary

/-- A number of the same character on a line. -/
def rule (c : Char) : String :=
  "".pushn c 37 ++ "\n"

/-- Numbers as messages show them. -/
def listText (ns : List Int32) : String :=
  "[" ++ ", ".intercalate (ns.map toString) ++ "]"

/-- The name of an exception, if there is one, as messages show it. -/
def nameText : Option String → String
  | some s => "Some(" ++ Text.quote s ++ ")"
  | none => "None"

/-- What is wrong with the outcome of a run. -/
def problems (e : Expectation) (b : Backend) : Option (Except Report Outcome) → List String
  | none => [b.name ++ " backend: no outcome"]
  | some (.error r) => [b.name ++ " backend: " ++ r.text]
  | some (.ok o) =>
    (if o.output = e.output then []
    else [b.name ++ " backend wrote " ++ listText o.output ++ ", expected " ++
      listText e.output]) ++
    (if o.uncaught.map Uncaught.name = e.uncaught then []
    else [b.name ++ " backend ended with uncaught " ++ nameText (o.uncaught.map Uncaught.name) ++
      ", expected " ++ nameText e.uncaught])

variable {m : Type → Type} [Monad m]

/-- The folder of all cases. -/
def folder : Path := .ofText "tests/cases"

/-- The programs of a folder in the order of their names. -/
def collect (s : Surroundings m) (folder : Path) : m (List Path) := do
  let names ← s.names folder
  let paths := (names.mergeSort (fun a b => a ≤ b)).map fun name => folder.join (.ofText name)
  return paths.filter fun p => p.extension? = some Settings.sourceExtension

/-- The program of a case, compiled. -/
def compile (s : Surroundings m) (p : Path) : m (Except Report Compiled) := do
  match ← Toolchain.readSource s p with
  | .error r => return .error r
  | .ok source => return Compiled.ofSource p source

/-- Everything that is wrong with a program that must run. -/
def checkSuccess (s : Surroundings m) (p : Path) : m (List String) := do
  let beside := p.withExtension "toml"
  match ← s.readText beside with
  | .error e => return ["Could not read " ++ beside.text ++ ": " ++ e.message]
  | .ok text =>
    match Expectation.ofText? text with
    | none => return ["Malformed " ++ beside.text]
    | some e =>
      match ← compile s p with
      | .error r => return ["did not compile: " ++ r.text]
      | .ok c =>
        return Backend.all.flatMap fun b => problems e b (c.run b e.input Settings.default.stepLimit)

/-- Try a program that must run. -/
def trySuccess (s : Surroundings m) (sum : Summary) (p : Path) : m Summary := do
  s.print ("  " ++ p.fileName?.getD "" ++ "\n")
  let wrong ← checkSuccess s p
  if wrong.isEmpty then s.print "✓ PASS\n"
  else s.print ("✗ FAIL\n" ++ String.join (wrong.map fun w => "    " ++ w ++ "\n"))
  s.print (rule '-')
  return if wrong.isEmpty then { sum with passed := sum.passed + 1 }
    else { sum with failed := sum.failed + 1 }

/-- Try a program that must be refused. -/
def tryFailure (s : Surroundings m) (sum : Summary) (p : Path) : m Summary := do
  s.print ("  " ++ p.fileName?.getD "" ++ "\n")
  match ← compile s p with
  | .error r =>
    s.print ("✓ EXPECTED FAILURE\n" ++ r.kind.title ++ "\n" ++ rule '-')
    return { sum with refused := sum.refused + 1 }
  | .ok _ =>
    s.print ("✗ UNEXPECTED SUCCESS\ncompiled without errors\n" ++ rule '-')
    return { sum with accepted := sum.accepted + 1 }

/-- Try all cases, and print what came of it. -/
def run (s : Surroundings m) (flags : List Flag) : m Summary := do
  let start ← s.clock
  s.print ("Running all triad test cases...\n\nCases that should run on every backend:\n" ++ rule '-')
  let sum ← (← collect s (folder.join (.ofText "success"))).foldlM (trySuccess s) Summary.zero
  s.print ("\nCases that should fail to compile:\n" ++ rule '-')
  let sum ← (← collect s (folder.join (.ofText "failure"))).foldlM (tryFailure s) sum
  let stop ← s.clock
  let time := if flags.contains .hideTimers then "" else ". Took: " ++ Duration.text (stop - start)
  s.print ("\n" ++ rule '=' ++ "Test Results Summary" ++ time ++ "\n" ++
    "  Total tests: " ++ toString sum.total ++ "\n" ++
    "  Passed on every backend: " ++ toString sum.passed ++ "\n" ++
    "  Failed: " ++ toString sum.failed ++ "\n" ++
    "  Expected failures: " ++ toString sum.refused ++ "\n" ++
    "  Unexpected successes: " ++ toString sum.accepted ++ "\n" ++
    "\n  Correct results: " ++ toString sum.correct ++ " / " ++ toString sum.total ++ "\n" ++
    sum.verdict ++ rule '=')
  return sum

end Threefold.Cases
