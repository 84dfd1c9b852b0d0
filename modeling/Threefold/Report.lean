import Threefold.Location

/-!
# Reports

Every stage that can refuse its input has a type of causes of its own. A report is what they have
in common once a cause is to be shown: its kind, a message, the place it concerns and notes that
help the reader. The notes are a list of labelled remarks with at most one remark under a label.
-/

namespace Threefold

namespace Report

/-- What went wrong, by the stage that noticed it. -/
inductive Kind
  /-- The text is not a program. -/
  | syntactic
  /-- A call cannot be bound to a declaration, or two declarations collide. -/
  | binding
  /-- The bytecode compiler broke one of its own rules. -/
  | compilation
  /-- A bytecode program cannot be lowered to machine code. -/
  | lowering
  /-- A program faulted while it was running. -/
  | execution
  /-- A file cannot be used. -/
  | file
  /-- A settings file cannot be read. -/
  | settings
  deriving DecidableEq, Repr

/-- The words that introduce a report of this kind. -/
def Kind.title : Kind → String
  | .syntactic => "Syntax Error"
  | .binding => "Resolution Error"
  | .compilation => "Compiler Bug"
  | .lowering => "Native Codegen Bug"
  | .execution => "Runtime Fault"
  | .file => "File Error"
  | .settings => "Malformed Config"

/-- The labels under which a report can carry a remark. -/
inductive Label
  | stage
  | suggestion
  | alternative
  | instruction
  | expectedStack
  | foundStack
  deriving DecidableEq, Repr

/-- The label as it is printed. -/
def Label.name : Label → String
  | .stage => "CompilationStage"
  | .suggestion => "PrimarySuggestion"
  | .alternative => "AlternativeSuggestion"
  | .instruction => "InstructionKind"
  | .expectedStack => "ExpectedStackShape"
  | .foundStack => "FoundStackShape"

/-- A labelled remark. -/
abbrev Note := Label × String

end Report

/-- Why a stage refused its input, in the form in which it is shown. -/
structure Report where
  kind : Report.Kind
  message : String
  location : Location
  notes : List Report.Note
  deriving DecidableEq, Repr

namespace Report

/-- The report on one line: the title of its kind, then its message. -/
def text (r : Report) : String :=
  r.kind.title ++ ": " ++ r.message

/-- The same report, placed in a file. -/
def inFile (r : Report) (file : String) : Report :=
  { r with location := { r.location with file } }

end Report

/-- A thing together with the place it concerns. -/
structure Located (α : Type) where
  value : α
  location : Location
  deriving DecidableEq, Repr

end Threefold
