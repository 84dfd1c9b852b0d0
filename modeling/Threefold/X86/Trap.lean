import Threefold.Fault
import Threefold.Text.Quoted
import Threefold.X86.Text

/-!
# Traps

Why a run of machine code can end before its program does, and what is said about it. Where a message
concerns an instruction or an operand, it quotes its parts by name.
-/

namespace Threefold.X86

/-- Why a run of machine code ended before its program did. -/
inductive Trap
  /-- The program itself made a mistake in a call of the run-time library. -/
  | fault (f : Fault)
  | outsideCode (i : Instruction)
  | noMain
  | stepLimit (limit : Nat)
  | ranPast (index : Nat)
  | undefinedData (s : Symbol)
  | uninitialised (address : UInt32)
  | notWritable (o : Operand)
  | undefinedLabel (l : Label)
  | badReturn (address : Int32)
  | divisionByZero
  | quotientOverflow (dividend divisor : Int)
  | invalidTag (code : Int32) (argument : Nat) (word : Int32)
  | undefinedSymbol (s : Symbol)
  | unbalancedStack (found expected : UInt32)
  | lostRegister (r : Register)
  deriving DecidableEq, Repr

/-- A word in hexadecimal digits. -/
def hexadecimal (n : UInt32) : String :=
  "0x" ++ String.ofList (Nat.toDigits 16 n.toNat)

/-- The name of a thing and its parts. -/
def parts (name : String) (ps : List String) : String :=
  name ++ "(" ++ ", ".intercalate ps ++ ")"

/-- A symbol with its parts. -/
def describeSymbol (s : Symbol) : String :=
  parts "Symbol" [Text.quote s]

/-- The name of a register in a description. -/
def Register.title (r : Register) : String :=
  r.name.capitalize

/-- A label with its parts. -/
def Label.describe (l : Label) : String :=
  "Label \x7b function: " ++ describeSymbol l.function ++ ", index: " ++ toString l.index ++ " \x7d"

/-- An operand with its parts. -/
def Operand.describe : Operand → String
  | immediate n => parts "Immediate" [toString n]
  | address s => parts "Address" [describeSymbol s]
  | register r => parts "Register" [r.title]
  | memory base offset =>
    "Memory \x7b base: " ++ base.title ++ ", offset: " ++ toString offset ++ " \x7d"
  | global s => parts "Global" [describeSymbol s]

/-- The name of a condition in a description. -/
def Condition.title : Condition → String
  | equal => "Equal"
  | notEqual => "NotEqual"
  | less => "Less"
  | lessOrEqual => "LessOrEqual"
  | greater => "Greater"
  | greaterOrEqual => "GreaterOrEqual"

/-- An instruction with its parts. -/
def Instruction.describe : Instruction → String
  | mov s d => parts "Mov" [s.describe, d.describe]
  | movzbl s d => parts "Movzbl" [s.name.capitalize, d.title]
  | add s d => parts "Add" [s.describe, d.describe]
  | sub s d => parts "Sub" [s.describe, d.describe]
  | imul s d => parts "Imul" [s.describe, d.title]
  | and s d => parts "And" [s.describe, d.describe]
  | or s d => parts "Or" [s.describe, d.describe]
  | cmp s d => parts "Cmp" [s.describe, d.describe]
  | test s d => parts "Test" [s.describe, d.describe]
  | set c d => parts "Set" [c.title, d.name.capitalize]
  | cltd => "Cltd"
  | idiv d => parts "Idiv" [d.describe]
  | push s => parts "Push" [s.describe]
  | pop d => parts "Pop" [d.describe]
  | call s => parts "Call" [describeSymbol s]
  | jmp l => parts "Jmp" [l.describe]
  | jcc c l => parts "Jcc" [c.title, l.describe]
  | ret => "Ret"

namespace Trap

/-- What is said about a trap. -/
def message : Trap → String
  | fault f => f.message
  | outsideCode i => "Instruction outside .text: " ++ i.describe
  | noMain => "The module has no " ++ Symbol.main ++ " function"
  | stepLimit limit => "Step limit of " ++ toString limit ++ " reached"
  | ranPast index => "Execution ran past the end of the code at " ++ toString index
  | undefinedData s => "Undefined data symbol " ++ s
  | uninitialised a => "Read of uninitialised memory at " ++ hexadecimal a
  | notWritable o => "Cannot write to " ++ o.describe
  | undefinedLabel l => "Jump to undefined label " ++ l.text
  | badReturn a => "ret to " ++ hexadecimal a.toUInt32 ++ ", which is not a return address"
  | divisionByZero => "Arithmetic fault: division by zero"
  | quotientOverflow n d =>
    "Arithmetic fault: " ++ toString n ++ " / " ++ toString d ++ " overflows"
  | invalidTag code i n =>
    "Invalid type tag " ++ toString code ++ " for argument " ++ toString i ++ " (" ++ toString n ++
      ")"
  | undefinedSymbol s => "Call to undefined symbol " ++ s
  | unbalancedStack found expected =>
    Symbol.main ++ " returned with %esp at " ++ hexadecimal found ++ " instead of " ++
      hexadecimal expected
  | lostRegister r => Symbol.main ++ " did not preserve the host's " ++ r.text

/-- The report on a trap. A running program has no place in its text. -/
def report : Trap → Report
  | fault f => f.report
  | t => ⟨.execution, t.message, .unknown, []⟩

end Trap

end Threefold.X86
