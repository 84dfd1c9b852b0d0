import Threefold.Operator
import Threefold.Program.Exceptions

/-!
# Machine code

The part of the 32-bit x86 instruction set that programs are lowered to, and the modules that hold
it: sections of code and data with their symbols. Instructions have their source first and their
destination last. Jumps go to labels, which belong to a function; calls go to symbols. Some symbols
are fixed: the two that count references, and the words in which an exception leaves a function.
-/

namespace Threefold.X86

/-- The registers. -/
inductive Register
  | eax
  | ebx
  | ecx
  | edx
  | esi
  | edi
  | ebp
  | esp
  deriving DecidableEq, Repr

/-- The name of a register. -/
def Register.name : Register → String
  | eax => "eax"
  | ebx => "ebx"
  | ecx => "ecx"
  | edx => "edx"
  | esi => "esi"
  | edi => "edi"
  | ebp => "ebp"
  | esp => "esp"

/-- Every register. -/
def Register.all : List Register :=
  [eax, ebx, ecx, edx, esi, edi, ebp, esp]

/-- The registers whose lowest byte is used on its own. -/
inductive ByteRegister
  | al
  | bl
  deriving DecidableEq, Repr

namespace ByteRegister

/-- The register that a byte belongs to. -/
def full : ByteRegister → Register
  | al => .eax
  | bl => .ebx

/-- The name of a byte register. -/
def name : ByteRegister → String
  | al => "al"
  | bl => "bl"

/-- Every byte register. -/
def all : List ByteRegister := [al, bl]

end ByteRegister

/-- What a signed comparison can say. -/
inductive Condition
  | equal
  | notEqual
  | less
  | lessOrEqual
  | greater
  | greaterOrEqual
  deriving DecidableEq, Repr

namespace Condition

/-- The condition as the end of an instruction's name. -/
def suffix : Condition → String
  | equal => "e"
  | notEqual => "ne"
  | less => "l"
  | lessOrEqual => "le"
  | greater => "g"
  | greaterOrEqual => "ge"

/-- Every condition. -/
def all : List Condition :=
  [equal, notEqual, less, lessOrEqual, greater, greaterOrEqual]

/-- The condition that an operator tests, if it compares numbers. -/
def ofOperator? : BinaryOp → Option Condition
  | .eq => some equal
  | .ne => some notEqual
  | .lt => some less
  | .le => some lessOrEqual
  | .gt => some greater
  | .ge => some greaterOrEqual
  | .plus | .minus | .times | .div | .rem | .and | .or => none

end Condition

/-- A name that the linker sees, before a platform decorates it. -/
abbrev Symbol := String

namespace Symbol

/-- Called to take a reference. -/
def retain : Symbol := "ref_increase"

/-- Called to give a reference back. -/
def release : Symbol := "ref_decrease"

/-- Where the payload of an exception is when a function hands it over. -/
def payload : Symbol := "exception_payload"

/-- Where the tag of that payload is. -/
def payloadTag : Symbol := "exception_payload_type"

/-- Where the number of an exception is when it leaves the program. -/
def uncaught : Symbol := "uncaught_exception"

/-- The function that the host calls. -/
def main : Symbol := "main"

/-- The symbol of a function: its name alone if it is the entry, and with its arity otherwise. -/
def ofSignature (entry s : Signature) : Symbol :=
  if s = entry then entry.name else s.name ++ "_" ++ toString s.arity

/-- The symbol of a string literal. -/
def ofLiteral (index : Nat) : Symbol :=
  "_pooled_string_" ++ toString index

end Symbol

/-- A place that jumps go to: the function it lies in, and the index of the bytecode instruction
that begins there. -/
structure Label where
  function : Symbol
  index : Nat
  deriving DecidableEq, Repr

/-- What an instruction works on. -/
inductive Operand
  | immediate (n : Int32)
  /-- The address of a symbol. -/
  | address (s : Symbol)
  | register (r : Register)
  /-- The word at an address that a register holds, moved by an offset. -/
  | memory (base : Register) (offset : Int32)
  /-- The word at a symbol. -/
  | global (s : Symbol)
  deriving DecidableEq, Repr

namespace Operand

instance : Coe Register Operand := ⟨.register⟩

/-- A word of the current frame. -/
def frame (offset : Int) : Operand :=
  memory .ebp (.ofInt offset)

/-- Whether an operand is in memory. -/
def isMemory : Operand → Bool
  | memory _ _ | global _ => true
  | _ => false

end Operand

/-- The instructions. -/
inductive Instruction
  | mov (source destination : Operand)
  | movzbl (source : ByteRegister) (destination : Register)
  | add (source destination : Operand)
  | sub (source destination : Operand)
  | imul (source : Operand) (destination : Register)
  | and (source destination : Operand)
  | or (source destination : Operand)
  | cmp (source destination : Operand)
  | test (source destination : Operand)
  | set (condition : Condition) (destination : ByteRegister)
  | cltd
  | idiv (divisor : Operand)
  | push (source : Operand)
  | pop (destination : Operand)
  | call (target : Symbol)
  | jmp (target : Label)
  | jcc (condition : Condition) (target : Label)
  | ret
  deriving DecidableEq, Repr

/-- The sections of a module. -/
inductive Section
  | code
  | constants
  | data
  deriving DecidableEq, Repr

/-- The lines of a module. -/
inductive Directive
  | enter (s : Section)
  | export (s : Symbol)
  | symbol (s : Symbol)
  | label (l : Label)
  | string (s : String)
  | word (n : Int32)
  | comment (s : String)
  | instruction (i : Instruction)
  deriving DecidableEq, Repr

/-- A whole program as machine code, with its exceptions by number. -/
structure Assembly where
  directives : List Directive
  exceptions : List String
  deriving DecidableEq, Repr

namespace Assembly

/-- The instructions of a module in their order. -/
def instructions (a : Assembly) : List Instruction :=
  a.directives.filterMap fun
    | .instruction i => some i
    | _ => none

/-- The type of exception with a given number. -/
def exceptionName? (a : Assembly) (n : Int32) : Option String :=
  Exceptions.listed? a.exceptions n

end Assembly

end Threefold.X86
