import Threefold.Intrinsic
import Threefold.Operator
import Threefold.Program.Exceptions

/-!
# Bytecode

The linear form of a program. A routine works on a stack of operands and on variables of its own;
jumps go to an index of its code. Beside the variables of the program it has some of its own: the
exception that is under way with its payload, the exception that a callee has handed over with its
payload, what was under way when a block that runs in any case began, and the array that a literal
is filling. Returning is an exception that only the end of the routine accepts.
-/

namespace Threefold

namespace Bytecode

/-- The variables of a routine. -/
inductive Variable
  | named (x : String)
  | pending
  | pendingData
  | thrown
  | thrownData
  | saved (n : Nat)
  | savedData (n : Nat)
  | array (n : Nat)
  deriving DecidableEq, Repr

namespace Variable

/-- A variable as listings show it. Names of programs have no dollar sign. -/
def text : Variable → String
  | named x => x
  | pending => "$ex"
  | pendingData => "$exdata"
  | thrown => "$thrown"
  | thrownData => "$thrown_data"
  | saved n => "$fin_ex" ++ toString n
  | savedData n => "$fin_data" ++ toString n
  | array n => "$arr" ++ toString n

/-- Whether a variable only ever holds the number of an exception. -/
def isNumber : Variable → Bool
  | pending | thrown | saved _ => true
  | _ => false

end Variable

/-- What an instruction can call. -/
inductive Callee
  | intrinsic (i : Intrinsic)
  | routine (s : Signature)
  deriving DecidableEq, Repr

namespace Callee

/-- The signature of what is called. -/
def signature : Callee → Signature
  | intrinsic i => i.signature
  | routine s => s

/-- The number of operands that a call takes. -/
def arity (c : Callee) : Nat :=
  c.signature.arity

/-- What is called, as listings show it. -/
def text (c : Callee) : String :=
  c.signature.text

end Callee

/-- The instructions of the stack machine. -/
inductive Instruction
  | push (n : Int32)
  /-- Push the handle of a string literal. -/
  | pushLiteral (i : Nat)
  | load (x : Variable)
  | store (x : Variable)
  | unary (op : UnaryOp)
  | binary (op : BinaryOp)
  | jump (target : Nat)
  /-- Pop a condition, and jump if it is zero. -/
  | jumpIfZero (target : Nat)
  | call (callee : Callee)
  | pop
  /-- Return the value on top. -/
  | returnValue
  /-- Return zero. -/
  | returnZero
  /-- Hand the exception under way over to the caller. -/
  | transfer
  deriving DecidableEq, Repr

namespace Instruction

/-- An instruction as listings show it. -/
def text : Instruction → String
  | push n => "Push " ++ toString n
  | pushLiteral i => "PushPooled #" ++ toString i
  | load x => "Ld " ++ x.text
  | store x => "St " ++ x.text
  | unary op => "Unop " ++ op.symbol
  | binary op => "Binop " ++ op.symbol
  | jump target => "Jmp " ++ toString target
  | jumpIfZero target => "Jz " ++ toString target
  | call callee => "Call " ++ callee.text
  | pop => "Pop"
  | returnValue => "Ret1"
  | returnZero => "Ret0"
  | transfer => "TransEx"

/-- Where an instruction may jump to. -/
def target? : Instruction → Option Nat
  | jump target | jumpIfZero target => some target
  | _ => none

/-- Whether the next instruction is never reached from this one. -/
def endsFlow : Instruction → Bool
  | jump _ | returnValue | returnZero => true
  | _ => false

/-- The number of operands an instruction takes. -/
def pops : Instruction → Nat
  | store _ | pop | jumpIfZero _ | returnValue | unary _ => 1
  | binary _ => 2
  | call callee => callee.arity
  | _ => 0

/-- The number of operands an instruction leaves. -/
def pushes : Instruction → Nat
  | push _ | pushLiteral _ | load _ | unary _ | binary _ | call _ => 1
  | _ => 0

end Instruction

/-- The code of one function. Callers of a routine that can throw look for an exception after the
call. -/
structure Routine where
  signature : Signature
  parameters : List String
  code : Array Instruction
  canThrow : Bool
  deriving DecidableEq, Repr

end Bytecode

/-- The routines of a program in the order of their declaration, the one where it starts, its
string literals, and its exceptions by number. -/
structure Bytecode where
  routines : List Bytecode.Routine
  entry : Signature
  literals : List String
  exceptions : List String
  deriving DecidableEq, Repr

namespace Bytecode

/-- The routine with a given signature. -/
def routine? (b : Bytecode) (s : Signature) : Option Routine :=
  b.routines.find? (·.signature = s)

/-- Whether a call can hand over an exception. -/
def canThrow (b : Bytecode) : Callee → Bool
  | .intrinsic i => i.canThrow
  | .routine s => ((b.routine? s).map Routine.canThrow).getD false

/-- What a number of an exception stands for. -/
def exceptionName? (b : Bytecode) (n : Int32) : Option String :=
  Exceptions.name? b.exceptions n

/-- A number in at least five columns. -/
def columns (n : Nat) : String :=
  let digits := toString n
  "".pushn ' ' (5 - digits.length) ++ digits

/-- The listing of a routine. -/
def Routine.text (r : Routine) : String :=
  "fun " ++ r.signature.text ++ "(" ++ ", ".intercalate r.parameters ++ ")" ++
    (if r.canThrow then " can throw" else "") ++ "\n" ++
    String.join (r.code.toList.zipIdx.map fun (i, n) => columns n ++ ": " ++ i.text ++ "\n")

/-- The listing of a program. -/
def text (b : Bytecode) : String :=
  String.join (b.literals.zipIdx.map fun (s, n) => "#" ++ toString n ++ " = \"" ++ s ++ "\"\n") ++
    String.join (b.routines.map fun r => "\n" ++ r.text) ++ "\n# entry: " ++ b.entry.text

end Bytecode

end Threefold
