import Threefold.Bytecode
import Threefold.Text.Number

/-!
# Reading instructions

Instructions are read in the form in which listings show them. A call of a signature that a built-in
function has is a call of that function.
-/

namespace Threefold

/-- A signature from its written form: the arity stands behind the last slash. -/
def Signature.ofText? (s : String) : Option Signature :=
  match (s.splitOn "/").reverse with
  | arity :: rest@(_ :: _) => (Text.nat? arity.toList).map fun n => ⟨"/".intercalate rest.reverse, n⟩
  | _ => none

namespace Bytecode

/-- The number behind a text that another one starts with. -/
def numberAfter? (start : String) (s : String) : Option Nat :=
  if s.startsWith start then Text.nat? (s.toList.drop start.length) else none

/-- A variable from its written form. -/
def Variable.ofText (s : String) : Variable :=
  if s = "$ex" then pending
  else if s = "$exdata" then pendingData
  else if s = "$thrown" then thrown
  else if s = "$thrown_data" then thrownData
  else
    match numberAfter? "$fin_ex" s, numberAfter? "$fin_data" s, numberAfter? "$arr" s with
    | some n, _, _ => saved n
    | _, some n, _ => savedData n
    | _, _, some n => array n
    | none, none, none => named s

/-- What is called, from its signature. -/
def Callee.ofSignature (s : Signature) : Callee :=
  match Intrinsic.ofSignature? s with
  | some i => intrinsic i
  | none => routine s

/-- An instruction with an operand, from the name of the one and the text of the other. -/
def Instruction.ofParts? (name operand : String) : Option Instruction :=
  match name with
  | "Push" => (Text.word? operand.toList).map push
  | "PushPooled" => (numberAfter? "#" operand).map pushLiteral
  | "Ld" => some (load (.ofText operand))
  | "St" => some (store (.ofText operand))
  | "Unop" => if operand = "!" then some (unary .not) else none
  | "Binop" => (BinaryOp.ofSymbol? operand).map binary
  | "Jmp" => (Text.nat? operand.toList).map jump
  | "Jz" => (Text.nat? operand.toList).map jumpIfZero
  | "Call" => (Signature.ofText? operand).map fun s => call (.ofSignature s)
  | _ => none

/-- An instruction from its written form. -/
def Instruction.ofText? (s : String) : Option Instruction :=
  match s with
  | "Pop" => some pop
  | "Ret1" => some returnValue
  | "Ret0" => some returnZero
  | "TransEx" => some transfer
  | _ =>
    let name := s.toList.takeWhile (· != ' ')
    ofParts? (String.ofList name) (String.ofList (s.toList.drop (name.length + 1)))

end Bytecode

end Threefold
