import Threefold.Bytecode
import Threefold.Json

/-!
# Bytecode as JSON

The form in which other tools read a program. An instruction without an operand is its name; any
other is an object whose one member is named for the instruction and holds the operand. Variables
and callees follow the same rule.
-/

namespace Threefold

/-- An object with one member. -/
def Json.tagged (tag : String) (j : Json) : Json :=
  .object [(tag, j)]

/-- A signature as JSON. -/
def Signature.json (s : Signature) : Json :=
  .object [("name", .string s.name), ("arity", .int s.arity)]

/-- The name of a built-in function in JSON. -/
def Intrinsic.jsonName : Intrinsic → String
  | .read => "Read"
  | .write => "Write"
  | .strMake => "StrMake"
  | .strCmp => "StrCmp"
  | .strGet => "StrGet"
  | .strDup => "StrDup"
  | .strSet => "StrSet"
  | .strCat => "StrCat"
  | .strSub => "StrSub"
  | .strLen => "StrLen"
  | .arrMake => "ArrMake"
  | .arrMakeBoxed => "ArrMakeBoxed"
  | .arrGet => "ArrGet"
  | .arrSet => "ArrSet"
  | .arrLen => "ArrLen"

/-- The name of an operator with one operand in JSON. -/
def UnaryOp.jsonName : UnaryOp → String
  | .not => "Not"

/-- The name of an operator with two operands in JSON. -/
def BinaryOp.jsonName : BinaryOp → String
  | .plus => "Plus"
  | .minus => "Minus"
  | .times => "Times"
  | .div => "Div"
  | .rem => "Rem"
  | .and => "And"
  | .or => "Or"
  | .eq => "Eq"
  | .ne => "Neq"
  | .gt => "Gt"
  | .lt => "Lt"
  | .le => "Leq"
  | .ge => "Geq"

namespace Bytecode

/-- A variable as JSON. -/
def Variable.json : Variable → Json
  | named x => .tagged "User" (.string x)
  | pending => .string "CurrentException"
  | pendingData => .string "ExceptionData"
  | thrown => .string "Thrown"
  | thrownData => .string "ThrownData"
  | saved n => .tagged "FinallyException" (.int n)
  | savedData n => .tagged "FinallyData" (.int n)
  | array n => .tagged "ArrayLiteral" (.int n)

/-- What is called, as JSON. -/
def Callee.json : Callee → Json
  | intrinsic i => .tagged "Intrinsic" (.string i.jsonName)
  | routine s => .tagged "User" s.json

/-- An instruction as JSON. -/
def Instruction.json : Instruction → Json
  | push n => .tagged "Push" (.int n.toInt)
  | pushLiteral i => .tagged "PushPooled" (.int i)
  | load x => .tagged "Ld" x.json
  | store x => .tagged "St" x.json
  | unary op => .tagged "Unop" (.string op.jsonName)
  | binary op => .tagged "Binop" (.string op.jsonName)
  | jump target => .tagged "Jmp" (.int target)
  | jumpIfZero target => .tagged "Jz" (.int target)
  | call callee => .tagged "Call" callee.json
  | pop => .string "Pop"
  | returnValue => .string "Ret1"
  | returnZero => .string "Ret0"
  | transfer => .string "TransEx"

/-- A routine as JSON. -/
def Routine.json (r : Routine) : Json :=
  .object [("key", r.signature.json), ("parameters", .array (r.parameters.map .string)),
    ("instructions", .array (r.code.toList.map Instruction.json)), ("can_throw", .bool r.canThrow)]

/-- A program as JSON. -/
def json (b : Bytecode) : Json :=
  .object [("functions", .array (b.routines.map Routine.json)), ("entry", b.entry.json),
    ("literal_pool", .array (b.literals.map .string)),
    ("exception_names", .array (b.exceptions.map .string))]

end Bytecode

end Threefold
