import Threefold.Text.Number
import Threefold.X86

/-!
# Reading directives

Directives are read in the form in which modules are written, without the indentation and without a
platform's decoration. The text of a string is taken as it stands. A line that is nothing else is an
instruction, and an operand that is nothing else is the word at a symbol.
-/

namespace Threefold.X86

/-- What is left of a text behind another one that it starts with. -/
def after? (start s : String) : Option String :=
  if s.startsWith start then some (String.ofList (s.toList.drop start.length)) else none

/-- The register with a given written form. -/
def Register.ofText? (s : String) : Option Register :=
  all.find? fun r => s = "%" ++ r.name

/-- The byte register with a given written form. -/
def ByteRegister.ofText? (s : String) : Option ByteRegister :=
  all.find? fun r => s = "%" ++ r.name

/-- The word at a register and an offset, from its written form. -/
def memoryOfText? (s : String) : Option Operand :=
  let offset := s.toList.takeWhile (· != '(')
  match s.toList.drop (offset.length + 1) |>.reverse with
  | ')' :: base =>
    match Register.ofText? (String.ofList base.reverse) with
    | some r =>
      if offset.isEmpty then some (.memory r 0)
      else (Text.word? offset).map (.memory r)
    | none => none
  | _ => none

/-- An operand from its written form. -/
def Operand.ofText (s : String) : Operand :=
  match after? "$" s with
  | some rest =>
    match Text.word? rest.toList with
    | some n => immediate n
    | none => address rest
  | none =>
    match Register.ofText? s with
    | some r => register r
    | none => (memoryOfText? s).getD (global s)

/-- A label from its written form: the index stands behind the last underscore. -/
def Label.ofText? (s : String) : Option Label := do
  let rest ← after? ".L" s
  match (rest.splitOn "_").reverse with
  | index :: function@(_ :: _) =>
    return ⟨"_".intercalate function.reverse, ← Text.nat? index.toList⟩
  | _ => none

/-- The condition at the end of an instruction's name. -/
def Condition.ofSuffix? (s : String) : Option Condition :=
  all.find? (·.suffix = s)

/-- The operands of an instruction with two of them. -/
def twoOperands? (s : String) : Option (String × String) :=
  match s.splitOn ", " with
  | [l, r] => some (l, r)
  | _ => none

/-- An instruction from its name and the text of its operands. -/
def Instruction.ofParts? (name rest : String) : Option Instruction :=
  let both (i : Operand → Operand → Instruction) : Option Instruction :=
    (twoOperands? rest).map fun (l, r) => i (.ofText l) (.ofText r)
  match name with
  | "movl" => both mov
  | "addl" => both add
  | "subl" => both sub
  | "andl" => both and
  | "orl" => both or
  | "cmpl" => both cmp
  | "testl" => both test
  | "imull" => do
    let (l, r) ← twoOperands? rest
    return imul (.ofText l) (← Register.ofText? r)
  | "movzbl" => do
    let (l, r) ← twoOperands? rest
    return movzbl (← ByteRegister.ofText? l) (← Register.ofText? r)
  | "cltd" => some cltd
  | "ret" => some ret
  | "idivl" => some (idiv (.ofText rest))
  | "pushl" => some (push (.ofText rest))
  | "popl" => some (pop (.ofText rest))
  | "call" => some (call rest)
  | "jmp" => (Label.ofText? rest).map jmp
  | _ =>
    match after? "set" name, after? "j" name with
    | some c, _ => do return set (← Condition.ofSuffix? c) (← ByteRegister.ofText? rest)
    | none, some c => do return jcc (← Condition.ofSuffix? c) (← Label.ofText? rest)
    | none, none => none

/-- The text in front of a colon that ends it. -/
def beforeColon? (s : String) : Option String :=
  if s.endsWith ":" then some (String.ofList (s.toList.take (s.length - 1))) else none

/-- A directive from its written form. -/
def Directive.ofText? (s : String) : Option Directive :=
  match s with
  | ".text" => some (enter .code)
  | ".section .rodata" => some (enter .constants)
  | ".data" => some (enter .data)
  | _ =>
    match after? ".globl " s, after? ".asciz " s, after? ".long " s, after? "# " s with
    | some name, _, _, _ => some (.export name)
    | _, some text, _, _ => some (string text)
    | _, _, some n, _ => (Text.word? n.toList).map word
    | _, _, _, some text => some (comment text)
    | none, none, none, none =>
      match beforeColon? s with
      | some name =>
        match Label.ofText? name with
        | some l => some (label l)
        | none => some (symbol name)
      | none =>
        let name := s.toList.takeWhile (· != ' ')
        (Instruction.ofParts? (String.ofList name)
          (String.ofList (s.toList.drop (name.length + 1)))).map instruction

end Threefold.X86
