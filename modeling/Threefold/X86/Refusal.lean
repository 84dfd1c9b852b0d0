import Threefold.Bytecode
import Threefold.Report
import Threefold.X86.Operands

/-!
# Why bytecode cannot be lowered

Lowering needs to know the operands at every instruction. It refuses code of which that cannot be
said: where operands are missing, where two ways meet with different operands, or where control can
leave the code without returning. It also refuses code that mentions what is not there.
-/

namespace Threefold.X86

/-- Why bytecode cannot be lowered. -/
inductive Refusal
  | noEntry (entry : Signature)
  | noOperand (origin : String)
  | tooFewOperands (origin : String) (needed held : Nat)
  | noHome (x : Bytecode.Variable)
  | jumpOutside (i : Bytecode.Instruction) (index : Nat) (function : Signature)
      (target length : Nat)
  | unequalFall (index : Nat) (function : Signature) (recorded falling : Operands)
  | unequalJump (target : Nat) (function : Signature) (recorded arriving : Operands) (index : Nat)
  | noReturn (function : Signature)
  | noLiteral (index : Nat) (function : Signature) (literal length : Nat)
  | notCompiled (function : Signature)
  deriving DecidableEq, Repr

namespace Refusal

/-- What is said about a cause. -/
def message : Refusal → String
  | noEntry s => "Entry function " ++ s.text ++ " was never compiled"
  | noOperand origin => origin ++ " needs an operand but the symbolic stack is empty"
  | tooFewOperands origin needed held =>
    origin ++ " needs " ++ toString needed ++ " operands but the symbolic stack holds " ++
      toString held
  | noHome x => "Variable " ++ x.text ++ " has no home in this frame"
  | jumpOutside i index f target length =>
    i.text ++ " at " ++ toString index ++ " in " ++ f.text ++ " targets " ++ toString target ++
      ", but the function has " ++ toString length ++ " instructions"
  | unequalFall index f recorded falling =>
    mismatch index f ++ recorded.text ++ " recorded by a jump, " ++ falling.text ++
      " falling through"
  | unequalJump target f recorded arriving index =>
    mismatch target f ++ recorded.text ++ " recorded, " ++ arriving.text ++
      " arriving from the jump at " ++ toString index
  | noReturn f => f.text ++ " can run past its last instruction without returning"
  | noLiteral index f literal length =>
    "PushPooled at " ++ toString index ++ " in " ++ f.text ++ " refers to literal #" ++
      toString literal ++ ", the pool has " ++ toString length
  | notCompiled f => "Call to " ++ f.text ++ " which was never compiled"
where
  /-- The words that say where two ways meet. -/
  mismatch (index : Nat) (f : Signature) : String :=
    "Symbolic stack mismatch at instruction " ++ toString index ++ " of " ++ f.text ++ ": "

/-- What kind of rule was broken, where there is a word for it. -/
def subject? : Refusal → Option String
  | noOperand _ => some "operand"
  | jumpOutside .. => some "jump"
  | unequalFall .. | unequalJump .. => some "merge point"
  | _ => none

/-- The report on a cause. Bytecode has no place in any text. -/
def report (r : Refusal) : Report :=
  ⟨.lowering, r.message, .unknown,
    r.subject?.elim [] fun subject =>
      [(.stage, "Native Codegen"), (.instruction, subject)]⟩

end Refusal

end Threefold.X86
