import Threefold.Proofs.Bytecode.Layout
import Threefold.Proofs.Bytecode.Steps

/-!
# Points in the code of a routine

Between two instructions of compiled code an activation is at a `point`: it has its variables, its
operands and the index of the next instruction, and hands nothing over. The instructions without
calls lead from point to point. Code that only moves values is executed in one go, by a function
(`moveAll?`), so that a block of it is one computation (`Steps.block`).
-/

namespace Threefold.Bytecode.Machine

open Compilation (Goal Mark CodeAt code)

/-- The variables of an activation. -/
abbrev Store := Bindings Variable Value

/-- The value of a variable. -/
def Store.load (b : Store) (x : Variable) : Value :=
  b.getD x (.scalar 0)

@[simp]
theorem Store.load_set (b : Store) (x y : Variable) (v : Value) :
    Store.load (b.set x v) y = if x = y then v else b.load y := by
  unfold Store.load Bindings.getD
  rw [Bindings.get?_set]
  by_cases h : x = y <;> simp [h]

/-- Where an activation runs: its routine, and who waits for it. -/
structure Site where
  routine : Routine
  callers : List Activation

/-- An activation between two instructions. -/
abbrev Site.point (S : Site) (w : World) (b : Store) (ops : List Value) (next : Nat) : Progress :=
  .running w ⟨S.routine, b, ops, next, none⟩ S.callers

variable {image : Image} {S : Site} {w : World} {b b' : Store} {ops ops' : List Value}
  {pos : Nat} {targets : Goal → Nat}

theorem Steps.one {i : Instruction} (h : S.routine.code[pos]? = some i) (hi : i ≠ .transfer) :
    Steps image 1 (S.point w b ops pos)
      (execute image i w ⟨S.routine, b, ops, pos + 1, none⟩ S.callers) := by
  refine .step (fun ht => ?_) ?_
  · exact absurd (Option.some.inj (h.symm.trans ht)) hi
  · simp only [Machine.step, h]
    exact .refl _

/-! ## Values that are moved -/

/-- The variables and operands after an instruction that only moves values. -/
def move? : Instruction → Store × List Value → Option (Store × List Value)
  | .push n, (b, ops) => some (b, .scalar n :: ops)
  | .load x, (b, ops) => some (b, b.load x :: ops)
  | .store x, (b, v :: ops) => some (b.set x v, ops)
  | .pop, (b, _ :: ops) => some (b, ops)
  | _, _ => none

/-- The variables and operands after instructions that only move values. -/
def moveAll? : List Instruction → Store × List Value → Option (Store × List Value)
  | [], s => some s
  | i :: is, s => (move? i s).bind (moveAll? is)

theorem Steps.move {i : Instruction} (h : S.routine.code[pos]? = some i)
    (hm : move? i (b, ops) = some (b', ops')) :
    Steps image 1 (S.point w b ops pos) (S.point w b' ops' (pos + 1)) := by
  have ht : i ≠ .transfer := by
    rintro rfl
    cases hm
  have next : Steps image 1 (S.point w b ops pos) _ := Steps.one h ht
  cases i with
  | push n =>
    cases hm
    exact next
  | load x =>
    cases hm
    exact next
  | store x =>
    cases ops with
    | nil => cases hm
    | cons v ops =>
      cases hm
      exact next
  | pop =>
    cases ops with
    | nil => cases hm
    | cons v ops =>
      cases hm
      exact next
  | _ => cases hm

/-- Code that only moves values. -/
theorem Steps.block {is : List Instruction} (h : CodeAt S.routine.code targets pos (code is))
    (hm : moveAll? is (b, ops) = some (b', ops')) :
    Steps image is.length (S.point w b ops pos) (S.point w b' ops' (pos + is.length)) := by
  induction is generalizing pos b ops with
  | nil =>
    cases hm
    exact .refl _
  | cons i is ih =>
    obtain ⟨⟨b₁, ops₁⟩, h₁, h₂⟩ := Option.bind_eq_some_iff.mp hm
    have first : Steps image 1 (S.point w b ops pos) (S.point w b₁ ops₁ (pos + 1)) :=
      Steps.move h.1 h₁
    have rest := first.trans (ih h.2 h₂)
    have shift : pos + 1 + is.length = pos + (i :: is).length := by
      rw [List.length_cons]
      omega
    rw [shift, Nat.add_comm] at rest
    exact rest

theorem moveAll?_append (is js : List Instruction) (s : Store × List Value) :
    moveAll? (is ++ js) s = (moveAll? is s).bind (moveAll? js) := by
  induction is generalizing s with
  | nil => rfl
  | cons i is ih =>
    simp only [List.cons_append, moveAll?]
    cases move? i s with
    | none => rfl
    | some s' => exact ih s'

theorem moveAll?_pop (vs ops : List Value) (b : Store) :
    moveAll? (.replicate vs.length .pop) (b, vs ++ ops) = some (b, ops) := by
  induction vs with
  | nil => rfl
  | cons v vs ih => exact ih

/-! ## The other instructions -/

theorem Steps.unary {op : UnaryOp} {v : Value}
    (h : S.routine.code[pos]? = some (.unary op)) :
    Steps image 1 (S.point w b (v :: ops) pos)
      (S.point w b (.scalar (op.eval v.word) :: ops) (pos + 1)) :=
  Steps.one h (by nofun)

theorem Steps.binary {op : BinaryOp} {l r : Value}
    (h : S.routine.code[pos]? = some (.binary op)) :
    Steps image 1 (S.point w b (r :: l :: ops) pos)
      (match op.eval? l.word r.word with
        | some m => S.point w b (.scalar m :: ops) (pos + 1)
        | none => .fault (.arithmetic l.word op r.word)) :=
  Steps.one h (by nofun)

theorem Steps.jump {target : Nat} (h : S.routine.code[pos]? = some (.jump target)) :
    Steps image 1 (S.point w b ops pos) (S.point w b ops target) :=
  Steps.one h (by nofun)

theorem Steps.jumpIfZero {target : Nat} {v : Value}
    (h : S.routine.code[pos]? = some (.jumpIfZero target)) :
    Steps image 1 (S.point w b (v :: ops) pos)
      (S.point w b ops (if v.word = 0 then target else pos + 1)) :=
  Steps.one h (by nofun)

/-- A mark that is a jump to where exceptions go. -/
theorem Steps.raise {origin : String} (h : CodeAt S.routine.code targets pos [.raise origin]) :
    Steps image 1 (S.point w b ops pos) (S.point w b ops (targets .handler)) :=
  Steps.jump h.1

/-- A variable is compared with a number, and control goes on or elsewhere. -/
theorem Steps.compare {x : Variable} {n : Int32} {target : Nat}
    (h : CodeAt S.routine.code targets pos
      (code [.load x, .push n, .binary .eq, .jumpIfZero target])) :
    Steps image 4 (S.point w b ops pos)
      (S.point w b ops (if (b.load x).word = n then pos + 4 else target)) := by
  have first : CodeAt S.routine.code targets pos (code [.load x, .push n]) := ⟨h.1, h.2.1, trivial⟩
  have pushed : Steps image 2 (S.point w b ops pos)
      (S.point w b (.scalar n :: b.load x :: ops) (pos + 2)) := Steps.block first rfl
  have compared := (pushed.trans (Steps.binary h.2.2.1)).trans (Steps.jumpIfZero h.2.2.2.1)
  by_cases hx : (b.load x).word = n
  · have one : (Value.scalar (truth ((b.load x).word == (Value.scalar n).word))).word ≠ 0 := by
      simp [hx, Value.scalar, truth]
    rw [if_neg one] at compared
    rw [if_pos hx]
    exact compared
  · have zero : (Value.scalar (truth ((b.load x).word == (Value.scalar n).word))).word = 0 := by
      simp [hx, Value.scalar, truth]
    rw [if_pos zero] at compared
    rw [if_neg hx]
    exact compared

end Threefold.Bytecode.Machine
