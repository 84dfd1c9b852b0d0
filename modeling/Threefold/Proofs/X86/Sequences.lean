import Threefold.Proofs.X86.View

/-!
# Sequences of instructions

Generated code is put together from pieces that neither jump nor leave, so what a piece does to a
view is told by one function (`View.execAll`). A machine can follow a view as long as its stack
pointer is between the global words and the end of the stack (`Machine.Above`).
-/

namespace Threefold.X86

namespace View

variable {image : Image} {v v' : View}

theorem moveTop_world (v : View) (k : Nat) : (v.moveTop k).world = v.world := rfl

theorem put_world (v : View) (k : Nat) (n : Int32) : (v.put k n).world = v.world := rfl

theorem push_world (v : View) (n : Int32) : (v.push n).world = v.world := by
  rw [push, put_world, moveTop_world]

/-- Execute instructions one after the other. -/
def execAll (image : Image) : List Instruction → View → Option Effect
  | [], v => some (.ok v)
  | i :: is, v =>
    match v.exec image i with
    | some (.ok v') => execAll image is v'
    | r => r

theorem execAll_append {is js : List Instruction} (h : execAll image is v = some (.ok v')) :
    execAll image (is ++ js) v = execAll image js v' := by
  induction is generalizing v with
  | nil =>
    cases h
    rfl
  | cons i is ih =>
    simp only [List.cons_append, execAll] at h ⊢
    cases he : v.exec image i with
    | none => simp [he] at h
    | some e =>
      cases e with
      | ok v₁ =>
        rw [he] at h
        exact ih h
      | error e => simp [he] at h

theorem execAll_append_error {is js : List Instruction} {t : Trap}
    (h : execAll image is v = some (.error (t, v'))) :
    execAll image (is ++ js) v = some (.error (t, v')) := by
  induction is generalizing v with
  | nil => cases h
  | cons i is ih =>
    simp only [List.cons_append, execAll] at h ⊢
    cases he : v.exec image i with
    | none => simp [he] at h
    | some e =>
      cases e with
      | ok v₁ =>
        rw [he] at h
        exact ih h
      | error e =>
        rw [he] at h
        exact h

end View

namespace Machine

/-- The stack pointer is between the global words and the end of the stack. -/
def Above (m : Machine) : Prop :=
  0x0001000c ≤ m.registers.esp.toUInt32.toNat ∧ m.registers.esp.toUInt32 ≤ stackTop

theorem Near.shows_of_above {m : Machine} {v : View} (N : m.Near v) (h : m.Above) : m.Shows v := by
  apply N.shows
  obtain ⟨low, high⟩ := h
  rw [N.top] at low high
  exact le_room_of_toNat N.height low high

/-- Instructions stand at a place in the code. -/
def Located (image : Image) : Nat → List Instruction → Prop
  | _, [] => True
  | pos, i :: is => image.code[pos]? = some i ∧ Located image (pos + 1) is

theorem Located.append {image : Image} {pos : Nat} {is js : List Instruction} :
    Located image pos (is ++ js) ↔ Located image pos is ∧ Located image (pos + is.length) js := by
  induction is generalizing pos with
  | nil => simp [Located]
  | cons i is ih =>
    rw [List.cons_append, Located, Located, ih, List.length_cons, and_assoc]
    have same : pos + 1 + is.length = pos + (is.length + 1) := by omega
    rw [same]

end Machine

end Threefold.X86
