import Threefold.Proofs.Heap.Traffic
import Threefold.X86.Machine

/-!
# The run-time library without the machine

A call of the run-time library finds its arguments as pairs of words (`Raw`). The second word of a
pair should be the code of a tag, and a call traps if it is none. Apart from that a call only works
on the world, so what it does is an operation on the world alone (`Library.Op`).
-/

namespace Threefold.X86

/-- A word and the word of its tag, which is what machine code has of a value. -/
structure Raw where
  word : Int32
  code : Int32
  deriving DecidableEq

namespace Raw

/-- The words of a value. -/
def ofValue (v : Value) : Raw := ⟨v.word, v.tag.code⟩

/-- The words of a plain number. -/
def scalar (n : Int32) : Raw := ⟨n, 0⟩

/-- The value that words stand for, if they do. -/
def value? (r : Raw) : Option Value :=
  (Tag.ofCode? r.code).map fun tag => ⟨r.word, tag⟩

@[simp]
theorem value?_ofValue (v : Value) : (ofValue v).value? = some v := by
  simp [value?, ofValue, Tag.ofCode?_code]

@[simp]
theorem value?_scalar (n : Int32) : (scalar n).value? = some (.scalar n) := rfl

end Raw

namespace Library

/-- An operation of the library: it yields a result or a trap, and in both cases a world. -/
abbrev Op := EStateM Trap World

/-- An operation on the world, whose faults are traps. -/
def lift {α : Type} (op : World.Op α) : Op α := fun w =>
  match op w with
  | .ok a w => .ok a w
  | .error f w => .error (.fault f) w

/-- The value of the argument with a given number. -/
def value (i : Nat) (r : Raw) : Op Value := fun w =>
  match Tag.ofCode? r.code with
  | some tag => .ok ⟨r.word, tag⟩ w
  | none => .error (.invalidTag r.code i r.word) w

/-- The values of arguments from a given number on. -/
def values : Nat → List Raw → Op (List Value)
  | _, [] => return []
  | i, r :: rest => do
    let v ← value i r
    return v :: (← values (i + 1) rest)

/-- Take one more reference. -/
def retain (r : Raw) : Op Unit := do
  lift (World.onHeap (Heap.retain (← value 0 r)))

/-- Give a reference back. -/
def release (r : Raw) : Op Unit := do
  lift (World.onHeap (Heap.release (← value 0 r)))

/-- Call a built-in function. -/
def call (i : Intrinsic) (arguments : List Raw) : Op Intrinsic.Reply := do
  lift (i.call (← values 0 arguments))

/-- Whether a trap comes from a call of the library: a mistake of the program, or a word that is no
tag. -/
def isRuntime : Trap → Bool
  | .fault f => f.isRuntime
  | .invalidTag .. => true
  | _ => false

/-- An operation of the library only adds to the heap, and only traps as the library does. -/
abbrev AddsTo {α : Type} (op : Op α) : Prop :=
  Adds World.heap isRuntime op

theorem lift_adds {α : Type} {op : World.Op α} (h : Intrinsic.AddsTo op) : AddsTo (lift op) := by
  intro w
  have added := h w
  unfold lift
  cases hop : op w with
  | ok a w' =>
    rw [hop] at added
    exact ⟨added.1, fun _ _ he => by cases he⟩
  | error f w' =>
    rw [hop] at added
    refine ⟨added.1, fun t w'' ht => ?_⟩
    cases ht
    exact added.2 f w' rfl

theorem value_adds (i : Nat) (r : Raw) : AddsTo (value i r) := by
  intro w
  unfold value
  cases Tag.ofCode? r.code with
  | some tag => exact ⟨.refl _, fun _ _ he => by cases he⟩
  | none =>
    refine ⟨.refl _, fun t w' ht => ?_⟩
    cases ht
    rfl

theorem values_adds (i : Nat) (rs : List Raw) : AddsTo (values i rs) := by
  induction rs generalizing i with
  | nil => exact .pure _
  | cons r rs ih => exact .bind (value_adds i r) fun _ => .bind (ih (i + 1)) fun _ => .pure _

theorem retain_adds (r : Raw) : AddsTo (retain r) :=
  .bind (value_adds 0 r) fun v => lift_adds (.onHeap (Heap.retain_adds v))

theorem release_adds (r : Raw) : AddsTo (release r) :=
  .bind (value_adds 0 r) fun v => lift_adds (.onHeap (Heap.release_adds v))

theorem call_adds (i : Intrinsic) (rs : List Raw) : AddsTo (call i rs) :=
  .bind (values_adds 0 rs) fun vs => lift_adds (i.call_adds vs)

theorem value_of_value? {r : Raw} {v : Value} (h : r.value? = some v) (i : Nat) :
    value i r = pure v := by
  obtain ⟨tag, ht, hv⟩ := Option.map_eq_some_iff.mp h
  cases hv
  funext w
  simp only [value, ht]
  rfl

end Library

end Threefold.X86
