import Threefold.X86

/-!
# Operands on the machine

While a routine is lowered, its stack of operands is known by its shape alone. An operand is a value
with its tag. The two lowest are kept in pairs of registers, and those above them on the machine
stack in the order in which they were pushed, so the depth of an operand says where it is. An
operand may own a reference, which is given back when the operand is used up.
-/

namespace Threefold.X86

/-- The pairs of registers that hold operands. -/
inductive Pair
  | first
  | second
  deriving DecidableEq, Repr

namespace Pair

/-- The register of the value. -/
def value : Pair → Register
  | first => .ecx
  | second => .esi

/-- The register of the tag. -/
def tag : Pair → Register
  | first => .edx
  | second => .edi

/-- The pairs that hold operands when there are a given number of them. -/
def inUse (depth : Nat) : List Pair :=
  [first, second].take depth

end Pair

/-- Where an operand is. -/
inductive Place
  | pair (p : Pair)
  /-- On the machine stack, counted from the first operand there. -/
  | spilled (n : Nat)
  deriving DecidableEq, Repr

namespace Place

/-- The place of the operand with a given number of others below it. -/
def atDepth : Nat → Place
  | 0 => pair .first
  | 1 => pair .second
  | n + 2 => spilled n

/-- Whether an operand is on the machine stack. -/
def isSpilled : Place → Bool
  | spilled _ => true
  | pair _ => false

/-- A place as messages show it. -/
def text : Place → String
  | pair .first => "R0"
  | pair .second => "R1"
  | spilled n => "S" ++ toString n

end Place

/-- An operand: where it is, and whether it owns a reference. -/
structure Slot where
  place : Place
  owned : Bool
  deriving DecidableEq, Repr

/-- A slot as messages show it: one that owns a reference has a star. -/
def Slot.text (s : Slot) : String :=
  s.place.text ++ if s.owned then "*" else ""

/-- The shape of a stack of operands: for each of them, the topmost first, whether it owns a
reference. -/
structure Operands where
  owned : List Bool
  deriving DecidableEq, Repr

namespace Operands

/-- No operands. -/
def empty : Operands := ⟨[]⟩

/-- The number of operands. -/
def depth (s : Operands) : Nat :=
  s.owned.length

/-- One more operand. -/
def push (s : Operands) (owned : Bool) : Operands :=
  ⟨owned :: s.owned⟩

/-- The slots for flags of ownership, the topmost first. -/
def slotsOf : List Bool → List Slot
  | [] => []
  | o :: below => ⟨.atDepth below.length, o⟩ :: slotsOf below

/-- The operands, the lowest first. -/
def slots (s : Operands) : List Slot :=
  (slotsOf s.owned).reverse

/-- The operand on top, and those below it. -/
def pop? (s : Operands) : Option (Slot × Operands) :=
  match s.owned with
  | [] => none
  | o :: below => some (⟨.atDepth below.length, o⟩, ⟨below⟩)

/-- A number of operands from the top, the lowest of them first, and those below them. -/
def popMany? (s : Operands) (n : Nat) : Option (List Slot × Operands) :=
  if n ≤ s.depth then some (s.slots.drop (s.depth - n), ⟨s.owned.drop n⟩) else none

/-- The number of operands on the machine stack. -/
def spilled (s : Operands) : Nat :=
  s.slots.countP (·.place.isSpilled)

@[simp]
theorem depth_empty : empty.depth = 0 := rfl

@[simp]
theorem depth_push (s : Operands) (owned : Bool) : (s.push owned).depth = s.depth + 1 := rfl

/-- What is pushed on top of others has the place that their number determines. -/
@[simp]
theorem slots_push (s : Operands) (owned : Bool) :
    (s.push owned).slots = s.slots ++ [⟨.atDepth s.depth, owned⟩] := by
  simp [slots, push, slotsOf, depth]

@[simp]
theorem pop?_push (s : Operands) (owned : Bool) :
    (s.push owned).pop? = some (⟨.atDepth s.depth, owned⟩, s) := rfl

theorem length_slotsOf (flags : List Bool) : (slotsOf flags).length = flags.length := by
  induction flags with
  | nil => rfl
  | cons o below ih => simp [slotsOf, ih]

@[simp]
theorem length_slots (s : Operands) : s.slots.length = s.depth := by
  simp [slots, depth, length_slotsOf]

/-- Taking a number of operands needs that many, and yields that many. -/
theorem length_of_popMany? {s below : Operands} {n : Nat} {slots : List Slot}
    (h : s.popMany? n = some (slots, below)) :
    slots.length = n ∧ below.depth + n = s.depth := by
  unfold popMany? at h
  split at h
  · rename_i hn
    simp only [Option.some.injEq, Prod.mk.injEq] at h
    obtain ⟨rfl, rfl⟩ := h
    simp only [depth] at hn
    simp only [List.length_drop, length_slots, depth]
    omega
  · simp at h

/-- A shape as messages show it. -/
def text (s : Operands) : String :=
  "[" ++ ", ".intercalate (s.slots.map Slot.text) ++ "]"

end Operands

end Threefold.X86
