import Threefold.Proofs.X86.Frames
import Threefold.Proofs.X86.Labels

/-!
# Instructions that the machine has

The machine has no instruction with two operands in memory, and none that writes to a number or to
an address. The machine code of a program keeps to that (`Instruction.Encodable`), and what it has in
memory are the global words and words of the frame: at an instruction of the bytecode those of the
variables, of the number of an exception, and of the operands that are on the machine stack where the
instruction begins (`Frame.Word`).

A piece of code has the operands that it is made from. What it reads must be one of the words that are
allowed, if it is in memory (`Operand.Allowed`); what it writes must also be a place
(`Operand.Assignable`). Two words of memory meet only where a value is moved, and `Code.move` goes
through a register then.

* `encodable_code` is about the code of an instruction of the bytecode.
* `lower_encodable` is about whole modules.
-/

namespace Threefold.X86

open Directive (codeOf)

/-! ## Operands of instructions -/

/-- What can be written. -/
def Operand.isPlace : Operand → Bool
  | immediate _ | address _ => false
  | register _ | memory _ _ | global _ => true

namespace Instruction

/-- The operands of an instruction, other than bytes. -/
def operands : Instruction → List Operand
  | mov s d | add s d | sub s d | and s d | or s d | cmp s d | test s d => [s, d]
  | imul s d => [s, d]
  | movzbl _ d => [d]
  | idiv o | push o | pop o => [o]
  | set _ _ | cltd | call _ | jmp _ | jcc _ _ | ret => []

/-- The operands that cannot be numbers or addresses: what an instruction writes, what it divides by,
and what it compares something else with. -/
def places : Instruction → List Operand
  | mov _ d | add _ d | sub _ d | and _ d | or _ d | cmp _ d | test _ d => [d]
  | imul _ d | movzbl _ d => [d]
  | idiv o | pop o => [o]
  | push _ | set _ _ | cltd | call _ | jmp _ | jcc _ _ | ret => []

/-- The operands that are bytes. -/
def bytes : Instruction → List ByteRegister
  | movzbl b _ | set _ b => [b]
  | _ => []

/-- The machine has an instruction, and what it has in memory is allowed there. -/
structure Encodable (Word : Operand → Prop) (i : Instruction) : Prop where
  memory : i.operands.countP Operand.isMemory ≤ 1
  words : ∀ o ∈ i.operands, o.isMemory = true → Word o
  places : ∀ o ∈ i.places, o.isPlace = true
  bytes : ∀ b ∈ i.bytes, b = .al ∨ b = .bl

/-- Nothing is in memory, and what must be a place is one. -/
def isFree (i : Instruction) : Bool :=
  i.operands.all (!·.isMemory) && i.places.all Operand.isPlace

end Instruction

/-- If an operand is in memory, it is allowed there. -/
def Operand.Allowed (Word : Operand → Prop) (o : Operand) : Prop :=
  o.isMemory = true → Word o

/-- An operand can be written, and if it is in memory, it is allowed there. -/
structure Operand.Assignable (Word : Operand → Prop) (o : Operand) : Prop where
  place : o.isPlace = true
  allowed : o.Allowed Word

/-- Both words of a value can be read. -/
structure Words.Allowed (Word : Operand → Prop) (ws : Words) : Prop where
  value : ws.value.Allowed Word
  tag : ws.tag.Allowed Word

/-- Both words of a value can be written. -/
structure Words.Assignable (Word : Operand → Prop) (ws : Words) : Prop where
  value : ws.value.Assignable Word
  tag : ws.tag.Assignable Word

section Instructions

variable {Word Word' : Operand → Prop} {i : Instruction} {s d : Operand} {ws : Words} {r : Register}

theorem Words.Assignable.allowed (h : ws.Assignable Word) : ws.Allowed Word :=
  ⟨h.value.allowed, h.tag.allowed⟩

/-- What is not in memory is allowed. -/
theorem Operand.allowed_of_not_isMemory (h : s.isMemory = false) : s.Allowed Word :=
  fun there => absurd (h.symm.trans there) Bool.false_ne_true

theorem Words.allowed_of_not_isMemory (value : ws.value.isMemory = false)
    (tag : ws.tag.isMemory = false) : ws.Allowed Word :=
  ⟨Operand.allowed_of_not_isMemory value, Operand.allowed_of_not_isMemory tag⟩

/-- A result that is not yet an operand is in registers. -/
theorem allowed_result : Code.result.Allowed Word :=
  Words.allowed_of_not_isMemory rfl rfl

namespace Instruction

theorem Encodable.mono (h : i.Encodable Word) (le : ∀ o, Word o → Word' o) : i.Encodable Word' :=
  ⟨h.memory, fun o ho m => le o (h.words o ho m), h.places, h.bytes⟩

/-- There are no other bytes than those that the machine has. -/
theorem bytes_cases : ∀ b ∈ i.bytes, b = .al ∨ b = .bl := by
  intro b _
  cases b
  · exact .inl rfl
  · exact .inr rfl

theorem encodable_of_isFree (h : i.isFree = true) : i.Encodable Word := by
  obtain ⟨free, places⟩ := Bool.and_eq_true_iff.mp h
  have free (o : Operand) (ho : o ∈ i.operands) : o.isMemory = false := by
    simpa using List.all_eq_true.mp free o ho
  have none : i.operands.countP Operand.isMemory = 0 :=
    List.countP_eq_zero.mpr fun o ho => by simp [free o ho]
  refine ⟨by omega, fun o ho m => ?_, List.all_eq_true.mp places, bytes_cases⟩
  rw [free o ho] at m
  cases m

/-- One operand is read and the other is a register. -/
theorem encodable_into (hs : s.Allowed Word) (operands : i.operands = [s, .register r])
    (places : i.places = [.register r]) : i.Encodable Word := by
  refine ⟨?_, fun o ho => ?_, fun o ho => ?_, bytes_cases⟩
  · rw [operands, List.countP_cons, List.countP_singleton]
    cases s.isMemory <;> simp [Operand.isMemory]
  · rw [operands] at ho
    rcases List.mem_pair.mp ho with rfl | rfl
    · exact hs
    · exact Operand.allowed_of_not_isMemory rfl
  · rw [places] at ho
    rw [List.mem_singleton.mp ho]
    rfl

theorem encodable_mov (apart : (s.isMemory && d.isMemory) = false) (hs : s.Allowed Word)
    (hd : d.Assignable Word) : (mov s d).Encodable Word := by
  refine ⟨?_, fun o ho => ?_, fun o ho => ?_, bytes_cases⟩
  · show [s, d].countP Operand.isMemory ≤ 1
    rw [List.countP_cons, List.countP_singleton]
    revert apart
    cases s.isMemory <;> cases d.isMemory <;> simp
  · rcases List.mem_pair.mp ho with rfl | rfl
    · exact hs
    · exact hd.allowed
  · rw [List.mem_singleton.mp ho]
    exact hd.place

theorem encodable_push (h : s.Allowed Word) : (push s).Encodable Word := by
  refine ⟨List.countP_le_length, fun o ho => ?_, fun o ho => ?_, bytes_cases⟩
  · rw [List.mem_singleton.mp ho]
    exact h
  · cases ho

theorem encodable_pop (h : d.Assignable Word) : (pop d).Encodable Word := by
  refine ⟨List.countP_le_length, fun o ho => ?_, fun o ho => ?_, bytes_cases⟩
  · rw [List.mem_singleton.mp ho]
    exact h.allowed
  · rw [List.mem_singleton.mp ho]
    exact h.place

end Instruction

end Instructions

/-! ## Words of memory -/

namespace Frame

/-- The parts of a frame that code works with where there are given operands: not the saved base
pointer and the return address, and no operands that are not there. -/
def Part.InUse (s : Operands) : Part → Prop
  | .variable _ | .parameter _ | .thrown => True
  | .spill n => ∃ slot ∈ s.slots, slot.place = .spilled n
  | .base | .returnAddress => False

/-- A global word, or a word of a part of the frame that is in use where there are given operands. -/
inductive Word (f : Frame) (s : Operands) : Operand → Prop
  | part {p : Part} {o : Operand} (inUse : p.InUse s) (mem : o ∈ f.cells p) : Word f s o
  | global {g : Symbol} (mem : g ∈ Symbol.globals) : Word f s (.global g)

section Word

variable {f : Frame} {s : Operands} {p : Part} {o : Operand} {ws : Words} {x : Bytecode.Variable}

theorem Word.global_or_frame (h : f.Word s o) :
    (∃ n, o = .memory .ebp n) ∨ ∃ g ∈ Symbol.globals, o = .global g := by
  cases h with
  | global mem => exact .inr ⟨_, mem, rfl⟩
  | @part p _ inUse mem =>
    rcases f.cells_cases p with none | ⟨k, words, -, -⟩ | ⟨k, words, -⟩ | ⟨-, words⟩
    · exact absurd (none ▸ mem) List.not_mem_nil
    · rw [words] at mem
      rcases List.mem_pair.mp mem with rfl | rfl
      · exact .inl ⟨_, rfl⟩
      · exact .inl ⟨_, rfl⟩
    · rw [words] at mem
      exact .inl ⟨_, List.mem_singleton.mp mem⟩
    · rw [words] at mem
      rcases List.mem_pair.mp mem with rfl | rfl
      · exact .inr ⟨Symbol.payload, by decide, rfl⟩
      · exact .inr ⟨Symbol.payloadTag, by decide, rfl⟩

theorem assignable_global {g : Symbol} (h : g ∈ Symbol.globals) :
    (Operand.global g).Assignable (f.Word s) :=
  ⟨rfl, fun _ => .global h⟩

/-- The words in which a payload is handed over. -/
theorem assignable_payload : (homeWords .payload).Assignable (f.Word s) :=
  ⟨assignable_global (by decide), assignable_global (by decide)⟩

theorem assignable_of_mem (inUse : p.InUse s) (h : o ∈ f.cells p) : o.Assignable (f.Word s) where
  place := by
    rcases spans_of_mem h with ⟨k, -, rfl⟩ | ⟨-, g, rfl⟩
    · rfl
    · rfl
  allowed _ := .part inUse h

theorem assignable_of_cells (inUse : p.InUse s) (words : f.cells p = both ws) :
    ws.Assignable (f.Word s) where
  value := assignable_of_mem inUse (words ▸ List.mem_cons_self)
  tag := assignable_of_mem inUse (words ▸ List.mem_cons_of_mem _ List.mem_cons_self)

theorem assignable_thrownSlot : f.thrownSlot.Assignable (f.Word s) :=
  assignable_of_mem (p := .thrown) trivial (List.mem_singleton_self _)

theorem assignable_home {home : Home} (h : f.home? x = some home) :
    (homeWords home).Assignable (f.Word s) := by
  refine assignable_of_cells (p := .variable x) trivial ?_
  show ((f.home? x).map homeWords).elim [] both = _
  rw [h]
  rfl

theorem assignable_parameter {i : Nat} (h : i < f.parameters.length) :
    (parameterWords i).Assignable (f.Word s) :=
  assignable_of_cells (p := .parameter i) trivial (if_pos h)

theorem assignable_parameterSlots (h : ws ∈ f.parameterSlots) : ws.Assignable (f.Word s) := by
  obtain ⟨i, hi, rfl⟩ := List.mem_map.mp h
  exact assignable_parameter (List.mem_range.mp hi)

/-- What is given back when a routine returns. -/
theorem Proper.assignable_swept (proper : f.Proper) (h : ws ∈ f.swept) :
    ws.Assignable (f.Word s) := by
  rcases proper.mem_swept.mp h with ⟨i, hi, rfl⟩ | ⟨x, i, hx, -, rfl⟩
  · exact assignable_parameter hi
  · exact assignable_home hx

/-- What is cleared when a routine begins. -/
theorem Proper.assignable_innerCells (proper : f.Proper) (h : o ∈ f.innerCells) :
    o.Assignable (f.Word s) := by
  obtain ⟨x, i, hx, mem⟩ := proper.mem_innerCells.mp h
  have words : (innerWords i).Assignable (f.Word s) := assignable_home hx
  rcases List.mem_pair.mp mem with rfl | rfl
  · exact words.value
  · exact words.tag

end Word

end Frame

section Words

variable {c : Context} {s below : Operands} {slot : Slot} {slots : List Slot} {origin : String}
  {n : Nat} {ws : Words} {x : Bytecode.Variable}

theorem assignable_words (h : c.words x = .ok ws) : ws.Assignable (c.frame.Word s) := by
  obtain ⟨home, found, rfl⟩ := words_eq_ok h
  exact Frame.assignable_home found

/-- An operand is in registers, or in words of the frame that are in use. -/
theorem assignable_slotWords (h : slot ∈ s.slots) :
    (c.slotWords slot).Assignable (c.frame.Word s) := by
  unfold Context.slotWords
  split
  · exact ⟨⟨rfl, Operand.allowed_of_not_isMemory rfl⟩, ⟨rfl, Operand.allowed_of_not_isMemory rfl⟩⟩
  · rename_i k place
    exact Frame.assignable_of_cells (p := .spill k) ⟨slot, h, place⟩ rfl

theorem mem_slots_of_pop (h : Lowering.pop s origin = .ok (slot, below)) : slot ∈ s.slots := by
  obtain ⟨owned⟩ := s
  cases owned with
  | nil => cases h
  | cons o rest =>
    cases h
    exact List.mem_reverse.mpr List.mem_cons_self

theorem mem_slots_of_popMany (h : Lowering.popMany s n origin = .ok (slots, below)) :
    ∀ slot ∈ slots, slot ∈ s.slots := by
  unfold Lowering.popMany Operands.popMany? at h
  split at h
  · rename_i popped
    cases h
    split at popped
    · cases popped
      exact fun slot => List.mem_of_mem_drop
    · cases popped
  · cases h

end Words

/-! ## Pieces of code -/

namespace Code

/-- The machine has every instruction of some code. -/
def Encodable (Word : Operand → Prop) (is : Code) : Prop :=
  ∀ i ∈ is, i.Encodable Word

section Pieces

variable {Word : Operand → Prop} {is js : Code} {i : Instruction} {source destination : Operand}
  {ws ws' : Words}

theorem encodable_of_isFree (h : is.all Instruction.isFree = true) : Encodable Word is :=
  fun i hi => Instruction.encodable_of_isFree (List.all_eq_true.mp h i hi)

theorem encodable_nil : Encodable Word [] :=
  encodable_of_isFree rfl

theorem Encodable.append (h : Encodable Word is) (h' : Encodable Word js) :
    Encodable Word (is ++ js) :=
  List.forall_mem_append.mpr ⟨h, h'⟩

theorem Encodable.cons (first : i.Encodable Word) (h : Encodable Word is) :
    Encodable Word (i :: is) :=
  List.forall_mem_cons.mpr ⟨first, h⟩

theorem Encodable.flatMap {α : Type} {xs : List α} {f : α → Code}
    (h : ∀ x ∈ xs, Encodable Word (f x)) : Encodable Word (xs.flatMap f) := by
  intro i hi
  obtain ⟨x, hx, inside⟩ := List.mem_flatMap.mp hi
  exact h x hx i inside

/-- A word is moved through a register if both places are in memory. -/
theorem encodable_move (hs : source.Allowed Word) (hd : destination.Assignable Word) :
    Encodable Word (move source destination) := by
  have eax : (Operand.register .eax).Allowed Word := Operand.allowed_of_not_isMemory rfl
  unfold move
  split
  · exact .cons (Instruction.encodable_into hs rfl rfl)
      (.cons (Instruction.encodable_mov rfl eax hd) encodable_nil)
  · rename_i apart
    exact .cons (Instruction.encodable_mov (Bool.eq_false_iff.mpr apart) hs hd) encodable_nil

theorem encodable_moveWords (h : ws.Allowed Word) (h' : ws'.Assignable Word) :
    Encodable Word (moveWords ws ws') :=
  (encodable_move h.value h'.value).append (encodable_move h.tag h'.tag)

theorem encodable_pushWords (h : ws.Allowed Word) : Encodable Word [.push ws.tag, .push ws.value] :=
  .cons (Instruction.encodable_push h.tag) (.cons (Instruction.encodable_push h.value) encodable_nil)

theorem encodable_pushAt (depth : Nat) (h : ws.Allowed Word) :
    Encodable Word (pushAt depth ws) := by
  unfold pushAt
  split
  · exact .cons (Instruction.encodable_into h.value rfl rfl)
      (.cons (Instruction.encodable_into h.tag rfl rfl) encodable_nil)
  · exact encodable_pushWords h

/-- A number becomes the operand on top. -/
theorem encodable_pushResult (depth : Nat) :
    Encodable Word (pushAt depth ⟨Register.eax, .immediate 0⟩) :=
  encodable_pushAt depth (Words.allowed_of_not_isMemory rfl rfl)

theorem encodable_drop (n : Nat) : Encodable Word (drop n) := by
  unfold drop
  split
  · exact encodable_nil
  · exact encodable_of_isFree rfl

theorem encodable_dropSpilled (slots : List Slot) : Encodable Word (dropSpilled slots) :=
  encodable_drop _

theorem encodable_save (depth : Nat) : Encodable Word (save depth) :=
  .flatMap fun _ _ => encodable_of_isFree rfl

theorem encodable_restore (depth : Nat) : Encodable Word (restore depth) :=
  .flatMap fun _ _ => encodable_of_isFree rfl

/-- Both ways of counting a reference. -/
theorem encodable_count (symbol : Symbol) (depth : Nat) (h : ws.Allowed Word) :
    Encodable Word (count symbol ws depth) := by
  have called : Encodable Word [.push ws.tag, .push ws.value, .call symbol] :=
    (encodable_pushWords h).append (encodable_of_isFree rfl)
  exact (((encodable_save depth).append called).append (encodable_drop 1)).append
    (encodable_restore depth)

theorem encodable_parked (h : Encodable Word is) : Encodable Word (parked is) :=
  ((encodable_of_isFree rfl).append h).append (encodable_of_isFree rfl)

theorem encodable_normalise (byte : ByteRegister) (h : source.Allowed Word) :
    Encodable Word (normalise source byte) :=
  .cons (Instruction.encodable_into h rfl rfl) (encodable_of_isFree rfl)

theorem encodable_storeCounted (owned : Bool) (depth : Nat) (h : ws.Allowed Word)
    (h' : ws'.Assignable Word) : Encodable Word (storeCounted ws ws' owned depth) := by
  have counted (symbol : Symbol) : Encodable Word (count symbol ws' depth) :=
    encodable_count symbol depth h'.allowed
  refine (((counted _).append (encodable_moveWords h h')).append (counted _)).append ?_
  split
  · exact counted _
  · exact encodable_nil

section Operators

variable {left right : Operand}

theorem encodable_compare (condition : Condition) (hl : left.Allowed Word)
    (hr : right.Allowed Word) : Encodable Word (compare left right condition) :=
  .cons (Instruction.encodable_into hl rfl rfl)
    (.cons (Instruction.encodable_into hr rfl rfl) (encodable_of_isFree rfl))

theorem encodable_divide (hl : left.Allowed Word) (hr : right.Allowed Word)
    (h : Encodable Word is) : Encodable Word (divide left right is) := by
  have division : Encodable Word [.mov right Register.ebx, .mov left Register.eax,
      .push Register.edx, .cltd, .idiv Register.ebx] :=
    .cons (Instruction.encodable_into hr rfl rfl)
      (.cons (Instruction.encodable_into hl rfl rfl) (encodable_of_isFree rfl))
  exact (division.append h).append (encodable_of_isFree rfl)

/-- An operator is computed in a register. -/
theorem encodable_binary (op : BinaryOp) (hl : left.Allowed Word) (hr : right.Allowed Word) :
    Encodable Word (binary op left right) := by
  have arithmetic {i : Instruction} (operands : i.operands = [right, .register .eax])
      (places : i.places = [.register .eax]) :
      Encodable Word [.mov left Register.eax, i] :=
    .cons (Instruction.encodable_into hl rfl rfl)
      (.cons (Instruction.encodable_into hr operands places) encodable_nil)
  have truths (i : Instruction) (free : i.isFree = true) :
      Encodable Word (normalise left .al ++ normalise right .bl ++ [i]) :=
    ((encodable_normalise .al hl).append (encodable_normalise .bl hr)).append
      (.cons (Instruction.encodable_of_isFree free) encodable_nil)
  cases op with
  | plus => exact arithmetic rfl rfl
  | minus => exact arithmetic rfl rfl
  | times => exact arithmetic rfl rfl
  | div => exact encodable_divide hl hr encodable_nil
  | rem => exact encodable_divide hl hr (encodable_of_isFree rfl)
  | and => exact truths _ rfl
  | or => exact truths _ rfl
  | _ => exact encodable_compare _ hl hr

end Operators

end Pieces

/-! ## Pieces that depend on the routine -/

section Routine

variable {c : Context} {s : Operands} {slots : List Slot}

theorem encodable_releaseOwned (depth : Nat) (h : ∀ slot ∈ slots, slot ∈ s.slots) :
    Encodable (c.frame.Word s) (releaseOwned c slots depth) :=
  .flatMap fun slot hs => encodable_count _ depth
    (assignable_slotWords (h slot (List.mem_reverse.mp (List.mem_filter.mp hs).1))).allowed

theorem encodable_discard (depth : Nat) (h : ∀ slot ∈ slots, slot ∈ s.slots) :
    Encodable (c.frame.Word s) (discard c slots depth) := by
  refine .append ?_ (encodable_dropSpilled slots)
  split
  · exact ((encodable_of_isFree rfl).append (encodable_releaseOwned depth h)).append
      (encodable_of_isFree rfl)
  · exact encodable_nil

theorem encodable_sweep (proper : c.frame.Proper) : Encodable (c.frame.Word s) (sweep c) :=
  .flatMap fun _ hs => encodable_count _ 0 (proper.assignable_swept hs).allowed

theorem encodable_epilogue {Word : Operand → Prop} : Encodable Word (epilogue c) := by
  refine .append (.append (encodable_of_isFree rfl) ?_) (encodable_of_isFree rfl)
  split
  · exact encodable_of_isFree rfl
  · exact encodable_nil

theorem encodable_returnValue (proper : c.frame.Proper) :
    Encodable (c.frame.Word s) (returnValue c) := by
  refine .append (.append ?_ ?_) encodable_epilogue
  · split
    · exact encodable_nil
    · exact encodable_parked (encodable_sweep proper)
  · split
    · exact encodable_of_isFree rfl
    · exact encodable_nil

theorem encodable_returnZero (proper : c.frame.Proper) :
    Encodable (c.frame.Word s) (returnZero c) :=
  ((encodable_sweep proper).append (encodable_of_isFree rfl)).append encodable_epilogue

/-- The code in front of a routine, where there are no operands yet. -/
theorem encodable_prologue (proper : c.frame.Proper) :
    Encodable (c.frame.Word .empty) (prologue c) := by
  refine .append (.append (.append (.append ?_ (encodable_of_isFree rfl)) ?_) ?_) ?_
  · split
    · exact encodable_of_isFree rfl
    · exact encodable_nil
  · split
    · exact encodable_nil
    · exact encodable_of_isFree rfl
  · intro i hi
    obtain ⟨cell, mem, rfl⟩ := List.mem_map.mp hi
    exact Instruction.encodable_mov rfl (Operand.allowed_of_not_isMemory rfl)
      (proper.assignable_innerCells mem)
  · exact .flatMap fun _ hs => encodable_count _ 0 (Frame.assignable_parameterSlots hs).allowed

theorem encodable_enter (symbol : Symbol) (canThrow : Bool) (depth : Nat)
    (h : ∀ slot ∈ slots, slot ∈ s.slots) :
    Encodable (c.frame.Word s) (enter c symbol canThrow slots depth) := by
  refine .append (.append (.append (encodable_save depth) ?_) ?_) (encodable_of_isFree rfl)
  · split
    · exact encodable_of_isFree rfl
    · exact encodable_nil
  · exact .flatMap fun slot hs =>
      encodable_pushWords (assignable_slotWords (h slot (List.mem_reverse.mp hs))).allowed

theorem encodable_resume (tag : Option Tag) {thrown : Option Operand} (retained : Bool) (depth : Nat)
    (ht : ∀ o, thrown = some o → o.Assignable (c.frame.Word s))
    (h : ∀ slot ∈ slots, slot ∈ s.slots) :
    Encodable (c.frame.Word s) (resume c tag thrown retained slots depth) := by
  refine .append (.append (.append (.append (.append (.append ?_ (encodable_drop _)) ?_)
    (encodable_restore depth)) ?_) ?_) (encodable_dropSpilled slots)
  · cases tag with
    | none => exact encodable_nil
    | some t => exact encodable_of_isFree rfl
  · cases thrown with
    | none => exact encodable_nil
    | some o => exact .cons (Instruction.encodable_pop (ht o rfl)) encodable_nil
  · split
    · exact encodable_parked (encodable_count _ depth allowed_result)
    · exact encodable_nil
  · split
    · exact encodable_parked (encodable_releaseOwned depth h)
    · exact encodable_nil

end Routine

end Code

/-! ## Instructions of the bytecode -/

namespace Lowering

section Instructions

variable {c : Context} {s after : Operands} {is : Code} {ds : List Directive}

theorem encodable_of_done {Word : Operand → Prop} (h : code.done is s = .ok (ds, after))
    (his : Code.Encodable Word is) : Code.Encodable Word (codeOf ds) := by
  cases h
  rwa [Directive.codeOf_map]

theorem encodable_transfer (h : transfer c = .ok ds) :
    Code.Encodable (c.frame.Word s) (codeOf ds) := by
  unfold transfer at h
  split at h
  · cases h
    exact Code.encodable_nil
  · obtain ⟨exception, hex, h⟩ := Program.ok_of_bind h
    obtain ⟨payload, hpay, h⟩ := Program.ok_of_bind h
    cases h
    have exception := (assignable_words (s := s) hex).allowed.value
    have payload := (assignable_words (s := s) hpay).allowed
    rw [Directive.codeOf_map]
    refine .append (Code.encodable_move exception ?_)
      (Code.encodable_moveWords payload Frame.assignable_payload)
    split
    · exact Frame.assignable_global (by decide)
    · exact Frame.assignable_thrownSlot

theorem encodable_call {callee : Bytecode.Callee} (h : call c s callee = .ok (is, after)) :
    Code.Encodable (c.frame.Word s) is := by
  obtain ⟨symbol, -, h⟩ := Program.ok_of_bind h
  obtain ⟨⟨arguments, below⟩, hpop, h⟩ := Program.ok_of_bind h
  obtain ⟨thrown, hthrown, h⟩ := Program.ok_of_bind h
  cases h
  have slots := mem_slots_of_popMany hpop
  have word (o : Operand) (ho : thrown = some o) : o.Assignable (c.frame.Word s) := by
    unfold thrownWord at hthrown
    split at hthrown
    · obtain ⟨ws, hws, hthrown⟩ := Program.ok_of_bind hthrown
      cases hthrown
      cases ho
      exact (assignable_words hws).value
    · cases hthrown
      cases ho
  exact .append (.append (Code.encodable_enter symbol _ _ slots)
    (Code.encodable_resume _ _ _ word slots)) (Code.encodable_pushAt _ allowed_result)

/-- The code of an instruction keeps to the words that are in use where it begins. -/
theorem encodable_code (proper : c.frame.Proper) {index : Nat} {i : Bytecode.Instruction}
    (h : code c index s i = .ok (ds, after)) : Code.Encodable (c.frame.Word s) (codeOf ds) := by
  cases i with
  | push n =>
    exact encodable_of_done h (Code.encodable_pushAt _ (Words.allowed_of_not_isMemory rfl rfl))
  | pushLiteral n =>
    simp only [code] at h
    split at h
    · exact encodable_of_done h (Code.encodable_pushAt _ (Words.allowed_of_not_isMemory rfl rfl))
    · cases h
  | load x =>
    obtain ⟨ws, hws, h⟩ := Program.ok_of_bind h
    exact encodable_of_done h (Code.encodable_pushAt _ (assignable_words hws).allowed)
  | store x =>
    obtain ⟨⟨slot, below⟩, hpop, h⟩ := Program.ok_of_bind h
    obtain ⟨home, hhome, h⟩ := Program.ok_of_bind h
    have source := (assignable_slotWords (c := c) (mem_slots_of_pop hpop)).allowed
    have destination := assignable_words (s := s) hhome
    refine encodable_of_done h (.append ?_ (Code.encodable_dropSpilled _))
    split
    · exact Code.encodable_moveWords source destination
    · exact Code.encodable_storeCounted _ _ source destination
  | pop =>
    obtain ⟨⟨slot, below⟩, hpop, h⟩ := Program.ok_of_bind h
    exact encodable_of_done h (.append
      (Code.encodable_releaseOwned _ (List.forall_mem_singleton.mpr (mem_slots_of_pop hpop)))
      (Code.encodable_dropSpilled _))
  | unary op =>
    cases op
    obtain ⟨⟨slot, below⟩, hpop, h⟩ := Program.ok_of_bind h
    have mem := mem_slots_of_pop hpop
    exact encodable_of_done h (.append (.append
      (Code.encodable_compare _ (assignable_slotWords mem).allowed.value
        (Operand.allowed_of_not_isMemory rfl))
      (Code.encodable_discard _ (List.forall_mem_singleton.mpr mem))) (Code.encodable_pushResult _))
  | binary op =>
    obtain ⟨⟨slots, below⟩, hpop, h⟩ := Program.ok_of_bind h
    have mem := mem_slots_of_popMany hpop
    split at h
    · rename_i left right rest two
      cases two
      have hl := (assignable_slotWords (c := c) (mem left List.mem_cons_self)).allowed
      have hr := (assignable_slotWords (c := c)
        (mem right (List.mem_cons_of_mem _ List.mem_cons_self))).allowed
      exact encodable_of_done h (.append (.append (Code.encodable_binary op hl.value hr.value)
        (Code.encodable_discard _ mem)) (Code.encodable_pushResult _))
    · exact encodable_of_done h Code.encodable_nil
  | jumpIfZero target =>
    obtain ⟨⟨slot, below⟩, hpop, h⟩ := Program.ok_of_bind h
    have mem := mem_slots_of_pop hpop
    exact encodable_of_done h (.append (.cons
      (Instruction.encodable_into (assignable_slotWords mem).allowed.value rfl rfl)
      (Code.encodable_discard _ (List.forall_mem_singleton.mpr mem)))
      (Code.encodable_of_isFree rfl))
  | jump target => exact encodable_of_done h (Code.encodable_of_isFree rfl)
  | call callee =>
    obtain ⟨⟨is, s'⟩, called, h⟩ := Program.ok_of_bind h
    exact encodable_of_done h (encodable_call called)
  | returnValue =>
    obtain ⟨⟨slot, below⟩, hpop, h⟩ := Program.ok_of_bind h
    have words := (assignable_slotWords (c := c) (mem_slots_of_pop hpop)).allowed
    have result : Code.Encodable (c.frame.Word s) [.mov (c.slotWords slot).value Register.eax,
        .mov (c.slotWords slot).tag Register.ebx] :=
      .cons (Instruction.encodable_into words.value rfl rfl)
        (.cons (Instruction.encodable_into words.tag rfl rfl) Code.encodable_nil)
    exact encodable_of_done h ((result.append (Code.encodable_dropSpilled _)).append
      (Code.encodable_returnValue proper))
  | returnZero => exact encodable_of_done h (Code.encodable_returnZero proper)
  | transfer =>
    obtain ⟨es, he, h⟩ := Program.ok_of_bind h
    cases h
    exact encodable_transfer he

/-- The code of a routine can be encoded, each part with the words that are in use where it begins. -/
structure EncodableSteps (c : Context) (ss : List Step) : Prop where
  prologue : ∀ i ∈ Code.prologue c, i.Encodable (c.frame.Word .empty)
  steps : ∀ st ∈ ss, ∀ i, .instruction i ∈ st.directives → i.Encodable (c.frame.Word st.operands)

theorem encodable_routineSteps {ss : List Step} (proper : c.frame.Proper)
    (h : routineSteps c = .ok ss) : EncodableSteps c ss where
  prologue := Code.encodable_prologue proper
  steps st hst i hi := by
    obtain ⟨ts, flowing⟩ := routineSteps_flowing h
    obtain ⟨index, found⟩ := List.mem_iff_getElem?.mp hst
    obtain ⟨j, -, shaped⟩ := flowing.shaped_of_getElem? found
    obtain ⟨ds, after, lowered, lines, -⟩ := shaped.lowered
    rw [← shaped.operands] at lowered
    refine encodable_code proper lowered i ?_
    rwa [← Directive.mem_codeOf, lines, Directive.codeOf_append, codeOf_heading] at hi

end Instructions

/-! ## Modules -/

section Modules

variable {b : Bytecode} {a : Assembly}

/-- Some lines are those of a routine, whose code can be encoded. -/
def EncodableBody (b : Bytecode) (r : Bytecode.Routine) (ds : List Directive) : Prop :=
  ∃ ss, routineSteps (.ofRoutine b r) = .ok ss ∧ ds = body (.ofRoutine b r) ss ∧
    EncodableSteps (.ofRoutine b r) ss

theorem encodableBody_of_mapM {rs : List Bytecode.Routine} {bodies : List (List Directive)}
    (h : rs.mapM (routine b) = .ok bodies) : List.Forall₂ (EncodableBody b) rs bodies := by
  refine (forall₂_of_mapM h).imp fun r ds hds => ?_
  obtain ⟨ss, hss, rfl⟩ := body_of_routine hds
  exact ⟨ss, hss, rfl, encodable_routineSteps (Frame.proper_ofRoutine b r) hss⟩

/-- What an instruction may have in memory: words of frames, and the global words. -/
def InMemory (o : Operand) : Prop :=
  (∃ n, o = .memory .ebp n) ∨ ∃ g ∈ Symbol.globals, o = .global g

theorem EncodableSteps.body {c : Context} {ss : List Step} (h : EncodableSteps c ss)
    {i : Instruction} (hi : .instruction i ∈ body c ss) : i.Encodable InMemory := by
  have weaker {s : Operands} (encodable : i.Encodable (c.frame.Word s)) : i.Encodable InMemory :=
    encodable.mono fun o ho => ho.global_or_frame
  rcases List.mem_append.mp hi with start | steps
  · rcases List.mem_append.mp start with symbols | prologue
    · simp at symbols
    · obtain ⟨j, hj, same⟩ := List.mem_map.mp prologue
      cases same
      exact weaker (h.prologue i hj)
  · obtain ⟨st, hst, inside⟩ := List.mem_flatMap.mp steps
    exact weaker (h.steps st hst i inside)

theorem encodable_bodies {rs : List Bytecode.Routine} {bodies : List (List Directive)}
    (h : List.Forall₂ (EncodableBody b) rs bodies) {i : Instruction}
    (hi : .instruction i ∈ bodies.flatten) : i.Encodable InMemory := by
  induction h with
  | nil => cases hi
  | cons first _ ih =>
    obtain ⟨ss, -, rfl, encodable⟩ := first
    rw [List.flatten_cons] at hi
    rcases List.mem_append.mp hi with here | later
    · exact encodable.body here
    · exact ih later

end Modules

end Lowering

namespace Assembly

theorem mem_instructions {a : Assembly} {i : Instruction} :
    i ∈ a.instructions ↔ .instruction i ∈ a.directives := by
  unfold instructions
  rw [List.mem_filterMap]
  constructor
  · rintro ⟨d, hd, same⟩
    cases d with
    | instruction j =>
      cases same
      exact hd
    | _ => cases same
  · exact fun hi => ⟨_, hi, rfl⟩

end Assembly

/-- **The machine has every instruction of a module.** Whatever bytecode is lowered, no instruction
of its module has two operands in memory, none writes to a number or to an address, pops into one or
divides by one, and all that they have in memory are words of frames and the global words. The module
has the code of the routines and instructions nowhere else. The words of the frame in the code of a
routine are those of its parameters and variables, that of the number of an exception, and in the code
of an instruction of the bytecode also those of the operands that are on the machine stack where the
instruction begins. -/
theorem lower_encodable {b : Bytecode} {a : Assembly} (h : b.lower = .ok a) :
    (∀ i ∈ a.instructions, i.Encodable Lowering.InMemory) ∧
      ∃ bodies, a.directives =
          .enter .code :: (bodies.flatten ++ (Lowering.literals b.literals ++ Lowering.globals)) ∧
        codeOf (Lowering.literals b.literals ++ Lowering.globals) = [] ∧
        List.Forall₂ (Lowering.EncodableBody b) b.routines bodies := by
  obtain ⟨-, bodies, hbodies, rfl⟩ := Lowering.parts_of_lower h
  have bodied := Lowering.encodableBody_of_mapM hbodies
  have data := (Lowering.lines_data b.literals).2.2
  refine ⟨fun i hi => ?_, bodies, by simp, data, bodied⟩
  have inside : .instruction i ∈ bodies.flatten ++
      (Lowering.literals b.literals ++ Lowering.globals) := by
    simpa using Assembly.mem_instructions.mp hi
  rcases List.mem_append.mp inside with code | rest
  · exact Lowering.encodable_bodies bodied code
  · rw [← Directive.mem_codeOf, data] at rest
    cases rest

/-- A routine whose operands do not fit in registers, with a variable that one of them is stored
in. -/
def spilling : Bytecode where
  routines := [⟨⟨"main", 0⟩, [], #[.push 1, .push 2, .push 3, .push 4, .store (.named "x"),
    .load (.named "x"), .binary .times, .binary .plus, .binary .lt, .pop, .returnZero], false⟩]
  entry := ⟨"main", 0⟩
  literals := []
  exceptions := []

/-- The store is from memory to memory, and goes through a register. -/
theorem lower_encodable_spilling : ∃ a, spilling.lower = .ok a ∧
    .mov (.frame (-24)) Register.eax ∈ a.instructions ∧
    .mov Register.eax (.frame (-8)) ∈ a.instructions ∧
    ∀ i ∈ a.instructions, i.operands.countP Operand.isMemory ≤ 1 := by
  have moves : spilling.lower.toOption.map (fun a =>
      decide (.mov (.frame (-24)) Register.eax ∈ a.instructions ∧
        .mov Register.eax (.frame (-8)) ∈ a.instructions)) = some true := by decide +kernel
  cases h : spilling.lower with
  | error e =>
    rw [h] at moves
    cases moves
  | ok a =>
    rw [h] at moves
    obtain ⟨first, second⟩ := of_decide_eq_true (Option.some.inj moves)
    exact ⟨a, rfl, first, second, fun i hi => ((lower_encodable h).1 i hi).memory⟩

end Threefold.X86
