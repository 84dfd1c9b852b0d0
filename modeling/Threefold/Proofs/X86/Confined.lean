import Threefold.Proofs.X86.Standing
import Threefold.Proofs.X86.Visits

/-!
# Code that keeps to the top of the stack

The code of instructions that only work on operands writes to memory in one way: it pushes words on
the machine stack. Such code, when it begins with a number of words above some height, is confined to
these words and those it pushes on them (`Confined`), so a run of it leaves everything above a floor
as it is, and the global words below the stack as well (`Confined.memory`).
-/

namespace Threefold.X86

/-! ## Operations that leave memory alone -/

namespace Machine

/-- An operation leaves the memory and the stack pointer as they are. -/
def Leaves {α : Type} (op : Op α) : Prop :=
  ∀ m a m', op m = .ok a m' → m'.memory = m.memory ∧ m'.registers.esp = m.registers.esp

namespace Leaves

variable {α β : Type} {op : Op α} {image : Image}

theorem pure (a : α) : Leaves (pure a : Op α) := by
  rintro m _ _ ⟨⟩
  exact ⟨rfl, rfl⟩

theorem throw (t : Trap) : Leaves (throw t : Op α) := by
  rintro m _ _ ⟨⟩

theorem bind {k : α → Op β} (h : Leaves op) (hk : ∀ a, Leaves (k a)) : Leaves (op >>= k) := by
  intro m b m' he
  simp only [Bind.bind, EStateM.bind] at he
  cases ho : op m with
  | error t m₁ =>
    rw [ho] at he
    cases he
  | ok a m₁ =>
    rw [ho] at he
    obtain ⟨memory, esp⟩ := hk a m₁ b m' he
    obtain ⟨memory₁, esp₁⟩ := h m a m₁ ho
    exact ⟨memory.trans memory₁, esp.trans esp₁⟩

theorem ite {p : Prop} [Decidable p] {op' : Op α} (h : Leaves op) (h' : Leaves op') :
    Leaves (if p then op else op') := by
  split
  · exact h
  · exact h'

theorem get (r : Register) : Leaves (Machine.get r) := by
  rintro m _ _ ⟨⟩
  exact ⟨rfl, rfl⟩

theorem set {r : Register} (hr : r ≠ .esp) (n : Int32) : Leaves (Machine.set r n) := by
  rintro m _ _ ⟨⟩
  refine ⟨rfl, ?_⟩
  cases r <;> first | rfl | exact absurd rfl hr

theorem setFlags (n : Int32) (overflow : Bool) : Leaves (Machine.setFlags n overflow) := by
  rintro m _ _ ⟨⟩
  exact ⟨rfl, rfl⟩

theorem holds (c : Condition) : Leaves (Machine.holds c) := by
  rintro m _ _ ⟨⟩
  exact ⟨rfl, rfl⟩

theorem load (a : UInt32) : Leaves (Machine.load a) := by
  intro m n m' he
  unfold Machine.load at he
  split at he
  · cases he
    exact ⟨rfl, rfl⟩
  · cases he

theorem datum (image : Image) (s : Symbol) : Leaves (Machine.datum image s) := by
  unfold Machine.datum
  split
  · exact pure _
  · exact throw _

theorem address (base : Register) (offset : Int32) : Leaves (Machine.address base offset) :=
  .bind (get base) fun _ => pure _

theorem read (image : Image) (o : Operand) : Leaves (Machine.read image o) := by
  cases o with
  | immediate n => exact pure n
  | address s => exact datum image s
  | register r => exact get r
  | memory base offset => exact .bind (address base offset) load
  | global s => exact .bind (datum image s) fun n => load n.toUInt32

theorem onWorld (op : World.Op α) : Leaves (Machine.onWorld op) := by
  rintro ⟨registers, memory, flags, world⟩ a m' he
  simp only [Machine.onWorld] at he
  cases hw : op world with
  | ok b w =>
    rw [hw] at he
    cases he
    exact ⟨rfl, rfl⟩
  | error f w =>
    rw [hw] at he
    cases he

theorem argument (base : UInt32) (i : Nat) : Leaves (Machine.argument base i) := by
  refine .bind (load _) fun n => .bind (load _) fun code => ?_
  split
  · exact pure _
  · exact throw _

end Leaves

end Machine

/-! ## Instructions that leave memory alone -/

/-- A register that instructions may write without moving the stack. -/
def Operand.isScratch : Operand → Bool
  | .register r => r != .esp
  | _ => false

namespace Instruction

/-- An instruction writes to no memory and leaves the stack as high as it is. -/
def isQuiet : Instruction → Bool
  | .mov _ d | .add _ d | .sub _ d | .and _ d | .or _ d => d.isScratch
  | .movzbl _ r | .imul _ r => r != .esp
  | .cmp _ _ | .test _ _ | .set _ _ | .cltd | .idiv _ => true
  | .call s => s == Symbol.release
  | .push _ | .pop _ | .jmp _ | .jcc _ _ | .ret => false

end Instruction

namespace Machine

variable {image : Image}

theorem Leaves.write {o : Operand} (ho : o.isScratch = true) (n : Int32) :
    Leaves (Machine.write image o n) := by
  cases o with
  | register r => exact .set (by simpa [Operand.isScratch] using ho) n
  | _ => cases ho

theorem Leaves.arithmetic (op : Int → Int → Int) (s : Operand) {d : Operand} {keep : Bool}
    (hd : keep = true → d.isScratch = true) :
    Leaves (Machine.arithmetic image op s d keep) := by
  refine .bind (.read image d) fun a => .bind (.read image s) fun b => ?_
  cases keep with
  | false => exact .setFlags _ _
  | true => exact .bind (.write (hd rfl) _) fun _ => .setFlags _ _

theorem Leaves.bitwise (op : Int32 → Int32 → Int32) (s : Operand) {d : Operand} {keep : Bool}
    (hd : keep = true → d.isScratch = true) : Leaves (Machine.bitwise image op s d keep) := by
  refine .bind (.read image d) fun a => .bind (.read image s) fun b => ?_
  cases keep with
  | false => exact .setFlags _ _
  | true => exact .bind (.write (hd rfl) _) fun _ => .setFlags _ _

theorem Leaves.divide (n : Int32) : Leaves (Machine.divide n) := by
  unfold Machine.divide
  refine .bind (.get .edx) fun x => .bind (.get .eax) fun y => ?_
  have results (q r : Int32) :
      Leaves (do Machine.set .eax q; Machine.set .edx r : Op Unit) :=
    .bind (.set (by decide) _) fun _ => .set (by decide) _
  refine .ite (.bind (.throw _) fun _ => ?_) ?_ <;>
    exact .ite (.bind (.throw _) fun _ => results _ _) (results _ _)

theorem Leaves.release : Leaves (Machine.callLibrary image Symbol.release) := by
  refine .bind (.get .esp) fun base => .bind ?_ fun _ => .bind (.set (by decide) _) fun _ =>
    .set (by decide) _
  have other : Symbol.release ≠ Symbol.retain := by decide
  simp only [serve, if_neg other, if_true]
  exact .bind (.argument _ 0) fun v => .onWorld _

theorem Leaves.execute (hr : image.functions.get? Symbol.release = none) {i : Instruction}
    (hi : i.isQuiet = true) (next : Nat) : Leaves (Machine.execute image i next) := by
  cases i with
  | mov s d => exact .bind (.read image s) fun n => .bind (.write hi n) fun _ => .pure _
  | movzbl s d =>
    exact .bind (.get _) fun n => .bind (.set (by simpa [Instruction.isQuiet] using hi) _)
      fun _ => .pure _
  | add s d => exact .bind (.arithmetic _ s fun _ => hi) fun _ => .pure _
  | sub s d => exact .bind (.arithmetic _ s fun _ => hi) fun _ => .pure _
  | imul s d =>
    exact .bind (.get _) fun n => .bind (.read image s) fun m =>
      .bind (.set (by simpa [Instruction.isQuiet] using hi) _) fun _ => .pure _
  | and s d => exact .bind (.bitwise _ s fun _ => hi) fun _ => .pure _
  | or s d => exact .bind (.bitwise _ s fun _ => hi) fun _ => .pure _
  | cmp s d => exact .bind (.arithmetic _ s (absurd · Bool.false_ne_true)) fun _ => .pure _
  | test s d => exact .bind (.bitwise _ s (absurd · Bool.false_ne_true)) fun _ => .pure _
  | set c d =>
    refine .bind (.get _) fun n => .bind (.holds c) fun p => .bind (.set ?_ _) fun _ => .pure _
    cases d <;> decide
  | cltd => exact .bind (.get _) fun n => .bind (.set (by decide) _) fun _ => .pure _
  | idiv d => exact .bind (.read image d) fun n => .bind (.divide n) fun _ => .pure _
  | call s =>
    obtain rfl : s = Symbol.release := by simpa [Instruction.isQuiet] using hi
    simp only [Machine.execute, hr]
    exact .bind .release fun _ => .pure _
  | push s => cases hi
  | pop d => cases hi
  | jmp l => cases hi
  | jcc c l => cases hi
  | ret => cases hi

/-! ## Instructions that hand control on -/

/-- If an operation has a result, it is a given one. -/
def Gives {α : Type} (op : Op α) (a : α) : Prop :=
  ∀ m a' m', op m = .ok a' m' → a' = a

theorem Gives.pure {α : Type} (a : α) : Gives (pure a : Op α) a := by
  rintro m _ _ ⟨⟩
  rfl

theorem Gives.bind {α β : Type} {op : Op α} {k : α → Op β} {b : β} (h : ∀ a, Gives (k a) b) :
    Gives (op >>= k) b := by
  intro m b' m' he
  simp only [Bind.bind, EStateM.bind] at he
  cases ho : op m with
  | error t m₁ =>
    rw [ho] at he
    cases he
  | ok a m₁ =>
    rw [ho] at he
    exact h a m₁ b' m' he

end Machine

/-- An instruction hands control on to the next one, if it does not stop the run. -/
def Instruction.isStraight : Instruction → Bool
  | .call s => s == Symbol.release
  | .jmp _ | .jcc _ _ | .ret => false
  | _ => true

namespace Machine

theorem gives_execute (hr : image.functions.get? Symbol.release = none) {i : Instruction}
    (hi : i.isStraight = true) (next : Nat) :
    Gives (Machine.execute image i next) (some next) := by
  cases i with
  | call s =>
    obtain rfl : s = Symbol.release := by simpa [Instruction.isStraight] using hi
    simp only [Machine.execute, hr]
    exact .bind fun _ => .pure _
  | imul s d => exact .bind fun _ => .bind fun _ => .bind fun _ => .pure _
  | movzbl s d => exact .bind fun _ => .bind fun _ => .pure _
  | set c d => exact .bind fun _ => .bind fun _ => .bind fun _ => .pure _
  | jmp l => cases hi
  | jcc c l => cases hi
  | ret => cases hi
  | _ => first | exact .bind fun _ => .pure _ | exact .bind fun _ => .bind fun _ => .pure _

end Machine

theorem Instruction.isStraight_of_isQuiet {i : Instruction} (h : i.isQuiet = true) :
    i.isStraight = true := by
  cases i <;> first | rfl | exact h

/-! ## Code that works above a height -/

/-- Code that begins with a number of words above some height writes only to these words and to those
that it pushes on them, and ends with another number of words. -/
inductive Confined : Nat → Code → Nat → Prop
  | nil (n : Nat) : Confined n [] n
  | quiet {n k : Nat} {i : Instruction} {is : Code} (hi : i.isQuiet = true)
    (rest : Confined n is k) : Confined n (i :: is) k
  | push {n k : Nat} {is : Code} (o : Operand) (rest : Confined (n + 1) is k) :
    Confined n (.push o :: is) k
  | pop {n k : Nat} {r : Register} {is : Code} (hr : r ≠ .esp) (rest : Confined n is k) :
    Confined (n + 1) (.pop r :: is) k
  | shrink {n k : Nat} {is : Code} (j : Nat) (rest : Confined n is k) :
    Confined (n + j) (.add (.immediate (.ofNat (4 * j))) Register.esp :: is) k

namespace Confined

variable {n k l : Nat} {is js : Code}

theorem append (h : Confined n is k) (h' : Confined k js l) : Confined n (is ++ js) l := by
  induction h with
  | nil n => exact h'
  | quiet hi _ ih => exact .quiet hi (ih h')
  | push o _ ih => exact .push o (ih h')
  | pop hr _ ih => exact .pop hr (ih h')
  | shrink j _ ih => exact .shrink j (ih h')

theorem one {i : Instruction} (hi : i.isQuiet = true) : Confined n [i] n :=
  .quiet hi (.nil n)

/-- Code that leaves the stack as high as it is can be repeated. -/
theorem flatMap {α : Type} {f : α → Code} {xs : List α} (h : ∀ x ∈ xs, Confined n (f x) n) :
    Confined n (xs.flatMap f) n := by
  induction xs with
  | nil => exact .nil n
  | cons x xs ih =>
    rw [List.flatMap_cons]
    exact (h x List.mem_cons_self).append (ih fun y hy => h y (List.mem_cons_of_mem x hy))

end Confined

/-- The words of the stack up to a height, all memory above them, and the global words. -/
def OutOfReach (floor : Nat) (a : UInt32) : Prop :=
  a.toNat < 0x0001000c ∨ (heightWord floor).toUInt32 ≤ a

namespace Machine

/-- Two machines have the same words out of reach of code that works above a height. -/
def KeepsBelow (floor : Nat) (m m' : Machine) : Prop :=
  ∀ a, OutOfReach floor a → m'.memory[a]? = m.memory[a]?

/-- What an instruction of confined code does to the stack. -/
structure Grows (floor n k : Nat) (m m' : Machine) : Prop where
  top : m'.registers.esp = heightWord (floor + k)
  memory : m'.memory = m.memory ∨ n < k ∧
    ∃ w, m'.memory = m.memory.insert (heightWord (floor + k)).toUInt32 w

variable {floor n k : Nat} {m m' : Machine} {index : Option Nat}

theorem grows_of_leaves {op : Op (Option Nat)} (h : Leaves op)
    (esp : m.registers.esp = heightWord (floor + n)) (he : op m = .ok index m') :
    Grows floor n n m m' :=
  have kept := h m index m' he
  ⟨kept.2.trans esp, .inl kept.1⟩

theorem grows_push {o : Operand} {next : Nat} (esp : m.registers.esp = heightWord (floor + n))
    (he : execute image (.push o) next m = .ok index m') : Grows floor n (n + 1) m m' := by
  simp only [execute, Bind.bind, EStateM.bind] at he
  cases read : Machine.read image o m with
  | error t m₁ =>
    rw [read] at he
    cases he
  | ok w m₁ =>
    obtain ⟨memory, top⟩ := Leaves.read image o m w m₁ read
    have less : m₁.registers.esp - 4 = heightWord (floor + (n + 1)) := by
      rw [top, esp]
      exact heightWord_sub_four _
    rw [read] at he
    cases he
    refine ⟨less, .inr ⟨Nat.lt_succ_self n, w, ?_⟩⟩
    show m₁.memory.insert (m₁.registers.esp - 4).toUInt32 w = _
    rw [less, memory]

theorem grows_pop {r : Register} {next : Nat} (hr : r ≠ .esp)
    (esp : m.registers.esp = heightWord (floor + (n + 1)))
    (he : execute image (.pop r) next m = .ok index m') : Grows floor (n + 1) n m m' := by
  simp only [execute, Machine.pop, Bind.bind, EStateM.bind, Machine.get] at he
  cases loaded : load (m.registers.get .esp).toUInt32 m with
  | error t m₁ =>
    rw [loaded] at he
    cases he
  | ok w m₁ =>
    obtain ⟨memory, top⟩ := Leaves.load _ m w m₁ loaded
    have more : m.registers.esp + 4 = heightWord (floor + n) := by
      rw [esp]
      exact heightWord_add_four (floor + n)
    rw [loaded] at he
    cases he
    refine ⟨?_, .inl memory⟩
    cases r <;> first | exact more | exact absurd rfl hr

theorem grows_shrink {j next : Nat} (esp : m.registers.esp = heightWord (floor + (n + j)))
    (he : execute image (.add (.immediate (.ofNat (4 * j))) Register.esp) next m = .ok index m') :
    Grows floor (n + j) n m m' := by
  cases he
  refine ⟨?_, .inl rfl⟩
  have bytes : Int32.ofNat (4 * j) = .ofInt (4 * j : Nat) := Int32.ofInt_eq_ofNat.symm
  show Int32.ofInt (m.registers.esp.toInt + (Int32.ofNat (4 * j)).toInt) = heightWord (floor + n)
  rw [Int32.ofInt_add, Int32.ofInt_toInt, Int32.ofInt_toInt, esp, bytes]
  exact heightWord_add (by omega)

end Machine

namespace Confined

open Machine (KeepsBelow Grows Visit)
open View (savedWords)

variable {image : Image} {floor n k j : Nat} {i : Instruction} {is : Code} {x y : Visit}

/-- The first instruction of confined code. -/
theorem next (h : Confined n (i :: is) k) (hr : image.functions.get? Symbol.release = none)
    (hi : image.code[x.index]? = some i)
    (esp : x.machine.registers.esp = heightWord (floor + n)) (s : x.Next image y) :
    ∃ l ≤ n + 1, Confined l is k ∧ y.index = x.index + 1 ∧ Grows floor n l x.machine y.machine := by
  obtain ⟨i', hi', he, -⟩ := s
  cases hi.symm.trans hi'
  have index (straight : i.isStraight = true) : y.index = x.index + 1 :=
    Option.some.inj (Machine.gives_execute hr straight _ _ _ _ he)
  cases h with
  | quiet quiet rest =>
    exact ⟨n, Nat.le_succ n, rest, index (i.isStraight_of_isQuiet quiet),
      Machine.grows_of_leaves (Machine.Leaves.execute hr quiet _) esp he⟩
  | push o rest => exact ⟨n + 1, Nat.le_refl _, rest, index rfl, Machine.grows_push esp he⟩
  | @pop n _ r _ hr rest => exact ⟨n, by omega, rest, index rfl, Machine.grows_pop hr esp he⟩
  | @shrink n _ _ j rest => exact ⟨n, by omega, rest, index rfl, Machine.grows_shrink esp he⟩

theorem keepsBelow_of_grows {m m' : Machine} (grows : Grows floor n k m m') (small : k ≤ n + 1)
    (hn : floor + n ≤ room) (above : m'.Above) : floor + k ≤ room ∧ KeepsBelow floor m m' := by
  have slack : room + 1 ≤ ceiling := by decide
  rw [Machine.Above, grows.top] at above
  have inside := le_room_of_toNat (by omega) above.1 (UInt32.le_iff_toNat_le.mp above.2)
  refine ⟨inside, fun a reach => ?_⟩
  rcases grows.memory with same | ⟨more, w, same⟩
  · rw [same]
  · unfold room at inside
    have here := toNat_heightWord (k := floor + k) (by omega)
    have base := toNat_heightWord (k := floor) (by omega)
    rw [same, Machine.getElem?_insert, if_neg]
    rintro rfl
    rcases reach with low | high
    · omega
    · rw [UInt32.le_iff_toNat_le, here, base] at high
      omega

/-- Confined code leaves alone what is out of its reach. -/
theorem keepsBelow (h : Confined n is k) (hr : image.functions.get? Symbol.release = none)
    (located : Machine.Located image x.index is) (esp : x.machine.registers.esp = heightWord (floor + n))
    (hn : floor + n ≤ room) (above : x.StaysAbove image is.length)
    (s : x.Steps image is.length y) : KeepsBelow floor x.machine y.machine := by
  induction is generalizing n x with
  | nil =>
    cases s
    exact fun _ _ => rfl
  | cons i is ih =>
    cases s with
    | @next _ _ x' _ first rest =>
      obtain ⟨l, hl, confined, index, grows⟩ := h.next hr located.1 esp first
      have above' := above.later (.one first) (Nat.succ_le_succ (Nat.zero_le is.length))
      obtain ⟨inside, keeps⟩ := keepsBelow_of_grows grows hl hn above'.now
      have keeps' := ih confined (index ▸ located.2) grows.top inside above' rest
      exact fun a reach => (keeps' a reach).trans (keeps a reach)

/-! ## Pieces of code -/

theorem pushAt (n d : Nat) (ws : Words) :
    Confined n (Code.pushAt d ws) (n + (spilledWords (d + 1) - spilledWords d)) := by
  match d with
  | 0 => exact .quiet rfl (.one rfl)
  | 1 => exact .quiet rfl (.one rfl)
  | d + 2 =>
    have two : spilledWords (d + 2 + 1) - spilledWords (d + 2) = 2 := by
      unfold spilledWords
      omega
    rw [two]
    exact .push _ (.push _ (.nil _))

theorem drop (n j : Nat) : Confined (n + 2 * j) (Code.drop j) n := by
  unfold Code.drop
  split
  · rename_i zero
    rw [zero]
    exact .nil n
  · have bytes : 8 * j = 4 * (2 * j) := by omega
    rw [bytes]
    exact .shrink (2 * j) (.nil n)

theorem dropSpilled (n : Nat) (items : List Item) (m : Nat) :
    Confined (n + (spilledWords items.length - spilledWords (items.length - m)))
      (Code.dropSpilled (topSlots items m)) n := by
  unfold Code.dropSpilled topSlots
  rw [List.countP_reverse, Operands.countP_isSpilled, List.length_map]
  have words : spilledWords items.length - spilledWords (items.length - m) =
      2 * (items.length - 2 - (items.length - m - 2)) := by
    unfold spilledWords
    omega
  rw [words]
  exact drop n _

theorem save (n d : Nat) : Confined n (Code.save d) (n + savedWords d) := by
  match d with
  | 0 => exact .nil n
  | 1 => exact .push _ (.push _ (.nil _))
  | d + 2 =>
    rw [View.save_add_two]
    exact .push _ (.push _ (.push _ (.push _ (.nil _))))

theorem restore (n d : Nat) : Confined (n + savedWords d) (Code.restore d) n := by
  match d with
  | 0 => exact .nil n
  | 1 => exact .pop (by decide) (.pop (by decide) (.nil n))
  | d + 2 =>
    rw [View.restore_add_two]
    exact .pop (by decide) (.pop (by decide) (.pop (by decide) (.pop (by decide) (.nil n))))

theorem release (n : Nat) (ws : Words) (d : Nat) : Confined n (Code.release ws d) n := by
  unfold Code.release Code.count
  refine (((save n d).append ?_).append (drop (n + savedWords d) 1)).append (restore n d)
  exact .push _ (.push _ (.one rfl))

theorem releaseOwned (n : Nat) (c : Context) (slots : List Slot) (d : Nat) :
    Confined n (Code.releaseOwned c slots d) n :=
  flatMap fun s _ => release n (c.slotWords s) d

theorem discard (n : Nat) (c : Context) (items : List Item) (m : Nat) :
    Confined (n + (spilledWords items.length - spilledWords (items.length - m)))
      (Code.discard c (topSlots items m) items.length) n := by
  unfold Code.discard
  refine .append ?_ (dropSpilled n items m)
  split
  · exact .push _ ((releaseOwned _ c _ _).append (.pop (by decide) (.nil _)))
  · exact .nil _

theorem compare (n : Nat) (left right : Operand) (condition : Condition) :
    Confined n (Code.compare left right condition) n :=
  .quiet rfl (.quiet rfl (.quiet rfl (.one rfl)))

theorem normalise (n : Nat) (o : Operand) (byte : ByteRegister) :
    Confined n (Code.normalise o byte) n := by
  cases byte <;> exact .quiet rfl (.quiet rfl (.quiet rfl (.one rfl)))

theorem divide (n : Nat) (left right : Operand) {result : Code}
    (h : Confined (n + 1) result (n + 1)) : Confined n (Code.divide left right result) n :=
  .quiet rfl (.quiet rfl (.push _ (.quiet rfl (.quiet rfl
    (h.append (.pop (by decide) (.nil n)))))))

theorem binary (n : Nat) (op : BinaryOp) (left right : Operand) :
    Confined n (Code.binary op left right) n := by
  cases op with
  | plus => exact .quiet rfl (.one rfl)
  | minus => exact .quiet rfl (.one rfl)
  | times => exact .quiet rfl (.one rfl)
  | div => exact divide n left right (.nil _)
  | rem => exact divide n left right (.one rfl)
  | and => exact ((normalise n left .al).append (normalise n right .bl)).append (.one rfl)
  | or => exact ((normalise n left .al).append (normalise n right .bl)).append (.one rfl)
  | _ => exact compare n left right _

end Confined

end Threefold.X86
