import Mathlib.Algebra.Group.Int.Defs
import Mathlib.Algebra.Group.Nat.Defs
import Threefold.Proofs.X86.Library

/-!
# What generated code sees of the machine

Generated code reaches memory in two ways only: through the base and stack pointers, and through
three global words. A `View` has the words of the machine stack by their height, counted from the
end of the stack, and the global words apart; a word whose content nobody relies on is unknown.
Instructions that neither jump nor leave work on views (`View.exec`). As long as the stack does not
grow down to the global words, what they do to a view is what they do to the machine
(`Machine.Shows.exec`).
-/

namespace Threefold.X86

open Machine (stackTop spoiled)

/-! ## Heights -/

/-- The address of the word at a height of the machine stack. -/
def heightWord (k : Nat) : Int32 :=
  .ofInt (0x00f00000 - 4 * k)

/-- The greatest height that a word can stand for as a signed number. -/
def ceiling : Nat := 540803072

/-- The height of the last word above the global ones. -/
def room : Nat := 3915773

theorem toInt_heightWord {k : Nat} (hk : k ≤ ceiling) :
    (heightWord k).toInt = 0x00f00000 - 4 * (k : Int) := by
  unfold ceiling at hk
  unfold heightWord
  apply Int32.toInt_ofInt_of_le
  · omega
  · omega

theorem heightWord_inj {j k : Nat} (hj : j ≤ ceiling) (hk : k ≤ ceiling)
    (h : heightWord j = heightWord k) : j = k := by
  have same := congrArg Int32.toInt h
  rw [toInt_heightWord hj, toInt_heightWord hk] at same
  omega

/-- The height that an address has on the machine stack. Addresses below zero count as well; they
come up when the stack has run through all of the memory below it. -/
def heightOf? (n : Int32) : Option Nat :=
  if n.toInt ≤ 0x00f00000 ∧ n.toInt % 4 = 0 then some ((0x00f00000 - n.toInt) / 4).toNat else none

@[simp]
theorem heightOf?_heightWord {k : Nat} (hk : k ≤ ceiling) : heightOf? (heightWord k) = some k := by
  have value := toInt_heightWord hk
  unfold ceiling at hk
  unfold heightOf?
  rw [value, if_pos (by omega)]
  congr 1
  omega

theorem heightWord_of_heightOf? {n : Int32} {k : Nat} (h : heightOf? n = some k) :
    n = heightWord k ∧ k ≤ ceiling := by
  unfold heightOf? at h
  split at h
  · rename_i hn
    simp only [Option.some.injEq] at h
    have low := n.le_toInt
    have hk : k ≤ ceiling := by
      unfold ceiling
      omega
    refine ⟨?_, hk⟩
    apply Int32.toInt_inj.mp
    rw [toInt_heightWord hk]
    omega
  · cases h

/-- Moving an address by a number of bytes changes its height. -/
theorem heightWord_add {j k : Nat} {n : Int} (h : 4 * (k : Int) = 4 * j - n) :
    heightWord j + .ofInt n = heightWord k := by
  unfold heightWord
  rw [← Int32.ofInt_add]
  congr 1
  omega

/-- Taking four bytes for every word off an address leads that many words higher. -/
theorem heightWord_sub (k n : Nat) : heightWord k - .ofNat (4 * n) = heightWord (k + n) := by
  rw [← Int32.ofInt_eq_ofNat, Int32.sub_eq_add_neg, Int32.neg_ofInt]
  apply heightWord_add
  omega

theorem heightWord_sub_four (k : Nat) : heightWord k - 4 = heightWord (k + 1) :=
  heightWord_sub k 1

theorem heightWord_add_four (k : Nat) : heightWord (k + 1) + 4 = heightWord k := by
  have four : (4 : Int32) = .ofInt 4 := rfl
  have moved : heightWord (k + 1) + .ofInt 4 = heightWord k := heightWord_add (by omega)
  rw [four, moved]

theorem room_le_ceiling : room ≤ ceiling := by
  decide

/-- The words of the stack have the addresses below its end, in steps of four bytes. -/
theorem toNat_heightWord {k : Nat} (hk : k ≤ 0x003c0000) :
    (heightWord k).toUInt32.toNat = 0x00f00000 - 4 * k := by
  have value : (heightWord k).toInt = 0x00f00000 - 4 * (k : Int) := by
    apply toInt_heightWord
    unfold ceiling
    omega
  have nonneg : 0 ≤ heightWord k := by
    rw [Int32.le_iff_toInt_le, value]
    simp
    omega
  rw [Int32.toNat_toUInt32_of_le nonneg, Int32.toNatClampNeg, value]
  omega

theorem toUInt32_heightWord_inj {j k : Nat} (hj : j ≤ ceiling) (hk : k ≤ ceiling) :
    (heightWord j).toUInt32 = (heightWord k).toUInt32 ↔ j = k := by
  constructor
  · intro h
    have same := congrArg UInt32.toInt32 h
    rw [Int32.toInt32_toUInt32, Int32.toInt32_toUInt32] at same
    exact heightWord_inj hj hk same
  · intro h
    rw [h]

/-- A stack pointer between the global words and the end of the stack leaves room. -/
theorem le_room_of_toNat {k : Nat} (hk : k ≤ ceiling)
    (low : 0x0001000c ≤ (heightWord k).toUInt32.toNat)
    (high : (heightWord k).toUInt32.toNat ≤ 0x00f00000) : k ≤ room := by
  have value := toInt_heightWord hk
  have unsigned : (heightWord k).toInt =
      if 2 * (heightWord k).toUInt32.toNat < 2 ^ 32 then ((heightWord k).toUInt32.toNat : Int)
      else (heightWord k).toUInt32.toNat - (2 ^ 32 : Nat) := BitVec.toInt_eq_toNat_cond _
  rw [value] at unsigned
  unfold room
  split at unsigned <;> omega

/-- A word of the stack is none of the global words. -/
theorem toUInt32_heightWord_ne {k : Nat} (hk : k ≤ room) {a : UInt32} (ha : a.toNat < 0x0001000c) :
    (heightWord k).toUInt32 ≠ a := by
  intro h
  unfold room at hk
  have place := toNat_heightWord (k := k) (by omega)
  rw [h] at place
  omega

/-! ## Global words -/

/-- The words that all frames share. -/
inductive Global
  | payload
  | payloadTag
  | uncaught
  deriving DecidableEq

namespace Global

/-- The symbol of a global word. -/
def symbol : Global → Symbol
  | payload => Symbol.payload
  | payloadTag => Symbol.payloadTag
  | uncaught => Symbol.uncaught

/-- The address of a global word. -/
def address : Global → UInt32
  | payload => 0x00010000
  | payloadTag => 0x00010004
  | uncaught => 0x00010008

/-- The global word with a symbol. -/
def ofSymbol? (s : Symbol) : Option Global :=
  [payload, payloadTag, uncaught].find? (·.symbol = s)

@[simp]
theorem ofSymbol?_symbol (g : Global) : ofSymbol? g.symbol = some g := by
  cases g <;> decide

theorem symbol_of_ofSymbol? {s : Symbol} {g : Global} (h : ofSymbol? s = some g) :
    g.symbol = s := by
  unfold ofSymbol? at h
  have found := List.find?_some h
  exact of_decide_eq_true found

theorem address_lt (g : Global) : g.address.toNat < 0x0001000c := by
  cases g <;> decide

theorem address_inj (g g' : Global) : g.address = g'.address ↔ g = g' := by
  cases g <;> cases g' <;> decide

end Global

/-! ## Views -/

/-- The registers and flags, the words of the machine stack by their height, the global words and
the world. The height is that of the last word on the stack. -/
structure View where
  registers : Registers
  height : Nat
  cell : Nat → Option Int32
  globals : Global → Int32
  flags : Flags
  world : World

namespace View

/-- The view with another word in a register. -/
def set (v : View) (r : Register) (n : Int32) : View :=
  { v with registers := v.registers.set r n }

/-- The view with another word at a height. -/
def put (v : View) (k : Nat) (n : Int32) : View :=
  { v with cell := fun j => if j = k then some n else v.cell j }

/-- The view with another global word. -/
def setGlobal (v : View) (g : Global) (n : Int32) : View :=
  { v with globals := fun g' => if g' = g then n else v.globals g' }

/-- The view with the stack pointer at a height. Nothing is known about words that come into being
with that. -/
def moveTop (v : View) (k : Nat) : View :=
  { v with
    registers := v.registers.set .esp (heightWord k)
    height := k
    cell := fun j => if j ≤ v.height then v.cell j else none }

/-- The view with one more word on the stack. -/
def push (v : View) (n : Int32) : View :=
  (v.moveTop (v.height + 1)).put (v.height + 1) n

/-- The height of the word at an address on the stack. -/
def place? (v : View) (a : Int32) : Option Nat :=
  match heightOf? a with
  | some k => if 1 ≤ k ∧ k ≤ v.height then some k else none
  | none => none

/-- The word that an operand stands for. -/
def read (image : Image) (v : View) : Operand → Option Int32
  | .immediate n => some n
  | .address s => image.data.get? s
  | .register r => some (v.registers.get r)
  | .memory base offset => (v.place? (v.registers.get base + offset)).bind v.cell
  | .global s => (Global.ofSymbol? s).map v.globals

/-- The view with a word where an operand says. -/
def write (v : View) (o : Operand) (n : Int32) : Option View :=
  match o with
  | .register .esp => (heightOf? n).map v.moveTop
  | .register r => some (v.set r n)
  | .memory base offset => (v.place? (v.registers.get base + offset)).map fun k => v.put k n
  | .global s => (Global.ofSymbol? s).map fun g => v.setGlobal g n
  | .immediate _ | .address _ => none

/-- The word on top of the stack, and the view without it. -/
def pop? (v : View) : Option (Int32 × View) :=
  if 1 ≤ v.height then (v.cell v.height).map fun n => (n, v.moveTop (v.height - 1)) else none

/-- What comes of an instruction: the view behind it, or a trap with the view in which it
happened. -/
abbrev Effect := Except (Trap × View) View

/-- The view with flags for a result. -/
def flagged (v : View) (n : Int32) (overflow : Bool) : View :=
  { v with flags := .ofResult n overflow }

/-- Add to or subtract from a destination. -/
def arithmetic (image : Image) (v : View) (op : Int → Int → Int) (source destination : Operand)
    (keep : Bool) : Option Effect := do
  let d ← v.read image destination
  let s ← v.read image source
  let exact := op d.toInt s.toInt
  (if keep then v.write destination (.ofInt exact) else some v).map fun v =>
    .ok (v.flagged (.ofInt exact) (!fits exact))

/-- Combine the bits of a destination with those of a source. -/
def bitwise (image : Image) (v : View) (op : Int32 → Int32 → Int32) (source destination : Operand)
    (keep : Bool) : Option Effect := do
  let d ← v.read image destination
  let s ← v.read image source
  (if keep then v.write destination (op d s) else some v).map fun v =>
    .ok (v.flagged (op d s) false)

/-- Divide the double word in two registers by a word. -/
def divide (v : View) (divisor : Int32) : Effect :=
  let dividend := v.registers.edx.toInt * 0x100000000 + v.registers.eax.toUInt32.toNat
  if divisor = 0 then .error (.divisionByZero, v)
  else
    let quotient := dividend.tdiv divisor.toInt
    if !fits quotient then .error (.quotientOverflow dividend divisor.toInt, v)
    else .ok ((v.set .eax (.ofInt quotient)).set .edx (.ofInt (dividend.tmod divisor.toInt)))

/-- The words of an argument of a call of the run-time library. -/
def argument? (v : View) (i : Nat) : Option Raw :=
  if 2 * i + 2 ≤ v.height then
    match v.cell (v.height - 2 * i), v.cell (v.height - 2 * i - 1) with
    | some n, some code => some ⟨n, code⟩
    | _, _ => none
  else none

/-- Put the answer of a built-in function where its caller expects it. -/
def answer (v : View) (i : Intrinsic) : Intrinsic.Reply → Option View
  | .returned x => some ((v.set .eax x.word).set .ebx x.tag.code)
  | .outOfBounds n =>
    if 2 * i.arity + 1 ≤ v.height then
      some (((((v.put (v.height - 2 * i.arity) Exceptions.outOfBounds).setGlobal .payload n).setGlobal
        .payloadTag Tag.scalar.code).set .eax 0).set .ebx 0)
    else none

/-- The view after a call of the run-time library, which spoils two registers. -/
def spoil (v : View) : View :=
  (v.set .ecx spoiled).set .edx spoiled

/-- The work of an operation on the world. -/
def perform {α : Type} (v : View) (op : Library.Op α) : Except (Trap × View) (α × View) :=
  match op v.world with
  | .ok a w => .ok (a, { v with world := w })
  | .error t w => .error (t, { v with world := w })

/-- The work of a function of the run-time library. -/
def serve (v : View) (s : Symbol) : Option Effect :=
  if s = Symbol.retain then
    (v.argument? 0).map fun x => (v.perform (Library.retain x)).map fun r => r.2.spoil
  else if s = Symbol.release then
    (v.argument? 0).map fun x => (v.perform (Library.release x)).map fun r => r.2.spoil
  else
    match Machine.intrinsic? s with
    | none => none
    | some i =>
      match (List.range i.arity).mapM v.argument? with
      | none => none
      | some arguments =>
        match v.perform (Library.call i arguments) with
        | .ok (reply, v) => (v.answer i reply).map fun v => .ok v.spoil
        | .error e => some (.error e)

/-- Execute an instruction that neither jumps nor leaves. -/
def exec (image : Image) (v : View) : Instruction → Option Effect
  | .mov s d => do return .ok (← v.write d (← v.read image s))
  | .movzbl s d => (v.write d (v.registers.get s.full &&& 0xff)).map .ok
  | .add s d => v.arithmetic image (· + ·) s d true
  | .sub s d => v.arithmetic image (· - ·) s d true
  | .imul s d => do return .ok (← v.write d (v.registers.get d * (← v.read image s)))
  | .and s d => v.bitwise image (· &&& ·) s d true
  | .or s d => v.bitwise image (· ||| ·) s d true
  | .cmp s d => v.arithmetic image (· - ·) s d false
  | .test s d => v.bitwise image (· &&& ·) s d false
  | .set c d => (v.write d.full ((v.registers.get d.full &&& ~~~0xff) ||| truth (v.flags.holds c))).map .ok
  | .cltd => some (.ok (v.set .edx (if v.registers.eax < 0 then -1 else 0)))
  | .idiv d => (v.read image d).map v.divide
  | .push s => (v.read image s).map fun n => .ok (v.push n)
  | .pop d => do
    let (n, v) ← v.pop?
    return .ok (← v.write d n)
  | .call s =>
    match image.functions.get? s with
    | some _ => none
    | none => v.serve s
  | .jmp _ | .jcc _ _ | .ret => none

end View

/-! ## Machines and views -/

/-- The global words have their addresses. -/
def Image.HasGlobals (image : Image) : Prop :=
  ∀ g : Global, image.data.get? g.symbol = some g.address.toInt32

namespace Machine

/-- What a view says about a machine is so. -/
structure Shows (m : Machine) (v : View) : Prop where
  registers : m.registers = v.registers
  flags : m.flags = v.flags
  world : m.world = v.world
  top : v.registers.esp = heightWord v.height
  room : v.height ≤ room
  cell : ∀ k n, 1 ≤ k → k ≤ v.height → v.cell k = some n →
    m.memory[(heightWord k).toUInt32]? = some n
  globals : ∀ g, m.memory[g.address]? = some (v.globals g)

/-- What a view says about the registers of a machine is so, and about all of it if there is room
for the stack. -/
structure Near (m : Machine) (v : View) : Prop where
  top : m.registers.esp = heightWord v.height
  height : v.height ≤ ceiling
  shows : v.height ≤ X86.room → m.Shows v

section Operands

variable {image : Image} {m : Machine} {v v' : View} {o : Operand} {n : Int32}

theorem Shows.near (S : m.Shows v) : m.Near v :=
  ⟨S.registers ▸ S.top, Nat.le_trans S.room room_le_ceiling, fun _ => S⟩

theorem getElem?_insert (t : Std.TreeMap UInt32 Int32) (a b : UInt32) (n : Int32) :
    (t.insert a n)[b]? = if a = b then some n else t[b]? := by
  rw [Std.TreeMap.getElem?_insert]
  simp

theorem place?_eq_some {a : Int32} {k : Nat} (h : v.place? a = some k) :
    a = heightWord k ∧ 1 ≤ k ∧ k ≤ v.height := by
  unfold View.place? at h
  cases hk : heightOf? a with
  | none =>
    rw [hk] at h
    cases h
  | some j =>
    rw [hk] at h
    dsimp only at h
    split at h
    · rename_i bounds
      cases h
      exact ⟨(heightWord_of_heightOf? hk).1, bounds⟩
    · cases h

/-- Reading leaves the machine as it is. -/
theorem Shows.read (hg : image.HasGlobals) (S : m.Shows v) (h : v.read image o = some n) :
    Machine.read image o m = .ok n m := by
  cases o with
  | immediate k =>
    cases h
    rfl
  | address s =>
    have found : image.data.get? s = some n := h
    simp only [Machine.read, datum, found]
    rfl
  | register r =>
    cases h
    simp only [Machine.read, Machine.get, S.registers]
  | memory base offset =>
    obtain ⟨k, hk, hn⟩ := Option.bind_eq_some_iff.mp h
    obtain ⟨place, low, high⟩ := place?_eq_some hk
    have there := S.cell k n low high hn
    rw [← place, ← S.registers] at there
    simp only [Machine.read, address, Machine.get, load, Bind.bind, EStateM.bind, Pure.pure,
      EStateM.pure, there]
  | global s =>
    obtain ⟨g, hs, hn⟩ := Option.map_eq_some_iff.mp h
    cases hn
    have symbol := Global.symbol_of_ofSymbol? hs
    subst symbol
    simp only [Machine.read, datum, hg g, load, Bind.bind, EStateM.bind, Pure.pure, EStateM.pure,
      UInt32.toUInt32_toInt32, S.globals g]

theorem Shows.set (S : m.Shows v) {r : Register} (hr : r ≠ .esp) (n : Int32) :
    Shows { m with registers := m.registers.set r n } (v.set r n) := by
  refine ⟨?_, S.flags, S.world, ?_, S.room, S.cell, S.globals⟩
  · show m.registers.set r n = v.registers.set r n
    rw [S.registers]
  · have kept : (v.registers.set r n).esp = v.registers.esp := by cases r <;> simp_all [Registers.set]
    show (v.registers.set r n).esp = heightWord v.height
    rw [kept, S.top]

theorem Shows.put (S : m.Shows v) {k : Nat} (hk : k ≤ v.height) (n : Int32) :
    Shows { m with memory := m.memory.insert (heightWord k).toUInt32 n } (v.put k n) := by
  have hroom : k ≤ X86.room := Nat.le_trans hk S.room
  have hc : k ≤ ceiling := Nat.le_trans hroom room_le_ceiling
  refine ⟨S.registers, S.flags, S.world, S.top, S.room, ?_, ?_⟩
  · intro j w low high hw
    have high : j ≤ v.height := high
    have hj : j ≤ ceiling := Nat.le_trans (Nat.le_trans high S.room) room_le_ceiling
    show (m.memory.insert _ _)[_]? = _
    rw [getElem?_insert]
    by_cases same : j = k
    · subst same
      simp only [View.put, if_pos] at hw
      rw [if_pos rfl, hw]
    · simp only [View.put, if_neg same] at hw
      rw [if_neg fun h => same ((toUInt32_heightWord_inj hc hj).mp h).symm]
      exact S.cell j w low high hw
  · intro g
    show (m.memory.insert _ _)[_]? = _
    rw [getElem?_insert, if_neg (toUInt32_heightWord_ne hroom g.address_lt)]
    exact S.globals g

theorem Shows.setGlobal (S : m.Shows v) (g : Global) (n : Int32) :
    Shows { m with memory := m.memory.insert g.address n } (v.setGlobal g n) := by
  refine ⟨S.registers, S.flags, S.world, S.top, S.room, ?_, ?_⟩
  · intro k w low high hw
    have hk : k ≤ X86.room := Nat.le_trans high S.room
    show (m.memory.insert _ _)[_]? = _
    rw [getElem?_insert, if_neg (toUInt32_heightWord_ne hk g.address_lt).symm]
    exact S.cell k w low high hw
  · intro g'
    show (m.memory.insert _ _)[_]? = some (if g' = g then n else v.globals g')
    rw [getElem?_insert]
    by_cases same : g' = g
    · rw [if_pos same, if_pos (by rw [same])]
    · rw [if_neg same, if_neg fun h => same ((Global.address_inj g g').mp h).symm]
      exact S.globals g'

theorem Shows.moveTop (S : m.Shows v) {k : Nat} (hk : k ≤ ceiling) :
    Near { m with registers := m.registers.set .esp (heightWord k) } (v.moveTop k) := by
  refine ⟨rfl, hk, fun hroom => ?_⟩
  refine ⟨?_, S.flags, S.world, rfl, hroom, ?_, S.globals⟩
  · show m.registers.set .esp _ = v.registers.set .esp _
    rw [S.registers]
  · intro j w low high hw
    simp only [View.moveTop] at hw
    split at hw
    · rename_i below
      exact S.cell j w low below hw
    · cases hw

theorem Shows.write (hg : image.HasGlobals) (S : m.Shows v) (h : v.write o n = some v') :
    ∃ m', Machine.write image o n m = .ok () m' ∧ m'.Near v' := by
  cases o with
  | immediate k => cases h
  | address s => cases h
  | register r =>
    refine ⟨{ m with registers := m.registers.set r n }, rfl, ?_⟩
    by_cases hr : r = .esp
    · subst hr
      obtain ⟨k, hk, hv⟩ := Option.map_eq_some_iff.mp h
      cases hv
      obtain ⟨rfl, bound⟩ := heightWord_of_heightOf? hk
      exact S.moveTop bound
    · have same : v.write (.register r) n = some (v.set r n) := by
        cases r <;> first | rfl | exact absurd rfl hr
      rw [same] at h
      cases h
      exact (S.set hr n).near
  | memory base offset =>
    obtain ⟨k, hk, hv⟩ := Option.map_eq_some_iff.mp h
    cases hv
    obtain ⟨place, -, high⟩ := place?_eq_some hk
    refine ⟨_, ?_, (S.put high n).near⟩
    rw [← place, ← S.registers]
    rfl
  | global s =>
    obtain ⟨g, hs, hv⟩ := Option.map_eq_some_iff.mp h
    cases hv
    have symbol := Global.symbol_of_ofSymbol? hs
    subst symbol
    refine ⟨_, ?_, (S.setGlobal g n).near⟩
    simp only [Machine.write, datum, hg g, store, Bind.bind, EStateM.bind, Pure.pure, EStateM.pure,
      UInt32.toUInt32_toInt32]

theorem Near.put {k : Nat} (N : m.Near v) (hk : k ≤ v.height) (n : Int32) :
    Near { m with memory := m.memory.insert (heightWord k).toUInt32 n } (v.put k n) :=
  ⟨N.top, N.height, fun hroom => (N.shows hroom).put hk n⟩

theorem Shows.push (S : m.Shows v) (n : Int32) :
    ∃ m', Machine.push n m = .ok () m' ∧ m'.Near (v.push n) := by
  have below : m.registers.esp - 4 = heightWord (v.height + 1) := by
    rw [S.registers, S.top, heightWord_sub_four]
  have bound : v.height + 1 ≤ ceiling := by
    have high := S.room
    unfold X86.room at high
    unfold ceiling
    omega
  have there : v.height + 1 ≤ (v.moveTop (v.height + 1)).height := Nat.le_refl (v.height + 1)
  refine ⟨_, ?_, (S.moveTop bound).put there n⟩
  simp only [Machine.push, Machine.get, Machine.set, store, Bind.bind, EStateM.bind,
    Registers.get, below]

theorem Shows.pop (S : m.Shows v) (h : v.pop? = some (n, v')) :
    ∃ m', Machine.pop m = .ok n m' ∧ m'.Shows v' := by
  unfold View.pop? at h
  split at h
  · rename_i low
    obtain ⟨w, hw, hv⟩ := Option.map_eq_some_iff.mp h
    cases hv
    have there := S.cell v.height n low (Nat.le_refl _) hw
    have below : v.height - 1 ≤ v.height := Nat.sub_le v.height 1
    have high : v.height ≤ ceiling := S.near.height
    have hc : v.height - 1 ≤ ceiling := Nat.le_trans below high
    have above : heightWord v.height + 4 = heightWord (v.height - 1) := by
      have moved := heightWord_add_four (v.height - 1)
      rw [Nat.sub_add_cancel low] at moved
      exact moved
    have top : m.registers.esp = heightWord v.height := S.near.top
    refine ⟨_, ?_, (S.moveTop hc).shows (Nat.le_trans below S.room)⟩
    simp only [Machine.pop, Machine.get, Machine.set, load, Bind.bind, EStateM.bind, Pure.pure,
      EStateM.pure, Registers.get, top, there, above]
  · cases h

theorem Near.flagged (N : m.Near v) (n : Int32) (overflow : Bool) :
    Near { m with flags := .ofResult n overflow } (v.flagged n overflow) := by
  refine ⟨N.top, N.height, fun hroom => ?_⟩
  have S := N.shows hroom
  exact ⟨S.registers, rfl, S.world, S.top, S.room, S.cell, S.globals⟩

theorem Shows.inWorld (S : m.Shows v) (w : World) :
    Shows { m with world := w } { v with world := w } :=
  ⟨S.registers, S.flags, rfl, S.top, S.room, S.cell, S.globals⟩

end Operands

/-! ## The run-time library -/

section Library

variable {image : Image} {m : Machine} {v v' : View}

/-- The addresses of the arguments of a call. -/
theorem argument_address {h i : Nat} (hi : 2 * i ≤ h) :
    (heightWord h).toUInt32 + 8 * .ofNat i = (heightWord (h - 2 * i)).toUInt32 := by
  have moved : heightWord h + .ofInt ((8 * i : Nat) : Int) = heightWord (h - 2 * i) := by
    apply heightWord_add
    omega
  have bytes : (Int32.ofInt ((8 * i : Nat) : Int)).toUInt32 = 8 * .ofNat i := by
    rw [Int32.ofInt_eq_ofNat, Int32.toUInt32_ofNat', UInt32.ofNat_mul]
    rfl
  rw [← moved, Int32.toUInt32_add, bytes]

theorem tag_address {h : Nat} (hh : 1 ≤ h) :
    (heightWord h).toUInt32 + 4 = (heightWord (h - 1)).toUInt32 := by
  have moved := heightWord_add_four (h - 1)
  rw [Nat.sub_add_cancel hh] at moved
  rw [← moved, Int32.toUInt32_add]
  rfl

/-- The work of an operation on the world, for the machine. -/
def perform {α : Type} (op : Library.Op α) : Op α := fun m =>
  match op m.world with
  | .ok a w => .ok a { m with world := w }
  | .error t w => .error t { m with world := w }

theorem perform_bind {α β : Type} (op : Library.Op α) (k : α → Library.Op β) :
    perform (op >>= k) = perform op >>= fun a => perform (k a) := by
  funext m
  simp only [perform, Bind.bind, EStateM.bind]
  cases op m.world <;> rfl

theorem perform_lift {α : Type} (op : World.Op α) : perform (Library.lift op) = onWorld op := by
  funext m
  obtain ⟨registers, memory, flags, world⟩ := m
  simp only [perform, Library.lift, onWorld]
  cases op world <;> rfl

theorem Shows.argument (S : m.Shows v) {i : Nat} {x : Raw} (h : v.argument? i = some x) :
    Machine.argument (heightWord v.height).toUInt32 i m = perform (Library.value i x) m := by
  unfold View.argument? at h
  split at h
  · rename_i bound
    cases hn : v.cell (v.height - 2 * i) with
    | none => simp [hn] at h
    | some n =>
      cases hc : v.cell (v.height - 2 * i - 1) with
      | none => simp [hn, hc] at h
      | some code =>
        rw [hn, hc] at h
        cases h
        have word := S.cell _ n (by omega) (by omega) hn
        have type := S.cell _ code (by omega) (by omega) hc
        rw [← tag_address (by omega), ← argument_address (by omega)] at type
        rw [← argument_address (by omega)] at word
        simp only [Machine.argument, load, Bind.bind, EStateM.bind, word, type, perform,
          Library.value]
        cases Tag.ofCode? code <;> rfl
  · cases h

theorem perform_value_ok {i : Nat} {r : Raw} {x : Value} {m' : Machine}
    (h : perform (Library.value i r) m = .ok x m') : m' = m := by
  simp only [perform, Library.value] at h
  cases ht : Tag.ofCode? r.code with
  | none => simp [ht] at h
  | some tag =>
    simp only [ht, EStateM.Result.ok.injEq] at h
    exact h.2.symm

theorem Shows.arguments (S : m.Shows v) : ∀ {n k : Nat} {xs : List Raw},
    (List.range' k n).mapM v.argument? = some xs →
    (List.range' k n).mapM (Machine.argument (heightWord v.height).toUInt32) m =
      perform (Library.values k xs) m
  | 0, k, xs, h => by
    cases h
    rfl
  | n + 1, k, xs, h => by
    rw [List.range'_succ, List.mapM_cons] at h ⊢
    obtain ⟨x, hx, h⟩ := Option.bind_eq_some_iff.mp h
    obtain ⟨ys, hys, h⟩ := Option.bind_eq_some_iff.mp h
    cases h
    rw [Library.values, perform_bind]
    simp only [Bind.bind, EStateM.bind, S.argument hx]
    cases hr : perform (Library.value k x) m with
    | error t m' => rfl
    | ok y m' =>
      cases perform_value_ok hr
      have rest := S.arguments hys
      show EStateM.bind _ _ m = perform (Library.values (k + 1) ys >>= fun zs => pure (y :: zs)) m
      rw [perform_bind]
      simp only [Bind.bind, EStateM.bind, rest]
      rfl

/-- The machine comes to what an instruction does to a view. -/
def Yields {α : Type} (r : EStateM.Result Trap Machine α) (a : α) : View.Effect → Prop
  | .ok v => ∃ m, r = .ok a m ∧ m.Near v
  | .error (t, v) => ∃ m, r = .error t m ∧ m.Shows v

theorem Shows.perform {α : Type} (S : m.Shows v) (op : Library.Op α) :
    match v.perform op with
    | .ok (a, v') => ∃ m', Machine.perform op m = .ok a m' ∧ m'.Shows v'
    | .error (t, v') => ∃ m', Machine.perform op m = .error t m' ∧ m'.Shows v' := by
  have world := S.world
  obtain ⟨registers, memory, flags, w⟩ := m
  cases world
  simp only [View.perform, Machine.perform]
  cases op v.world with
  | ok a w => exact ⟨_, rfl, S.inWorld w⟩
  | error f w => exact ⟨_, rfl, S.inWorld w⟩

theorem eax_ne_esp : Register.eax ≠ .esp := by decide

theorem ebx_ne_esp : Register.ebx ≠ .esp := by decide

theorem edx_ne_esp : Register.edx ≠ .esp := by decide

theorem Shows.answer (hg : image.HasGlobals) (S : m.Shows v) {i : Intrinsic}
    {r : Intrinsic.Reply} (h : v.answer i r = some v') :
    ∃ m', Machine.answer image (heightWord v.height).toUInt32 i r m = .ok () m' ∧ m'.Shows v' := by
  cases r with
  | returned x =>
    cases h
    exact ⟨_, rfl, (S.set eax_ne_esp _).set ebx_ne_esp _⟩
  | outOfBounds n =>
    simp only [View.answer] at h
    split at h
    · rename_i bound
      cases h
      have below : v.height - 2 * i.arity ≤ v.height := Nat.sub_le _ _
      refine ⟨_, ?_, ((((S.put below _).setGlobal .payload _).setGlobal .payloadTag _).set
        eax_ne_esp _).set ebx_ne_esp _⟩
      have payload : image.data.get? Symbol.payload = some Global.payload.address.toInt32 :=
        hg .payload
      have tag : image.data.get? Symbol.payloadTag = some Global.payloadTag.address.toInt32 :=
        hg .payloadTag
      have slot := argument_address (show 2 * i.arity ≤ v.height by omega)
      simp only [Machine.answer, store, datum, payload, tag, slot, Bind.bind, EStateM.bind,
        Pure.pure, EStateM.pure, Machine.set, UInt32.toUInt32_toInt32]
    · cases h

theorem Shows.spoil (S : m.Shows v) :
    Shows { m with registers := (m.registers.set .ecx spoiled).set .edx spoiled } v.spoil :=
  (S.set (r := .ecx) (by decide) spoiled).set (by decide) spoiled

theorem Shows.callLibrary {s : Symbol} (S : m.Shows v) {m' : Machine}
    (h : Machine.serve image s (heightWord v.height).toUInt32 m = .ok () m') :
    Machine.callLibrary image s m =
      .ok () { m' with registers := (m'.registers.set .ecx spoiled).set .edx spoiled } := by
  have top : m.registers.esp = heightWord v.height := S.near.top
  simp only [Machine.callLibrary, Machine.get, Machine.set, Bind.bind, EStateM.bind,
    Registers.get, top, h]

theorem Shows.callLibrary_error {s : Symbol} (S : m.Shows v) {t : Trap} {m' : Machine}
    (h : Machine.serve image s (heightWord v.height).toUInt32 m = .error t m') :
    Machine.callLibrary image s m = .error t m' := by
  have top : m.registers.esp = heightWord v.height := S.near.top
  simp only [Machine.callLibrary, Machine.get, Bind.bind, EStateM.bind, Registers.get, top, h]

/-- A function of the library that only works on the world. -/
theorem Shows.callLibrary_perform {s : Symbol} (S : m.Shows v) {op : Library.Op Unit}
    (hop : Machine.serve image s (heightWord v.height).toUInt32 m = Machine.perform op m) :
    Yields (Machine.callLibrary image s m) () ((v.perform op).map fun r => r.2.spoil) := by
  have done := S.perform op
  cases hv : v.perform op with
  | ok r =>
    rw [hv] at done
    obtain ⟨m', hm, S'⟩ := done
    exact ⟨_, S.callLibrary (hop.trans hm), S'.spoil.near⟩
  | error r =>
    rw [hv] at done
    obtain ⟨m', hm, S'⟩ := done
    exact ⟨m', S.callLibrary_error (hop.trans hm), S'⟩

/-- One argument, and then an operation on the heap. -/
theorem Shows.argument_onWorld (S : m.Shows v) {i : Nat} {x : Raw} (hx : v.argument? i = some x)
    {α : Type} (k : Value → World.Op α) :
    (do let y ← Machine.argument (heightWord v.height).toUInt32 i; Machine.onWorld (k y)) m =
      Machine.perform (do Library.lift (k (← Library.value i x))) m := by
  rw [perform_bind]
  simp only [perform_lift]
  simp only [Bind.bind, EStateM.bind, S.argument hx]

theorem Shows.serve (hg : image.HasGlobals) (S : m.Shows v) {s : Symbol} {e : View.Effect}
    (h : v.serve s = some e) : Yields (Machine.callLibrary image s m) () e := by
  unfold View.serve at h
  by_cases retain : s = Symbol.retain
  · rw [if_pos retain] at h
    obtain ⟨x, hx, he⟩ := Option.map_eq_some_iff.mp h
    cases he
    apply S.callLibrary_perform
    simp only [Machine.serve, if_pos retain]
    exact S.argument_onWorld hx fun y => World.onHeap (Heap.retain y)
  rw [if_neg retain] at h
  by_cases release : s = Symbol.release
  · rw [if_pos release] at h
    obtain ⟨x, hx, he⟩ := Option.map_eq_some_iff.mp h
    cases he
    apply S.callLibrary_perform
    simp only [Machine.serve, if_neg retain, if_pos release]
    exact S.argument_onWorld hx fun y => World.onHeap (Heap.release y)
  rw [if_neg release] at h
  cases hi : intrinsic? s with
  | none => simp [hi] at h
  | some i =>
    simp only [hi] at h
    cases hxs : (List.range i.arity).mapM v.argument? with
    | none => simp [hxs] at h
    | some xs =>
      simp only [hxs] at h
      have arguments : (List.range i.arity).mapM
          (Machine.argument (heightWord v.height).toUInt32) m =
            Machine.perform (Library.values 0 xs) m := by
        rw [List.range_eq_range'] at hxs ⊢
        exact S.arguments hxs
      have same : Machine.serve image s (heightWord v.height).toUInt32 m =
          (do Machine.answer image (heightWord v.height).toUInt32 i
                (← Machine.perform (Library.call i xs)) : Op Unit) m := by
        simp only [Machine.serve, if_neg retain, if_neg release, hi, Library.call, perform_bind,
          perform_lift, bind_assoc]
        simp only [Bind.bind, EStateM.bind, arguments]
      have done := S.perform (Library.call i xs)
      cases hv : v.perform (Library.call i xs) with
      | ok r =>
        obtain ⟨reply, v₁⟩ := r
        rw [hv] at done h
        obtain ⟨m₁, hm, S₁⟩ := done
        obtain ⟨v₂, ha, he⟩ := Option.map_eq_some_iff.mp h
        cases he
        have height : v₁.height = v.height := by
          unfold View.perform at hv
          split at hv <;> cases hv
          rfl
        obtain ⟨m₂, hm₂, S₂⟩ := S₁.answer hg ha
        rw [height] at hm₂
        have served : Machine.serve image s (heightWord v.height).toUInt32 m = .ok () m₂ := by
          rw [same]
          simp only [Bind.bind, EStateM.bind, hm, hm₂]
        exact ⟨_, S.callLibrary served, S₂.spoil.near⟩
      | error r =>
        obtain ⟨t, v₁⟩ := r
        rw [hv] at done h
        obtain ⟨m₁, hm, S₁⟩ := done
        cases h
        have served : Machine.serve image s (heightWord v.height).toUInt32 m = .error t m₁ := by
          rw [same]
          simp only [Bind.bind, EStateM.bind, hm]
        exact ⟨m₁, S.callLibrary_error served, S₁⟩

end Library

/-! ## Instructions -/

section Instructions

variable {image : Image} {m : Machine} {v : View}

theorem Shows.arithmetic (hg : image.HasGlobals) (S : m.Shows v) {op : Int → Int → Int}
    {s d : Operand} {keep : Bool} {e : View.Effect} (h : v.arithmetic image op s d keep = some e) :
    Yields (Machine.arithmetic image op s d keep m) () e := by
  unfold View.arithmetic at h
  obtain ⟨left, hl, h⟩ := Option.bind_eq_some_iff.mp h
  obtain ⟨right, hr, h⟩ := Option.bind_eq_some_iff.mp h
  obtain ⟨v', hv, he⟩ := Option.map_eq_some_iff.mp h
  cases he
  cases keep with
  | false =>
    cases hv
    refine ⟨_, ?_, S.near.flagged _ _⟩
    simp only [Machine.arithmetic, Bind.bind, EStateM.bind, S.read hg hl, S.read hg hr]
    rfl
  | true =>
    obtain ⟨m', hm, N⟩ := S.write hg hv
    refine ⟨_, ?_, N.flagged _ _⟩
    simp only [Machine.arithmetic, Bind.bind, EStateM.bind, S.read hg hl, S.read hg hr, setFlags,
      if_true, hm]

theorem Shows.bitwise (hg : image.HasGlobals) (S : m.Shows v) {op : Int32 → Int32 → Int32}
    {s d : Operand} {keep : Bool} {e : View.Effect} (h : v.bitwise image op s d keep = some e) :
    Yields (Machine.bitwise image op s d keep m) () e := by
  unfold View.bitwise at h
  obtain ⟨left, hl, h⟩ := Option.bind_eq_some_iff.mp h
  obtain ⟨right, hr, h⟩ := Option.bind_eq_some_iff.mp h
  obtain ⟨v', hv, he⟩ := Option.map_eq_some_iff.mp h
  cases he
  cases keep with
  | false =>
    cases hv
    refine ⟨_, ?_, S.near.flagged _ _⟩
    simp only [Machine.bitwise, Bind.bind, EStateM.bind, S.read hg hl, S.read hg hr]
    rfl
  | true =>
    obtain ⟨m', hm, N⟩ := S.write hg hv
    refine ⟨_, ?_, N.flagged _ _⟩
    simp only [Machine.bitwise, Bind.bind, EStateM.bind, S.read hg hl, S.read hg hr, setFlags,
      if_true, hm]

theorem Shows.divide (S : m.Shows v) (n : Int32) :
    Yields (Machine.divide n m) () (v.divide n) := by
  have registers := S.registers
  let quotient := (v.registers.edx.toInt * 0x100000000 +
    v.registers.eax.toUInt32.toNat).tdiv n.toInt
  by_cases zero : n = 0
  · have trap : v.divide n = .error (.divisionByZero, v) := by simp only [View.divide, if_pos zero]
    rw [trap]
    refine ⟨m, ?_, S⟩
    simp only [Machine.divide, Machine.get, Bind.bind, EStateM.bind, if_pos zero]
    rfl
  by_cases wide : (!fits quotient) = true
  · simp only [View.divide, if_neg zero, quotient] at wide ⊢
    rw [if_pos wide]
    refine ⟨m, ?_, S⟩
    simp only [Machine.divide, Machine.get, Bind.bind, EStateM.bind, if_neg zero, Registers.get,
      registers, if_pos wide]
    rfl
  · simp only [View.divide, if_neg zero, quotient] at wide ⊢
    rw [if_neg wide]
    refine ⟨_, ?_, ((S.set eax_ne_esp _).set edx_ne_esp _).near⟩
    simp only [Machine.divide, Machine.get, Machine.set, Bind.bind, EStateM.bind, if_neg zero,
      Registers.get, registers, if_neg wide]

/-- Behind an instruction that does not jump comes the next one. -/
theorem Yields.next {r : Op Unit} {e : View.Effect} (h : Yields (r m) () e) (next : Nat) :
    Yields ((do r; return some next : Op (Option Nat)) m) (some next) e := by
  cases e with
  | ok v' =>
    obtain ⟨m', hm, N⟩ := h
    refine ⟨m', ?_, N⟩
    simp only [Bind.bind, EStateM.bind, hm]
    rfl
  | error e =>
    obtain ⟨m', hm, S'⟩ := h
    refine ⟨m', ?_, S'⟩
    simp only [Bind.bind, EStateM.bind, hm]

/-- What an instruction does to a view, it does to the machine. -/
theorem Shows.exec (hg : image.HasGlobals) (S : m.Shows v) {i : Instruction} {e : View.Effect}
    (h : v.exec image i = some e) (next : Nat) :
    Yields (Machine.execute image i next m) (some next) e := by
  cases i with
  | mov s d =>
    obtain ⟨n, hn, h⟩ := Option.bind_eq_some_iff.mp h
    obtain ⟨v', hv, he⟩ := Option.bind_eq_some_iff.mp h
    cases he
    obtain ⟨m', hm, N⟩ := S.write hg hv
    refine ⟨m', ?_, N⟩
    simp only [Machine.execute, Bind.bind, EStateM.bind, S.read hg hn, hm]
    rfl
  | movzbl s d =>
    obtain ⟨v', hv, he⟩ := Option.map_eq_some_iff.mp h
    cases he
    obtain ⟨m', hm, N⟩ := S.write hg hv
    refine ⟨m', ?_, N⟩
    rw [← S.registers] at hm
    have done : Machine.set d (m.registers.get s.full &&& 0xff) m = .ok () m' := hm
    simp only [Machine.execute, Machine.get, Bind.bind, EStateM.bind, done]
    rfl
  | add s d => exact (S.arithmetic hg h).next next
  | sub s d => exact (S.arithmetic hg h).next next
  | imul s d =>
    obtain ⟨n, hn, h⟩ := Option.bind_eq_some_iff.mp h
    obtain ⟨v', hv, he⟩ := Option.bind_eq_some_iff.mp h
    cases he
    obtain ⟨m', hm, N⟩ := S.write hg hv
    refine ⟨m', ?_, N⟩
    rw [← S.registers] at hm
    have done : Machine.set d (m.registers.get d * n) m = .ok () m' := hm
    simp only [Machine.execute, Machine.get, Bind.bind, EStateM.bind, S.read hg hn, done]
    rfl
  | and s d => exact (S.bitwise hg h).next next
  | or s d => exact (S.bitwise hg h).next next
  | cmp s d => exact (S.arithmetic hg h).next next
  | test s d => exact (S.bitwise hg h).next next
  | set c d =>
    obtain ⟨v', hv, he⟩ := Option.map_eq_some_iff.mp h
    cases he
    obtain ⟨m', hm, N⟩ := S.write hg hv
    refine ⟨m', ?_, N⟩
    rw [← S.registers, ← S.flags] at hm
    have done : Machine.set d.full ((m.registers.get d.full &&& ~~~0xff) |||
        truth (m.flags.holds c)) m = .ok () m' := hm
    simp only [Machine.execute, Machine.get, Machine.holds, Bind.bind, EStateM.bind, done]
    rfl
  | cltd =>
    cases h
    refine ⟨_, ?_, (S.set edx_ne_esp _).near⟩
    simp only [Machine.execute, Machine.get, Machine.set, Bind.bind, EStateM.bind, S.registers,
      Registers.get]
    rfl
  | idiv d =>
    obtain ⟨n, hn, he⟩ := Option.map_eq_some_iff.mp h
    cases he
    have divided := (S.divide n).next next
    have same : Machine.execute image (.idiv d) next m =
        (do Machine.divide n; return some next : Op (Option Nat)) m := by
      simp only [Machine.execute, Bind.bind, EStateM.bind, S.read hg hn]
    rw [same]
    exact divided
  | push s =>
    obtain ⟨n, hn, he⟩ := Option.map_eq_some_iff.mp h
    cases he
    obtain ⟨m', hm, N⟩ := S.push n
    refine ⟨m', ?_, N⟩
    simp only [Machine.execute, Bind.bind, EStateM.bind, S.read hg hn, hm]
    rfl
  | pop d =>
    obtain ⟨⟨n, v₁⟩, hn, h⟩ := Option.bind_eq_some_iff.mp h
    obtain ⟨v', hv, he⟩ := Option.bind_eq_some_iff.mp h
    cases he
    obtain ⟨m₁, hm₁, S₁⟩ := S.pop hn
    obtain ⟨m', hm, N⟩ := S₁.write hg hv
    refine ⟨m', ?_, N⟩
    simp only [Machine.execute, Bind.bind, EStateM.bind, hm₁, hm]
    rfl
  | call s =>
    cases hf : image.functions.get? s with
    | some index => simp [View.exec, hf] at h
    | none =>
      simp only [View.exec, hf] at h
      have served := (S.serve hg h).next next
      simp only [Machine.execute, hf]
      exact served
  | jmp l => cases h
  | jcc c l => cases h
  | ret => cases h

end Instructions

end Machine

end Threefold.X86
