import Threefold.Proofs.X86.Sequences
import Threefold.X86.Lowering

/-!
# What the pieces of generated code do

The code of an instruction is put together from pieces. `View.Runs` says what holds behind a piece,
given what has to hold behind it and what has to hold where it traps; pieces follow each other by
`Runs.append`. Most pieces leave the view as it was but for the words above the stack and the
registers that hold no operand (`Same`). What a piece does to the world is an operation of the
library, so the two are related through `Library.Wp`.
-/

namespace Threefold.X86

open Machine (spoiled)

namespace Library

variable {α β : Type} {op : Op α} {w : World} {Q R : α → World → Prop} {E : Trap → World → Prop}

/-- What holds behind an operation of the library, or where it traps. -/
def Wp (op : Op α) (w : World) (Q : α → World → Prop) (E : Trap → World → Prop) : Prop :=
  match op w with
  | .ok a w' => Q a w'
  | .error t w' => E t w'

theorem wp_bind {k : α → Op β} {Q : β → World → Prop} :
    Wp (op >>= k) w Q E ↔ Wp op w (fun a w' => Wp (k a) w' Q E) E := by
  simp only [Wp, Bind.bind, EStateM.bind]
  cases op w <;> rfl

theorem Wp.imp (h : Wp op w Q E) (hq : ∀ a w', op w = .ok a w' → Q a w' → R a w') :
    Wp op w R E := by
  unfold Wp at h ⊢
  cases hr : op w with
  | ok a w' =>
    rw [hr] at h
    exact hq a w' hr h
  | error t w' =>
    rw [hr] at h
    exact h

end Library

/-- The number of spilled operands among those on top. -/
theorem Operands.countP_isSpilled (flags : List Bool) (n : Nat) :
    ((slotsOf flags).take n).countP (·.place.isSpilled) =
      (flags.length - 2) - (flags.length - n - 2) := by
  induction flags generalizing n with
  | nil => simp [slotsOf]
  | cons o flags ih =>
    cases n with
    | zero => simp
    | succ n =>
      rw [slotsOf, List.take_succ_cons, List.countP_cons, ih, List.length_cons]
      generalize flags.length = m
      rcases m with _ | _ | k
      · simp [Place.atDepth, Place.isSpilled]
      · simp [Place.atDepth, Place.isSpilled]
      · simp only [Place.atDepth, Place.isSpilled, if_true]
        omega

/-- An operand that does not change with the stack pointer. -/
def Operand.IsSteady : Operand → Prop
  | .register r => r ≠ .esp
  | .memory base _ => base ≠ .esp
  | _ => True

/-- Both words can be read wherever the stack pointer is. -/
structure Words.IsSteady (ws : Words) : Prop where
  value : ws.value.IsSteady
  tag : ws.tag.IsSteady

namespace View

/-! ## Views one after the other -/

/-- The stack pointer says how high the stack is. -/
def Topped (v : View) : Prop :=
  v.registers.esp = heightWord v.height

@[simp]
theorem height_set (v : View) (r : Register) (n : Int32) : (v.set r n).height = v.height := rfl

@[simp]
theorem cell_set (v : View) (r : Register) (n : Int32) : (v.set r n).cell = v.cell := rfl

@[simp]
theorem globals_set (v : View) (r : Register) (n : Int32) : (v.set r n).globals = v.globals := rfl

@[simp]
theorem world_set (v : View) (r : Register) (n : Int32) : (v.set r n).world = v.world := rfl

theorem get_set (v : View) (r s : Register) (n : Int32) :
    (v.set r n).registers.get s = if s = r then n else v.registers.get s :=
  v.registers.get_set r s n

theorem set_get (v : View) (r : Register) : v.set r (v.registers.get r) = v := by
  obtain ⟨⟨a, b, c, d, e, f, g, h⟩, height, cell, globals, flags, world⟩ := v
  cases r <;> rfl

theorem get_moveTop (v : View) (k : Nat) {r : Register} (hr : r ≠ .esp) :
    (v.moveTop k).registers.get r = v.registers.get r := by
  show (v.registers.set .esp (heightWord k)).get r = _
  rw [Registers.get_set, if_neg hr]

theorem topped_moveTop (v : View) (k : Nat) : (v.moveTop k).Topped := rfl

theorem topped_put {v : View} (h : v.Topped) (k : Nat) (n : Int32) : (v.put k n).Topped := h

theorem topped_set {v : View} (h : v.Topped) {r : Register} (hr : r ≠ .esp) (n : Int32) :
    (v.set r n).Topped := by
  show (v.registers.set r n).get .esp = _
  rw [Registers.get_set, if_neg hr.symm]
  exact h

theorem height_put (v : View) (k : Nat) (n : Int32) : (v.put k n).height = v.height := rfl

theorem height_moveTop (v : View) (k : Nat) : (v.moveTop k).height = k := rfl

theorem registers_put (v : View) (k : Nat) (n : Int32) : (v.put k n).registers = v.registers :=
  rfl

theorem globals_put (v : View) (k : Nat) (n : Int32) : (v.put k n).globals = v.globals := rfl

theorem globals_moveTop (v : View) (k : Nat) : (v.moveTop k).globals = v.globals := rfl

theorem height_push (v : View) (n : Int32) : (v.push n).height = v.height + 1 := by
  rw [push, height_put, height_moveTop]

theorem topped_push (v : View) (n : Int32) : (v.push n).Topped := by
  unfold push
  apply topped_put
  apply topped_moveTop

theorem get_push (v : View) (n : Int32) {r : Register} (hr : r ≠ .esp) :
    (v.push n).registers.get r = v.registers.get r := by
  rw [push, registers_put, get_moveTop v (v.height + 1) hr]

theorem globals_push (v : View) (n : Int32) : (v.push n).globals = v.globals := by
  rw [push, globals_put, globals_moveTop]

theorem cell_push (v : View) (n : Int32) : (v.push n).cell (v.height + 1) = some n := by
  rw [push]
  simp only [put, if_pos]

theorem cell_push_of_le (v : View) (n : Int32) {k : Nat} (hk : k ≤ v.height) :
    (v.push n).cell k = v.cell k := by
  rw [push]
  simp only [put, moveTop]
  rw [if_neg (by omega), if_pos hk]

/-- A view comes from another one by putting words on the stack. -/
structure Grown (v v' : View) : Prop where
  registers : ∀ r, r ≠ .esp → v'.registers.get r = v.registers.get r
  globals : v'.globals = v.globals
  world : v'.world = v.world
  height : v.height ≤ v'.height
  cell : ∀ k ≤ v.height, v'.cell k = v.cell k
  topped : v'.Topped

theorem Grown.refl {v : View} (h : v.Topped) : v.Grown v :=
  ⟨fun _ _ => rfl, rfl, rfl, Nat.le_refl _, fun _ _ => rfl, h⟩

theorem Grown.trans {v v' v'' : View} (a : v.Grown v') (b : v'.Grown v'') : v.Grown v'' := by
  refine ⟨?_, b.globals.trans a.globals, b.world.trans a.world, Nat.le_trans a.height b.height, ?_,
    b.topped⟩
  · intro r hr
    rw [b.registers r hr, a.registers r hr]
  · intro k hk
    rw [b.cell k (Nat.le_trans hk a.height), a.cell k hk]

theorem grown_push (v : View) (n : Int32) : v.Grown (v.push n) := by
  refine ⟨fun r hr => get_push v n hr, globals_push v n, push_world v n, ?_,
    fun k hk => cell_push_of_le v n hk, topped_push v n⟩
  rw [height_push]
  exact Nat.le_succ _

theorem place?_of_le {v v' : View} {a : Int32} {k : Nat} (h : v.place? a = some k)
    (hv : v.height ≤ v'.height) : v'.place? a = some k := by
  unfold place? at h ⊢
  cases ha : heightOf? a with
  | none =>
    rw [ha] at h
    cases h
  | some j =>
    rw [ha] at h
    dsimp only at h ⊢
    split at h
    · rename_i bounds
      cases h
      rw [if_pos ⟨bounds.1, Nat.le_trans bounds.2 hv⟩]
    · cases h

variable {image : Image} {v v' v'' : View} {n : Int32}

/-- What a steady operand stands for does not change with words that are put on the stack. -/
theorem Grown.read (g : v.Grown v') {o : Operand} (ho : o.IsSteady)
    (h : v.read image o = some n) : v'.read image o = some n := by
  cases o with
  | immediate k => exact h
  | address s => exact h
  | register r =>
    have same : v'.registers.get r = v.registers.get r := g.registers r ho
    simp only [View.read, same]
    exact h
  | memory base offset =>
    obtain ⟨k, hk, hn⟩ := Option.bind_eq_some_iff.mp h
    have same : v'.registers.get base = v.registers.get base := g.registers base ho
    simp only [View.read, same, place?_of_le hk g.height, Option.bind_some]
    rw [g.cell k (Machine.place?_eq_some hk).2.2]
    exact hn
  | global s =>
    simp only [View.read, g.globals]
    exact h

/-! ## Runs of pieces -/

variable {is js : Code} {Q R : View → Prop} {E : Trap → World → Prop}

/-- What holds behind a piece of code, or where it traps. -/
def Runs (image : Image) (is : Code) (v : View) (Q : View → Prop) (E : Trap → World → Prop) :
    Prop :=
  match execAll image is v with
  | some (.ok v') => Q v'
  | some (.error (t, v')) => E t v'.world
  | none => False

theorem Runs.nil (h : Q v) : Runs image [] v Q E := h

theorem Runs.cons {i : Instruction} (hi : v.exec image i = some (.ok v'))
    (h : Runs image is v' Q E) : Runs image (i :: is) v Q E := by
  unfold Runs at h ⊢
  simp only [execAll, hi]
  exact h

theorem Runs.trap {i : Instruction} {t : Trap} (hi : v.exec image i = some (.error (t, v')))
    (h : E t v'.world) : Runs image (i :: is) v Q E := by
  unfold Runs
  simp only [execAll, hi]
  exact h

theorem Runs.imp (h : Runs image is v Q E) (hq : ∀ v', Q v' → R v') : Runs image is v R E := by
  unfold Runs at h ⊢
  cases he : execAll image is v with
  | none =>
    rw [he] at h
    exact h.elim
  | some e =>
    rw [he] at h
    cases e with
    | ok v' => exact hq v' h
    | error e => exact h

theorem Runs.append (h : Runs image is v (fun v' => Runs image js v' Q E) E) :
    Runs image (is ++ js) v Q E := by
  unfold Runs at h
  cases he : execAll image is v with
  | none =>
    rw [he] at h
    exact h.elim
  | some e =>
    rw [he] at h
    cases e with
    | ok v' =>
      unfold Runs
      rw [execAll_append he]
      exact h
    | error e =>
      unfold Runs
      rw [execAll_append_error he]
      exact h

theorem Runs.mov {s d : Operand} (hs : v.read image s = some n) (hd : v.write d n = some v')
    (h : Runs image is v' Q E) : Runs image (.mov s d :: is) v Q E := by
  refine .cons ?_ h
  simp only [exec, hs, hd, Option.bind_eq_bind, Option.bind_some, pure]

theorem write_register {r : Register} (hr : r ≠ .esp) : v.write r n = some (v.set r n) := by
  cases r <;> first | rfl | exact absurd rfl hr

/-- Put a word into a register. -/
theorem Runs.movRegister {s : Operand} {r : Register} (hr : r ≠ .esp)
    (hs : v.read image s = some n) (h : Runs image is (v.set r n) Q E) :
    Runs image (.mov s r :: is) v Q E :=
  .mov hs (write_register hr) h

theorem Runs.push {o : Operand} (ho : v.read image o = some n)
    (h : Runs image is (v.push n) Q E) : Runs image (.push o :: is) v Q E := by
  refine .cons ?_ h
  simp only [exec, ho, Option.map_some]

/-- Take a word from the stack into a register. -/
theorem Runs.pop {r : Register} (hr : r ≠ .esp) (hv : 1 ≤ v.height)
    (hn : v.cell v.height = some n)
    (h : Runs image is ((v.moveTop (v.height - 1)).set r n) Q E) :
    Runs image (.pop r :: is) v Q E := by
  refine .cons ?_ h
  simp only [exec, pop?, if_pos hv, hn, Option.map_some, Option.bind_eq_bind, Option.bind_some,
    write_register hr, pure]

/-- A view comes from another one by taking words off the stack down to a height, and has certain
words in its registers. -/
structure Cut (word : Register → Int32) (h : Nat) (v v' : View) : Prop where
  registers : ∀ r, r ≠ .esp → v'.registers.get r = word r
  globals : v'.globals = v.globals
  world : v'.world = v.world
  height : v'.height = h
  cell : ∀ k ≤ h, v'.cell k = v.cell k
  topped : v'.Topped

theorem Cut.refl (ht : v.Topped) : Cut v.registers.get v.height v v :=
  ⟨fun _ _ => rfl, rfl, rfl, rfl, fun _ _ => rfl, ht⟩

theorem cut_moveTop (v : View) {h : Nat} (hh : h ≤ v.height) :
    Cut v.registers.get h v (v.moveTop h) := by
  refine ⟨fun r hr => get_moveTop v h hr, rfl, rfl, rfl, ?_, topped_moveTop v h⟩
  intro k hk
  simp only [moveTop]
  rw [if_pos (Nat.le_trans hk hh)]

theorem Cut.flagged {word : Register → Int32} {h : Nat} (c : Cut word h v v') (n : Int32)
    (o : Bool) : Cut word h v (v'.flagged n o) :=
  ⟨c.registers, c.globals, c.world, c.height, c.cell, c.topped⟩

theorem Cut.set {word : Register → Int32} {h : Nat} (c : Cut word h v v') {r : Register}
    (hr : r ≠ .esp) (n : Int32) : Cut (fun s => if s = r then n else word s) h v (v'.set r n) := by
  refine ⟨?_, c.globals, c.world, c.height, c.cell, topped_set c.topped hr n⟩
  intro s hs
  rw [get_set, c.registers s hs]

theorem Cut.trans {word word' : Register → Int32} {h h' : Nat} (a : Cut word h v v')
    (b : Cut word' h' v' v'') (hh : h' ≤ h) : Cut word' h' v v'' := by
  refine ⟨b.registers, b.globals.trans a.globals, b.world.trans a.world, b.height, ?_, b.topped⟩
  intro k hk
  rw [b.cell k hk, a.cell k (Nat.le_trans hk hh)]

theorem toInt_ofNat_bytes {k : Nat} (hk : k < 2 ^ 28) :
    (Int32.ofNat (8 * k)).toInt = 8 * (k : Int) := by
  rw [Int32.toInt_ofNat_of_lt (by omega)]
  omega

/-- Take values off the stack. -/
theorem Runs.drop {k : Nat} (hk : 2 * k ≤ v.height) (small : k < 2 ^ 28)
    (hc : v.height ≤ ceiling) (ht : v.Topped)
    (h : ∀ v', Cut v.registers.get (v.height - 2 * k) v v' → Q v') :
    Runs image (Code.drop k) v Q E := by
  unfold Code.drop
  by_cases zero : k = 0
  · rw [if_pos zero]
    subst zero
    exact .nil (h v (.refl ht))
  · rw [if_neg zero]
    have sum : (heightWord v.height).toInt + (Int32.ofNat (8 * k)).toInt =
        0x00f00000 - 4 * ((v.height - 2 * k : Nat) : Int) := by
      rw [toInt_heightWord hc, toInt_ofNat_bytes small]
      omega
    have place : heightOf? (.ofInt ((heightWord v.height).toInt + (Int32.ofNat (8 * k)).toInt)) =
        some (v.height - 2 * k) := by
      rw [sum]
      exact heightOf?_heightWord (by omega)
    have moved := cut_moveTop v (Nat.sub_le v.height (2 * k))
    have top : v.registers.get .esp = heightWord v.height := ht
    have added : v.exec image (.add (.immediate (.ofNat (8 * k))) Register.esp) =
        some (.ok ((v.moveTop (v.height - 2 * k)).flagged
          (.ofInt ((heightWord v.height).toInt + (Int32.ofNat (8 * k)).toInt))
          (!fits ((heightWord v.height).toInt + (Int32.ofNat (8 * k)).toInt)))) := by
      simp only [exec, arithmetic, View.read, top, Option.bind_eq_bind, Option.bind_some, if_true,
        write, place, Option.map_some]
    exact .cons added (.nil (h _ (moved.flagged _ _)))

/-! ## Operands that are kept in registers -/

/-- The number of words in which the registers of operands are saved. -/
def savedWords : Nat → Nat
  | 0 => 0
  | 1 => 2
  | _ => 4

/-- Whether a register holds one of a number of operands. -/
def held : Nat → Register → Bool
  | 0, _ => false
  | 1, r => r == .ecx || r == .edx
  | _, r => r == .ecx || r == .edx || r == .esi || r == .edi

/-- The registers of operands are saved above a height. -/
def Saved (word : Register → Int32) (h : Nat) (cell : Nat → Option Int32) : Nat → Prop
  | 0 => True
  | 1 => cell (h + 1) = some (word .ecx) ∧ cell (h + 2) = some (word .edx)
  | _ => cell (h + 1) = some (word .ecx) ∧ cell (h + 2) = some (word .edx) ∧
    cell (h + 3) = some (word .esi) ∧ cell (h + 4) = some (word .edi)

theorem Saved.imp {word : Register → Int32} {h : Nat} {cell cell' : Nat → Option Int32} {d : Nat}
    (s : Saved word h cell d)
    (hc : ∀ k, h < k → k ≤ h + savedWords d → cell' k = cell k) : Saved word h cell' d := by
  match d, s with
  | 0, _ => trivial
  | 1, s =>
    have one := hc (h + 1) (by omega) (by simp [savedWords])
    have two := hc (h + 2) (by omega) (by simp [savedWords])
    exact ⟨one.trans s.1, two.trans s.2⟩
  | d + 2, s =>
    have one := hc (h + 1) (by omega) (by simp [savedWords])
    have two := hc (h + 2) (by omega) (by simp [savedWords])
    have three := hc (h + 3) (by omega) (by simp [savedWords])
    have four := hc (h + 4) (by omega) (by simp [savedWords])
    exact ⟨one.trans s.1, two.trans s.2.1, three.trans s.2.2.1, four.trans s.2.2.2⟩

/-- Put the words of two registers on the stack. -/
theorem Runs.pushPair {a b : Register} (hb : b ≠ .esp)
    (h : ∀ v', v.Grown v' → v'.height = v.height + 2 →
      v'.cell (v.height + 1) = some (v.registers.get a) →
      v'.cell (v.height + 2) = some (v.registers.get b) → Runs image is v' Q E) :
    Runs image (.push a :: .push b :: is) v Q E := by
  have first : v.read image (.register a) = some (v.registers.get a) := rfl
  have second : (v.push (v.registers.get a)).read image (.register b) =
      some (v.registers.get b) := by
    rw [← get_push v (v.registers.get a) hb]
    rfl
  refine .push first (.push second (h _ ((grown_push v _).trans (grown_push _ _)) ?_ ?_ ?_))
  · rw [height_push, height_push]
  · rw [cell_push_of_le _ _ (Nat.le_of_eq (height_push v _).symm), cell_push]
  · have top := cell_push (v.push (v.registers.get a)) (v.registers.get b)
    rw [height_push] at top
    exact top

theorem save_add_two (d : Nat) :
    Code.save (d + 2) = [.push Register.ecx, .push Register.edx, .push Register.esi,
      .push Register.edi] := by
  simp [Code.save, Pair.inUse, Pair.value, Pair.tag]

/-- Save the registers of operands. -/
theorem Runs.save (ht : v.Topped) (d : Nat)
    (h : ∀ v', v.Grown v' → v'.height = v.height + savedWords d →
      Saved v.registers.get v.height v'.cell d → Runs image is v' Q E) :
    Runs image (Code.save d ++ is) v Q E := by
  match d with
  | 0 => exact h v (.refl ht) rfl trivial
  | 1 =>
    refine Runs.pushPair (by decide) fun v₁ g₁ h₁ one two => ?_
    exact h v₁ g₁ h₁ ⟨one, two⟩
  | d + 2 =>
    rw [save_add_two]
    refine Runs.pushPair (by decide) fun v₁ g₁ h₁ one two => ?_
    refine Runs.pushPair (by decide) fun v₂ g₂ h₂ three four => ?_
    refine h v₂ (g₁.trans g₂) (by rw [h₂, h₁]; rfl) ⟨?_, ?_, ?_, ?_⟩
    · rw [g₂.cell _ (by omega), one]
    · rw [g₂.cell _ (by omega), two]
    · rw [← g₁.registers .esi (by decide), ← three, h₁]
    · rw [← g₁.registers .edi (by decide), ← four, h₁]

theorem restore_add_two (d : Nat) :
    Code.restore (d + 2) = [.pop Register.edi, .pop Register.esi, .pop Register.edx,
      .pop Register.ecx] := by
  simp [Code.restore, Pair.inUse, Pair.value, Pair.tag]

/-- Take the words of two registers from the stack. -/
theorem Runs.popPair {a b : Register} {x y : Int32} (ha : a ≠ .esp) (hb : b ≠ .esp)
    (hv : 2 ≤ v.height) (hx : v.cell v.height = some x) (hy : v.cell (v.height - 1) = some y)
    (h : ∀ v', Cut (fun r => if r = b then y else if r = a then x else v.registers.get r)
      (v.height - 2) v v' → Runs image is v' Q E) :
    Runs image (.pop a :: .pop b :: is) v Q E := by
  have first := (cut_moveTop v (Nat.sub_le v.height 1)).set ha x
  let v₁ := (v.moveTop (v.height - 1)).set a x
  have height : v₁.height = v.height - 1 := rfl
  have below : v₁.height - 1 = v.height - 2 := by omega
  have second : v₁.cell v₁.height = some y := by
    rw [height, first.cell _ (Nat.le_refl _), hy]
  have low : 1 ≤ v₁.height := by omega
  refine .pop ha (by omega) hx (.pop hb low second (h _ ?_))
  have last := (cut_moveTop v₁ (Nat.sub_le v₁.height 1)).set hb y
  rw [below] at last
  have whole := first.trans last (show v.height - 2 ≤ v.height - 1 by omega)
  show Cut _ _ v ((v₁.moveTop (v₁.height - 1)).set b y)
  rw [below]
  refine ⟨?_, whole.globals, whole.world, whole.height, whole.cell, whole.topped⟩
  intro r hr
  rw [whole.registers r hr]
  split
  · rfl
  · exact first.registers r hr

/-- Take the registers of operands back. -/
theorem Runs.restore {word : Register → Int32} (ht : v.Topped) (d h₀ : Nat)
    (hv : v.height = h₀ + savedWords d) (hs : Saved word h₀ v.cell d)
    (h : ∀ v', Cut (fun r => if held d r then word r else v.registers.get r) h₀ v v' → Q v') :
    Runs image (Code.restore d) v Q E := by
  match d, hs with
  | 0, _ =>
    have same : v.height = h₀ := hv
    refine .nil (h v ?_)
    rw [← same]
    exact .refl ht
  | 1, hs =>
    have two : v.height = h₀ + 2 := hv
    have one : v.height - 1 = h₀ + 1 := by omega
    have low : v.height - 2 = h₀ := by omega
    refine Runs.popPair (by decide) (by decide) (by omega) (two ▸ hs.2) (one ▸ hs.1)
      fun v' c => .nil (h v' ?_)
    rw [low] at c
    refine ⟨?_, c.globals, c.world, c.height, c.cell, c.topped⟩
    intro r hr
    rw [c.registers r hr]
    cases r <;> rfl
  | d + 2, hs =>
    have four : v.height = h₀ + 4 := hv
    have three : v.height - 1 = h₀ + 3 := by omega
    have two : v.height - 2 = h₀ + 2 := by omega
    obtain ⟨one, second, third, fourth⟩ := hs
    rw [restore_add_two]
    refine Runs.popPair (by decide) (by decide) (by omega) (four ▸ fourth) (three ▸ third)
      fun v₁ c₁ => ?_
    rw [two] at c₁
    have below : v₁.height - 1 = h₀ + 1 := by rw [c₁.height]; rfl
    have bottom : v₁.height - 2 = h₀ := by rw [c₁.height]; rfl
    refine Runs.popPair (x := word .edx) (y := word .ecx) (by decide) (by decide) ?_ ?_ ?_
      fun v' c => .nil (h v' ?_)
    · rw [c₁.height]
      omega
    · rw [c₁.cell _ (Nat.le_of_eq c₁.height), c₁.height, second]
    · rw [below, c₁.cell _ (by omega), one]
    · rw [bottom] at c
      have whole := c₁.trans c (by omega)
      refine ⟨?_, whole.globals, whole.world, whole.height, whole.cell, whole.topped⟩
      intro r hr
      have first := c₁.registers r hr
      rw [whole.registers r hr]
      cases r <;> first | rfl | exact first

/-! ## Counting references -/

/-- A view that another one turns into while only the world changes and registers that hold none of
a number of operands. -/
structure Same (d : Nat) (v v' : View) : Prop where
  registers : ∀ r, r ≠ .esp → held d r = true ∨ r ≠ .ecx ∧ r ≠ .edx →
    v'.registers.get r = v.registers.get r
  globals : v'.globals = v.globals
  height : v'.height = v.height
  cell : ∀ k ≤ v.height, v'.cell k = v.cell k
  topped : v'.Topped

theorem Same.trans {d : Nat} (a : Same d v v') (b : Same d v' v'') : Same d v v'' := by
  refine ⟨?_, b.globals.trans a.globals, b.height.trans a.height, ?_, b.topped⟩
  · intro r hr hd
    rw [b.registers r hr hd, a.registers r hr hd]
  · intro k hk
    rw [b.cell k (by rw [a.height]; exact hk), a.cell k hk]

theorem Same.refl {d : Nat} (h : v.Topped) : Same d v v :=
  ⟨fun _ _ _ => rfl, rfl, rfl, fun _ _ => rfl, h⟩

/-- A symbol stands for a function of the library that has one argument and no result. -/
def Counts (image : Image) (s : Symbol) (op : Raw → Library.Op Unit) : Prop :=
  ∀ (v : View) (r : Raw), v.argument? 0 = some r →
    v.exec image (.call s) = some ((v.perform (op r)).map fun x => x.2.spoil)

theorem counts_retain (h : image.functions.get? Symbol.retain = none) :
    Counts image Symbol.retain Library.retain := by
  intro v r hr
  simp only [exec, h, serve, if_pos, hr, Option.map_some]

theorem counts_release (h : image.functions.get? Symbol.release = none) :
    Counts image Symbol.release Library.release := by
  intro v r hr
  have other : Symbol.release ≠ Symbol.retain := by decide
  simp only [exec, h, serve, if_pos, if_neg other, hr, Option.map_some]

theorem Runs.perform {s : Symbol} {op : Raw → Library.Op Unit} (hs : Counts image s op) {r : Raw}
    (hr : v.argument? 0 = some r)
    (h : Library.Wp (op r) v.world
      (fun _ w => Runs image is ({ v with world := w } : View).spoil Q E) E) :
    Runs image (.call s :: is) v Q E := by
  have step := hs v r hr
  unfold Library.Wp at h
  unfold View.perform at step
  cases hop : op r v.world with
  | ok a w =>
    rw [hop] at h step
    exact .cons step h
  | error t w =>
    rw [hop] at h step
    exact .trap step h

/-- The words of a value as they are read. -/
structure Denotes (image : Image) (v : View) (ws : Words) (r : Raw) : Prop where
  value : v.read image ws.value = some r.word
  tag : v.read image ws.tag = some r.code

theorem Grown.denotes (g : v.Grown v') {ws : Words} (hw : ws.IsSteady) {r : Raw}
    (h : v.Denotes image ws r) : v'.Denotes image ws r :=
  ⟨g.read hw.value h.value, g.read hw.tag h.tag⟩

/-- Put both words of a value on the stack. -/
theorem Runs.pushWords {ws : Words} {r : Raw} (hw : ws.IsSteady) (hr : v.Denotes image ws r)
    (h : ∀ v', v.Grown v' → v'.height = v.height + 2 → v'.cell (v.height + 2) = some r.word →
      v'.cell (v.height + 1) = some r.code → Runs image is v' Q E) :
    Runs image (.push ws.tag :: .push ws.value :: is) v Q E := by
  have later := (grown_push v r.code).read hw.value hr.value
  refine .push hr.tag (.push later (h _ ((grown_push v _).trans (grown_push _ _)) ?_ ?_ ?_))
  · rw [height_push, height_push]
  · have top := cell_push (v.push r.code) r.word
    rw [height_push] at top
    exact top
  · rw [cell_push_of_le _ _ (Nat.le_of_eq (height_push v _).symm), cell_push]

theorem argument?_zero {r : Raw} (hv : 2 ≤ v.height) (hw : v.cell v.height = some r.word)
    (hc : v.cell (v.height - 1) = some r.code) : v.argument? 0 = some r := by
  unfold argument?
  rw [if_pos (by omega)]
  simp only [Nat.mul_zero, Nat.sub_zero, hw, hc]

/-- Count a reference, while some operands are kept. -/
theorem Runs.count {s : Symbol} {op : Raw → Library.Op Unit} (hs : Counts image s op) {ws : Words}
    {r : Raw} (hw : ws.IsSteady) (hr : v.Denotes image ws r) (ht : v.Topped)
    (hc : v.height + 6 ≤ ceiling) (d : Nat)
    (h : Library.Wp (op r) v.world (fun _ w => ∀ v', Same d v v' → v'.world = w → Q v') E) :
    Runs image (Code.count s ws d) v Q E := by
  unfold Code.count
  rw [List.append_assoc, List.append_assoc]
  refine Runs.save ht d fun v₁ g₁ h₁ saved => ?_
  refine Runs.pushWords hw (g₁.denotes hw hr) fun v₂ g₂ h₂ word code => ?_
  have g := g₁.trans g₂
  have argument : v₂.argument? 0 = some r := by
    apply argument?_zero
    · omega
    · rw [h₂, word]
    · rw [h₂]
      exact code
  refine .perform hs argument ?_
  rw [g.world]
  refine h.imp fun a w _ hq => ?_
  let v₃ := ({ v₂ with world := w } : View).spoil
  have topped : v₃.Topped := topped_set (topped_set (v := { v₂ with world := w }) g.topped
    (by decide) _) (by decide) _
  have high : savedWords d ≤ 4 := by
    match d with
    | 0 => exact Nat.zero_le _
    | 1 => exact (by decide : 2 ≤ 4)
    | d + 2 => exact Nat.le_refl _
  have h₃ : v₃.height = v.height + savedWords d + 2 := by
    show v₂.height = _
    omega
  show Runs image (Code.drop 1 ++ Code.restore d) v₃ Q E
  refine Runs.append (Runs.drop (k := 1) (by omega) (by decide) (by omega) topped fun v₄ c₄ => ?_)
  have h₄ : v₄.height = v.height + savedWords d := by
    rw [c₄.height]
    omega
  have cells : ∀ k ≤ v.height + savedWords d, v₄.cell k = v₁.cell k := by
    intro k hk
    rw [c₄.cell k (by omega)]
    exact g₂.cell k (by omega)
  refine Runs.restore c₄.topped d v.height h₄
    (saved.imp fun k _ hk => cells k hk) fun v₅ c₅ => hq v₅ ?_ ?_
  · refine ⟨?_, ?_, c₅.height, ?_, c₅.topped⟩
    · intro r hr' hheld
      rw [c₅.registers r hr']
      split
      · rfl
      · rename_i free
        rcases hheld with kept | ⟨hecx, hedx⟩
        · exact absurd kept free
        · rw [c₄.registers r hr']
          show (({ v₂ with world := w } : View).spoil).registers.get r = _
          unfold spoil
          rw [get_set, get_set, if_neg hedx, if_neg hecx]
          exact g.registers r hr'
    · rw [c₅.globals, c₄.globals]
      exact g.globals
    · intro k hk
      rw [c₅.cell k hk, cells k (by omega)]
      exact g₁.cell k hk
  · rw [c₅.world, c₄.world]
    rfl

end View

end Threefold.X86
