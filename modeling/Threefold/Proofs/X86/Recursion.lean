import Threefold.Proofs.X86.Extension
import Threefold.Proofs.X86.Representation

/-!
# Recursion down the stack

A function that calls itself with a smaller number, until the number is zero, goes down the stack by as
many frames as its number says. `Recursion.Code` is what is lowered for such a function with three variables
of its own, from where it begins up to the call. `Recursion.level` is one call, and `Recursion.descends`
is all of them: as long as there is room, the function begins with zero in the end, and the machine is
known there but for what is below the operands of the last call.
-/

namespace Threefold.X86

open Machine (Visit Awaited)

/-! ## Pieces of code with room -/

namespace View

/-- What holds behind a piece of code that neither traps nor uses up the room on the stack. -/
def Fits (image : Image) : Code → View → (View → Prop) → Prop
  | [], v, Q => Q v
  | i :: is, v, Q => ∃ v', v.exec image i = some (.ok v') ∧ v'.height ≤ room ∧ Fits image is v' Q

theorem flags_put (v : View) (k : Nat) (n : Int32) : (v.put k n).flags = v.flags := rfl

theorem flags_moveTop (v : View) (k : Nat) : (v.moveTop k).flags = v.flags := rfl

theorem flags_push (v : View) (n : Int32) : (v.push n).flags = v.flags := by
  rw [push, flags_put, flags_moveTop]

namespace Fits

variable {image : Image} {is js : Code} {v : View} {Q R : View → Prop} {n : Int32}

theorem imp (h : Fits image is v Q) (hq : ∀ v', Q v' → R v') : Fits image is v R := by
  induction is generalizing v with
  | nil => exact hq v h
  | cons i is ih =>
    obtain ⟨v', done, room, rest⟩ := h
    exact ⟨v', done, room, ih rest⟩

theorem append (h : Fits image is v fun v' => Fits image js v' Q) : Fits image (is ++ js) v Q := by
  induction is generalizing v with
  | nil => exact h
  | cons i is ih =>
    obtain ⟨v', done, room, rest⟩ := h
    exact ⟨v', done, room, ih rest⟩

theorem mov {s : Operand} {r : Register} (hr : r ≠ .esp) (hs : v.read image s = some n)
    (room : v.height ≤ room) (h : Fits image is (v.set r n) Q) :
    Fits image (.mov s r :: is) v Q :=
  ⟨v.set r n, by simp only [exec, hs, write_register hr, Option.bind_eq_bind, Option.bind_some, pure],
    room, h⟩

theorem clear {home k : Nat} {offset : Int} (ebp : v.registers.ebp = heightWord home)
    (hk : 4 * (k : Int) = 4 * home - offset) (low : 1 ≤ k) (high : k ≤ v.height)
    (room : v.height ≤ room) (h : Fits image is (v.put k n) Q) :
    Fits image (.mov (.immediate n) (.frame offset) :: is) v Q := by
  have bound : k ≤ ceiling := Nat.le_trans high (Nat.le_trans room room_le_ceiling)
  refine ⟨v.put k n, ?_, room, h⟩
  have written := write_frame (n := n) ebp hk low high bound
  simp only [exec, View.read, written, Option.bind_eq_bind, Option.bind_some, pure]

theorem push {o : Operand} (ho : v.read image o = some n) (room : v.height < room)
    (h : Fits image is (v.push n) Q) : Fits image (.push o :: is) v Q :=
  ⟨v.push n, by simp only [exec, ho, Option.map_some], (height_push v n).symm ▸ room, h⟩

/-- Arithmetic on the stack pointer. -/
theorem moveTop {i : Instruction} (op : Int → Int → Int) {k : Nat} (ht : v.Topped)
    (hi : v.exec image i = v.arithmetic image op (.immediate n) Register.esp true) (hk : k ≤ room)
    (moved : op (heightWord v.height).toInt n.toInt = 0x00f00000 - 4 * (k : Int))
    (h : ∀ x o, Fits image is ((v.moveTop k).flagged x o) Q) : Fits image (i :: is) v Q := by
  obtain ⟨x, o, done⟩ := arithmetic_top image op ht (Nat.le_trans hk room_le_ceiling) moved
  exact ⟨_, hi.trans done, hk, h x o⟩

/-- Take a register from another one, without an overflow. -/
theorem sub {s d : Register} {x y : Int32} {z : Nat} (hd : d ≠ .esp) (hs : v.registers.get s = x)
    (hy : v.registers.get d = y) (exact : y.toInt - x.toInt = (z : Int)) (hz : z < 2 ^ 31)
    (room : v.height ≤ room)
    (h : Fits image is ((v.set d (.ofNat z)).flagged (.ofNat z) false) Q) :
    Fits image (.sub s d :: is) v Q := by
  refine ⟨(v.set d (.ofNat z)).flagged (.ofNat z) false, ?_, room, h⟩
  have small : fits (z : Int) = true := by
    have low : Int32.minValue.toInt = -2147483648 := by decide
    have high : Int32.maxValue.toInt = 2147483647 := by decide
    simp only [fits, low, high, Bool.and_eq_true, decide_eq_true_eq]
    omega
  have word : Int32.ofInt (z : Int) = .ofNat z := Int32.ofInt_eq_ofNat
  simp only [exec, arithmetic, View.read, hs, hy, exact, small, word, write_register hd,
    Option.bind_eq_bind, Option.bind_some, Option.map_some, if_true, Bool.not_true]

/-- A number has no references. -/
theorem retain (hf : image.functions.get? Symbol.retain = none) (low : 2 ≤ v.height)
    (word : v.cell v.height = some n) (tag : v.cell (v.height - 1) = some 0) (room : v.height ≤ room)
    (h : Fits image is v.spoil Q) : Fits image (.call Symbol.retain :: is) v Q := by
  have argument : v.argument? 0 = some ⟨n, 0⟩ := argument?_zero low word tag
  refine ⟨v.spoil, (counts_retain hf v _ argument).trans ?_, room, h⟩
  have uncounted : (!v.world.heap.counting || !(Value.scalar n).tag.isCounted) = true := Bool.or_true _
  have plain : Heap.retain (.scalar n) v.world.heap = .ok () v.world.heap := if_pos uncounted
  have retained : Library.retain ⟨n, 0⟩ v.world = .ok () v.world := by
    show Library.lift (World.onHeap (Heap.retain (.scalar n))) v.world = _
    simp only [Library.lift, World.onHeap, plain]
  simp only [perform, retained, Except.map]

end Fits

end View

/-- A piece of code that has room does to the machine what it does to a view. -/
theorem Machine.Visit.fits {image : Image} {is : Code} {x : Visit} {v : View} {Q : View → Prop}
    (hg : image.HasGlobals) (S : x.machine.Shows v) (located : Machine.Located image x.index is)
    (h : View.Fits image is v Q) :
    ∃ m v', x.Steps image is.length ⟨x.index + is.length, m, x.awaited⟩ ∧ m.Shows v' ∧ Q v' := by
  induction is generalizing x v with
  | nil => exact ⟨x.machine, v, .refl x, S, h⟩
  | cons i is ih =>
    obtain ⟨v₁, done, room, rest⟩ := h
    obtain ⟨m₁, first, near⟩ := Visit.next_of_exec hg S located.1 done
    obtain ⟨m, v', steps, S', holds⟩ :=
      ih (x := ⟨x.index + 1, m₁, x.awaited⟩) (near.shows room) located.2 rest
    refine ⟨m, v', ?_, S', holds⟩
    rw [List.length_cons, ← Nat.add_assoc, Nat.add_right_comm]
    exact .next first steps

/-! ## One call -/

namespace Recursion

/-- One word of the variables after the other is zero in the beginning. -/
def clear (i k : Nat) : Code :=
  (List.range' i k).map fun (j : Nat) => .mov (.immediate 0) (.frame (-4 * (j + 1)))

/-- A function with a number and with some words for its variables begins. -/
def enter (k : Nat) : Code :=
  [.push Register.ebp, .mov Register.esp Register.ebp, .sub (.immediate (.ofNat (4 * k))) Register.esp] ++
    clear 0 k ++
    [.push (.frame 12), .push (.frame 8), .call Symbol.retain, .add (.immediate 8) Register.esp]

/-- It looks whether the number is zero. -/
def test : Code :=
  [.mov (.frame 8) Register.ecx, .mov (.frame 12) Register.edx, .mov Register.ecx Register.eax,
    .test Register.eax Register.eax]

/-- It takes one off the number. -/
def pred : Code :=
  [.mov (.frame 8) Register.ecx, .mov (.frame 12) Register.edx, .mov (.immediate 1) Register.esi,
    .mov (.immediate 0) Register.edi, .mov Register.ecx Register.eax, .sub Register.esi Register.eax,
    .mov Register.eax Register.ecx, .mov (.immediate 0) Register.edx]

/-- It makes the number that is left the operand of a call. -/
def pass : Code :=
  [.push Register.ecx, .push Register.edx, .push (.immediate 0), .push Register.edx, .push Register.ecx]

/-- The code up to the call, which goes to the function itself. -/
def code (k : Nat) (f : Symbol) (l : Label) : Code :=
  enter k ++ test ++ [.jcc .equal l] ++ (pred ++ pass) ++ [.call f]

/-- The function stands at the height of its return address, below which is the number. -/
structure Given (n : Nat) (h : Nat) (v : View) : Prop where
  height : v.height = h
  low : 3 ≤ h
  topped : v.Topped
  number : v.cell (h - 1) = some (.ofNat n)
  tag : v.cell (h - 2) = some 0

/-- The function stands above its return address, and the stack is as high as is said. -/
structure Inside (n h : Nat) (ebx : Int32) (w : World) (top : Nat) (v : View) : Prop where
  height : v.height = top
  topped : v.Topped
  base : v.registers.ebp = heightWord (h + 1)
  kept : v.registers.ebx = ebx
  number : v.cell (h - 1) = some (.ofNat n)
  tag : v.cell (h - 2) = some 0
  world : v.world = w

namespace Inside

variable {image : Image} {n h top : Nat} {ebx : Int32} {w : World} {v : View}

theorem put (H : Inside n h ebx w top v) {k : Nat} (hk : h < k) (x : Int32) :
    Inside n h ebx w top (v.put k x) :=
  ⟨H.height, H.topped, H.base, H.kept, (if_neg (by omega)).trans H.number,
    (if_neg (by omega)).trans H.tag, H.world⟩

theorem push (H : Inside n h ebx w top v) (hh : h ≤ top) (x : Int32) :
    Inside n h ebx w (top + 1) (v.push x) := by
  have height := H.height
  have below {k : Nat} (hk : k ≤ top) : (v.push x).cell k = v.cell k :=
    View.cell_push_of_le v x (height.symm ▸ hk)
  have other {r : Register} (hr : r ≠ .esp) : (v.push x).registers.get r = v.registers.get r :=
    View.get_push v x hr
  exact ⟨(View.height_push v x).trans (congrArg (· + 1) height), View.topped_push v x,
    (other (r := .ebp) (by decide)).trans H.base, (other (r := .ebx) (by decide)).trans H.kept,
    (below (by omega)).trans H.number, (below (by omega)).trans H.tag,
    (View.push_world v x).trans H.world⟩

theorem set (H : Inside n h ebx w top v) {r : Register} (hr : r ≠ .esp ∧ r ≠ .ebp ∧ r ≠ .ebx)
    (x : Int32) : Inside n h ebx w top (v.set r x) := by
  have other {s : Register} (hs : r ≠ s) : (v.set r x).registers.get s = v.registers.get s := by
    rw [View.get_set, if_neg hs.symm]
  exact ⟨H.height, View.topped_set H.topped hr.1 x, (other hr.2.1).trans H.base,
    (other hr.2.2).trans H.kept, H.number, H.tag, H.world⟩

theorem flagged (H : Inside n h ebx w top v) (x : Int32) (overflow : Bool) :
    Inside n h ebx w top (v.flagged x overflow) :=
  ⟨H.height, H.topped, H.base, H.kept, H.number, H.tag, H.world⟩

theorem moveTop (H : Inside n h ebx w top v) (hh : h ≤ top) (k : Nat) :
    Inside n h ebx w k (v.moveTop k) := by
  have height := H.height
  exact ⟨rfl, View.topped_moveTop v k, H.base, H.kept,
    (View.cell_moveTop_of_le v (by omega)).trans H.number,
    (View.cell_moveTop_of_le v (by omega)).trans H.tag, H.world⟩

theorem spoil (H : Inside n h ebx w top v) : Inside n h ebx w top v.spoil :=
  (H.set (by decide) _).set (by decide) _

/-- The number is where the function looks for it. -/
theorem denotes (H : Inside n h ebx w top v) (low : 3 ≤ h) (hh : h ≤ top) (room : top ≤ room) :
    v.Denotes image ⟨.frame 8, .frame 12⟩ ⟨.ofNat n, 0⟩ := by
  have height := H.height
  have bound := room_le_ceiling
  exact ⟨(View.read_frame H.base (by omega) (by omega) (by omega) (by omega)).trans H.number,
    (View.read_frame H.base (by omega) (by omega) (by omega) (by omega)).trans H.tag⟩

end Inside

section Level

variable {image : Image} {is : Code} {v : View} {Q : View → Prop} {k n h top : Nat} {ebx : Int32}
  {w : World}

theorem Inside.begins {x : Int32} (height : v.height = h + 1) (topped : v.Topped)
    (base : x = heightWord (h + 1)) (kept : v.registers.get .ebx = ebx)
    (number : v.cell (h - 1) = some (.ofNat n)) (tag : v.cell (h - 2) = some 0) (world : v.world = w) :
    Inside n h ebx w (h + 1) (v.set .ebp x) :=
  ⟨height, View.topped_set topped (by decide) x, base, kept, number, tag, world⟩

theorem Inside.clear (H : Inside n h ebx w top v) {i : Nat} (high : h + 1 + i + k ≤ top)
    (room : top ≤ room) (rest : ∀ v', Inside n h ebx w top v' → View.Fits image is v' Q) :
    View.Fits image (Recursion.clear i k ++ is) v Q := by
  induction k generalizing i v with
  | zero => exact rest v H
  | succ k ih =>
    have height := H.height
    refine .clear H.base (k := h + 2 + i) (by omega) (by omega) (by omega) (by omega) ?_
    exact ih (H.put (by omega) 0) (by omega)

/-- The function takes a reference to its number, which has none. -/
theorem Inside.retain (H : Inside n h ebx w top v) (hf : image.functions.get? Symbol.retain = none)
    (low : 3 ≤ h) (hh : h ≤ top) (room : top + 2 ≤ room)
    (rest : ∀ v', Inside n h ebx w top v' → View.Fits image is v' Q) :
    View.Fits image (.push (.frame 12) :: .push (.frame 8) :: .call Symbol.retain ::
      .add (.immediate 8) Register.esp :: is) v Q := by
  have height := H.height
  have number : v.Denotes image ⟨.frame 8, .frame 12⟩ ⟨.ofNat n, 0⟩ := H.denotes low hh (by omega)
  refine .push number.tag (by omega) ?_
  have H₁ := H.push hh 0
  have last : (v.push 0).cell (top + 1) = some 0 := height ▸ View.cell_push v 0
  generalize v.push 0 = v₁ at H₁ last ⊢
  have height₁ := H₁.height
  have number : v₁.Denotes image ⟨.frame 8, .frame 12⟩ ⟨.ofNat n, 0⟩ :=
    H₁.denotes low (by omega) (by omega)
  refine .push number.value (by omega) ?_
  have H₂ := H₁.push (by omega) (.ofNat n)
  have first := View.cell_push v₁ (.ofNat n)
  rw [height₁] at first
  have last' : (v₁.push (.ofNat n)).cell (top + 1) = some 0 :=
    (View.cell_push_of_le v₁ _ (Nat.le_of_eq height₁.symm)).trans last
  generalize v₁.push (.ofNat n) = v₂ at H₂ first last' ⊢
  have height₂ : v₂.height = top + 2 := H₂.height
  refine .retain (n := .ofNat n) hf (by omega) (height₂ ▸ first) (height₂ ▸ last') (by omega) ?_
  have H₃ := H₂.spoil
  have height₃ : v₂.spoil.height = top + 2 := H₃.height
  have value := toInt_heightWord (k := top + 2) (Nat.le_trans room room_le_ceiling)
  have eight : (8 : Int32).toInt = 8 := by decide
  refine .moveTop (k := top) (· + ·) H₃.topped rfl (by omega) ?_ fun x o => ?_
  · rw [height₃, value, eight]
    omega
  · exact rest _ ((H₃.moveTop (by omega) top).flagged x o)

theorem fits_enter (hf : image.functions.get? Symbol.retain = none) (G : Given n h v)
    (room : h + 1 + k + 2 ≤ room) :
    View.Fits image (enter k) v (Inside n h v.registers.ebx v.world (h + 1 + k)) := by
  obtain ⟨height, low, topped, number, tag⟩ := G
  -- The word that is pushed is the base pointer of the caller.
  have below {k : Nat} (hk : k ≤ h) : (v.push v.registers.ebp).cell k = v.cell k :=
    View.cell_push_of_le v _ (height.symm ▸ hk)
  have grown : (v.push v.registers.ebp).height = h + 1 :=
    (View.height_push v _).trans (congrArg (· + 1) height)
  have top : (v.push v.registers.ebp).registers.get .esp = heightWord (h + 1) :=
    grown ▸ View.topped_push v _
  have begun {x : Int32} (hx : x = heightWord (h + 1)) :
      Inside n h v.registers.ebx v.world (h + 1) ((v.push v.registers.ebp).set .ebp x) :=
    .begins grown (View.topped_push v _) hx (View.get_push v _ (by decide))
      ((below (by omega)).trans number) ((below (by omega)).trans tag) (View.push_world v _)
  refine .push (n := v.registers.ebp) rfl (by omega) ?_
  refine .mov (by decide) (congrArg some top) (by omega) ?_
  have H := begun rfl
  generalize (v.push _).set _ _ = v₁ at H ⊢
  have value := toInt_heightWord (k := h + 1) (Nat.le_trans (by omega) room_le_ceiling)
  have bytes : (Int32.ofNat (4 * k)).toInt = ((4 * k : Nat) : Int) := by
    unfold X86.room at room
    exact Int32.toInt_ofNat_of_lt (by omega)
  refine .moveTop (k := h + 1 + k) (· - ·) H.topped rfl (by omega) ?_ fun x o => ?_
  · rw [H.height, value, bytes]
    omega
  have H := (H.moveTop (by omega) (h + 1 + k)).flagged x o
  generalize (v₁.moveTop _).flagged _ _ = v₂ at H ⊢
  refine H.clear (Nat.le_refl _) (by omega) fun v H => ?_
  exact H.retain hf low (by omega) (by omega) fun v H => H

/-- The flags say whether the number is zero. -/
theorem fits_test (H : Inside n h ebx w top v) (low : 3 ≤ h) (hh : h ≤ top) (room : top ≤ room) :
    View.Fits image test v fun v' => Inside n h ebx w top v' ∧
      v'.flags = .ofResult (.ofNat n &&& .ofNat n) false := by
  have high : v.height ≤ X86.room := Nat.le_trans (Nat.le_of_eq H.height) room
  have H₁ := H.set (r := .ecx) (by decide) (.ofNat n)
  have H₂ := H₁.set (r := .edx) (by decide) 0
  have H₃ := H₂.set (r := .eax) (by decide) (.ofNat n)
  refine .mov (by decide) (H.denotes low hh room).value high ?_
  refine .mov (by decide) (H₁.denotes low hh room).tag high ?_
  refine .mov (n := .ofNat n) (by decide) rfl high ?_
  exact ⟨_, rfl, high, H₃.flagged _ _, rfl⟩

/-- The number of the call is known, and the flags are those of it. -/
structure Counted (n : Nat) (v : View) : Prop where
  eax : v.registers.get .eax = .ofNat n
  ecx : v.registers.get .ecx = .ofNat n
  edx : v.registers.get .edx = 0
  esi : v.registers.get .esi = 1
  edi : v.registers.get .edi = 0
  flags : v.flags = .ofResult (.ofNat n) false

theorem Counted.push (C : Counted n v) (x : Int32) : Counted n (v.push x) := by
  have other {r : Register} (hr : r ≠ .esp) : (v.push x).registers.get r = v.registers.get r :=
    View.get_push v x hr
  have flags := View.flags_push v x
  exact ⟨(other (by decide)).trans C.eax, (other (by decide)).trans C.ecx, (other (by decide)).trans C.edx,
    (other (by decide)).trans C.esi, (other (by decide)).trans C.edi, flags.trans C.flags⟩

/-- One is taken off the number. -/
theorem toInt_pred (hn : n + 1 ≤ room) :
    (Int32.ofNat (n + 1)).toInt - (1 : Int32).toInt = n := by
  have value : (Int32.ofNat (n + 1)).toInt = ((n + 1 : Nat) : Int) := by
    unfold room at hn
    exact Int32.toInt_ofNat_of_lt (by omega)
  have one : (1 : Int32).toInt = 1 := by decide
  rw [value, one]
  omega

theorem fits_pred (H : Inside (n + 1) h ebx w top v) (low : 3 ≤ h) (hh : h ≤ top) (room : top ≤ room)
    (hn : n + 1 ≤ X86.room) :
    View.Fits image pred v fun v' => Inside (n + 1) h ebx w top v' ∧ Counted n v' := by
  have high : v.height ≤ X86.room := Nat.le_trans (Nat.le_of_eq H.height) room
  have small : n < 2 ^ 31 := Nat.lt_of_lt_of_le hn (by decide)
  have H₁ := H.set (r := .ecx) (by decide) (.ofNat (n + 1))
  have H₂ := H₁.set (r := .edx) (by decide) 0
  have H₃ := H₂.set (r := .esi) (by decide) 1
  have H₄ := H₃.set (r := .edi) (by decide) 0
  have H₅ := H₄.set (r := .eax) (by decide) (.ofNat (n + 1))
  have H₆ := (H₅.set (r := .eax) (by decide) (.ofNat n)).flagged (.ofNat n) false
  have H₇ := H₆.set (r := .ecx) (by decide) (.ofNat n)
  have H₈ := H₇.set (r := .edx) (by decide) 0
  refine .mov (by decide) (H.denotes low hh room).value high ?_
  refine .mov (by decide) (H₁.denotes low hh room).tag high ?_
  refine .mov (n := 1) (by decide) rfl high ?_
  refine .mov (n := 0) (by decide) rfl high ?_
  refine .mov (n := .ofNat (n + 1)) (by decide) rfl high ?_
  refine .sub (x := 1) (y := .ofNat (n + 1)) (z := n) (by decide) rfl rfl (toInt_pred hn) small high ?_
  refine .mov (n := .ofNat n) (by decide) rfl high ?_
  refine .mov (n := 0) (by decide) rfl high ?_
  exact ⟨H₈, rfl, rfl, rfl, rfl, rfl, rfl⟩

theorem fits_pass (H : Inside (n + 1) h ebx w top v) (C : Counted n v) (hh : h ≤ top)
    (room : top + 5 ≤ room) :
    View.Fits image pass v fun v' => Inside (n + 1) h ebx w (top + 5) v' ∧ Counted n v' ∧
      v'.cell (top + 5) = some (.ofNat n) ∧ v'.cell (top + 4) = some 0 := by
  have push {top : Nat} {v : View} (H : Inside (n + 1) h ebx w top v) (C : Counted n v) (hh : h ≤ top)
      (x : Int32) : Inside (n + 1) h ebx w (top + 1) (v.push x) ∧ Counted n (v.push x) :=
    ⟨H.push hh x, C.push x⟩
  obtain ⟨H₁, C₁⟩ := push H C (by omega) (.ofNat n)
  obtain ⟨H₂, C₂⟩ := push H₁ C₁ (by omega) 0
  obtain ⟨H₃, C₃⟩ := push H₂ C₂ (by omega) 0
  obtain ⟨H₄, C₄⟩ := push H₃ C₃ (by omega) 0
  obtain ⟨H₅, C₅⟩ := push H₄ C₄ (by omega) (.ofNat n)
  refine .push (congrArg some C.ecx) (H.height ▸ by omega) ?_
  refine .push (congrArg some C₁.edx) (H₁.height ▸ by omega) ?_
  refine .push (n := 0) rfl (H₂.height ▸ by omega) ?_
  refine .push (congrArg some C₃.edx) (H₃.height ▸ by omega) ?_
  refine .push (congrArg some C₄.ecx) (H₄.height ▸ by omega) ?_
  generalize ((v.push _).push _).push _ = v₃ at H₃ H₄ H₅ C₅ ⊢
  have tag := View.cell_push v₃ 0
  generalize v₃.push 0 = v₄ at H₄ H₅ C₅ tag ⊢
  have number := View.cell_push v₄ (.ofNat n)
  have below := View.cell_push_of_le v₄ (.ofNat n) (k := top + 4) (H₄.height ▸ Nat.le_refl _)
  rw [H₃.height] at tag
  rw [H₄.height] at number
  exact ⟨H₅, C₅, number, below.trans tag⟩

/-- The code of the function is in an image. -/
structure Placed (image : Image) (k : Nat) (f : Symbol) (l : Label) (p : Nat) : Prop where
  globals : image.HasGlobals
  library : image.functions.get? Symbol.retain = none
  function : image.functions.get? f = some p
  located : Machine.Located image p (code k f l)

/-- The function has called itself. -/
structure Descended (k p n h : Nat) (ebx : Int32) (w : World) (y : Visit) (v : View) : Prop where
  index : y.index = p
  shows : y.machine.Shows v
  given : Given n h v
  counted : Counted n v
  kept : v.registers.ebx = ebx
  base : v.registers.ebp = heightWord (h - (k + 6))
  world : v.world = w
  awaited : ∃ calls, y.awaited =
    ⟨some (p + (k + 26)), heightWord (h - 1), heightWord (h - (k + 6))⟩ :: calls

variable {f : Symbol} {l : Label} {p : Nat} {x : Visit}

/-- A jump is not taken behind a test of a number that is not zero. -/
theorem passes (here : image.code[x.index]? = some (.jcc .equal l))
    (flags : x.machine.flags = .ofResult (.ofNat (n + 1) &&& .ofNat (n + 1)) false)
    (hn : n + 1 ≤ room) : x.Next image ⟨x.index + 1, x.machine, x.awaited⟩ := by
  have nonzero : Int32.ofNat (n + 1) ≠ 0 := by
    intro same
    have value := congrArg Int32.toInt same
    have zero : (0 : Int32).toInt = 0 := by decide
    unfold room at hn
    rw [Int32.toInt_ofNat_of_lt (by omega), zero] at value
    omega
  have fails : x.machine.flags.holds .equal = false := by
    rw [flags, Int32.and_self]
    exact beq_false_of_ne nonzero
  refine ⟨_, here, ?_, rfl⟩
  simp only [Machine.execute, Machine.holds, Bind.bind, EStateM.bind, fails]
  rfl

theorem length_enter : (enter k).length = k + 7 := by
  simp [enter, clear]

/-- The number is not zero, so the function calls itself. -/
theorem level (P : Placed image k f l p) (index : x.index = p) (S : x.machine.Shows v)
    (G : Given (n + 1) h v) (room : h + (k + 7) ≤ room) (hn : n + 1 ≤ X86.room) :
    ∃ y v', x.Steps image (k + 26) y ∧
      Descended k p n (h + (k + 7)) v.registers.ebx v.world y v' := by
  have low := G.low
  subst index
  obtain ⟨located, call⟩ := Machine.Located.append.mp P.located
  obtain ⟨located, locatedAgain⟩ := Machine.Located.append.mp located
  obtain ⟨located, jump⟩ := Machine.Located.append.mp located
  have length : (enter k ++ test).length = k + 11 := by
    rw [List.length_append, length_enter]
    rfl
  have length' : (enter k ++ test ++ [Instruction.jcc .equal l]).length = k + 12 := by
    rw [List.length_append, length]
    rfl
  have length'' : (enter k ++ test ++ [Instruction.jcc .equal l] ++ (pred ++ pass)).length = k + 25 := by
    rw [List.length_append, length']
    rfl
  rw [length] at jump
  rw [length'] at locatedAgain
  rw [length''] at call
  -- Up to the jump, and past it.
  obtain ⟨m₁, v₁, toJump, S₁, H₁, flags⟩ := Visit.fits P.globals S located
    (.append ((fits_enter P.library G (by omega)).imp fun v' H => fits_test H low (by omega) (by omega)))
  rw [length] at toJump
  have past := passes (x := ⟨x.index + (k + 11), m₁, x.awaited⟩) jump.1 (S₁.flags.trans flags) hn
  -- Up to the call, and to where it leads.
  obtain ⟨m₂, v₂, toCall, S₂, H₂, C₂, number, tag⟩ :=
    Visit.fits (x := ⟨x.index + (k + 12), m₁, x.awaited⟩) P.globals S₁ locatedAgain
      (.append ((fits_pred H₁ low (by omega) (by omega) hn).imp fun v' after =>
        fits_pass after.1 after.2 (by omega) (by omega)))
  obtain ⟨m₃, pushed, near⟩ := S₂.push (.ofNat (x.index + (k + 26)))
  have into : Visit.Next image ⟨x.index + (k + 25), m₂, x.awaited⟩
      ⟨x.index, m₃, ⟨some (x.index + (k + 26)), m₂.registers.esp, m₂.registers.ebp⟩ :: x.awaited⟩ := by
    refine ⟨_, call.1, ?_, ?_⟩
    · have next : x.index + (k + 25) + 1 = x.index + (k + 26) := rfl
      simp only [Machine.execute, P.function, Bind.bind, EStateM.bind, next, pushed]
      rfl
    · simp only [Visit.behind, P.function, Option.isSome_some, if_true]
      rfl
  have steps := ((toJump.trans (.one past)).trans toCall).trans (.one into)
  have height : (v₂.push (.ofNat (x.index + (k + 26)))).height = h + 1 + k + 5 + 1 :=
    (View.height_push v₂ _).trans (congrArg (· + 1) H₂.height)
  have H₃ := H₂.push (by omega) (.ofNat (x.index + (k + 26)))
  have C₃ := C₂.push (.ofNat (x.index + (k + 26)))
  have below {j : Nat} (hj : j ≤ h + 1 + k + 5) :
      (v₂.push (.ofNat (x.index + (k + 26)))).cell j = v₂.cell j :=
    View.cell_push_of_le v₂ _ (H₂.height.symm ▸ hj)
  generalize v₂.push (.ofNat (x.index + (k + 26))) = v₃ at near height H₃ C₃ below
  have total : h + (k + 7) = h + 1 + k + 5 + 1 := by omega
  have base : h + (k + 7) - (k + 6) = h + 1 := by omega
  refine ⟨_, v₃, steps, rfl, near.shows (by omega), ⟨by omega, by omega, H₃.topped, ?_, ?_⟩, C₃, H₃.kept,
    base ▸ H₃.base, H₃.world, x.awaited, ?_⟩
  · rw [total]
    exact (below (by omega)).trans number
  · rw [total]
    exact (below (by omega)).trans tag
  · have top : m₂.registers.esp = heightWord (h + 1 + k + 5) :=
      S₂.near.top.trans (congrArg _ H₂.height)
    have frame : m₂.registers.ebp = heightWord (h + 1) := S₂.registers ▸ H₂.base
    rw [top, frame, base, total]
    rfl

/-- As long as there is room, the function goes on until the number is zero. -/
theorem descends (P : Placed image k f l p) (index : x.index = p) (S : x.machine.Shows v)
    (G : Given (n + 1) h v) (room : h + (k + 7) * (n + 1) ≤ room) :
    ∃ y v', x.Steps image ((k + 26) * (n + 1)) y ∧
      Descended k p 0 (h + (k + 7) * (n + 1)) v.registers.ebx v.world y v' := by
  induction n generalizing x v h with
  | zero =>
    rw [Nat.zero_add, Nat.mul_one] at room ⊢
    rw [Nat.mul_one]
    exact level P index S G room (by omega)
  | succ n ih =>
    have words : (k + 7) * (n + 1 + 1) = (k + 7) + (k + 7) * (n + 1) := by rw [Nat.mul_succ, Nat.add_comm]
    have count : (k + 26) * (n + 1 + 1) = (k + 26) + (k + 26) * (n + 1) := by
      rw [Nat.mul_succ, Nat.add_comm]
    have more : n + 1 ≤ (k + 7) * (n + 1) := Nat.le_mul_of_pos_left _ (by omega)
    rw [words, ← Nat.add_assoc] at room ⊢
    rw [count]
    obtain ⟨y, v₁, first, D⟩ := level P index S G (by omega) (by omega)
    obtain ⟨z, v₂, rest, D'⟩ := ih D.index D.shows D.given room
    refine ⟨z, v₂, first.trans rest, ?_⟩
    rw [← D.kept, ← D.world]
    exact D'

/-- What is known of the machine where the function begins with zero: the registers, and the two words of
the number. -/
def bottom (k p h : Nat) (ebx : Int32) (w : World) : Visit where
  index := p
  machine := ⟨⟨0, ebx, 0, 0, 1, 0, heightWord (h - (k + 6)), heightWord h⟩,
    (Std.TreeMap.empty.insert (heightWord (h - 1)).toUInt32 0).insert (heightWord (h - 2)).toUInt32 0,
    .ofResult 0 false, w⟩
  awaited := [⟨some (p + (k + 26)), heightWord (h - 1), heightWord (h - (k + 6))⟩]

theorem Descended.exists_extends {y : Visit} (D : Descended k p 0 h ebx w y v) :
    ∃ calls, (bottom k p h ebx w).Extends y calls := by
  obtain ⟨index, S, G, C, kept, base, world, calls, awaited⟩ := D
  have height := G.height
  have low := G.low
  have registers : v.registers = ⟨0, ebx, 0, 0, 1, 0, heightWord (h - (k + 6)), heightWord h⟩ := by
    have eax := C.eax
    have ecx := C.ecx
    have edx := C.edx
    have esi := C.esi
    have edi := C.edi
    have esp : v.registers.esp = heightWord h := G.height ▸ G.topped
    generalize v.registers = rs at *
    obtain ⟨a, b, c, d, e, f, g, t⟩ := rs
    cases eax; cases kept; cases ecx; cases edx; cases esi; cases edi; cases base; cases esp
    rfl
  refine ⟨calls, index, ⟨S.registers.trans registers, S.flags.trans C.flags, S.world.trans world, ?_⟩,
    awaited⟩
  intro a n there
  have memory : (bottom k p h ebx w).machine.memory =
    (Std.TreeMap.empty.insert (heightWord (h - 1)).toUInt32 0).insert (heightWord (h - 2)).toUInt32 0 :=
    rfl
  rw [memory, Machine.getElem?_insert, Machine.getElem?_insert] at there
  split at there
  · rename_i same
    cases there
    rw [← same]
    exact S.cell _ _ (by omega) (by omega) G.tag
  · split at there
    · rename_i same
      cases there
      rw [← same]
      exact S.cell _ _ (by omega) (by omega) G.number
    · cases there

/-- A function that is called with a number goes down the stack until the number is zero. What it does then,
it does on a machine of which only a few words are known. -/
theorem dives (P : Placed image k f l p) (index : x.index = p)
    (esp : x.machine.registers.esp = heightWord h) (low : 3 ≤ h)
    (number : x.machine.memory[(heightWord (h - 1)).toUInt32]? = some (.ofNat (n + 1)))
    (tag : x.machine.memory[(heightWord (h - 2)).toUInt32]? = some 0)
    (globals : ∀ g : Global, (x.machine.memory[g.address]?).isSome)
    (room : h + (k + 7) * (n + 1) ≤ room) :
    ∃ y calls, x.Steps image ((k + 26) * (n + 1)) y ∧
      (bottom k p (h + (k + 7) * (n + 1)) x.machine.registers.ebx x.machine.world).Extends y calls := by
  have S : x.machine.Shows (x.machine.view h) := by
    refine ⟨rfl, rfl, rfl, esp, Nat.le_trans (Nat.le_add_right _ _) room, fun _ _ _ _ there => there,
      fun g => ?_⟩
    obtain ⟨c, there⟩ := Option.isSome_iff_exists.mp (globals g)
    show _ = some ((x.machine.memory[g.address]?).getD 0)
    rw [there]
    rfl
  obtain ⟨y, v, steps, D⟩ := descends P index S ⟨rfl, low, esp, number, tag⟩ room
  obtain ⟨calls, extends_⟩ := D.exists_extends
  exact ⟨y, calls, steps, extends_⟩

end Level

end Recursion

end Threefold.X86
