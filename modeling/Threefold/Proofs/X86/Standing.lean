import Threefold.Proofs.X86.Loading
import Threefold.Proofs.X86.Pieces

/-!
# Operands in their places

Between two instructions of the bytecode the frame of a routine stands on the machine stack: the base
pointer is at a height, below it are the variables of the routine, and on these are the operands that
no register holds.

* `View.Stands` says that a view holds the frame with certain operands.
* `View.Agrees` says that the words of the stack up to a height are the same in two views, and so are
  the global words.
-/

namespace Threefold.X86

open View (Saved savedWords held Same Denotes)

/-- An operand: the words of its value, and whether it owns a reference. -/
structure Item where
  raw : Raw
  owned : Bool

/-! ## Places -/

/-- The words of an operand are in a place. The first operand on the machine stack is above a
height. -/
def InPlace (word : Register → Int32) (cell : Nat → Option Int32) (bottom : Nat) :
    Place → Raw → Prop
  | .pair p, r => word p.value = r.word ∧ word p.tag = r.code
  | .spilled n, r =>
    cell (bottom + 2 * n + 2) = some r.word ∧ cell (bottom + 2 * n + 1) = some r.code

/-- All operands are in their places, the topmost first. -/
def Holds (word : Register → Int32) (cell : Nat → Option Int32) (bottom : Nat) :
    List Item → Prop
  | [] => True
  | o :: below => InPlace word cell bottom (.atDepth below.length) o.raw ∧
    Holds word cell bottom below

/-- The number of words that operands take on the machine stack. -/
def spilledWords (n : Nat) : Nat :=
  2 * (n - 2)

theorem held_mono {d e : Nat} (h : d ≤ e) {x : Register} (hx : held d x = true) :
    held e x = true := by
  match d, e, h, hx with
  | 1, 1, _, hx => exact hx
  | 1, e + 2, _, hx =>
    simp only [held, Bool.or_eq_true] at hx ⊢
    exact .inl (.inl hx)
  | d + 2, e + 2, _, hx => exact hx

/-- No operand is in the stack and base pointers or in the registers of results. -/
theorem held_ne {d : Nat} {x : Register} (h : held d x = true) :
    x ≠ .esp ∧ x ≠ .ebp ∧ x ≠ .eax ∧ x ≠ .ebx := by
  have two : held 2 x = true := by
    match d, h with
    | 1, h => exact held_mono (by decide) h
    | d + 2, h => exact h
  refine ⟨?_, ?_, ?_, ?_⟩ <;> rintro rfl <;> cases two

section Places

variable {word word' : Register → Int32} {cell cell' : Nat → Option Int32} {bottom : Nat}

theorem InPlace.imp {d : Nat} {r : Raw} (h : InPlace word cell bottom (.atDepth d) r)
    (hw : ∀ x, held (d + 1) x = true → word' x = word x)
    (hc : ∀ k, bottom < k → k ≤ bottom + spilledWords (d + 1) → cell' k = cell k) :
    InPlace word' cell' bottom (.atDepth d) r := by
  match d, h with
  | 0, h => exact ⟨(hw .ecx rfl).trans h.1, (hw .edx rfl).trans h.2⟩
  | 1, h => exact ⟨(hw .esi rfl).trans h.1, (hw .edi rfl).trans h.2⟩
  | n + 2, h =>
    have high : spilledWords (n + 2 + 1) = 2 * n + 2 := by
      unfold spilledWords
      omega
    rw [high] at hc
    exact ⟨(hc _ (by omega) (by omega)).trans h.1, (hc _ (by omega) (by omega)).trans h.2⟩

theorem Holds.imp {items : List Item} (h : Holds word cell bottom items)
    (hw : ∀ x, held items.length x = true → word' x = word x)
    (hc : ∀ k, bottom < k → k ≤ bottom + spilledWords items.length → cell' k = cell k) :
    Holds word' cell' bottom items := by
  induction items with
  | nil => trivial
  | cons o below ih =>
    have less : spilledWords below.length ≤ spilledWords (below.length + 1) := by
      unfold spilledWords
      omega
    refine ⟨h.1.imp hw hc, ih h.2 ?_ ?_⟩
    · exact fun x hx => hw x (held_mono (Nat.le_succ _) hx)
    · exact fun k low high => hc k low (Nat.le_trans high (Nat.add_le_add_left less bottom))

theorem Holds.drop {items : List Item} (h : Holds word cell bottom items) (n : Nat) :
    Holds word cell bottom (items.drop n) := by
  induction n generalizing items with
  | zero => exact h
  | succ n ih =>
    cases items with
    | nil => trivial
    | cons o items => exact ih h.2

end Places

/-! ## Frames -/

/-- The height up to which a frame has the variables of the routine. -/
def Context.bottom (c : Context) (home : Nat) : Nat :=
  home + 2 * c.frame.inner.length

namespace View

/-- A view holds the frame of a routine, whose base pointer is at a height, with operands in their
places. -/
structure Stands (v : View) (c : Context) (home : Nat) (items : List Item) : Prop where
  ebp : v.registers.ebp = heightWord home
  height : v.height = c.bottom home + spilledWords items.length
  topped : v.Topped
  operands : Holds v.registers.get v.cell (c.bottom home) items

/-- The words of the stack up to a height are the same in two views, and so are the global words. -/
structure Agrees (h : Nat) (v v' : View) : Prop where
  cell : ∀ k ≤ h, v'.cell k = v.cell k
  globals : v'.globals = v.globals

variable {c : Context} {home : Nat} {items : List Item} {image : Image} {v v' v'' : View} {n : Int32}
  {d : Nat}

theorem Agrees.trans {h h' : Nat} (a : Agrees h v v') (b : Agrees h' v' v'') (hh : h' ≤ h) :
    Agrees h' v v'' :=
  ⟨fun k hk => (b.cell k hk).trans (a.cell k (Nat.le_trans hk hh)), b.globals.trans a.globals⟩

theorem Agrees.mono {h h' : Nat} (a : Agrees h v v') (hh : h' ≤ h) : Agrees h' v v' :=
  ⟨fun k hk => a.cell k (Nat.le_trans hk hh), a.globals⟩

theorem Grown.agrees (g : v.Grown v') : Agrees v.height v v' :=
  ⟨g.cell, g.globals⟩

theorem Same.agrees (s : Same d v v') : Agrees v.height v v' :=
  ⟨s.cell, s.globals⟩

/-- A view with other operands in their places holds the frame as the one before. -/
theorem Stands.of_agrees (S : v.Stands c home items) {items' : List Item}
    (ebp : v'.registers.ebp = v.registers.ebp)
    (height : v'.height = c.bottom home + spilledWords items'.length) (topped : v'.Topped)
    (holds : Holds v'.registers.get v'.cell (c.bottom home) items') : v'.Stands c home items' :=
  ⟨ebp.trans S.ebp, height, topped, holds⟩

theorem Stands.same (S : v.Stands c home items) (h : Same items.length v v') :
    v'.Stands c home items := by
  refine ⟨?_, h.height.trans S.height, h.topped, S.operands.imp ?_ ?_⟩
  · exact (h.registers .ebp (by decide) (.inr (by decide))).trans S.ebp
  · exact fun x hx => h.registers x (held_ne hx).1 (.inl hx)
  · exact fun k _ hk => h.cell k (S.height ▸ hk)

/-! ## Words of the frame -/

theorem place?_frame {k : Nat} {offset : Int} (hk : 4 * (k : Int) = 4 * home - offset)
    (low : 1 ≤ k) (high : k ≤ v.height) (hc : k ≤ ceiling) :
    v.place? (heightWord home + .ofInt offset) = some k := by
  unfold place?
  rw [heightWord_add hk, heightOf?_heightWord hc]
  dsimp only
  rw [if_pos ⟨low, high⟩]

theorem read_frame {k : Nat} {offset : Int} (ebp : v.registers.ebp = heightWord home)
    (hk : 4 * (k : Int) = 4 * home - offset) (low : 1 ≤ k) (high : k ≤ v.height)
    (hc : k ≤ ceiling) : v.read image (.frame offset) = v.cell k := by
  have place := place?_frame hk low high hc
  have base : v.registers.get .ebp = heightWord home := ebp
  simp only [Operand.frame, View.read, base, place, Option.bind_some]

theorem write_frame {k : Nat} {offset : Int} (ebp : v.registers.ebp = heightWord home)
    (hk : 4 * (k : Int) = 4 * home - offset) (low : 1 ≤ k) (high : k ≤ v.height)
    (hc : k ≤ ceiling) : v.write (.frame offset) n = some (v.put k n) := by
  have place := place?_frame hk low high hc
  have base : v.registers.get .ebp = heightWord home := ebp
  simp only [Operand.frame, View.write, base, place, Option.map_some]

/-- The words of an operand are in its slot. -/
theorem Stands.denotes_place (S : v.Stands c home items) (image : Image) (hc : v.height ≤ ceiling)
    {r : Raw} (owned : Bool) (hd : d < items.length)
    (hp : InPlace v.registers.get v.cell (c.bottom home) (.atDepth d) r) :
    v.Denotes image (c.slotWords ⟨.atDepth d, owned⟩) r := by
  have height := S.height
  unfold Context.bottom spilledWords at height
  match d, hp, hd with
  | 0, hp, _ => exact ⟨congrArg some hp.1, congrArg some hp.2⟩
  | 1, hp, _ => exact ⟨congrArg some hp.1, congrArg some hp.2⟩
  | n + 2, hp, hd =>
    show v.Denotes image (c.frame.spill n) r
    unfold Frame.spill Frame.size
    unfold Context.bottom at hp
    exact ⟨(read_frame S.ebp (by omega) (by omega) (by omega) (by omega)).trans hp.1,
      (read_frame S.ebp (by omega) (by omega) (by omega) (by omega)).trans hp.2⟩

end View

/-! ## Operands of instructions that are kept -/

/-- An operand that does not change while the registers of a number of operands are kept. -/
def Operand.IsKept (d : Nat) : Operand → Prop
  | .register r => r ≠ .esp ∧ (held d r = true ∨ r ≠ .ecx ∧ r ≠ .edx)
  | .memory base _ => base = .ebp
  | _ => True

theorem Operand.IsKept.steady {d : Nat} {o : Operand} (h : o.IsKept d) : o.IsSteady := by
  cases o with
  | register r => exact h.1
  | memory base offset =>
    have base : base = .ebp := h
    rw [base]
    exact (by decide : Register.ebp ≠ .esp)
  | _ => trivial

/-- Both words are kept. -/
structure Words.IsKept (d : Nat) (ws : Words) : Prop where
  value : ws.value.IsKept d
  tag : ws.tag.IsKept d

theorem Words.IsKept.steady {d : Nat} {ws : Words} (h : ws.IsKept d) : ws.IsSteady :=
  ⟨h.value.steady, h.tag.steady⟩

theorem isKept_slotWords (c : Context) {k d : Nat} (h : k < d) (owned : Bool) :
    (c.slotWords ⟨.atDepth k, owned⟩).IsKept d := by
  match k with
  | 0 =>
    have ecx : held d .ecx = true := held_mono (d := 1) h rfl
    have edx : held d .edx = true := held_mono (d := 1) h rfl
    exact ⟨⟨by decide, .inl ecx⟩, ⟨by decide, .inl edx⟩⟩
  | 1 => exact ⟨⟨by decide, .inr (by decide)⟩, ⟨by decide, .inr (by decide)⟩⟩
  | k + 2 => exact ⟨rfl, rfl⟩

/-- An operand that does not change with the registers of operands or the stack pointer. -/
def Operand.IsFree : Operand → Prop
  | .register r => r = .eax ∨ r = .ebx ∨ r = .ebp
  | .memory base _ => base = .ebp
  | _ => True

theorem Operand.IsFree.kept {o : Operand} (h : o.IsFree) (d : Nat) : o.IsKept d := by
  cases o with
  | register r => rcases h with rfl | rfl | rfl <;> exact ⟨by decide, .inr (by decide)⟩
  | memory base offset => exact h
  | _ => trivial

/-- Both words are free. -/
structure Words.IsFree (ws : Words) : Prop where
  value : ws.value.IsFree
  tag : ws.tag.IsFree

theorem Words.IsFree.kept {ws : Words} (h : ws.IsFree) (d : Nat) : ws.IsKept d :=
  ⟨h.value.kept d, h.tag.kept d⟩

theorem isFree_homeWords (h : Home) : (Frame.homeWords h).IsFree := by
  cases h with
  | parameter i => exact ⟨rfl, rfl⟩
  | inner i => exact ⟨rfl, rfl⟩
  | payload => exact ⟨trivial, trivial⟩

namespace View

variable {image : Image} {v v' : View} {n : Int32} {d : Nat}

/-- An operand that is kept stands for the same word as long as the registers of operands are kept. -/
theorem Same.read (s : Same d v v') {o : Operand} (ho : o.IsKept d)
    (h : v.read image o = some n) : v'.read image o = some n := by
  cases o with
  | immediate k => exact h
  | address s => exact h
  | register r =>
    have same : v'.registers.get r = v.registers.get r := s.registers r ho.1 ho.2
    simp only [View.read, same]
    exact h
  | memory base offset =>
    have ebp : base = .ebp := ho
    subst ebp
    obtain ⟨k, hk, hn⟩ := Option.bind_eq_some_iff.mp h
    have same : v'.registers.get .ebp = v.registers.get .ebp :=
      s.registers .ebp (by decide) (.inr (by decide))
    simp only [View.read, same, place?_of_le hk (Nat.le_of_eq s.height.symm), Option.bind_some]
    rw [s.cell k (Machine.place?_eq_some hk).2.2]
    exact hn
  | global symbol =>
    simp only [View.read, s.globals]
    exact h

theorem Same.denotes (s : Same d v v') {ws : Words} (hw : ws.IsKept d) {r : Raw}
    (h : v.Denotes image ws r) : v'.Denotes image ws r :=
  ⟨s.read hw.value h.value, s.read hw.tag h.tag⟩

theorem read_set {o : Operand} (ho : o.IsFree) {r : Register} (hr : held 2 r = true) (n : Int32) :
    (v.set r n).read image o = v.read image o := by
  have other : ∀ x : Register, x = .eax ∨ x = .ebx ∨ x = .ebp →
      (v.set r n).registers.get x = v.registers.get x := by
    intro x hx
    rw [View.get_set, if_neg]
    rintro rfl
    rcases hx with rfl | rfl | rfl <;> cases hr
  cases o with
  | register x => simp only [View.read, other x ho]
  | memory base offset =>
    have ebp : base = .ebp := ho
    subst ebp
    simp only [View.read, other .ebp (.inr (.inr rfl))]
    rfl
  | _ => rfl

end View

/-! ## What the lowering has looked up -/

theorem home?_bound {f : Frame} {x : Bytecode.Variable} {h : Home} (hx : f.home? x = some h) :
    match h with
    | .parameter i => i < f.parameters.length
    | .inner i => i < f.inner.length
    | .payload => True := by
  unfold Frame.home? at hx
  split at hx
  · split at hx
    · cases hx
      trivial
    · cases hx
  · split at hx
    · rename_i i hi
      cases hx
      exact (List.idxOf?_eq_some_iff.mp hi).choose
    · obtain ⟨i, hi, rfl⟩ := Option.map_eq_some_iff.mp hx
      exact (List.idxOf?_eq_some_iff.mp hi).choose

theorem words_eq_ok {c : Context} {x : Bytecode.Variable} {ws : Words} (h : c.words x = .ok ws) :
    ∃ home, c.frame.home? x = some home ∧ ws = Frame.homeWords home := by
  unfold Context.words at h
  split at h
  · rename_i found hw
    cases h
    obtain ⟨home, hhome, rfl⟩ := Option.map_eq_some_iff.mp hw
    exact ⟨home, hhome, rfl⟩
  · cases h

/-- The slots of the operands on top, the lowest first. -/
def topSlots (items : List Item) (n : Nat) : List Slot :=
  ((Operands.slotsOf (items.map Item.owned)).take n).reverse

theorem topSlots_one (o : Item) (rest : List Item) :
    topSlots (o :: rest) 1 = [⟨.atDepth rest.length, o.owned⟩] := by
  simp [topSlots, Operands.slotsOf]

theorem topSlots_two (o o' : Item) (rest : List Item) :
    topSlots (o :: o' :: rest) 2 =
      [⟨.atDepth rest.length, o'.owned⟩, ⟨.atDepth (rest.length + 1), o.owned⟩] := by
  simp [topSlots, Operands.slotsOf]

@[simp]
theorem depth_shape (items : List Item) :
    Operands.depth ⟨items.map Item.owned⟩ = items.length :=
  List.length_map _

theorem pop_eq_ok {items : List Item} {origin : String} {slot : Slot} {below : Operands}
    (h : Lowering.pop ⟨items.map Item.owned⟩ origin = .ok (slot, below)) :
    ∃ o rest, items = o :: rest ∧ slot = ⟨.atDepth rest.length, o.owned⟩ ∧
      below = ⟨rest.map Item.owned⟩ := by
  cases items with
  | nil => cases h
  | cons o rest =>
    have same : (Except.ok (⟨.atDepth (rest.map Item.owned).length, o.owned⟩,
        (⟨rest.map Item.owned⟩ : Operands)) : Except Refusal (Slot × Operands)) =
          .ok (slot, below) := h
    cases same
    rw [List.length_map]
    exact ⟨o, rest, rfl, rfl, rfl⟩

theorem popMany_eq_ok {items : List Item} {n : Nat} {origin : String} {slots : List Slot}
    {below : Operands} (h : Lowering.popMany ⟨items.map Item.owned⟩ n origin = .ok (slots, below)) :
    n ≤ items.length ∧ slots = topSlots items n ∧ below = ⟨(items.drop n).map Item.owned⟩ := by
  unfold Lowering.popMany Operands.popMany? at h
  split at h
  · rename_i r hr
    cases h
    split at hr
    · rename_i enough
      cases hr
      rw [depth_shape] at enough ⊢
      refine ⟨enough, ?_, ?_⟩
      · rw [topSlots, List.reverse_take, Operands.length_slotsOf, List.length_map]
        rfl
      · rw [List.map_drop]
    · cases hr
  · cases h

theorem codeOf_done {is : Code} {shape after : Operands} {ds : List Directive}
    (h : Lowering.code.done is shape = .ok (ds, after)) :
    Directive.codeOf ds = is ∧ after = shape := by
  cases h
  exact ⟨Directive.codeOf_map is, rfl⟩

end Threefold.X86
