import Threefold.Proofs.X86.Confined
import Threefold.Proofs.X86.Operations

/-!
# Instructions that work on operands

An instruction that only works on operands takes some of them off the top and puts a value in their
place. Its code gives back what the operands own that are used up, leaves the frame alone below them
and is confined to the stack above them (`View.Replaces`). A division whose operator has no result
traps instead, before anything is given back.
-/

namespace Threefold.X86

open Directive (codeOf)

namespace View

/-- A piece of code gives back what a number of operands on top own and puts others in their place,
and something holds behind it. -/
structure Replaces (image : Image) (c : Context) (home : Nat) (items : List Item) (v : View)
    (is : Code) (n : Nat) (pushed : List Item) (φ : View → Prop) : Prop where
  runs : ∀ {Q : View → Prop} {E : Trap → World → Prop},
    Library.Wp (releaseOwned (items.take n)) v.world (fun _ w => ∀ v',
      v'.Stands c home (pushed ++ items.drop n) →
      Agrees (c.bottom home + spilledWords (items.length - n)) v v' → v'.world = w → φ v' → Q v')
      E → Runs image is v Q E
  confined : ∃ k, Confined (spilledWords items.length - spilledWords (items.length - n)) is k

variable {c : Context} {home : Nat} {items rest : List Item} {o o' : Item} {image : Image}
  {v v' : View} {Q : View → Prop} {E : Trap → World → Prop} {n : Nat}

/-- A value that can be read becomes the operand on top. -/
theorem Stands.replaces_push (S : v.Stands c home items) {ws : Words} {r : Raw} (owned : Bool)
    (hr : v.Denotes image ws r) (free : ws.IsFree) :
    Replaces image c home items v (Code.pushAt items.length ws) 0 [⟨r, owned⟩] fun _ => True where
  runs h := by
    refine Runs.pushAt S owned hr free fun v' S' agrees world => h v' S' ?_ world trivial
    exact agrees.mono (Nat.le_of_eq S.height.symm)
  confined := ⟨_, Confined.pushAt _ _ ws⟩

/-- A number in the register of results takes the place of the operands on top. -/
theorem Runs.replace (S : v.Stands c home items) (hr : v.height ≤ room)
    (hs : Counts image Symbol.release Library.release) {m : Int32} (hm : v.registers.eax = m)
    (h : Library.Wp (X86.releaseOwned (items.take n)) v.world (fun _ w => ∀ v',
      v'.Stands c home (⟨.scalar m, false⟩ :: items.drop n) →
      Agrees (c.bottom home + spilledWords (items.length - n)) v v' → v'.world = w → Q v') E) :
    Runs image (Code.discard c (topSlots items n) items.length ++
      Code.pushAt (items.drop n).length ⟨Register.eax, .immediate 0⟩) v Q E := by
  refine Runs.append (Runs.discard S hr hs (h.imp fun _ w _ hq v₁ S₁ agrees world eax => ?_))
  refine Runs.pushResult S₁ (eax.trans hm) fun v' S' agrees' world' => ?_
  have low : c.bottom home + spilledWords (items.length - n) = v₁.height := by
    rw [S₁.height, List.length_drop]
  exact hq v' S' (agrees.trans (low ▸ agrees') (Nat.le_refl _)) (world'.trans world)

theorem confined_replace (c : Context) (items : List Item) (n : Nat) (ws : Words) :
    ∃ k, Confined (spilledWords items.length - spilledWords (items.length - n))
      (Code.discard c (topSlots items n) items.length ++ Code.pushAt (items.drop n).length ws) k := by
  have front := Confined.discard 0 c items n
  rw [Nat.zero_add] at front
  exact ⟨_, front.append (Confined.pushAt 0 _ ws)⟩

/-- A result that was computed takes the place of the operands that it was computed from. -/
theorem Stands.replaces_result (S : v.Stands c home items) (hr : v.height ≤ room)
    (hs : Counts image Symbol.release Library.release) {compute : Code} {m : Int32} (spare : Int32)
    (confined : ∀ k, Confined k compute k)
    (h : ∀ {Q : View → Prop} {E : Trap → World → Prop},
      (∀ v', Computed m spare v v' → Q v') → Runs image compute v Q E) :
    Replaces image c home items v (compute ++ (Code.discard c (topSlots items n) items.length ++
      Code.pushAt (items.drop n).length ⟨Register.eax, .immediate 0⟩)) n [⟨.scalar m, false⟩]
      fun _ => True where
  runs hq := by
    refine Runs.append (h fun v₁ computed => ?_)
    obtain ⟨S₁, agrees⟩ := S.computed computed
    refine Runs.replace S₁ (computed.height ▸ hr) hs (computed.registers .eax (by decide)) ?_
    rw [computed.world]
    refine hq.imp fun _ w _ hq v' S' agrees' world => hq v' S' (agrees.trans agrees' ?_) world trivial
    rw [S.height]
    exact Nat.add_le_add_left (spilledWords_mono (Nat.sub_le _ _)) _
  confined := by
    obtain ⟨k, tail⟩ := confined_replace c items n ⟨Register.eax, .immediate 0⟩
    exact ⟨k, (confined _).append tail⟩

theorem computed_set (ht : v.Topped) (m : Int32) :
    Computed m v.registers.ebx v (v.set .eax m) := by
  have cut := (Cut.refl ht).set (r := .eax) (by decide) m
  refine ⟨fun r hr => (cut.registers r hr).trans ?_, cut.globals, cut.world, cut.height, cut.cell,
    cut.topped⟩
  cases r <;> rfl

/-- The flags say whether a register is zero. -/
theorem Runs.test (h : Q (v.flagged (v.registers.eax &&& v.registers.eax) false)) :
    Runs image [.test Register.eax Register.eax] v Q E := by
  have tested : v.exec image (.test Register.eax Register.eax) =
    some (.ok (v.flagged (v.registers.eax &&& v.registers.eax) false)) := rfl
  exact .cons tested (.nil h)

theorem isSource_slotWords (c : Context) (k : Nat) (owned : Bool) :
    (c.slotWords ⟨.atDepth k, owned⟩).value.IsSource := by
  match k with
  | 0 => exact ⟨by decide, by decide, by decide⟩
  | 1 => exact ⟨by decide, by decide, by decide⟩
  | k + 2 => exact rfl

/-! ## The code of instructions -/

section Instructions

variable {index : Nat} {ds : List Directive} {after : Operands}

theorem replaces_of_push (image : Image) (S : v.Stands c home items) {n : Int32}
    (h : Lowering.code c index ⟨items.map Item.owned⟩ (.push n) = .ok (ds, after)) :
    after = ⟨false :: items.map Item.owned⟩ ∧
      Replaces image c home items v (codeOf ds) 0 [⟨.scalar n, false⟩] fun _ => True := by
  obtain ⟨code, rfl⟩ := codeOf_done h
  have known : v.Denotes image ⟨.immediate n, .immediate 0⟩ (.scalar n) := ⟨rfl, rfl⟩
  rw [code, depth_shape]
  exact ⟨rfl, S.replaces_push false known ⟨trivial, trivial⟩⟩

theorem replaces_of_pushLiteral (S : v.Stands c home items) {n : Nat}
    (literals : ∀ i < c.bytecode.literals.length,
      image.data.get? (Symbol.ofLiteral i) = some (Heap.handle i))
    (h : Lowering.code c index ⟨items.map Item.owned⟩ (.pushLiteral n) = .ok (ds, after)) :
    n < c.bytecode.literals.length ∧ after = ⟨false :: items.map Item.owned⟩ ∧
      Replaces image c home items v (codeOf ds) 0 [⟨.scalar (Heap.handle n), false⟩]
        fun _ => True := by
  simp only [Lowering.code] at h
  split at h
  · rename_i bound
    obtain ⟨code, rfl⟩ := codeOf_done h
    have known : v.Denotes image ⟨.address (.ofLiteral n), .immediate 0⟩ (.scalar (Heap.handle n)) :=
      ⟨literals n bound, rfl⟩
    rw [code, depth_shape]
    exact ⟨bound, rfl, S.replaces_push false known ⟨trivial, trivial⟩⟩
  · cases h

theorem replaces_of_load (S : v.Stands c home items) {x : Bytecode.Variable} {r : Raw}
    (denotes : ∀ ws, c.words x = .ok ws → v.Denotes image ws r)
    (h : Lowering.code c index ⟨items.map Item.owned⟩ (.load x) = .ok (ds, after)) :
    after = ⟨decide (x = .thrownData) :: items.map Item.owned⟩ ∧
      Replaces image c home items v (codeOf ds) 0 [⟨r, decide (x = .thrownData)⟩]
        fun _ => True := by
  obtain ⟨ws, hws, h⟩ := Program.ok_of_bind h
  obtain ⟨place, -, rfl⟩ := words_eq_ok hws
  obtain ⟨code, rfl⟩ := codeOf_done h
  rw [code, depth_shape]
  exact ⟨rfl, S.replaces_push _ (denotes _ hws) (isFree_homeWords place)⟩

theorem replaces_of_pop (S : v.Stands c home items) (hr : v.height ≤ room)
    (hs : Counts image Symbol.release Library.release)
    (h : Lowering.code c index ⟨items.map Item.owned⟩ .pop = .ok (ds, after)) :
    ∃ o rest, items = o :: rest ∧ after = ⟨rest.map Item.owned⟩ ∧
      Replaces image c home items v (codeOf ds) 1 [] fun _ => True := by
  obtain ⟨⟨slot, below⟩, hpop, h⟩ := Program.ok_of_bind h
  obtain ⟨o, rest, rfl, rfl, rfl⟩ := pop_eq_ok hpop
  obtain ⟨code, rfl⟩ := codeOf_done h
  rw [code, depth_shape, ← topSlots_one]
  refine ⟨o, rest, rfl, rfl, ?_, ?_⟩
  · intro Q E hq
    refine Runs.append (Runs.releaseOwned S hr hs 1 (hq.imp fun _ w _ hq v₁ same world => ?_))
    refine Runs.dropSpilled (S.same same) (same.height ▸ hr) fun v' S' agrees _ world' => ?_
    refine hq v' S' (same.agrees.trans agrees ?_) (world'.trans world) trivial
    rw [S.height]
    exact Nat.add_le_add_left (spilledWords_mono (Nat.sub_le _ _)) _
  · have tail := Confined.dropSpilled 0 (o :: rest) 1
    rw [Nat.zero_add] at tail
    exact ⟨0, (Confined.releaseOwned _ c _ _).append tail⟩

theorem replaces_of_unary (S : v.Stands c home items) (hr : v.height ≤ room)
    (hs : Counts image Symbol.release Library.release) {op : UnaryOp}
    (h : Lowering.code c index ⟨items.map Item.owned⟩ (.unary op) = .ok (ds, after)) :
    ∃ o rest, items = o :: rest ∧ after = ⟨false :: rest.map Item.owned⟩ ∧
      Replaces image c home items v (codeOf ds) 1 [⟨.scalar (op.eval o.raw.word), false⟩]
        fun _ => True := by
  cases op
  obtain ⟨⟨slot, below⟩, hpop, h⟩ := Program.ok_of_bind h
  obtain ⟨o, rest, rfl, rfl, rfl⟩ := pop_eq_ok hpop
  obtain ⟨code, rfl⟩ := codeOf_done h
  have slack := room_add_le_ceiling
  have known := S.denotes_place image (by omega) o.owned (Nat.lt_succ_self _) S.operands.1
  have zero : v.read image (.immediate 0) = some 0 := rfl
  rw [code, depth_shape, depth_shape, List.append_assoc, ← topSlots_one]
  refine ⟨o, rest, rfl, rfl, S.replaces_result hr hs v.registers.ebx
    (fun k => Confined.compare k _ _ _) ?_⟩
  exact fun hq => Runs.compare known.value zero trivial S.topped .equal hq

/-- The two operands on top. -/
theorem Stands.denotes_two (image : Image) (S : v.Stands c home (o' :: o :: rest)) (hr : v.height ≤ room) :
    v.Denotes image (c.slotWords ⟨.atDepth (rest.length + 1), o'.owned⟩) o'.raw ∧
      v.Denotes image (c.slotWords ⟨.atDepth rest.length, o.owned⟩) o.raw := by
  have slack := room_add_le_ceiling
  exact ⟨S.denotes_place image (by omega) o'.owned (Nat.lt_succ_self _) S.operands.1,
    S.denotes_place image (by omega) o.owned (Nat.lt_succ_of_lt (Nat.lt_succ_self _))
      S.operands.2.1⟩

/-- An operator has its result computed, or the machine traps if it has none. -/
theorem replaces_of_binary (S : v.Stands c home items) (hr : v.height ≤ room)
    (hs : Counts image Symbol.release Library.release) {op : BinaryOp}
    (h : Lowering.code c index ⟨items.map Item.owned⟩ (.binary op) = .ok (ds, after)) :
    ∃ right left rest, items = right :: left :: rest ∧ after = ⟨false :: rest.map Item.owned⟩ ∧
      match op.eval? left.raw.word right.raw.word with
      | some m => Replaces image c home items v (codeOf ds) 2 [⟨.scalar m, false⟩] fun _ => True
      | none => ∀ {E : Trap → World → Prop},
        E (.ofDivision left.raw.word right.raw.word) v.world →
        Runs image (codeOf ds) v (fun _ => False) E := by
  obtain ⟨⟨slots, below⟩, hpop, h⟩ := Program.ok_of_bind h
  obtain ⟨enough, rfl, rfl⟩ := popMany_eq_ok hpop
  match items, enough, S with
  | [o], enough, _ => exact absurd enough (Nat.not_succ_le_self 1)
  | right :: left :: rest, _, S =>
    rw [topSlots_two] at h
    obtain ⟨code, rfl⟩ := codeOf_done h
    obtain ⟨onTop, below⟩ := S.denotes_two image hr
    have source := isSource_slotWords c
    refine ⟨right, left, rest, rfl, rfl, ?_⟩
    rw [code, depth_shape, depth_shape, List.append_assoc, ← topSlots_two]
    cases heval : op.eval? left.raw.word right.raw.word with
    | none =>
      refine fun hE => Runs.append (Runs.binary below.value onTop.value (source _ _) (source _ _)
        S.topped ?_)
      rw [heval]
      exact hE
    | some m =>
      refine S.replaces_result hr hs (spareAfter op right.raw.word v.registers.ebx)
        (fun k => Confined.binary k _ _ _) fun hq =>
          Runs.binary below.value onTop.value (source _ _) (source _ _) S.topped ?_
      rw [heval]
      exact hq

/-- What a conditional jump does before it jumps: the flags say whether the operand was zero. -/
theorem replaces_of_jumpIfZero (S : v.Stands c home items) (hr : v.height ≤ room)
    (hs : Counts image Symbol.release Library.release) {target : Nat}
    (h : Lowering.code c index ⟨items.map Item.owned⟩ (.jumpIfZero target) = .ok (ds, after)) :
    ∃ o rest is, items = o :: rest ∧ after = ⟨rest.map Item.owned⟩ ∧
      codeOf ds = is ++ [.jcc .equal (c.label target)] ∧
      Replaces image c home items v is 1 [] fun v' =>
        v'.flags.holds .equal = decide (o.raw.word = 0) := by
  obtain ⟨⟨slot, below⟩, hpop, h⟩ := Program.ok_of_bind h
  obtain ⟨o, rest, rfl, rfl, rfl⟩ := pop_eq_ok hpop
  obtain ⟨code, rfl⟩ := codeOf_done h
  have slack := room_add_le_ceiling
  have known := S.denotes_place image (by omega) o.owned (Nat.lt_succ_self _) S.operands.1
  rw [code, depth_shape, ← topSlots_one]
  refine ⟨o, rest, [.mov (c.slotWords ⟨.atDepth rest.length, o.owned⟩).value Register.eax] ++
    (Code.discard c (topSlots (o :: rest) 1) (o :: rest).length ++
      [.test Register.eax Register.eax]), rfl, rfl, by simp [topSlots_one], ?_, ?_⟩
  · intro Q E hq
    have computed := computed_set S.topped o.raw.word
    obtain ⟨S₁, agrees₁⟩ := S.computed computed
    have low : c.bottom home + spilledWords ((o :: rest).length - 1) ≤ v.height := by
      rw [S.height]
      exact Nat.add_le_add_left (spilledWords_mono (Nat.sub_le _ _)) _
    refine .movRegister (by decide) known.value ?_
    show Runs image (Code.discard c (topSlots (o :: rest) 1) (o :: rest).length ++
      [.test Register.eax Register.eax]) _ Q E
    refine Runs.append (Runs.discard S₁ hr hs ?_)
    refine hq.imp fun _ w _ hq v₂ S₂ agrees₂ world eax => Runs.test (hq _ ?_ ?_ world ?_)
    · exact S₂.of_agrees rfl S₂.height S₂.topped S₂.operands
    · have agrees := agrees₁.trans agrees₂ low
      exact ⟨agrees.cell, agrees.globals⟩
    · have word : v₂.registers.eax = o.raw.word := eax
      show (v₂.registers.eax &&& v₂.registers.eax == 0) = decide (o.raw.word = 0)
      rw [word, Int32.and_self]
      rfl
  · have front := Confined.discard 0 c (o :: rest) 1
    rw [Nat.zero_add] at front
    exact ⟨0, .quiet rfl (front.append (.one rfl))⟩

end Instructions

end View

end Threefold.X86
