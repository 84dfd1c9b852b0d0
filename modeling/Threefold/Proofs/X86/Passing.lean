import Threefold.Proofs.X86.Homes

/-!
# Passing arguments and taking results

The code of a call saves the registers of operands, leaves a word for the number of an exception and
puts copies of the arguments on the stack. Behind the return it takes all of that off again, keeps the
result, and gives back what the arguments own.

* `Runs.enter` is about the code up to the call (`Passes`).
* `Runs.resume` is about the code behind it, from a view that the call has come back with (`Returned`).
-/

namespace Threefold.X86

open View (Runs Denotes Grown Same Cut Saved savedWords held)
open Leads (thrownWords)

theorem Library.wp_of_forall {α : Type} {op : Op α} {w : World} {Q : α → World → Prop}
    (h : ∀ a w', Q a w') : Wp op w Q fun _ _ => True := by
  unfold Wp
  split
  · exact h _ _
  · trivial

/-! ## Arguments -/

/-- Values are on the stack from a height downwards, each above its tag. -/
def Offers (cell : Nat → Option Int32) : Nat → List Raw → Prop
  | _, [] => True
  | k, r :: rs => cell k = some r.word ∧ cell (k - 1) = some r.code ∧ Offers cell (k - 2) rs

theorem Offers.imp {cell cell' : Nat → Option Int32} {k : Nat} {rs : List Raw}
    (h : Offers cell k rs) (same : ∀ j ≤ k, cell' j = cell j) : Offers cell' k rs := by
  induction rs generalizing k with
  | nil => trivial
  | cons r rs ih =>
    exact ⟨(same _ (Nat.le_refl k)).trans h.1, (same _ (Nat.sub_le k 1)).trans h.2.1,
      ih h.2.2 fun j hj => same j (Nat.le_trans hj (Nat.sub_le k 2))⟩

theorem Offers.get {cell : Nat → Option Int32} {k i : Nat} {rs : List Raw} {r : Raw}
    (h : Offers cell k rs) (hr : rs[i]? = some r) :
    cell (k - 2 * i) = some r.word ∧ cell (k - 1 - 2 * i) = some r.code := by
  induction rs generalizing k i with
  | nil => cases hr
  | cons r' rs ih =>
    cases i with
    | zero =>
      cases hr
      exact ⟨h.1, h.2.1⟩
    | succ i =>
      have rest := ih h.2.2 hr
      have first : k - 2 - 2 * i = k - 2 * (i + 1) := by omega
      have second : k - 2 - 1 - 2 * i = k - 1 - 2 * (i + 1) := by omega
      rw [first, second] at rest
      exact rest

/-- The words of the operands on top, the topmost first. -/
def topWords (c : Context) : List Item → Nat → List (Words × Raw)
  | o :: below, n + 1 =>
    (c.slotWords ⟨.atDepth below.length, o.owned⟩, o.raw) :: topWords c below n
  | _, _ => []

/-- The values of the operands on top, the lowest first. -/
def operandsOf (items : List Item) (n : Nat) : List Raw :=
  ((items.take n).map Item.raw).reverse

theorem topWords_raw (c : Context) (items : List Item) (n : Nat) :
    ((topWords c items n).map Prod.snd).reverse = operandsOf items n := by
  unfold operandsOf
  congr 1
  induction items generalizing n with
  | nil => cases n <;> rfl
  | cons o below ih =>
    cases n with
    | zero => rfl
    | succ n => exact congrArg (o.raw :: ·) (ih n)

theorem topWords_words (c : Context) (items : List Item) (n : Nat) :
    (topSlots items n).reverse.map c.slotWords = (topWords c items n).map Prod.fst := by
  unfold topSlots
  rw [List.reverse_reverse]
  induction items generalizing n with
  | nil => cases n <;> rfl
  | cons o below ih =>
    cases n with
    | zero => rfl
    | succ n =>
      rw [List.map_cons, Operands.slotsOf, List.take_succ_cons, List.map_cons, ih, List.length_map]
      rfl

theorem length_topWords {c : Context} {items : List Item} {n : Nat} (h : n ≤ items.length) :
    (topWords c items n).length = n := by
  have same := congrArg List.length (topWords_raw c items n)
  simpa [operandsOf, Nat.min_eq_left h] using same

/-- The operands on top can be read and stay where they are while references are counted. -/
theorem View.Stands.denotes_topWords {c : Context} {home : Nat} {items : List Item} {v : View}
    (S : v.Stands c home items) (image : Image) (hc : v.height ≤ ceiling) (n : Nat) :
    ∀ x ∈ topWords c items n, v.Denotes image x.1 x.2 ∧ x.1.IsKept items.length := by
  have suffix : ∀ {lower : List Item} (n : Nat), lower.length ≤ items.length →
      Holds v.registers.get v.cell (c.bottom home) lower →
      ∀ x ∈ topWords c lower n, v.Denotes image x.1 x.2 ∧ x.1.IsKept items.length := by
    intro lower
    induction lower with
    | nil => intro n _ _ x hx; cases n <;> cases hx
    | cons o below ih =>
      intro n hl holds x hx
      rw [List.length_cons] at hl
      cases n with
      | zero => cases hx
      | succ n =>
        rcases List.mem_cons.mp hx with rfl | later
        · exact ⟨S.denotes_place image hc _ hl holds.1, isKept_slotWords _ hl _⟩
        · exact ih n (by omega) holds.2 x later
  exact suffix n (Nat.le_refl _) S.operands

/-- What the code of a call leads to, up to the call: the registers of operands are saved, and copies of
the arguments are on the stack. -/
structure View.Passes (throws : Bool) (items : List Item) (n : Nat) (v v' : View) : Prop where
  grown : v.Grown v'
  height : v'.height = v.height + savedWords items.length + thrownWords throws + 2 * n
  saved : Saved v.registers.get v.height v'.cell items.length
  slot : throws = true → v'.cell (v.height + savedWords items.length + 1) = some 0
  offers : Offers v'.cell v'.height (operandsOf items n)

namespace View

variable {c : Context} {home n : Nat} {items : List Item} {image : Image} {v : View}
  {E : Trap → World → Prop}

/-- Copies of values are put on the stack one after the other. -/
theorem Runs.copies {xs : List (Words × Raw)} {rs : List Raw}
    (hx : ∀ x ∈ xs, v.Denotes image x.1 x.2 ∧ x.1.IsSteady) (ht : v.Topped)
    (offers : Offers v.cell v.height rs) :
    Runs image (xs.flatMap fun x => [.push x.1.tag, .push x.1.value]) v (fun v' => v.Grown v' ∧
      v'.height = v.height + 2 * xs.length ∧
        Offers v'.cell v'.height ((xs.map Prod.snd).reverse ++ rs)) E := by
  induction xs generalizing v rs with
  | nil => exact .nil ⟨.refl ht, rfl, offers⟩
  | cons x xs ih =>
    obtain ⟨denotes, steady⟩ := hx x List.mem_cons_self
    refine Runs.pushWords steady denotes fun v₁ g h₁ word code => ?_
    have offers₁ : Offers v₁.cell v₁.height (x.2 :: rs) := by
      rw [h₁]
      exact ⟨word, code, offers.imp g.cell⟩
    refine (ih (fun y hy => ?_) g.topped offers₁).imp fun v₂ ⟨g₂, h₂, offers₂⟩ => ?_
    · obtain ⟨denotes', steady'⟩ := hx y (List.mem_cons_of_mem x hy)
      exact ⟨g.denotes steady' denotes', steady'⟩
    · refine ⟨g.trans g₂, ?_, ?_⟩
      · rw [h₂, h₁, List.length_cons]
        omega
      · rw [List.map_cons, List.reverse_cons, List.append_assoc]
        exact offers₂

/-- The code of a call up to the call itself. -/
theorem Runs.enter (S : v.Stands c home items) (inside : v.height ≤ room) (hn : n ≤ items.length)
    (throws : Bool) :
    Runs image (Code.save items.length ++ (if throws then [.push (.immediate 0)] else []) ++
      ((topSlots items n).reverse.flatMap fun s =>
        [.push (c.slotWords s).tag, .push (c.slotWords s).value])) v (v.Passes throws items n) E := by
  have slack := room_le_ceiling
  have copies : ((topSlots items n).reverse.flatMap fun s =>
      [Instruction.push (c.slotWords s).tag, .push (c.slotWords s).value]) =
        (topWords c items n).flatMap fun x => [.push x.1.tag, .push x.1.value] := by
    have same := congrArg (List.flatMap fun ws : Words => [Instruction.push ws.tag, .push ws.value])
      (topWords_words c items n)
    rwa [List.flatMap_map, List.flatMap_map] at same
  rw [copies, List.append_assoc]
  refine Runs.save S.topped items.length fun v₁ g₁ h₁ saved => ?_
  -- The word for the number of an exception.
  have zero : Runs image (if throws then [.push (.immediate 0)] else []) v₁ (fun v₂ => v₁.Grown v₂ ∧
      v₂.height = v₁.height + thrownWords throws ∧
        (throws = true → v₂.cell (v₁.height + 1) = some 0)) E := by
    cases throws with
    | true => exact .push rfl (.nil ⟨grown_push v₁ 0, height_push v₁ 0, fun _ => cell_push v₁ 0⟩)
    | false => exact .nil ⟨.refl g₁.topped, rfl, by simp⟩
  refine Runs.append (zero.imp fun v₂ ⟨g₂, h₂, slot⟩ => ?_)
  have g := g₁.trans g₂
  refine (Runs.copies (fun x hx => ?_) g₂.topped (show Offers _ _ [] from trivial)).imp
    fun v₃ ⟨g₃, h₃, offers⟩ => ?_
  · obtain ⟨denotes, kept⟩ := S.denotes_topWords image (by omega) n x hx
    exact ⟨g.denotes kept.steady denotes, kept.steady⟩
  · rw [length_topWords hn] at h₃
    rw [List.append_nil, topWords_raw] at offers
    refine ⟨g.trans g₃, by omega, saved.imp fun k _ hk => ?_, fun h => ?_, offers⟩
    · exact (g₂.trans g₃).cell k (by omega)
    · rw [g₃.cell _ (by unfold thrownWords at h₂; rw [if_pos h] at h₂; omega), ← h₁, slot h]

end View

/-! ## Results -/

/-- What a call comes back with: a result in two registers, the number of an exception in the word that
was left for it, and otherwise the stack up to the saved registers as it was. -/
structure View.Returned (throws : Bool) (depth n : Nat) (id : Int32) (result : Raw) (v v' : View) :
    Prop where
  height : v'.height = v.height + savedWords depth + thrownWords throws + 2 * n
  topped : v'.Topped
  base : v'.registers.ebp = v.registers.ebp
  cell : ∀ k ≤ v.height, v'.cell k = v.cell k
  saved : Saved v.registers.get v.height v'.cell depth
  slot : throws = true → v'.cell (v.height + savedWords depth + 1) = some id
  value : v'.registers.eax = result.word
  tag : v'.registers.ebx = result.code

/-- Where the words of the stack up to a height are as they were, but for the one in which a variable
of the caller keeps the number of an exception. -/
structure View.Receives (home bound : Nat) (handler : Option Nat) (id : Int32) (v v' : View) : Prop where
  cell : ∀ k ≤ bound, (∀ i, handler = some i → k ≠ home + 2 * i + 2) → v'.cell k = v.cell k
  handler : ∀ i, handler = some i → v'.cell (home + 2 * i + 2) = some id

namespace View

variable {c : Context} {home n : Nat} {items : List Item} {image : Image} {v v' : View}
  {E : Trap → World → Prop} {id : Int32} {result : Raw} {handler : Option Nat}

theorem Receives.trans_agrees {bound bound' : Nat} {v'' : View}
    (h : Receives home bound handler id v v') (agrees : Agrees bound' v' v'') (less : bound' ≤ bound)
    (high : ∀ i, handler = some i → home + 2 * i + 2 ≤ bound') :
    Receives home bound' handler id v v'' :=
  ⟨fun k hk other => (agrees.cell k hk).trans (h.cell k (Nat.le_trans hk less) other),
    fun i hi => (agrees.cell _ (high i hi)).trans (h.handler i hi)⟩

/-- Take a word from the stack to a place in the frame. -/
theorem Runs.popFrame {k : Nat} {offset : Int} {w : Int32} {Q : View → Prop}
    (ebp : v.registers.ebp = heightWord home) (hn : 4 * (k : Int) = 4 * home - offset) (low : 1 ≤ k)
    (high : k < v.height) (hc : v.height ≤ ceiling) (there : v.cell v.height = some w)
    (h : Q ((v.moveTop (v.height - 1)).put k w)) :
    Runs image [.pop (.frame offset)] v Q E := by
  have ebp' : (v.moveTop (v.height - 1)).registers.ebp = heightWord home :=
    (get_moveTop v (v.height - 1) (r := .ebp) (by decide)).trans ebp
  have written := write_frame (n := w) ebp' hn low (show k ≤ v.height - 1 by omega) (by omega)
  refine .cons ?_ (.nil h)
  simp only [exec, pop?, if_pos (show 1 ≤ v.height by omega), there, Option.map_some,
    Option.bind_eq_bind, Option.bind_some, written, pure]

/-- The part of a call behind the return that takes what the call has put on the stack off again. -/
theorem Runs.unwind (S : v.Stands c home items)
    (back : Returned handler.isSome items.length n id result v v') (inside : v'.height ≤ room)
    (tag : Option Tag) (known : ∀ t, tag = some t → result.code = t.code)
    (own : ∀ i, handler = some i → i < c.frame.inner.length) :
    Runs image ((tag.elim [] fun t => [.mov (.immediate t.code) Register.ebx]) ++ Code.drop n ++
        ((handler.map fun i => (Frame.innerWords i).value).elim [] fun x => [.pop x]) ++
        Code.restore items.length) v' (fun v'' => v''.Stands c home items ∧
          v''.globals = v'.globals ∧ Receives home v.height handler id v v'' ∧
          v''.height = v.height ∧ v''.Denotes image Code.result result) E := by
  have slack := room_add_le_ceiling
  have height := back.height
  have small : n < 2 ^ 28 := by
    unfold room at inside
    omega
  have bottom : c.bottom home = home + 2 * c.frame.inner.length := rfl
  have stands := S.height
  -- The register of the tag already has the tag that is known beforehand.
  have tagged : Runs image (tag.elim [] fun t => [.mov (.immediate t.code) Register.ebx]) v'
      (· = v') E := by
    cases tag with
    | none => exact .nil rfl
    | some t =>
      have code : v'.registers.get .ebx = t.code := back.tag.trans (known t rfl)
      refine .movRegister (n := t.code) (by decide) rfl (.nil ?_)
      rw [← code]
      exact set_get v' .ebx
  rw [List.append_assoc, List.append_assoc]
  refine Runs.append (tagged.imp ?_)
  rintro v₁ rfl
  refine Runs.append (Runs.drop (k := n) (by omega) small (by omega) back.topped fun v₂ cut => ?_)
  have h₂ : v₂.height = v.height + savedWords items.length + thrownWords handler.isSome := by
    rw [cut.height]
    omega
  have cells {k : Nat} (hk : k ≤ v₂.height) : v₂.cell k = v₁.cell k :=
    cut.cell k (cut.height ▸ hk)
  have ebp₂ : v₂.registers.ebp = heightWord home :=
    (cut.registers .ebp (by decide)).trans (back.base.trans S.ebp)
  -- The number of an exception goes to the variable of the caller.
  have caught : Runs image ((handler.map fun i => (Frame.innerWords i).value).elim []
      fun x => [.pop x]) v₂ (fun v₃ => v₃.height = v.height + savedWords items.length ∧ v₃.Topped ∧
        (∀ r, r ≠ .esp → v₃.registers.get r = v₁.registers.get r) ∧ v₃.globals = v₁.globals ∧
        Receives home (v.height + savedWords items.length) handler id v₁ v₃) E := by
    cases handler with
    | none =>
      refine .nil ⟨h₂, cut.topped, cut.registers, cut.globals, ⟨fun k hk _ => ?_, nofun⟩⟩
      exact cells (by omega)
    | some i =>
      have inner := own i rfl
      have h₂ : v₂.height = v.height + savedWords items.length + 1 := h₂
      have top : v₂.cell v₂.height = some id := by
        rw [cells (Nat.le_refl _), h₂, back.slot rfl]
      refine Runs.popFrame (k := home + 2 * i + 2) ebp₂ (by omega) (by omega) (by omega) (by omega)
        top ⟨?_, rfl, fun r hr => ?_, cut.globals, ⟨fun k hk other => ?_, fun j hj => ?_⟩⟩
      · exact Nat.sub_eq_of_eq_add h₂
      · exact (get_moveTop v₂ (v₂.height - 1) hr).trans (cut.registers r hr)
      · exact (if_neg (other i rfl)).trans ((if_pos (by omega)).trans (cells (by omega)))
      · cases hj
        exact if_pos rfl
  refine Runs.append (caught.imp fun v₃ ⟨h₃, topped₃, registers₃, globals₃, receives⟩ => ?_)
  have above {k : Nat} (low : c.bottom home < k) (high : k ≤ v.height + savedWords items.length) :
      v₃.cell k = v₁.cell k :=
    receives.cell k high fun i hi => by have := own i hi; omega
  refine Runs.restore topped₃ items.length v.height h₃
    (back.saved.imp fun k low high => above (by omega) high) fun v₄ cut₄ => ?_
  have free {r : Register} (hr : r ≠ .esp) (other : held items.length r = false) :
      v₄.registers.get r = v₁.registers.get r := by
    rw [cut₄.registers r hr, other]
    exact registers₃ r hr
  have other {r : Register} (hr : r = .eax ∨ r = .ebx ∨ r = .ebp) : held items.length r = false := by
    cases h : held items.length r with
    | false => rfl
    | true =>
      obtain ⟨-, ebp, eax, ebx⟩ := held_ne h
      rcases hr with rfl | rfl | rfl <;> contradiction
  refine ⟨⟨?_, cut₄.height.trans S.height, cut₄.topped, S.operands.imp (fun r hr => ?_)
    fun k low high => ?_⟩, cut₄.globals.trans globals₃, ⟨fun k hk apart => ?_, fun i hi => ?_⟩,
    cut₄.height, congrArg some ?_, congrArg some ?_⟩
  · exact (free (by decide) (other (.inr (.inr rfl)))).trans (back.base.trans S.ebp)
  · rw [cut₄.registers r (held_ne hr).1, hr]
    rfl
  · rw [cut₄.cell k (by omega), above low (by omega), back.cell k (by omega)]
  · rw [cut₄.cell k hk, receives.cell k (by omega) apart, back.cell k hk]
  · have := own i hi
    rw [cut₄.cell _ (by omega), receives.handler i hi]
  · exact (free (by decide) (other (.inl rfl))).trans back.value
  · exact (free (by decide) (other (.inr (.inl rfl)))).trans back.tag

/-- Keep a result while references are counted. -/
theorem Runs.parkedCounts {d : Nat} {symbol : Symbol} {op : Raw → Library.Op Unit}
    (hs : Counts image symbol op) {xs : List (Words × Raw)}
    (hx : ∀ x ∈ xs, v.Denotes image x.1 x.2 ∧ x.1.IsKept d) (inside : v.height + 8 ≤ ceiling) :
    Runs image (Code.parked (xs.flatMap fun x => Code.count symbol x.1 d)) v (Same d v)
      fun _ _ => True := by
  refine Runs.parked (R := fun _ => True) (fun v₁ g h₁ => ?_) fun v' same _ => same
  refine Runs.each hs d (fun x hx' => ?_) g.topped (by omega)
    (Library.wp_of_forall fun _ _ v₂ same _ => ⟨same, trivial⟩)
  obtain ⟨denotes, kept⟩ := hx x hx'
  exact ⟨g.denotes kept.steady denotes, kept⟩

/-- The part of a call that keeps the result and gives back what the arguments own. -/
theorem Runs.settle (S : v.Stands c home items) (inside : v.height ≤ room)
    (hr : Counts image Symbol.retain Library.retain)
    (hs : Counts image Symbol.release Library.release) (denotes : v.Denotes image Code.result result)
    (retained : Bool) :
    Runs image ((if retained then Code.parked (Code.retain Code.result items.length) else []) ++
      if (topSlots items n).any (·.owned) then
        Code.parked (Code.releaseOwned c (topSlots items n) items.length) else []) v
      (Same items.length v) fun _ _ => True := by
  have slack := room_add_le_ceiling
  have free : Code.result.IsFree := ⟨.inl rfl, .inr (.inl rfl)⟩
  have kept : Runs image (if retained then Code.parked (Code.retain Code.result items.length) else [])
      v (Same items.length v) fun _ _ => True := by
    split
    · have only : ∀ x ∈ [(Code.result, result)], v.Denotes image x.1 x.2 ∧ x.1.IsKept items.length := by
        intro x hx
        rw [List.mem_singleton.mp hx]
        exact ⟨denotes, free.kept _⟩
      have counted := Runs.parkedCounts hr only (by omega)
      rw [List.flatMap_singleton] at counted
      exact counted
    · exact .nil (.refl S.topped)
  refine Runs.append (kept.imp fun v₁ same => ?_)
  split
  · rw [releaseOwned_eq]
    have S₁ := S.same same
    have height := same.height
    exact (Runs.parkedCounts hs (S₁.denotes_ownedWords image (by omega) n) (by omega)).imp
      fun v₂ same' => same.trans same'
  · exact .nil same

/-- The code of a call behind the return. -/
theorem Runs.resume (S : v.Stands c home items) (inside : v.height ≤ room) (hn : n ≤ items.length)
    (back : Returned handler.isSome items.length n id result v v') (inside' : v'.height ≤ room)
    (hr : Counts image Symbol.retain Library.retain)
    (hs : Counts image Symbol.release Library.release) (tag : Option Tag)
    (known : ∀ t, tag = some t → result.code = t.code)
    (own : ∀ i, handler = some i → i < c.frame.inner.length) (retained owned : Bool) :
    Runs image (Code.resume c tag (handler.map fun i => (Frame.innerWords i).value) retained
        (topSlots items n) items.length ++ Code.pushAt (items.drop n).length Code.result) v'
      (fun v'' => v''.Stands c home (⟨result, owned⟩ :: items.drop n) ∧ v''.globals = v'.globals ∧
        Receives home (c.bottom home + spilledWords (items.length - n)) handler id v v'')
      fun _ _ => True := by
  have slack := room_add_le_ceiling
  have bottom : c.bottom home = home + 2 * c.frame.inner.length := rfl
  have stands := S.height
  have less : spilledWords (items.length - n) ≤ spilledWords items.length :=
    spilledWords_mono (Nat.sub_le _ _)
  have length : (topSlots items n).length = n := by
    have same := congrArg List.length (topWords_words c items n)
    rw [List.length_map, List.length_map, List.length_reverse] at same
    rw [same, length_topWords hn]
  have regroup (a k r d p : Code) : a ++ k ++ r ++ d ++ p = a ++ ((k ++ r) ++ (d ++ p)) := by
    simp only [List.append_assoc]
  unfold Code.resume
  rw [length, regroup]
  refine Runs.append ((Runs.unwind S back inside' tag known own).imp
    fun v₁ ⟨S₁, globals₁, receives, h₁, denotes⟩ => ?_)
  refine Runs.append ((Runs.settle S₁ (h₁ ▸ inside) hr hs denotes retained).imp fun v₂ same => ?_)
  have h₂ : v₂.height = v.height := same.height.trans h₁
  have free : Code.result.IsFree := ⟨.inl rfl, .inr (.inl rfl)⟩
  have denotes₂ := same.denotes (free.kept items.length) denotes
  refine Runs.append (Runs.dropSpilled (S₁.same same) (h₂ ▸ inside)
    fun v₃ S₃ agrees registers _ => ?_)
  have value : v₃.registers.get .eax = v₂.registers.get .eax := registers .eax (by decide)
  have tag' : v₃.registers.get .ebx = v₂.registers.get .ebx := registers .ebx (by decide)
  have denotes₃ : v₃.Denotes image Code.result result :=
    ⟨(congrArg some value).trans denotes₂.value, (congrArg some tag').trans denotes₂.tag⟩
  have h₃ : v₃.height = c.bottom home + spilledWords (items.length - n) := by
    rw [S₃.height, List.length_drop]
  refine Runs.pushAt S₃ owned denotes₃ free fun v₄ S₄ agrees₄ _ => ⟨S₄, ?_, ?_⟩
  · rw [agrees₄.globals, agrees.globals, same.globals, globals₁]
  · have high (i : Nat) (hi : handler = some i) :
        home + 2 * i + 2 ≤ c.bottom home + spilledWords (items.length - n) := by
      have := own i hi
      omega
    have kept : Agrees (c.bottom home + spilledWords (items.length - n)) v₁ v₄ :=
      ((same.agrees.trans agrees (by omega)).trans (h₃ ▸ agrees₄) (Nat.le_refl _))
    exact receives.trans_agrees kept (by omega) high

end View

end Threefold.X86
