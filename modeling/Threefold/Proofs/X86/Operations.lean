import Threefold.Proofs.X86.Arithmetic
import Threefold.Proofs.X86.Standing

/-!
# What pieces of code do to a frame

For each piece of code that instructions are made of, what it does to a view in which a frame stands:
which operands the frame has behind it, and up to which height the words of the stack are the same.
What operands own is given back by operations of the library, one after the other (`releaseOwned`).
-/

namespace Threefold.X86

open View (Saved savedWords held Runs Same Grown Cut Denotes Agrees)

/-! ## References of operands -/

/-- Take or give back references one after the other. -/
def each (op : Raw → Library.Op Unit) : List Raw → Library.Op Unit
  | [] => pure ()
  | r :: rest => do
    op r
    each op rest

/-- Give back what operands own. -/
def releaseOwned (items : List Item) : Library.Op Unit :=
  each Library.release ((items.filter (·.owned)).map Item.raw)

/-- The words of the operands on top that own a reference, the topmost first. -/
def ownedWords (c : Context) : List Item → Nat → List (Words × Raw)
  | o :: below, n + 1 =>
    if o.owned then
      (c.slotWords ⟨.atDepth below.length, o.owned⟩, o.raw) :: ownedWords c below n
    else ownedWords c below n
  | _, _ => []

theorem ownedWords_raw (c : Context) (items : List Item) (n : Nat) :
    (ownedWords c items n).map Prod.snd = ((items.take n).filter (·.owned)).map Item.raw := by
  induction items generalizing n with
  | nil => cases n <;> rfl
  | cons o below ih =>
    cases n with
    | zero => rfl
    | succ n =>
      by_cases owned : o.owned = true
      · simp [ownedWords, owned, ih]
      · simp [ownedWords, owned, ih]

/-- The code that gives back what operands own, in terms of their words. -/
theorem releaseOwned_eq (c : Context) (items : List Item) (n d : Nat) :
    Code.releaseOwned c (topSlots items n) d =
      (ownedWords c items n).flatMap fun x => Code.release x.1 d := by
  unfold Code.releaseOwned topSlots
  rw [List.reverse_reverse]
  induction items generalizing n with
  | nil => cases n <;> rfl
  | cons o below ih =>
    cases n with
    | zero => rfl
    | succ n =>
      rw [List.map_cons, Operands.slotsOf, List.take_succ_cons, List.length_map]
      by_cases owned : o.owned = true
      · rw [List.filter_cons_of_pos (by exact owned), List.flatMap_cons, ih]
        simp [ownedWords, owned]
      · rw [List.filter_cons_of_neg (by exact owned), ih]
        simp [ownedWords, owned]

theorem ownedWords_eq_nil {c : Context} {items : List Item} {n : Nat}
    (h : ∀ sl ∈ topSlots items n, sl.owned = false) : ownedWords c items n = [] := by
  unfold topSlots at h
  induction items generalizing n with
  | nil => cases n <;> rfl
  | cons o below ih =>
    cases n with
    | zero => rfl
    | succ n =>
      rw [List.map_cons, Operands.slotsOf, List.take_succ_cons, List.reverse_cons] at h
      have first : o.owned = false := h _ (List.mem_append_right _ (List.mem_singleton_self _))
      have rest := ih fun sl hsl => h sl (List.mem_append_left _ hsl)
      simp only [ownedWords, first, Bool.false_eq_true, if_false, rest]

theorem room_add_le_ceiling : room + 1000 ≤ ceiling := by decide

namespace View

variable {c : Context} {home : Nat} {items rest : List Item} {image : Image} {v v' : View}
  {Q : View → Prop} {E : Trap → World → Prop} {d : Nat}

/-! ## Operands that are pushed -/

/-- Make a value the operand on top. -/
theorem Runs.pushAt (S : v.Stands c home items) {ws : Words} {r : Raw} (owned : Bool)
    (hr : v.Denotes image ws r) (free : ws.IsFree)
    (h : ∀ v', v'.Stands c home (⟨r, owned⟩ :: items) → Agrees v.height v v' →
      v'.world = v.world → Q v') :
    Runs image (Code.pushAt items.length ws) v Q E := by
  have operands := S.operands
  have height := S.height
  match items with
  | [] =>
    have tag : (v.set .ecx r.word).read image ws.tag = some r.code :=
      (read_set free.tag rfl _).trans hr.tag
    refine .movRegister (by decide) hr.value (.movRegister (by decide) tag (.nil (h _ ?_ ?_ rfl)))
    · refine S.of_agrees rfl height ?_ ⟨⟨rfl, rfl⟩, trivial⟩
      exact topped_set (topped_set S.topped (by decide) _) (by decide) _
    · exact ⟨fun _ _ => rfl, rfl⟩
  | [o] =>
    have tag : (v.set .esi r.word).read image ws.tag = some r.code :=
      (read_set free.tag rfl _).trans hr.tag
    refine .movRegister (by decide) hr.value (.movRegister (by decide) tag (.nil (h _ ?_ ?_ rfl)))
    · refine S.of_agrees rfl height ?_ ⟨⟨rfl, rfl⟩, operands.1, trivial⟩
      exact topped_set (topped_set S.topped (by decide) _) (by decide) _
    · exact ⟨fun _ _ => rfl, rfl⟩
  | o :: o' :: rest =>
    simp only [List.length_cons, spilledWords] at height
    refine Runs.pushWords (free.kept 0).steady hr fun v' g h' value tag =>
      .nil (h v' ?_ g.agrees g.world)
    refine S.of_agrees (g.registers .ebp (by decide)) ?_ g.topped ⟨?_, operands.imp ?_ ?_⟩
    · simp only [List.length_cons, spilledWords]
      omega
    · have place : v.height = c.bottom home + 2 * rest.length := by omega
      rw [place] at value tag
      exact ⟨value, tag⟩
    · exact fun x hx => g.registers x (held_ne hx).1
    · intro k _ hk
      simp only [List.length_cons, spilledWords] at hk
      exact g.cell k (by omega)

/-- A number in the register of results becomes the operand on top. -/
theorem Runs.pushResult (S : v.Stands c home items) {n : Int32} (hn : v.registers.eax = n)
    (h : ∀ v', v'.Stands c home (⟨.scalar n, false⟩ :: items) → Agrees v.height v v' →
      v'.world = v.world → Q v') :
    Runs image (Code.pushAt items.length ⟨Register.eax, .immediate 0⟩) v Q E := by
  have known : v.Denotes image ⟨Register.eax, .immediate 0⟩ (.scalar n) := ⟨congrArg some hn, rfl⟩
  exact Runs.pushAt S false known ⟨.inl rfl, trivial⟩ h

/-! ## Counting references -/

/-- Count references one after the other, while some operands are kept. -/
theorem Runs.each {symbol : Symbol} {op : Raw → Library.Op Unit} (hs : Counts image symbol op)
    (d : Nat) {xs : List (Words × Raw)}
    (hx : ∀ x ∈ xs, v.Denotes image x.1 x.2 ∧ x.1.IsKept d) (ht : v.Topped)
    (hc : v.height + 6 ≤ ceiling)
    (h : Library.Wp (X86.each op (xs.map Prod.snd)) v.world
      (fun _ w => ∀ v', Same d v v' → v'.world = w → Q v') E) :
    Runs image (xs.flatMap fun x => Code.count symbol x.1 d) v Q E := by
  induction xs generalizing v with
  | nil => exact .nil (h v (.refl ht) rfl)
  | cons x xs ih =>
    obtain ⟨denotes, kept⟩ := hx x List.mem_cons_self
    rw [List.map_cons, X86.each, Library.wp_bind] at h
    refine Runs.append (Runs.count hs kept.steady denotes ht hc d (h.imp fun _ w _ rest => ?_))
    rintro v' same rfl
    refine ih (fun y hy => ?_) same.topped (by rw [same.height]; exact hc)
      (rest.imp fun _ w _ hq v'' same' hw => hq v'' (same.trans same') hw)
    have known := hx y (List.mem_cons_of_mem x hy)
    exact ⟨same.denotes known.2 known.1, known.2⟩

/-- The operands that own a reference can be read and stay where they are while references are
counted. -/
theorem Stands.denotes_ownedWords (S : v.Stands c home items) (image : Image)
    (hc : v.height ≤ ceiling) (n : Nat) :
    ∀ x ∈ ownedWords c items n, v.Denotes image x.1 x.2 ∧ x.1.IsKept items.length := by
  have suffix : ∀ {lower : List Item} (n : Nat), lower.length ≤ items.length →
      Holds v.registers.get v.cell (c.bottom home) lower →
      ∀ x ∈ ownedWords c lower n, v.Denotes image x.1 x.2 ∧ x.1.IsKept items.length := by
    intro lower
    induction lower with
    | nil => intro n _ _ x hx; cases n <;> cases hx
    | cons o below ih =>
      intro n hl holds x hx
      rw [List.length_cons] at hl
      cases n with
      | zero => cases hx
      | succ n =>
        unfold ownedWords at hx
        split at hx
        · rcases List.mem_cons.mp hx with rfl | later
          · exact ⟨S.denotes_place image hc _ hl holds.1, isKept_slotWords _ hl _⟩
          · exact ih n (by omega) holds.2 x later
        · exact ih n (by omega) holds.2 x hx
  exact suffix n (Nat.le_refl _) S.operands

/-- Give back what the operands on top own. -/
theorem Runs.releaseOwned (S : v.Stands c home items) (hr : v.height ≤ room)
    (hs : Counts image Symbol.release Library.release) (n : Nat)
    (h : Library.Wp (X86.releaseOwned (items.take n)) v.world
      (fun _ w => ∀ v', Same items.length v v' → v'.world = w → Q v') E) :
    Runs image (Code.releaseOwned c (topSlots items n) items.length) v Q E := by
  have slack := room_add_le_ceiling
  rw [X86.releaseOwned, ← ownedWords_raw c] at h
  rw [releaseOwned_eq]
  exact Runs.each hs _ (S.denotes_ownedWords image (by omega) n) S.topped (by omega) h

/-! ## Results that are kept -/

/-- Keep a result while other code runs. -/
theorem Runs.parked {code : Code} {R : World → Prop}
    (hcode : ∀ v₁, v.Grown v₁ → v₁.height = v.height + 2 →
      Runs image code v₁ (fun v₂ => Same d v₁ v₂ ∧ R v₂.world) E)
    (h : ∀ v', Same d v v' → R v'.world → Q v') : Runs image (Code.parked code) v Q E := by
  unfold Code.parked
  rw [List.append_assoc]
  refine Runs.pushPair (by decide) fun v₁ g h₁ one two => ?_
  show Runs image (code ++ [.pop Register.eax, .pop Register.ebx]) v₁ Q E
  refine Runs.append ((hcode v₁ g h₁).imp ?_)
  rintro v₂ ⟨same, hR⟩
  have height := same.height
  have eax : v₂.cell v₂.height = some (v.registers.get .eax) := by
    rw [same.cell _ (by omega), height, h₁]
    exact two
  have ebx : v₂.cell (v₂.height - 1) = some (v.registers.get .ebx) := by
    have below : v₂.height - 1 = v.height + 1 := by omega
    rw [below, same.cell _ (by omega)]
    exact one
  refine Runs.popPair (by decide) (by decide) (by omega) eax ebx fun v₃ c => .nil (h v₃ ?_ ?_)
  · have low : v₂.height - 2 = v.height := by omega
    rw [low] at c
    refine ⟨?_, ?_, c.height, ?_, c.topped⟩
    · intro r hr hd
      rw [c.registers r hr]
      split
      · rename_i ebx
        rw [ebx]
      · split
        · rename_i eax
          rw [eax]
        · rw [same.registers r hr hd, g.registers r hr]
    · rw [c.globals, same.globals, g.globals]
    · intro k hk
      rw [c.cell k hk, same.cell k (by omega), g.cell k hk]
  · rw [c.world]
    exact hR

/-- Keep a number while other code runs. -/
theorem Runs.keep {code : Code} {R : World → Prop}
    (hcode : ∀ v₁, v.Grown v₁ → v₁.height = v.height + 1 →
      Runs image code v₁ (fun v₂ => Same d v₁ v₂ ∧ R v₂.world) E)
    (h : ∀ v', Same d v v' → R v'.world → Q v') :
    Runs image ([.push Register.eax] ++ code ++ [.pop Register.eax]) v Q E := by
  rw [List.append_assoc]
  have first : v.read image (.register .eax) = some (v.registers.get .eax) := rfl
  let v₁ := v.push (v.registers.get .eax)
  have g := View.grown_push v (v.registers.get .eax)
  have h₁ : v₁.height = v.height + 1 := View.height_push v _
  refine .push first ?_
  show Runs image (code ++ [.pop Register.eax]) v₁ Q E
  refine Runs.append ((hcode v₁ g h₁).imp ?_)
  rintro v₂ ⟨same, hR⟩
  have height := same.height
  have top : v₂.cell v₂.height = some (v.registers.get .eax) := by
    rw [same.cell _ (by omega), height, h₁]
    exact View.cell_push v _
  refine .pop (by decide) (by omega) top (.nil (h _ ?_ hR))
  have low : v₂.height - 1 = v.height := by omega
  rw [low]
  have c := (View.cut_moveTop v₂ (h := v.height) (by omega)).set (r := .eax) (by decide)
    (v.registers.get .eax)
  refine ⟨?_, ?_, c.height, ?_, c.topped⟩
  · intro r hr hd
    rw [c.registers r hr]
    split
    · rename_i eax
      rw [eax]
    · rw [same.registers r hr hd, g.registers r hr]
  · rw [c.globals, same.globals, g.globals]
  · intro k hk
    rw [c.cell k hk, same.cell k (by omega), g.cell k hk]

/-! ## Operands that are used up -/

/-- The height of the stack when only some of the operands are left. -/
theorem spilledWords_mono {m n : Nat} (h : m ≤ n) : spilledWords m ≤ spilledWords n := by
  unfold spilledWords
  omega

/-- Take those operands off the stack that are on it. -/
theorem Runs.dropSpilled (S : v.Stands c home items) (hr : v.height ≤ room) {n : Nat}
    (h : ∀ v', v'.Stands c home (items.drop n) →
      Agrees (c.bottom home + spilledWords (items.length - n)) v v' →
      (∀ r, r ≠ .esp → v'.registers.get r = v.registers.get r) → v'.world = v.world → Q v') :
    Runs image (Code.dropSpilled (topSlots items n)) v Q E := by
  have height := S.height
  have slack := room_add_le_ceiling
  unfold Code.dropSpilled topSlots
  rw [List.countP_reverse, Operands.countP_isSpilled, List.length_map]
  unfold spilledWords at height
  unfold room at hr
  refine Runs.drop (by omega) (by omega) (by unfold room at slack; omega) S.topped
    fun v' cut => ?_
  have low : v.height - 2 * (items.length - 2 - (items.length - n - 2)) =
      c.bottom home + spilledWords (items.length - n) := by
    unfold spilledWords
    omega
  rw [low] at cut
  have length : (items.drop n).length = items.length - n := List.length_drop
  refine h v' ?_ ⟨cut.cell, cut.globals⟩ cut.registers cut.world
  refine S.of_agrees (cut.registers .ebp (by decide)) (length ▸ cut.height) cut.topped ?_
  refine (S.operands.drop n).imp (fun x hx => cut.registers x (held_ne hx).1) fun k _ hk => ?_
  rw [length] at hk
  exact cut.cell k hk

/-- Give back what used operands own while a number is kept, and take them off the stack. -/
theorem Runs.discard (S : v.Stands c home items) (hr : v.height ≤ room)
    (hs : Counts image Symbol.release Library.release) {n : Nat}
    (h : Library.Wp (X86.releaseOwned (items.take n)) v.world
      (fun _ w => ∀ v', v'.Stands c home (items.drop n) →
        Agrees (c.bottom home + spilledWords (items.length - n)) v v' → v'.world = w →
        v'.registers.eax = v.registers.eax → Q v') E) :
    Runs image (Code.discard c (topSlots items n) items.length) v Q E := by
  have slack := room_add_le_ceiling
  have known := S.denotes_ownedWords image (by omega) n
  have low : c.bottom home + spilledWords (items.length - n) ≤ v.height := by
    rw [S.height]
    exact Nat.add_le_add_left (spilledWords_mono (Nat.sub_le _ _)) _
  rw [X86.releaseOwned, ← ownedWords_raw c] at h
  unfold Code.discard
  refine Runs.append ?_
  have last : ∀ v', Same items.length v v' →
      (∀ v'', v''.Stands c home (items.drop n) →
        Agrees (c.bottom home + spilledWords (items.length - n)) v v'' → v''.world = v'.world →
        v''.registers.eax = v.registers.eax → Q v'') →
      Runs image (Code.dropSpilled (topSlots items n)) v' Q E := by
    intro v' same hq
    refine Runs.dropSpilled (S.same same) (by rw [same.height]; exact hr)
      fun v'' S'' agrees kept world => ?_
    refine hq v'' S'' (same.agrees.trans agrees low) world ?_
    have eax : v''.registers.eax = v'.registers.eax := kept .eax (by decide)
    exact eax.trans (same.registers .eax (by decide) (.inr (by decide)))
  split
  · rw [releaseOwned_eq]
    refine Runs.keep (d := items.length)
      (R := fun w => ∀ v'', v''.Stands c home (items.drop n) →
        Agrees (c.bottom home + spilledWords (items.length - n)) v v'' → v''.world = w →
        v''.registers.eax = v.registers.eax → Q v'') (fun v₁ g h₁ => ?_) last
    refine Runs.each hs _ (fun x hx => ?_) g.topped (by omega) ?_
    · obtain ⟨denotes, kept⟩ := known x hx
      exact ⟨g.denotes kept.steady denotes, kept⟩
    · rw [g.world]
      exact h.imp fun _ w _ hq v₂ same hw => ⟨same, hw ▸ hq⟩
  · rename_i unowned
    have none : ownedWords c items n = [] := by
      refine ownedWords_eq_nil fun sl hsl => ?_
      rw [List.any_eq_true] at unowned
      exact Bool.eq_false_iff.mpr fun owned => unowned ⟨sl, hsl, owned⟩
    rw [none] at h
    exact .nil (last v (.refl S.topped) h)

/-- A result that was computed leaves the frame as it is. -/
theorem Stands.computed (S : v.Stands c home items) {n spare : Int32}
    (cut : Computed n spare v v') : v'.Stands c home items ∧ Agrees v.height v v' := by
  have kept : ∀ x, x ≠ .esp → x ≠ .eax → x ≠ .ebx → v'.registers.get x = v.registers.get x := by
    intro x esp eax ebx
    rw [cut.registers x esp, if_neg eax, if_neg ebx]
  refine ⟨S.of_agrees (kept .ebp (by decide) (by decide) (by decide))
    (cut.height.trans S.height) cut.topped (S.operands.imp ?_ ?_), cut.cell, cut.globals⟩
  · intro x hx
    obtain ⟨esp, -, eax, ebx⟩ := held_ne hx
    exact kept x esp eax ebx
  · exact fun k _ hk => cut.cell k (S.height ▸ hk)

end View

end Threefold.X86
