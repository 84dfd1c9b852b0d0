import Threefold.Proofs.X86.Activations

/-!
# Machines with more memory

What a machine does it also does with more memory (`Persists`), so a run that was computed on a machine
that only has the words that the run reads is part of a run of any machine that has these words
(`Visit.Steps.extends`).
-/

namespace Threefold.X86.Machine

/-- A machine has the words of another one, and maybe more. -/
structure Extends (m m' : Machine) : Prop where
  registers : m'.registers = m.registers
  flags : m'.flags = m.flags
  world : m'.world = m.world
  memory : ∀ (a : UInt32) (n : Int32), m.memory[a]? = some n → m'.memory[a]? = some n

/-- An operation does the same on machines with more memory. -/
def Persists {α : Type} (op : Op α) : Prop :=
  ∀ ⦃m m₁ m' : Machine⦄ ⦃a : α⦄, op m = .ok a m₁ → m.Extends m' →
    ∃ m₁', op m' = .ok a m₁' ∧ m₁.Extends m₁'

namespace Persists

variable {α β : Type} {op : Op α} {image : Image}

theorem pure (a : α) : Persists (pure a : Op α) := by
  rintro m _ m' _ ⟨⟩ more
  exact ⟨m', rfl, more⟩

theorem throw (t : Trap) : Persists (throw t : Op α) := by
  rintro m _ m' _ ⟨⟩ more

theorem bind {k : α → Op β} (h : Persists op) (hk : ∀ a, Persists (k a)) : Persists (op >>= k) := by
  intro m m₂ m' b done more
  simp only [Bind.bind, EStateM.bind] at done ⊢
  split at done
  · rename_i a m₁ first
    obtain ⟨m₁', first', more'⟩ := h first more
    rw [first']
    exact hk a done more'
  · cases done

theorem ite {p : Prop} [Decidable p] {op' : Op α} (h : Persists op) (h' : Persists op') :
    Persists (if p then op else op') := by
  split
  · exact h
  · exact h'

theorem get (r : Register) : Persists (Machine.get r) := by
  rintro m _ m' _ ⟨⟩ more
  exact ⟨m', by rw [Machine.get, more.registers], more⟩

theorem set (r : Register) (n : Int32) : Persists (Machine.set r n) := by
  rintro m _ m' _ ⟨⟩ more
  exact ⟨_, rfl, congrArg (·.set r n) more.registers, more.flags, more.world, more.memory⟩

theorem load (a : UInt32) : Persists (Machine.load a) := by
  intro m m₁ m' n done more
  unfold Machine.load at done ⊢
  split at done
  · rename_i there
    cases done
    exact ⟨m', by rw [more.memory _ _ there], more⟩
  · cases done

theorem store (a : UInt32) (n : Int32) : Persists (Machine.store a n) := by
  rintro m _ m' _ ⟨⟩ more
  refine ⟨_, rfl, more.registers, more.flags, more.world, fun b k there => ?_⟩
  rw [getElem?_insert] at there ⊢
  split at there
  · rename_i same
    rw [if_pos same]
    exact there
  · rename_i other
    rw [if_neg other]
    exact more.memory b k there

theorem setFlags (n : Int32) (overflow : Bool) : Persists (Machine.setFlags n overflow) := by
  rintro m _ m' _ ⟨⟩ more
  exact ⟨_, rfl, more.registers, rfl, more.world, more.memory⟩

theorem holds (c : Condition) : Persists (Machine.holds c) := by
  rintro m _ m' _ ⟨⟩ more
  exact ⟨m', by rw [Machine.holds, more.flags], more⟩

theorem onWorld (op : World.Op α) : Persists (Machine.onWorld op) := by
  intro m m₁ m' a done more
  obtain ⟨registers, memory, flags, world⟩ := m
  obtain ⟨registers', memory', flags', world'⟩ := m'
  obtain ⟨rfl, rfl, rfl, memory⟩ := more
  unfold Machine.onWorld at done ⊢
  dsimp only at done ⊢
  split at done
  · cases done
    exact ⟨_, rfl, rfl, rfl, rfl, memory⟩
  · cases done

theorem datum (s : Symbol) : Persists (Machine.datum image s) := by
  unfold Machine.datum
  split
  · exact pure _
  · exact throw _

theorem address (base : Register) (offset : Int32) : Persists (Machine.address base offset) :=
  (get base).bind fun _ => pure _

theorem read (o : Operand) : Persists (Machine.read image o) := by
  cases o with
  | immediate n => exact pure n
  | address s => exact datum s
  | register r => exact get r
  | memory base offset => exact (address base offset).bind load
  | global s => exact (datum s).bind fun _ => load _

theorem write (o : Operand) (n : Int32) : Persists (Machine.write image o n) := by
  cases o with
  | immediate n => exact throw _
  | address s => exact throw _
  | register r => exact set r n
  | memory base offset => exact (address base offset).bind fun _ => store _ n
  | global s => exact (datum s).bind fun _ => store _ n

theorem push (n : Int32) : Persists (Machine.push n) :=
  (get .esp).bind fun _ => (set .esp _).bind fun _ => store _ n

theorem pop : Persists Machine.pop :=
  (get .esp).bind fun _ => (load _).bind fun _ => (set .esp _).bind fun _ => pure _

theorem find (l : Label) : Persists (Machine.find image l) := by
  unfold Machine.find
  split
  · exact pure _
  · exact throw _

theorem map {f : α → β} (h : Persists op) : Persists (f <$> op) :=
  h.bind fun _ => pure _

theorem divide (n : Int32) : Persists (Machine.divide n) := by
  refine (get .edx).bind fun high => (get .eax).bind fun low => ?_
  have done (quotient : Int) : Persists (do
      if !fits quotient then
        MonadExcept.throw (.quotientOverflow (high.toInt * 0x100000000 + low.toUInt32.toNat) n.toInt)
      Machine.set .eax (.ofInt quotient)
      Machine.set .edx (.ofInt ((high.toInt * 0x100000000 + low.toUInt32.toNat).tmod n.toInt))) := by
    have sets := (set .eax (.ofInt quotient)).bind fun _ =>
      set .edx (.ofInt ((high.toInt * 0x100000000 + low.toUInt32.toNat).tmod n.toInt))
    split
    · exact (throw _).bind fun _ => sets
    · exact sets
  dsimp only
  split
  · exact (throw _).bind fun _ => done _
  · exact done _

theorem argument (base : UInt32) (i : Nat) : Persists (Machine.argument base i) := by
  refine (load _).bind fun _ => (load _).bind fun code => ?_
  split
  · exact pure _
  · exact throw _

theorem mapM {f : α → Op β} (h : ∀ a, Persists (f a)) (xs : List α) : Persists (xs.mapM f) := by
  induction xs with
  | nil => exact pure []
  | cons x xs ih =>
    rw [List.mapM_cons]
    exact (h x).bind fun _ => ih.bind fun _ => pure _

theorem answer (base : UInt32) (i : Intrinsic) (r : Intrinsic.Reply) :
    Persists (Machine.answer image base i r) := by
  cases r with
  | returned v => exact (set .eax _).bind fun _ => set .ebx _
  | outOfBounds n =>
    exact (store _ _).bind fun _ => (datum _).bind fun _ => (datum _).bind fun _ =>
      (store _ _).bind fun _ => (store _ _).bind fun _ => (set .eax _).bind fun _ => set .ebx _

theorem serve (s : Symbol) (base : UInt32) : Persists (Machine.serve image s base) := by
  unfold Machine.serve
  refine ite ((argument base 0).bind fun _ => onWorld _)
    (ite ((argument base 0).bind fun _ => onWorld _) ?_)
  split
  · exact throw _
  · exact (mapM (argument base) _).bind fun _ => (onWorld _).bind fun _ => answer base _ _

theorem arithmetic (op : Int → Int → Int) (s d : Operand) (keep : Bool) :
    Persists (Machine.arithmetic image op s d keep) := by
  refine (read d).bind fun _ => (read s).bind fun _ => ?_
  dsimp only
  split
  · exact (write d _).bind fun _ => setFlags _ _
  · exact setFlags _ _

theorem bitwise (op : Int32 → Int32 → Int32) (s d : Operand) (keep : Bool) :
    Persists (Machine.bitwise image op s d keep) := by
  refine (read d).bind fun _ => (read s).bind fun _ => ?_
  split
  · exact (write d _).bind fun _ => setFlags _ _
  · exact setFlags _ _

theorem leave : Persists (Machine.leave image) :=
  pop.bind fun _ => ite (pure _) (ite (pure _) (throw _))

theorem execute (i : Instruction) (next : Nat) : Persists (Machine.execute image i next) := by
  cases i with
  | mov s d => exact (read s).bind fun _ => (write d _).bind fun _ => pure _
  | movzbl s d => exact (get _).bind fun _ => (set d _).bind fun _ => pure _
  | add s d => exact (arithmetic _ s d _).bind fun _ => pure _
  | sub s d => exact (arithmetic _ s d _).bind fun _ => pure _
  | imul s d => exact (get d).bind fun _ => (read s).bind fun _ => (set d _).bind fun _ => pure _
  | and s d => exact (bitwise _ s d _).bind fun _ => pure _
  | or s d => exact (bitwise _ s d _).bind fun _ => pure _
  | cmp s d => exact (arithmetic _ s d _).bind fun _ => pure _
  | test s d => exact (bitwise _ s d _).bind fun _ => pure _
  | set c d => exact (get _).bind fun _ => (holds c).bind fun _ => (set _ _).bind fun _ => pure _
  | cltd => exact (get .eax).bind fun _ => (set .edx _).bind fun _ => pure _
  | idiv d => exact (read d).bind fun _ => (divide _).bind fun _ => pure _
  | push s => exact (read s).bind fun _ => (push _).bind fun _ => pure _
  | pop d => exact pop.bind fun _ => (write d _).bind fun _ => pure _
  | call s =>
    unfold Machine.execute
    dsimp only
    split
    · exact (push _).bind fun _ => pure _
    · refine Persists.bind ?_ fun _ => pure _
      exact (get .esp).bind fun _ => (serve s _).bind fun _ => (set .ecx _).bind fun _ => set .edx _
  | jmp l => exact (find l).map
  | jcc c l =>
    refine (holds c).bind fun taken => ?_
    split
    · exact (find l).map
    · exact pure _
  | ret => exact leave

end Persists

/-! ## Runs -/

/-- A visit has more memory, and more is awaited of the functions that were called first. -/
structure Visit.Extends (x x' : Visit) (rest : List Awaited) : Prop where
  index : x'.index = x.index
  machine : x.machine.Extends x'.machine
  awaited : x'.awaited = x.awaited ++ rest

section Runs

variable {image : Image} {x x' y : Visit} {rest : List Awaited} {n : Nat}

theorem Visit.Extends.behind (e : x.Extends x' rest) (inside : x.awaited ≠ []) (i : Instruction) :
    x'.behind image i = x.behind image i ++ rest := by
  unfold Visit.behind
  rw [e.index, e.awaited, e.machine.registers]
  split
  · split <;> rfl
  · exact List.tail_append_of_ne_nil inside
  · rfl

theorem Visit.Next.extends (h : x.Next image y) (e : x.Extends x' rest) (inside : x.awaited ≠ []) :
    ∃ y', x'.Next image y' ∧ y.Extends y' rest := by
  obtain ⟨i, here, done, awaited⟩ := h
  obtain ⟨m, done', more⟩ := Persists.execute i (x.index + 1) done e.machine
  refine ⟨⟨y.index, m, x'.behind image i⟩, ⟨i, e.index ▸ here, ?_, rfl⟩, rfl, more, ?_⟩
  · rw [e.index]
    exact done'
  · rw [e.behind inside, awaited]

/-- As long as the functions that were called first do not go on, a run is the same with more memory and
more functions. -/
theorem Visit.Steps.extends (h : x.Steps image n y) (e : x.Extends x' rest)
    (inside : x.StaysInside image n) (nonempty : x.awaited ≠ []) :
    ∃ y', x'.Steps image n y' ∧ y.Extends y' rest := by
  have within {k : Nat} (hk : k ≤ n) {z : Visit} (hz : x.Steps image k z) : z.awaited ≠ [] := by
    have length := inside k hk z hz
    have positive := List.length_pos_iff.mpr nonempty
    exact List.length_pos_iff.mp (Nat.lt_of_lt_of_le positive length)
  clear inside nonempty
  induction h generalizing x' with
  | refl x => exact ⟨x', .refl x', e⟩
  | @next n x z y first steps ih =>
    obtain ⟨z', first', e'⟩ := first.extends e (within (Nat.zero_le _) (.refl x))
    obtain ⟨y', steps', e''⟩ := ih e' fun hk _ hz => within (Nat.succ_le_succ hk) (.next first hz)
    exact ⟨y', .next first' steps', e''⟩

end Runs

end Threefold.X86.Machine
