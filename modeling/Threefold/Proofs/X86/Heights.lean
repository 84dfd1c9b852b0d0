import Threefold.Proofs.Bytecode.Reached
import Threefold.Proofs.Heap.Traffic
import Threefold.Proofs.X86.Flow

/-!
# Code that is lowered never lacks an operand

Lowering checks bytecode as it goes over it. Bytecode that it accepts can be run with any input: no
instruction finds too few operands, a literal or a routine that is not there, or no instruction at
all. The invariant is about heights. An activation that is about to execute an instruction has as
many operands as lowering had there, and an activation that waits for a callee will have as many as
lowering had behind the call, once the result is there.

* `DepthAt.instruction` is what lowering has checked about one instruction.
* `Consistent.step` says that an instruction preserves the invariant.
* `lower_sound` is about whole runs.
-/

namespace Threefold

/-- Whether a fault says that the code was not well formed. -/
def Fault.isMalformed : Fault → Bool
  | .underflow .. | .tooFewOperands .. | .noLiteral _ | .notCompiled _ | .ranPast .. => true
  | _ => false

theorem Fault.isMalformed_of_isRuntime {f : Fault} (h : f.isRuntime = true) :
    f.isMalformed = false := by
  cases f <;> first | rfl | cases h

namespace X86.Lowering

variable {c : Context} {index : Nat} {s after : Operands}

/-! ## What an instruction needs -/

/-- An instruction finds what it needs, and leaves a number of operands. -/
structure Fits (c : Context) (s : Operands) (i : Bytecode.Instruction) (after : Operands) :
    Prop where
  enough : i.pops ≤ s.depth
  depth : after.depth = s.depth - i.pops + i.pushes
  literal : ∀ n, i = .pushLiteral n → n < c.bytecode.literals.length
  compiled : ∀ f, i = .call (.routine f) → (c.bytecode.routine? f).isSome

theorem depth_of_pop {origin : String} {slot : Slot} {below : Operands}
    (h : pop s origin = .ok (slot, below)) : s.depth = below.depth + 1 := by
  unfold pop Operands.pop? at h
  cases hs : s.owned with
  | nil =>
    rw [hs] at h
    cases h
  | cons o rest =>
    rw [hs] at h
    cases h
    simp only [Operands.depth, hs, List.length_cons]

/-- What is left after operands were taken, and results pushed on top of it. -/
theorem Fits.of_below {i : Bytecode.Instruction} {below : Operands}
    (taken : s.depth = below.depth + i.pops) (pushed : after.depth = below.depth + i.pushes)
    (literal : ∀ n, i = .pushLiteral n → n < c.bytecode.literals.length)
    (compiled : ∀ f, i = .call (.routine f) → (c.bytecode.routine? f).isSome) :
    Fits c s i after :=
  ⟨by omega, by omega, literal, compiled⟩

/-- An instruction that is lowered finds what it needs. -/
theorem fits_of_code {i : Bytecode.Instruction} {ds : List Directive}
    (h : code c index s i = .ok (ds, after)) : Fits c s i after := by
  cases i with
  | push n =>
    cases h
    exact .of_below rfl rfl (by nofun) (by nofun)
  | pushLiteral n =>
    simp only [code] at h
    split at h
    · rename_i there
      cases h
      refine .of_below rfl rfl (fun m hm => ?_) (by nofun)
      cases hm
      exact there
    · cases h
  | load x =>
    obtain ⟨ws, -, h⟩ := Program.ok_of_bind h
    cases h
    exact .of_below rfl rfl (by nofun) (by nofun)
  | store x =>
    obtain ⟨⟨slot, below⟩, popped, h⟩ := Program.ok_of_bind h
    obtain ⟨ws, -, h⟩ := Program.ok_of_bind h
    cases h
    exact .of_below (depth_of_pop popped) rfl (by nofun) (by nofun)
  | unary op =>
    cases op
    obtain ⟨⟨slot, below⟩, popped, h⟩ := Program.ok_of_bind h
    cases h
    exact .of_below (depth_of_pop popped) rfl (by nofun) (by nofun)
  | binary op =>
    obtain ⟨⟨slots, below⟩, popped, h⟩ := Program.ok_of_bind h
    have two : slots.length = 2 := (length_of_popMany popped).1
    match slots, two with
    | [left, right], _ =>
      cases h
      exact .of_below (length_of_popMany popped).2.symm rfl (by nofun) (by nofun)
  | jump t =>
    cases h
    exact .of_below rfl rfl (by nofun) (by nofun)
  | jumpIfZero t =>
    obtain ⟨⟨slot, below⟩, popped, h⟩ := Program.ok_of_bind h
    cases h
    exact .of_below (depth_of_pop popped) rfl (by nofun) (by nofun)
  | call callee =>
    obtain ⟨⟨ls, left⟩, called, h⟩ := Program.ok_of_bind h
    cases h
    obtain ⟨symbol, found, called⟩ := Program.ok_of_bind called
    obtain ⟨⟨slots, below⟩, popped, called⟩ := Program.ok_of_bind called
    obtain ⟨thrown, -, called⟩ := Program.ok_of_bind called
    cases called
    refine .of_below (length_of_popMany popped).2.symm rfl (by nofun) fun f hf => ?_
    cases hf
    simp only [target] at found
    split at found
    · rename_i there
      exact there
    · cases found
  | pop =>
    obtain ⟨⟨slot, below⟩, popped, h⟩ := Program.ok_of_bind h
    cases h
    exact .of_below (depth_of_pop popped) rfl (by nofun) (by nofun)
  | returnValue =>
    obtain ⟨⟨slot, below⟩, popped, h⟩ := Program.ok_of_bind h
    cases h
    exact .of_below (depth_of_pop popped) rfl (by nofun) (by nofun)
  | returnZero =>
    cases h
    exact .of_below rfl rfl (by nofun) (by nofun)
  | transfer =>
    obtain ⟨ls, -, h⟩ := Program.ok_of_bind h
    cases h
    exact .of_below rfl rfl (by nofun) (by nofun)

end X86.Lowering

namespace Bytecode

open X86.Lowering (routineSteps routineSteps_flowing fits_of_code)

/-! ## What is known at an index -/

/-- Lowering has an instruction of a routine begin with a number of operands. -/
def DepthAt (b : Bytecode) (r : Routine) (index depth : Nat) : Prop :=
  ∃ ss st, routineSteps (.ofRoutine b r) = .ok ss ∧ ss[index]? = some st ∧
    st.operands.depth = depth

/-- What lowering has checked about an instruction that begins with a number of operands. -/
structure Checked (b : Bytecode) (r : Routine) (index depth : Nat) (i : Instruction) : Prop where
  enough : i.pops ≤ depth
  literal : ∀ n, i = .pushLiteral n → n < b.literals.length
  compiled : ∀ f, i = .call (.routine f) → (b.routine? f).isSome
  jumps : ∀ t, i.target? = some t → b.DepthAt r t (depth - i.pops + i.pushes)
  falls : i.endsFlow = false → b.DepthAt r (index + 1) (depth - i.pops + i.pushes)

variable {b : Bytecode} {r : Routine} {index depth : Nat}

/-- Where lowering knows the operands there is an instruction, and it was checked. -/
theorem DepthAt.instruction (h : b.DepthAt r index depth) :
    ∃ i, r.code[index]? = some i ∧ b.Checked r index depth i := by
  obtain ⟨ss, st, hss, hst, rfl⟩ := h
  obtain ⟨ts, flowing⟩ := routineSteps_flowing hss
  have inside : index < r.code.size := by
    obtain ⟨bound, -⟩ := List.getElem?_eq_some_iff.mp hst
    exact flowing.length ▸ bound
  have depthAt : ∀ j, j < r.code.size → b.DepthAt r j (X86.Lowering.shapeOf ss j).depth := by
    intro j hj
    obtain ⟨st', hst', shaped⟩ := flowing.shaped j _ (Array.getElem?_eq_getElem hj)
    exact ⟨ss, st', hss, hst', congrArg _ shaped.operands⟩
  obtain ⟨st', hst', shaped⟩ := flowing.shaped index _ (Array.getElem?_eq_getElem inside)
  rw [hst] at hst'
  cases hst'
  obtain ⟨ds, after, lowered, -, jumps, falls⟩ := shaped.lowered
  have fits := fits_of_code lowered
  rw [← shaped.operands] at fits
  refine ⟨_, Array.getElem?_eq_getElem inside, fits.enough, fits.literal, fits.compiled, ?_, ?_⟩
  · intro t ht
    obtain ⟨known, low⟩ := flowing.targets index _ t (Array.getElem?_eq_getElem inside) ht
    rw [← fits.depth, ← jumps t ht known low]
    exact depthAt t low
  · intro flows
    obtain ⟨low, same⟩ := falls flows
    rw [← fits.depth, ← same]
    exact depthAt (index + 1) low

/-- A routine begins without operands. -/
theorem depthAt_zero {a : X86.Assembly} (h : b.lower = .ok a) (hr : r ∈ b.routines) :
    b.DepthAt r 0 0 := by
  obtain ⟨ss, hss⟩ := X86.Lowering.steps_of_lower h hr
  obtain ⟨ts, flowing⟩ := routineSteps_flowing hss
  have inside : 0 < r.code.size := X86.Lowering.size_pos_of_routineSteps hss
  obtain ⟨st, hst, shaped⟩ := flowing.shaped 0 _ (Array.getElem?_eq_getElem inside)
  refine ⟨ss, st, hss, hst, ?_⟩
  rw [shaped.operands, flowing.start]
  rfl

/-! ## The invariant -/

open Machine

/-- An activation runs a routine of the program, and its operands together with the values it waits
for are as many as lowering has at the index. -/
structure Machine.Activation.Stands (b : Bytecode) (a : Activation) (waiting : Nat) : Prop where
  routine : a.routine ∈ b.routines
  depth : b.DepthAt a.routine a.next (a.operands.length + waiting)

/-- A run has as many operands as lowering expects, in all of its activations. -/
def Consistent (b : Bytecode) : Progress → Prop
  | .running _ a callers => a.Stands b 0 ∧ ∀ a' ∈ callers, a'.Stands b 1
  | .ended .. => True
  | .fault f => f.isMalformed = false

/-- What the machine was given is what lowering was given. -/
structure Machine.Image.Of (image : Image) (b : Bytecode) : Prop where
  routines : image.routines = b.routines
  pool : image.pool.size = b.literals.length

theorem load_of (b : Bytecode) (input : List Int32) : (b.load input).1.Of b := by
  obtain ⟨pool, heap, hp, hl⟩ := Heap.preload_ok b.literals (.empty false)
  simp only [load, World.start, hp]
  exact ⟨rfl, by simpa using hl⟩

/-- Of a routine that is there, a call reaches one. -/
theorem exists_routine? {image : Image} (hi : image.Of b) {f : Signature}
    (h : (b.routine? f).isSome) : ∃ r ∈ b.routines, image.routine? f = some r := by
  obtain ⟨r, hr⟩ := Option.isSome_iff_exists.mp h
  unfold Image.routine?
  rw [hi.routines, latest?_eq_find?_reverse]
  cases found : b.routines.reverse.find? (fun r => decide (r.signature = f)) with
  | some r' => exact ⟨r', List.mem_reverse.mp (List.mem_of_find?_eq_some found), rfl⟩
  | none =>
    have never := List.find?_eq_none.mp found r
      (List.mem_reverse.mpr (List.mem_of_find?_eq_some hr))
    exact absurd (List.find?_some hr) never

section Step

variable {image : Image} {w : World} {a : Activation} {callers : List Activation}

/-- An activation that has waited goes on with the value, and with an exception or without. -/
theorem Machine.Activation.Stands.resumed (h : a.Stands b 1) (t : Option Transferred) (v : Value) :
    ((a.receive t).push v).Stands b 0 := by
  cases t with
  | none => exact ⟨h.routine, h.depth⟩
  | some t => exact ⟨h.routine, h.depth⟩

/-- A value goes to a caller that waits for it, if there is one. -/
theorem consistent_leave (h : ∀ a' ∈ callers, a'.Stands b 1) (v : Value) (t : Option Transferred) :
    Consistent b (leave w v t callers) := by
  cases callers with
  | nil => trivial
  | cons caller callers =>
    exact ⟨(h caller List.mem_cons_self).resumed t v, fun a' ha' =>
      h a' (List.mem_cons_of_mem caller ha')⟩

/-- The activation that a call starts has no operands yet. -/
theorem consistent_enter (hi : image.Of b) (low : ∀ r ∈ b.routines, b.DepthAt r 0 0)
    {f : Signature} (hf : (b.routine? f).isSome) (vs : List Value)
    (h : ∀ a' ∈ callers, a'.Stands b 1) : Consistent b (enter image w f vs callers) := by
  obtain ⟨r, hr, found⟩ := exists_routine? hi hf
  simp only [enter, found]
  exact ⟨⟨hr, low r hr⟩, h⟩

/-- A built-in function yields a value, or faults as running programs do. -/
theorem consistent_callIntrinsic (i : Intrinsic) (vs : List Value) (ha : a.Stands b 1)
    (h : ∀ a' ∈ callers, a'.Stands b 1) : Consistent b (callIntrinsic w i vs a callers) := by
  unfold callIntrinsic
  cases hc : i.call vs w with
  | ok reply w' =>
    cases reply with
    | returned v => exact ⟨ha.resumed none v, h⟩
    | outOfBounds n => exact ⟨ha.resumed _ _, h⟩
  | error f w' => exact Fault.isMalformed_of_isRuntime ((i.call_adds vs w).2 f w' hc)

/-- Execute an instruction that was checked. -/
theorem consistent_execute (hi : image.Of b) (low : ∀ r ∈ b.routines, b.DepthAt r 0 0)
    {i : Instruction} (hr : a.routine ∈ b.routines)
    (checked : b.Checked a.routine a.next a.operands.length i)
    (h : ∀ a' ∈ callers, a'.Stands b 1) :
    Consistent b (execute image i w { a with next := a.next + 1 } callers) := by
  obtain ⟨r, xs, operands, next, t⟩ := a
  cases i with
  | push n => exact ⟨⟨hr, checked.falls rfl⟩, h⟩
  | pushLiteral n =>
    have inside : n < image.pool.size := hi.pool ▸ checked.literal n rfl
    simp only [execute, Array.getElem?_eq_getElem inside]
    exact ⟨⟨hr, checked.falls rfl⟩, h⟩
  | load x => exact ⟨⟨hr, checked.falls rfl⟩, h⟩
  | store x =>
    cases operands with
    | nil => exact absurd checked.enough (Nat.not_succ_le_zero 0)
    | cons v vs => exact ⟨⟨hr, checked.falls rfl⟩, h⟩
  | unary op =>
    cases operands with
    | nil => exact absurd checked.enough (Nat.not_succ_le_zero 0)
    | cons v vs => exact ⟨⟨hr, checked.falls rfl⟩, h⟩
  | binary op =>
    match operands, checked with
    | [], checked => exact absurd checked.enough (Nat.not_succ_le_zero 1)
    | [v], checked => exact absurd checked.enough (Nat.not_succ_le_self 1)
    | right :: left :: vs, checked =>
      simp only [execute]
      cases op.eval? left.word right.word with
      | none => rfl
      | some m => exact ⟨⟨hr, checked.falls rfl⟩, h⟩
  | jump target => exact ⟨⟨hr, checked.jumps target rfl⟩, h⟩
  | jumpIfZero target =>
    cases operands with
    | nil => exact absurd checked.enough (Nat.not_succ_le_zero 0)
    | cons v vs =>
      refine ⟨⟨hr, ?_⟩, h⟩
      show b.DepthAt r (if v.word = 0 then target else next + 1) vs.length
      split
      · exact checked.jumps target rfl
      · exact checked.falls rfl
  | call callee =>
    have enough : ¬ operands.length < callee.arity := Nat.not_lt.mpr checked.enough
    have waiting : Machine.Activation.Stands b ⟨r, xs, operands.drop callee.arity, next + 1, t⟩ 1 := by
      refine ⟨hr, ?_⟩
      rw [List.length_drop]
      exact checked.falls rfl
    simp only [execute, if_neg enough]
    cases callee with
    | intrinsic i => exact consistent_callIntrinsic i _ waiting h
    | routine f =>
      refine consistent_enter hi low (checked.compiled f rfl) _ fun a' ha' => ?_
      rcases List.mem_cons.mp ha' with rfl | later
      · exact waiting
      · exact h a' later
  | pop =>
    cases operands with
    | nil => exact absurd checked.enough (Nat.not_succ_le_zero 0)
    | cons v vs => exact ⟨⟨hr, checked.falls rfl⟩, h⟩
  | returnValue =>
    cases operands with
    | nil => exact absurd checked.enough (Nat.not_succ_le_zero 0)
    | cons v vs => exact consistent_leave h v t
  | returnZero => exact consistent_leave h _ t
  | transfer => exact ⟨⟨hr, checked.falls rfl⟩, h⟩

/-- An instruction preserves the invariant. -/
theorem Consistent.step (hi : image.Of b) (low : ∀ r ∈ b.routines, b.DepthAt r 0 0)
    (h : Consistent b (.running w a callers)) :
    Consistent b (Machine.step image w a callers) := by
  obtain ⟨stands, waiting⟩ := h
  obtain ⟨i, hcode, checked⟩ := stands.depth.instruction
  simp only [Machine.step, hcode]
  exact consistent_execute hi low stands.routine checked waiting

end Step

/-! ## Whole runs -/

/-- The heights agree in everything that a run of a lowered program comes to. -/
theorem consistent_of_reached {asm : X86.Assembly} (h : b.lower = .ok asm) {input : List Int32}
    {w : World} {q : Progress}
    (hq : Reached (b.load input).1 (enter (b.load input).1 w b.entry [] []) q) :
    Consistent b q := by
  have image := load_of b input
  have low : ∀ r ∈ b.routines, b.DepthAt r 0 0 := fun r hr => depthAt_zero h hr
  have entry := (X86.Lowering.parts_of_lower h).1
  refine hq.invariant ?_ fun w a callers stands => stands.step image low
  exact consistent_enter image low entry [] (by nofun)

/-- Bytecode that lowering accepts never runs out of operands, literals, routines or instructions,
and whenever it is about to execute an instruction, it has as many operands as lowering had there. -/
theorem lower_sound {asm : X86.Assembly} (h : b.lower = .ok asm) (input : List Int32) :
    (∀ fuel f, b.run input fuel = some (.error f) → f.isMalformed = false) ∧
      ∀ w a callers,
        Reached (b.load input).1 (enter (b.load input).1 (b.load input).2 b.entry [] [])
          (.running w a callers) →
        a.routine ∈ b.routines ∧
          ∃ ss st, routineSteps (.ofRoutine b a.routine) = .ok ss ∧ ss[a.next]? = some st ∧
            a.operands.length = st.operands.depth := by
  refine ⟨fun fuel f hf => ?_, fun w a callers ha => ?_⟩
  · obtain ⟨r, hr, same⟩ := Option.map_eq_some_iff.mp hf
    cases r with
    | ok e => cases same
    | error g =>
      cases same
      exact consistent_of_reached h (reached_of_run_error .start hr)
  · obtain ⟨stands, -⟩ := consistent_of_reached h ha
    obtain ⟨ss, st, hss, hst, depth⟩ := stands.depth
    exact ⟨stands.routine, ss, st, hss, hst, depth.symm⟩

/-- A loop that counts down from three. -/
def countdown : Bytecode where
  routines := [⟨⟨"main", 0⟩, [],
    #[.push 3, .store (.named "n"), .load (.named "n"), .jumpIfZero 9, .load (.named "n"), .push 1,
      .binary .minus, .store (.named "n"), .jump 2, .returnZero], false⟩]
  entry := ⟨"main", 0⟩
  literals := []
  exceptions := []

theorem lower_sound_countdown :
    ∃ asm, countdown.lower = .ok asm ∧
      (∀ fuel f, countdown.run [] fuel = some (.error f) → f.isMalformed = false) ∧
      ∀ w a callers,
        Reached (countdown.load []).1
          (enter (countdown.load []).1 (countdown.load []).2 countdown.entry [] [])
          (.running w a callers) →
        a.routine ∈ countdown.routines ∧
          ∃ ss st, routineSteps (.ofRoutine countdown a.routine) = .ok ss ∧
            ss[a.next]? = some st ∧ a.operands.length = st.operands.depth := by
  have accepted : countdown.lower.isOk = true := by decide +kernel
  cases h : countdown.lower with
  | error e =>
    rw [h] at accepted
    cases accepted
  | ok asm => exact ⟨asm, rfl, lower_sound h []⟩

end Bytecode

end Threefold
