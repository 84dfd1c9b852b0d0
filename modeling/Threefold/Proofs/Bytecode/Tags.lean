import Threefold.Proofs.Bytecode.Reached
import Threefold.Proofs.Heap.Catalogue

/-!
# The tags of values in a run of bytecode

Whatever a program of the stack machine does, compiled or written by hand, a value with the tag of an
array is the handle of an array of that kind, wherever in the run it is found: in the variables and
operands of an activation, in an exception that is handed over, or in a boxed array. A handle that was
turned into a plain number never gets its tag back.

* `Progress.Consistent` says this of a moment of a run, and `step_consistent` that an instruction
  preserves it.
* `tags_sound` says it of every run, and that the array functions therefore find an array under every
  handle that they are given.
-/

namespace Threefold.Bytecode.Machine

/-! ## What is found in an activation -/

namespace Activation

/-- An activation has a value in a variable, among its operands or in the exception that it hands
over. -/
inductive Holds (a : Activation) (v : Value) : Prop
  | loaded (x : Variable) : a.load x = v → a.Holds v
  | operand : v ∈ a.operands → a.Holds v
  | transferred {t : Transferred} : a.transferred = some t → v = t.1 ∨ v = t.2 → a.Holds v

/-- The tags in an activation are right. -/
structure Known (h : Heap) (a : Activation) : Prop where
  stored : ∀ x, h.Vouches (a.load x)
  operands : ∀ v ∈ a.operands, h.Vouches v
  transferred : ∀ t, a.transferred = some t → h.Vouches t.1 ∧ h.Vouches t.2

variable {h h' : Heap} {a : Activation}

theorem Known.holds (known : a.Known h) {v : Value} (hv : a.Holds v) : h.Vouches v := by
  cases hv with
  | loaded x hx => exact hx ▸ known.stored x
  | operand hv => exact known.operands v hv
  | transferred ht hv =>
    obtain rfl | rfl := hv
    · exact (known.transferred _ ht).1
    · exact (known.transferred _ ht).2

theorem Known.mono (known : a.Known h) (keeps : h.KeepsKinds h') : a.Known h' :=
  ⟨fun x => (known.stored x).mono keeps, fun v hv => (known.operands v hv).mono keeps,
    fun t ht => ⟨(known.transferred t ht).1.mono keeps, (known.transferred t ht).2.mono keeps⟩⟩

/-- Variables may take any value that is what its tag says. -/
theorem vouches_set {xs : Bindings Variable Value} {x : Variable} {v : Value}
    (stored : ∀ y, h.Vouches (xs.getD y (.scalar 0))) (hv : h.Vouches v) (y : Variable) :
    h.Vouches ((xs.set x v).getD y (.scalar 0)) := by
  rw [Bindings.getD, Bindings.get?_set]
  split
  · exact hv
  · exact stored y

theorem Known.store (known : a.Known h) (x : Variable) {v : Value} (hv : h.Vouches v) :
    (a.store x v).Known h :=
  ⟨vouches_set known.stored hv, known.operands, known.transferred⟩

theorem Known.push (known : a.Known h) {v : Value} (hv : h.Vouches v) : (a.push v).Known h :=
  ⟨known.stored, List.forall_mem_cons.mpr ⟨hv, known.operands⟩, known.transferred⟩

theorem Known.receive (known : a.Known h) {t : Option Transferred}
    (ht : ∀ x, t = some x → h.Vouches x.1 ∧ h.Vouches x.2) : (a.receive t).Known h := by
  cases t with
  | none => exact known
  | some x => exact (known.store .thrown (ht x rfl).1).store .thrownData (ht x rfl).2

/-- Some of the operands may go, and the activation may go on elsewhere. -/
theorem Known.of_operands (known : a.Known h) (vs : List Value) (n : Nat)
    (subset : ∀ v ∈ vs, v ∈ a.operands) : Known h { a with operands := vs, next := n } :=
  ⟨known.stored, fun v hv => known.operands v (subset v hv), known.transferred⟩

theorem known_start (r : Routine) {arguments : List Value}
    (known : ∀ v ∈ arguments, h.Vouches v) : (start r arguments).Known h := by
  refine ⟨?_, (fun v hv => by cases hv), fun t ht => by cases ht⟩
  have bound : ∀ (ps : List (String × Value)) (xs : Bindings Variable Value),
      (∀ p ∈ ps, h.Vouches p.2) → (∀ x, h.Vouches (xs.getD x (.scalar 0))) →
      ∀ x, h.Vouches ((ps.foldl (fun xs p => xs.set (.named p.1) p.2) xs).getD x (.scalar 0)) := by
    intro ps
    induction ps with
    | nil => exact fun _ _ hxs => hxs
    | cons p ps ih =>
      intro xs hps hxs
      rw [List.forall_mem_cons] at hps
      exact ih _ hps.2 (vouches_set hxs hps.1)
  exact bound _ _ (fun p hp => known p.2 (List.of_mem_zip hp).2) fun x => Heap.vouches_scalar h 0

end Activation

/-! ## What is found at a moment of a run -/

namespace Progress

/-- The world at a moment of a run. A run that has failed has none. -/
def world? : Progress → Option World
  | running w _ _ => some w
  | ended w _ _ => some w
  | fault _ => none

/-- A value is found at a moment of a run: in an activation, as its result or the exception with which
it ends, or in a boxed array. -/
inductive Holds : Progress → Value → Prop
  | activation {w : World} {a b : Activation} {callers : List Activation} {v : Value} :
    b ∈ a :: callers → b.Holds v → Holds (running w a callers) v
  | result {w : World} {v : Value} {t : Option Transferred} : Holds (ended w v t) v
  | uncaught {w : World} {u v : Value} {t : Transferred} : v = t.1 ∨ v = t.2 →
    Holds (ended w u (some t)) v
  | element {p : Progress} {w : World} {i : Nat} {o : HeapObject} {v : Value} :
    p.world? = some w → w.heap.objectAt? i = some o → v ∈ o.elements → Holds p v

/-- The tags at a moment of a run are right, as long as the handles of all objects are words. -/
def Consistent : Progress → Prop
  | running w a callers =>
    w.heap.Fits → w.heap.Sound ∧ a.Known w.heap ∧ ∀ b ∈ callers, b.Known w.heap
  | ended w v t =>
    w.heap.Fits → w.heap.Sound ∧ w.heap.Vouches v ∧
      ∀ x, t = some x → w.heap.Vouches x.1 ∧ w.heap.Vouches x.2
  | fault _ => True

theorem Consistent.holds {p : Progress} (consistent : p.Consistent) {w : World}
    (hw : p.world? = some w) (fits : w.heap.Fits) {v : Value} (hv : p.Holds v) :
    w.heap.Vouches v := by
  cases hv with
  | activation mem hv =>
    cases hw
    obtain ⟨-, known, callers⟩ := consistent fits
    obtain rfl | mem := List.mem_cons.mp mem
    · exact known.holds hv
    · exact (callers _ mem).holds hv
  | result =>
    cases hw
    exact (consistent fits).2.1
  | uncaught hv =>
    cases hw
    obtain ⟨left, right⟩ := (consistent fits).2.2 _ rfl
    obtain rfl | rfl := hv
    · exact left
    · exact right
  | element hw' ho hv =>
    obtain rfl : w = _ := Option.some.inj (hw.symm.trans hw')
    cases p with
    | running w a callers => cases hw; exact (consistent fits).1 _ _ ho _ hv
    | ended w u t => cases hw; exact (consistent fits).1 _ _ ho _ hv
    | fault f => cases hw

end Progress

/-! ## What an instruction preserves -/

variable {image : Image} {w : World} {a : Activation} {callers : List Activation}

theorem leave_consistent {v : Value} {t : Option Transferred} (sound : w.heap.Sound)
    (hv : w.heap.Vouches v) (ht : ∀ x, t = some x → w.heap.Vouches x.1 ∧ w.heap.Vouches x.2)
    (known : ∀ b ∈ callers, b.Known w.heap) : (leave w v t callers).Consistent := by
  cases callers with
  | nil => exact fun _ => ⟨sound, hv, ht⟩
  | cons caller callers =>
    rw [List.forall_mem_cons] at known
    exact fun _ => ⟨sound, (known.1.receive ht).push hv, known.2⟩

theorem enter_consistent {s : Signature} {arguments : List Value} (sound : w.heap.Sound)
    (ha : ∀ v ∈ arguments, w.heap.Vouches v) (known : ∀ b ∈ callers, b.Known w.heap) :
    (enter image w s arguments callers).Consistent := by
  unfold enter
  cases image.routine? s with
  | none => trivial
  | some r => exact fun _ => ⟨sound, Activation.known_start r ha, known⟩

/-- A call of a built-in function keeps what is known of every activation. -/
theorem callIntrinsic_consistent {i : Intrinsic} {arguments : List Value} (sound : w.heap.Sound)
    (ha : ∀ v ∈ arguments, w.heap.Vouches v) (known : a.Known w.heap)
    (others : ∀ b ∈ callers, b.Known w.heap) :
    (callIntrinsic w i arguments a callers).Consistent := by
  have faithful := Intrinsic.call_sound i sound ha
  unfold callIntrinsic
  cases hc : i.call arguments w with
  | error e w' => trivial
  | ok reply w' =>
    rw [hc] at faithful
    have keeps := faithful.keeps
    cases reply with
    | returned v =>
      exact fun fits => ⟨faithful.sound,
        (known.mono keeps).push (faithful.result v w'.heap rfl fits),
        fun b hb => (others b hb).mono keeps⟩
    | outOfBounds n =>
      refine fun _ => ⟨faithful.sound, ?_, fun b hb => (others b hb).mono keeps⟩
      refine ((known.mono keeps).receive ?_).push (Heap.vouches_scalar _ 0)
      intro x hx
      cases hx
      exact ⟨Heap.vouches_scalar _ _, Heap.vouches_scalar _ _⟩

theorem execute_consistent {i : Instruction} (sound : w.heap.Sound) (known : a.Known w.heap)
    (others : ∀ b ∈ callers, b.Known w.heap) : (execute image i w a callers).Consistent := by
  obtain ⟨r, xs, vs, n, t⟩ := a
  cases i with
  | push m => exact fun _ => ⟨sound, known.push (Heap.vouches_scalar _ m), others⟩
  | pushLiteral k =>
    simp only [execute]
    cases image.pool[k]? with
    | none => trivial
    | some m => exact fun _ => ⟨sound, known.push (Heap.vouches_scalar _ m), others⟩
  | load x => exact fun _ => ⟨sound, known.push (known.stored x), others⟩
  | store x =>
    cases vs with
    | nil => trivial
    | cons v vs =>
      have rest := known.of_operands vs n fun u hu => List.mem_cons_of_mem v hu
      exact fun _ => ⟨sound, rest.store x (known.operands v (by simp)), others⟩
  | unary op =>
    cases vs with
    | nil => trivial
    | cons v vs =>
      have rest := known.of_operands vs n fun u hu => List.mem_cons_of_mem v hu
      exact fun _ => ⟨sound, rest.push (Heap.vouches_scalar _ _), others⟩
  | binary op =>
    rcases vs with _ | ⟨right, _ | ⟨left, vs⟩⟩
    · trivial
    · trivial
    · simp only [execute]
      cases op.eval? left.word right.word with
      | none => trivial
      | some m =>
        have rest := known.of_operands vs n fun u hu => by simp [hu]
        exact fun _ => ⟨sound, rest.push (Heap.vouches_scalar _ m), others⟩
  | jump target => exact fun _ => ⟨sound, known.of_operands vs target fun _ hv => hv, others⟩
  | jumpIfZero target =>
    cases vs with
    | nil => trivial
    | cons v vs =>
      exact fun _ => ⟨sound, known.of_operands vs _ fun u hu => List.mem_cons_of_mem v hu, others⟩
  | call callee =>
    simp only [execute]
    split
    · trivial
    · have rest := known.of_operands (vs.drop callee.arity) n
        fun u hu => List.mem_of_mem_drop hu
      have arguments : ∀ v ∈ (vs.take callee.arity).reverse, w.heap.Vouches v := fun v hv =>
        known.operands v (List.mem_of_mem_take (List.mem_reverse.mp hv))
      cases callee with
      | routine s =>
        exact enter_consistent sound arguments (List.forall_mem_cons.mpr ⟨rest, others⟩)
      | intrinsic i => exact callIntrinsic_consistent sound arguments rest others
  | pop =>
    cases vs with
    | nil => trivial
    | cons v vs =>
      exact fun _ => ⟨sound, known.of_operands vs n fun u hu => List.mem_cons_of_mem v hu, others⟩
  | returnValue =>
    cases vs with
    | nil => trivial
    | cons v vs =>
      exact leave_consistent sound (known.operands v (by simp)) known.transferred others
  | returnZero => exact leave_consistent sound (Heap.vouches_scalar _ 0) known.transferred others
  | transfer =>
    refine fun _ => ⟨sound, ⟨known.stored, known.operands, ?_⟩, others⟩
    intro t ht
    cases ht
    exact ⟨known.stored .pending, known.stored .pendingData⟩

theorem leave_world {v : Value} {t : Option Transferred} :
    (leave w v t callers).world? = some w := by
  cases callers <;> rfl

theorem enter_world {s : Signature} {arguments : List Value} {w' : World}
    (hw : (enter image w s arguments callers).world? = some w') : w' = w := by
  unfold enter at hw
  cases hr : image.routine? s <;> rw [hr] at hw <;> cases hw
  rfl

theorem callIntrinsic_grows {i : Intrinsic} {arguments : List Value} {w' : World}
    (hw : (callIntrinsic w i arguments a callers).world? = some w') : w.heap.Grows w'.heap := by
  have grows := (Intrinsic.call_adds i arguments w).1
  unfold callIntrinsic at hw
  cases hc : i.call arguments w with
  | error e w'' =>
    rw [hc] at hw
    cases hw
  | ok reply w'' =>
    rw [hc] at hw grows
    cases reply <;> cases hw <;> exact grows

/-- Only a call of a built-in function leads to another world. -/
theorem execute_world {i : Instruction} (plain : ∀ j, i ≠ .call (.intrinsic j)) {w' : World}
    (hw : (execute image i w a callers).world? = some w') : w' = w := by
  cases i with
  | push m =>
    cases hw
    rfl
  | pushLiteral k =>
    simp only [execute] at hw
    split at hw <;> cases hw
    rfl
  | load x =>
    cases hw
    rfl
  | jump target =>
    cases hw
    rfl
  | transfer =>
    cases hw
    rfl
  | store x =>
    simp only [execute] at hw
    split at hw <;> cases hw
    rfl
  | unary op =>
    simp only [execute] at hw
    split at hw <;> cases hw
    rfl
  | jumpIfZero target =>
    simp only [execute] at hw
    split at hw <;> cases hw
    rfl
  | pop =>
    simp only [execute] at hw
    split at hw <;> cases hw
    rfl
  | binary op =>
    simp only [execute] at hw
    split at hw
    · split at hw <;> cases hw
      rfl
    · cases hw
  | call callee =>
    cases callee with
    | routine s =>
      simp only [execute] at hw
      split at hw
      · cases hw
      · exact enter_world hw
    | intrinsic j => exact absurd rfl (plain j)
  | returnValue =>
    simp only [execute] at hw
    split at hw
    · exact Option.some.inj (hw.symm.trans leave_world)
    · cases hw
  | returnZero => exact Option.some.inj (hw.symm.trans leave_world)

/-- The heap after an instruction is the heap before it, or what a call has made of that. -/
theorem execute_grows {i : Instruction} {w' : World}
    (hw : (execute image i w a callers).world? = some w') : w.heap.Grows w'.heap := by
  by_cases called : ∃ j, i = .call (.intrinsic j)
  case pos =>
    obtain ⟨j, rfl⟩ := called
    simp only [execute] at hw
    split at hw
    · cases hw
    · exact callIntrinsic_grows hw
  case neg =>
    rw [execute_world (fun j same => called ⟨j, same⟩) hw]
    exact .refl _

/-- What holds if the handles at the next moment are words needs the handles before it to be words
only. -/
theorem Progress.consistent_of_fits {p : Progress}
    (h : ∀ w, p.world? = some w → w.heap.Fits → p.Consistent) : p.Consistent := by
  cases p with
  | running w a callers => exact fun fits => h w rfl fits fits
  | ended w v t => exact fun fits => h w rfl fits fits
  | fault f => trivial

/-- Every instruction preserves that the tags of all values are right. -/
theorem step_consistent (h : (Progress.running w a callers).Consistent) :
    (step image w a callers).Consistent := by
  unfold step
  cases a.routine.code[a.next]? with
  | none => trivial
  | some i =>
    refine Progress.consistent_of_fits fun w' hw fits => ?_
    obtain ⟨sound, known, others⟩ := h (Heap.fits_of_grows (execute_grows hw) fits)
    exact execute_consistent sound (known.of_operands _ _ fun _ hv => hv) others

/-! ## Runs of programs -/

/-- The string literals of a program are the only objects before its run. -/
theorem preload_sound (ss : List String) {h : Heap} (sound : h.Sound) :
    (finalState (Heap.preload ss h)).Sound := by
  induction ss generalizing h with
  | nil => exact sound
  | cons s ss ih =>
    have pushed : Heap.Sound { h with cells := h.cells.push ⟨.ofString s, 1, false⟩ } :=
      Heap.sound_push rfl sound fun v hv => by cases hv
    have rest := ih pushed
    simp only [Heap.preload, Bind.bind, EStateM.bind, Heap.allocate]
    split <;> rename_i hp <;> rw [hp] at rest <;> exact rest

theorem load_sound (b : Bytecode) (input : List Int32) : (b.load input).2.heap.Sound := by
  have sound := preload_sound b.literals (h := .empty false) fun i o ho => by
    simp [Heap.objectAt?, Heap.empty] at ho
  unfold load World.start
  dsimp only
  split <;> rename_i hp <;> rw [hp] at sound <;> exact sound

/-- An instruction computes a plain number: arithmetic does, and so do reading an array of plain numbers
and all built-in functions but the ones that make arrays and read their elements. -/
inductive Activation.Computes (a : Activation) : Instruction → Prop
  | unary (op : UnaryOp) : a.Computes (.unary op)
  | binary (op : BinaryOp) : a.Computes (.binary op)
  | element {index array : Value} {vs : List Value} : a.operands = index :: array :: vs →
    array.tag = .scalarArray → a.Computes (.call (.intrinsic .arrGet))
  | call {i : Intrinsic} : i ≠ .arrGet → i ≠ .arrMake → i ≠ .arrMakeBoxed →
    a.Computes (.call (.intrinsic i))

/-- The value on top of the operands is a plain number. -/
def Activation.TopIsNumber (a : Activation) : Prop :=
  ∃ v vs, a.operands = v :: vs ∧ v.tag = .scalar

theorem callIntrinsic_number {i : Intrinsic} {arguments : List Value} {w' : World}
    {a' : Activation} {callers' : List Activation}
    (number : ∀ v w'', i.call arguments w = .ok (.returned v) w'' → v.tag = .scalar)
    (hs : callIntrinsic w i arguments a callers = .running w' a' callers') : a'.TopIsNumber := by
  unfold callIntrinsic at hs
  cases hc : i.call arguments w with
  | error e w'' =>
    rw [hc] at hs
    cases hs
  | ok reply w'' =>
    rw [hc] at hs
    cases reply with
    | returned v =>
      cases hs
      exact ⟨v, a.operands, rfl, number v _ hc⟩
    | outOfBounds n =>
      cases hs
      exact ⟨.scalar 0, _, rfl, rfl⟩

/-- What computes a plain number leaves a plain number. -/
theorem Activation.Computes.number {i : Instruction} {w' : World} {a' : Activation}
    {callers' : List Activation} (computes : a.Computes i) (known : a.Known w.heap)
    (hs : execute image i w a callers = .running w' a' callers') : a'.TopIsNumber := by
  cases computes with
  | unary op =>
    simp only [execute] at hs
    split at hs
    · cases hs
      exact ⟨_, _, rfl, rfl⟩
    · cases hs
  | binary op =>
    simp only [execute] at hs
    split at hs
    · split at hs
      · cases hs
        exact ⟨_, _, rfl, rfl⟩
      · cases hs
    · cases hs
  | @element index array vs operands tag =>
    have vouches := known.operands array (by rw [operands]; simp)
    simp only [execute] at hs
    split at hs
    · cases hs
    · refine callIntrinsic_number (fun v w'' hc => ?_) hs
      have arguments : (a.operands.take (Callee.intrinsic .arrGet).arity).reverse = [array, index] := by
        rw [operands]
        rfl
      rw [arguments] at hc
      exact Intrinsic.arrGet_scalar vouches tag hc
  | call get make makeBoxed =>
    simp only [execute] at hs
    split at hs
    · cases hs
    · exact callIntrinsic_number (fun v w'' hc => Intrinsic.call_scalar get make makeBoxed hc) hs

/-- The array functions never find that a handle names nothing, or a string. -/
theorem execute_finds_array {i : Intrinsic} {f : Fault} (reads : i.readsArray = true)
    (sound : w.heap.Sound) (known : a.Known w.heap)
    (hs : execute image (.call (.intrinsic i)) w a callers = .fault f) :
    (∀ n, f ≠ .notAHandle n) ∧ ∀ j, f ≠ .stringForArray j := by
  simp only [execute] at hs
  split at hs
  · cases hs
    exact ⟨by simp, by simp⟩
  · unfold callIntrinsic at hs
    split at hs
    · cases hs
    · cases hs
    · rename_i e w' hc
      cases hs
      refine Intrinsic.call_finds_array reads sound (fun v hv => ?_) hc
      exact known.operands v (List.mem_of_mem_take (List.mem_reverse.mp hv))

/-- In a run of any program on any input, as long as the handles of all objects are words: a value with
the tag of an array is the handle of an array of that kind; the array functions find an array under
every handle that they look up; and what computes a plain number leaves a value that is tagged as
one. -/
theorem tags_sound (b : Bytecode) (input : List Int32) {q : Progress}
    (reached : Reached (b.load input).1 (enter (b.load input).1 (b.load input).2 b.entry [] []) q)
    {w : World} (hw : q.world? = some w) (fits : w.heap.Fits) :
    (∀ v, q.Holds v → w.heap.Vouches v) ∧
      ∀ a callers i, q = .running w a callers → a.routine.code[a.next]? = some i →
        (∀ f j, i = .call (.intrinsic j) → j.readsArray = true →
          step (b.load input).1 w a callers = .fault f →
          (∀ n, f ≠ .notAHandle n) ∧ ∀ j, f ≠ .stringForArray j) ∧
        ∀ w' a' callers', a.Computes i →
          step (b.load input).1 w a callers = .running w' a' callers' → a'.TopIsNumber := by
  have consistent : q.Consistent :=
    reached.invariant (I := Progress.Consistent)
      (enter_consistent (load_sound b input) (fun v hv => by cases hv) fun c hc => by cases hc)
      fun w a callers h => step_consistent h
  refine ⟨fun v hv => consistent.holds hw fits hv, ?_⟩
  rintro a callers i rfl fetched
  obtain ⟨sound, known, -⟩ := consistent fits
  have known' := known.of_operands _ (a.next + 1) fun _ hv => hv
  simp only [step, fetched]
  constructor
  · rintro f j rfl reads hs
    exact execute_finds_array reads sound known' hs
  · intro w' a' callers' computes hs
    refine Activation.Computes.number (a := { a with next := a.next + 1 }) ?_ known' hs
    cases computes with
    | unary op => exact .unary op
    | binary op => exact .binary op
    | element operands tag => exact .element operands tag
    | call get make makeBoxed => exact .call get make makeBoxed

/-- An array in a boxed array: when the outer array is on the operands, the tags of both handles are
right. -/
def nested : Bytecode where
  routines := [⟨⟨"main", 0⟩, [], #[.push 1, .push 1, .push 0, .call (.intrinsic .arrMake),
    .call (.intrinsic .arrMakeBoxed), .pop, .returnZero], false⟩]
  entry := ⟨"main", 0⟩
  literals := []
  exceptions := []

theorem tags_sound_nested : ∃ w a,
    Reached (nested.load []).1 (enter (nested.load []).1 (nested.load []).2 nested.entry [] [])
      (.running w a []) ∧
    w.heap.objectAt? 1 = some (.boxed #[⟨Heap.handle 0, .scalarArray⟩]) ∧
    w.heap.Vouches ⟨Heap.handle 0, .scalarArray⟩ := by
  have reached : Reached (nested.load []).1
      (enter (nested.load []).1 (nested.load []).2 nested.entry [] [])
      (enter (nested.load []).1 (nested.load []).2 nested.entry [] []) := .start
  refine ⟨_, _, reached.step.step.step.step.step, by decide, ?_⟩
  refine (tags_sound nested [] reached.step.step.step.step.step rfl (by decide)).1 _ ?_
  exact .element (i := 1) (o := .boxed #[⟨Heap.handle 0, .scalarArray⟩]) rfl (by decide) (by decide)

end Threefold.Bytecode.Machine
