import Threefold.Proofs.X86.Places

/-!
# The stack discipline of generated code

Every piece of generated code leaves the machine stack as high as the code behind it expects, and
every function returns with the stack and base pointers of its caller. A `Visit` is a moment of a
run together with what is awaited of the functions that have been called. The words that the callers
need when control comes back to them are below those that the callees own, so each call is linked to
the one before it (`Linked`), and a callee keeps these links.

* `Disciplined.step` says that an instruction preserves the invariant, returns to the host as the host
  expects it, or stops at a mistake of the program.
* `stack_discipline` is about whole runs. It holds as long as the stack does not grow down to the
  global words, and as long as the numbers in the code are words of the machine.
-/

namespace Threefold.X86

open Machine (stackTop hostAddress hostRegisters)

/-! ## Visits -/

namespace Machine

/-- What a function has to bring about when it returns: where control goes back to, unless it goes
back to the host, and the words of its caller in the stack and base pointers. -/
structure Awaited where
  back : Option Nat
  top : Int32
  base : Int32

/-- A moment of a run: the index of the next instruction, the machine, and what is awaited of the
functions that have been called, the innermost first. -/
structure Visit where
  index : Nat
  machine : Machine
  awaited : List Awaited

/-- What is awaited behind an instruction. -/
def Visit.behind (image : Image) (x : Visit) : Instruction → List Awaited
  | .call s =>
    if (image.functions.get? s).isSome then
      ⟨some (x.index + 1), x.machine.registers.esp, x.machine.registers.ebp⟩ :: x.awaited
    else x.awaited
  | .ret => x.awaited.tail
  | _ => x.awaited

/-- The moments of a run, by the number of instructions in front of them, as long as the stack is
above the global words. -/
inductive Visited (image : Image) (start : Machine) : Nat → Visit → Prop
  | host {m : Machine} {index : Nat} (hm : enter start = .ok () m)
    (hi : image.functions.get? Symbol.main = some index) :
    Visited image start 0 ⟨index, m, [⟨none, stackTop.toInt32, start.registers.ebp⟩]⟩
  | next {n index : Nat} {x : Visit} {i : Instruction} {m : Machine} (h : Visited image start n x)
    (above : x.machine.Above) (hi : image.code[x.index]? = some i)
    (he : execute image i (x.index + 1) x.machine = .ok (some index) m) :
    Visited image start (n + 1) ⟨index, m, x.behind image i⟩

theorem Visit.behind_of_exec {image : Image} {v : View} {i : Instruction} {e : View.Effect}
    (h : v.exec image i = some e) (x : Visit) : x.behind image i = x.awaited := by
  cases i with
  | call s =>
    cases found : image.functions.get? s with
    | none => simp only [behind, found, Option.isSome_none, Bool.false_eq_true, if_false]
    | some index => simp [View.exec, found] at h
  | ret => cases h
  | _ => rfl

end Machine

open Machine (Awaited Visit Visited)

/-! ## Programs in memory -/

/-- The numbers of instructions and the sizes of frames are words of the machine. -/
structure Image.Addressable (image : Image) (b : Bytecode) : Prop where
  code : image.code.size ≤ 2 ^ 31
  frame : ∀ r ∈ b.routines, (Frame.ofRoutine b r).size < 2 ^ 31

/-- The code of an instruction of a routine begins at an index of the machine code. -/
structure Image.Begins (image : Image) (b : Bytecode) (r : Bytecode.Routine) (k : Nat)
    (st : Lowering.Step) (index : Nat) : Prop where
  place : ∃ ss start, Lowering.routineSteps (.ofRoutine b r) = .ok ss ∧
    image.functions.get? (Context.ofRoutine b r).symbol = some start ∧ ss[k]? = some st ∧
    (Lowering.planAt start (.ofRoutine b r) ss).pos k = index

/-- If the next instruction is a return, control goes where it is awaited, with the stack and base
pointers that are awaited there. -/
def Machine.Visit.Returns (x : Visit) (image : Image) : Prop :=
  image.code[x.index]? = some .ret → ∃ y rest m, x.awaited = y :: rest ∧
    Machine.execute image .ret (x.index + 1) x.machine = .ok y.back m ∧
    m.registers.esp = y.top ∧ m.registers.ebp = y.base

/-- The discipline of the stack. Where the code of an instruction of the bytecode begins, the frame
has the variables and the operands behind the first two, and returns are as they are awaited. -/
structure Machine.Visit.Balanced (x : Visit) (b : Bytecode) (image : Image) : Prop where
  height : ∀ r ∈ b.routines, ∀ k st, image.Begins b r k st x.index →
    x.machine.registers.esp = x.machine.registers.ebp - .ofNat (Frame.ofRoutine b r).size -
      .ofNat (8 * (st.operands.depth - 2))
  returns : x.Returns image

/-- The stack is above the global words as long as a run goes. -/
def StaysAbove (image : Image) (start : Machine) (limit : Nat) : Prop :=
  ∀ n < limit, ∀ x, Visited image start n x → x.machine.Above

/-- The plan of a routine in an image. -/
structure Image.Plans (image : Image) (b : Bytecode) (r : Bytecode.Routine) (p : Plan) : Prop where
  routine : r ∈ b.routines
  steps : ∃ ss, Lowering.routineSteps (.ofRoutine b r) = .ok ss ∧
    p = Lowering.planAt p.start (.ofRoutine b r) ss
  follows : image.Follows (.ofRoutine b r) p

/-- What is used of the image of a lowered program. -/
structure Image.Carries (image : Image) (b : Bytecode) : Prop where
  regular : Regular b
  plans : ∀ r ∈ b.routines, ∃ p, image.Plans b r p
  apart : ∀ r ∈ b.routines, ∀ r' ∈ b.routines, r ≠ r' → image.Apart b r r' ∨ image.Apart b r' r
  modest : ∀ r ∈ b.routines, (Context.ofRoutine b r).Modest
  literals : ∀ r, image.HasLiterals (.ofRoutine b r)
  library : image.LeavesLibrary
  globals : image.HasGlobals
  size : image.code.size ≤ 2 ^ 31

section Programs

variable {b : Bytecode} {image : Image} {heap : Heap}

theorem Regular.modest (hb : Regular b) {r : Bytecode.Routine} (hr : r ∈ b.routines)
    (frame : (Frame.ofRoutine b r).size < 2 ^ 31) : (Context.ofRoutine b r).Modest := by
  refine ⟨fun entry => ?_, ?_⟩
  · have signature : r.signature = b.entry := of_decide_eq_true entry
    have arity := hb.arity r hr
    rw [signature, hb.entry] at arity
    have none : r.parameters = [] := List.eq_nil_of_length_eq_zero arity.symm
    show (Frame.ofRoutine b r).parameters = []
    rw [Frame.parameters_ofRoutine, none]
    rfl
  · have size : (Context.ofRoutine b r).frame.size = 8 * (Context.ofRoutine b r).frame.inner.length :=
      rfl
    have small : (Context.ofRoutine b r).frame.size < 2 ^ 31 := frame
    omega

theorem Loaded.leavesLibrary (h : Loaded b image heap) : image.LeavesLibrary := by
  intro s k hs
  unfold libraryWords? at hs
  split at hs
  · rename_i counts
    rcases counts with rfl | rfl
    · exact h.library _ Symbol.not_numbered_retain (by decide)
    · exact h.library _ Symbol.not_numbered_release (by decide)
  · obtain ⟨i, hi, -⟩ := Option.map_eq_some_iff.mp hs
    have found : Intrinsic.all.find? (·.nativeSymbol = s) = some i := hi
    have there := List.find?_some found
    rw [← of_decide_eq_true there]
    exact h.library _ (Symbol.not_numbered_nativeSymbol i) (by cases i <;> decide)

theorem Loaded.carries (h : Loaded b image heap) (hb : Regular b) (ha : image.Addressable b) :
    image.Carries b := by
  refine ⟨hb, fun r hr => ?_, h.apart, fun r hr => hb.modest hr (ha.frame r hr), fun r i hi => ?_,
    h.leavesLibrary, h.globals, ha.code⟩
  · obtain ⟨ss, start, steps, follows⟩ := h.plans r hr
    exact ⟨_, hr, ⟨ss, steps, rfl⟩, follows⟩
  · rw [h.literals i hi]
    rfl

end Programs

/-! ## Calls that have not returned -/

/-- A call of a routine that has not returned: the height of its return address, and the words that
its caller had in registers. -/
structure Level where
  routine : Bytecode.Routine
  plan : Plan
  top : Nat
  kept : Register → Int32

namespace Level

variable (b : Bytecode) (L : Level)

/-- The context of the routine. -/
def context : Context :=
  .ofRoutine b L.routine

/-- The height above which the frame is. -/
def base : Nat :=
  L.top + (L.context b).kept.length

/-- The code of the routine is in an image, and the words that it is given are on the stack. -/
structure Lives (image : Image) : Prop where
  plans : image.Plans b L.routine L.plan
  given : (L.context b).given < L.top

end Level

/-- The words that the callers need are on the stack. -/
inductive Linked (b : Bytecode) (image : Image) (cell : Nat → Option Int32) :
    Level → List Awaited → Prop
  | host {L : Level} (entry : (L.context b).isEntry = true) (top : L.top = 1)
    (address : cell 1 = some hostAddress) (kept : ∀ r n, (r, n) ∈ hostRegisters → L.kept r = n) :
    Linked b image cell L [⟨none, heightWord 0, L.kept .ebp⟩]
  | call {L M : Level} {n index : Nat} {rest : List Awaited} (lives : M.Lives b image)
    (place : At image (M.context b) M.plan index (.standing n)) (top : L.top = M.base b + n + 1)
    (given : (L.context b).given ≤ n) (address : cell L.top = some (.ofNat index))
    (base : L.kept .ebp = heightWord (M.base b))
    (stored : Stored cell M.kept M.top (M.context b).kept) (linked : Linked b image cell M rest) :
    Linked b image cell L (⟨some index, heightWord (M.base b + n), L.kept .ebp⟩ :: rest)

/-- A callee that leaves the words of its caller alone keeps the links. -/
theorem Linked.congr {b : Bytecode} {image : Image} {cell cell' : Nat → Option Int32} {L : Level}
    {calls : List Awaited} (h : Linked b image cell L calls)
    (same : ∀ k, k + (L.context b).given < L.top ∨ k = L.top → cell' k = cell k) :
    Linked b image cell' L calls := by
  induction h with
  | host entry top address kept =>
    exact .host entry top ((same 1 (.inr top.symm)).trans address) kept
  | @call L M n index rest lives place top given address base stored _ ih =>
    have below (k : Nat) (hk : k ≤ M.base b) : cell' k = cell k := same k (.inl (by omega))
    have base_eq : M.base b = M.top + (M.context b).kept.length := rfl
    refine .call lives place top given ((same _ (.inr rfl)).trans address) base ?_ ?_
    · exact stored.congr fun k _ high => below k high
    · exact ih fun k hk => below k (by omega)

/-- A routine has been called and has not returned: what its caller, to which others are linked, goes
on with. -/
structure Suspended (b : Bytecode) (image : Image) (cell : Nat → Option Int32) (L M : Level)
    (n index : Nat) (rest : List Awaited) : Prop where
  lives : M.Lives b image
  place : At image (M.context b) M.plan index (.standing n)
  top : L.top = M.base b + n + 1
  given : (L.context b).given ≤ n
  address : cell L.top = some (.ofNat index)
  base : L.kept .ebp = heightWord (M.base b)
  stored : Stored cell M.kept M.top (M.context b).kept
  linked : Linked b image cell M rest

theorem Suspended.link {b : Bytecode} {image : Image} {cell : Nat → Option Int32} {L M : Level}
    {n index : Nat} {rest : List Awaited} (h : Suspended b image cell L M n index rest) :
    Linked b image cell L (⟨some index, heightWord (M.base b + n), L.kept .ebp⟩ :: rest) :=
  .call h.lives h.place h.top h.given h.address h.base h.stored h.linked

theorem Suspended.congr {b : Bytecode} {image : Image} {cell cell' : Nat → Option Int32} {L M : Level}
    {n index : Nat} {rest : List Awaited} (h : Suspended b image cell L M n index rest)
    (same : ∀ k, k + (L.context b).given < L.top ∨ k = L.top → cell' k = cell k) :
    Suspended b image cell' L M n index rest := by
  have top := h.top
  have given := h.given
  have base : M.base b = M.top + (M.context b).kept.length := rfl
  refine ⟨h.lives, h.place, top, given, (same _ (.inr rfl)).trans h.address, h.base, ?_, ?_⟩
  · exact h.stored.congr fun k _ high => same k (.inl (by omega))
  · exact h.linked.congr fun k hk => same k (.inl (by omega))

/-- What holds at every visit: control is in the code of the innermost routine, in a stage that a
view of the machine shows, and the calls are linked. -/
structure Disciplined (b : Bytecode) (image : Image) (x : Visit) (L : Level) (s : Stage) (v : View) :
    Prop where
  lives : L.Lives b image
  place : At image (L.context b) L.plan x.index s
  shown : s.Shown (L.context b) L.kept L.top v
  near : x.machine.Near v
  linked : Linked b image v.cell L x.awaited

/-- The machine is as the host expects it. -/
def Finished (m : Machine) : Prop :=
  ∃ v, m.Shows v ∧ v.height = 0 ∧ ∀ r n, (r, n) ∈ hostRegisters → v.registers.get r = n

/-- What an instruction comes to. -/
def Keeps (b : Bytecode) (image : Image) (awaited : List Awaited) :
    EStateM.Result Trap Machine (Option Nat) → Prop
  | .ok (some next) m => ∃ L s v, Disciplined b image ⟨next, m, awaited⟩ L s v
  | .ok none m => Finished m
  | .error t _ => t.isMistake = true

/-! ## One instruction -/

section Steps

variable {b : Bytecode} {image : Image} {x : Visit} {L : Level} {s s' : Stage} {v : View} {n t : Nat}

theorem Disciplined.ready (H : Disciplined b image x L s v) (S : x.machine.Shows v) :
    v.Ready (L.context b) L.top :=
  ⟨S.top, S.room, H.lives.given⟩

/-- An instruction that neither jumps nor leaves. -/
theorem Disciplined.works (hi : image.Carries b) (H : Disciplined b image x L s v) (S : x.machine.Shows v)
    {i : Instruction} (w : Works (L.context b) i s s')
    (next : s' ≠ .gone → At image (L.context b) L.plan (x.index + 1) s') :
    Keeps b image (x.behind image i) (Machine.execute image i (x.index + 1) x.machine) := by
  obtain ⟨e, done, met⟩ := w.exec (H.ready S) (hi.literals L.routine) hi.library H.shown
  have yields := S.exec hi.globals done (x.index + 1)
  rw [x.behind_of_exec done]
  cases e with
  | error e =>
    obtain ⟨m, he, -⟩ := yields
    rw [he]
    exact met
  | ok v' =>
    obtain ⟨m, he, near⟩ := yields
    obtain ⟨shown, spares⟩ := met
    rw [he]
    refine ⟨L, s', v', H.lives, next ?_, shown, near, H.linked.congr spares⟩
    rintro rfl
    exact shown

/-- A call of another routine begins that routine, for which the caller waits. -/
theorem Disciplined.enters (hi : image.Carries b) (H : Disciplined b image x L (.standing n) v)
    (S : x.machine.Shows v) {r : Bytecode.Routine} (hr : r ∈ b.routines)
    (hn : (Context.ofRoutine b r).given ≤ n)
    (next : At image (L.context b) L.plan (x.index + 1) (.standing n)) :
    ∃ p m, Machine.execute image (.call (Context.ofRoutine b r).symbol) (x.index + 1) x.machine =
        .ok (some p.start) m ∧
      x.behind image (.call (Context.ofRoutine b r).symbol) =
        ⟨some (x.index + 1), heightWord (L.base b + n), v.registers.ebp⟩ :: x.awaited ∧
      Disciplined b image
        ⟨p.start, m, x.behind image (.call (Context.ofRoutine b r).symbol)⟩
        ⟨r, p, v.height + 1, v.registers.get⟩ (.entering []) (v.push (.ofNat (x.index + 1))) ∧
      Suspended b image (v.push (.ofNat (x.index + 1))).cell ⟨r, p, v.height + 1, v.registers.get⟩ L
        n (x.index + 1) x.awaited := by
  obtain ⟨p, plans⟩ := hi.plans r hr
  obtain ⟨ss, steps, -⟩ := plans.steps
  obtain ⟨height, -, base, stored, written⟩ := H.shown
  rw [← height] at written
  have function := plans.follows.function
  obtain ⟨m, pushed, near⟩ := S.push (.ofNat (x.index + 1))
  have done : Machine.execute image (.call (Context.ofRoutine b r).symbol) (x.index + 1) x.machine =
      .ok (some p.start) m := by
    simp only [Machine.execute, function, Bind.bind, EStateM.bind, pushed]
    rfl
  have top : x.machine.registers.esp = heightWord (L.base b + n) := by
    rw [S.registers, S.top, height]
    rfl
  have behind : x.behind image (.call (Context.ofRoutine b r).symbol) =
      ⟨some (x.index + 1), heightWord (L.base b + n), v.registers.ebp⟩ :: x.awaited := by
    simp only [Visit.behind, function, Option.isSome_some, if_true, top]
    rw [S.registers]
  have suspended : Suspended b image (v.push (.ofNat (x.index + 1))).cell
      ⟨r, p, v.height + 1, v.registers.get⟩ L n (x.index + 1) x.awaited := by
    have below : L.top ≤ v.height := by omega
    refine ⟨H.lives, next, ?_, hn, View.cell_push v _, base, ?_, ?_⟩
    · show v.height + 1 = L.base b + n + 1
      rw [height]
      rfl
    · exact stored.push _ (by omega)
    · exact H.linked.congr (v.spares_push _ below)
  refine ⟨p, m, done, behind, ⟨⟨plans, ?_⟩, ?_, ⟨?_, trivial, ?_, ?_⟩, near, ?_⟩, suspended⟩
  · show (Context.ofRoutine b r).given < v.height + 1
    omega
  · exact at_start (hi.modest r hr) plans.follows (Lowering.size_pos_of_routineSteps steps)
  · exact View.height_push v _
  · exact fun q hq => View.get_push v _ (Context.ne_esp_of_mem_kept hq)
  · exact View.written_push _ written
  · rw [behind]
    exact suspended.link

theorem Disciplined.call (hi : image.Carries b) (H : Disciplined b image x L (.standing n) v)
    (S : x.machine.Shows v) {r : Bytecode.Routine} (hr : r ∈ b.routines)
    (hn : (Context.ofRoutine b r).given ≤ n)
    (next : At image (L.context b) L.plan (x.index + 1) (.standing n)) :
    Keeps b image (x.behind image (.call (Context.ofRoutine b r).symbol))
      (Machine.execute image (.call (Context.ofRoutine b r).symbol) (x.index + 1) x.machine) := by
  obtain ⟨p, m, done, -, entered, -⟩ := H.enters hi S hr hn next
  rw [done]
  exact ⟨_, _, _, entered⟩

/-- Where a jump goes to. -/
theorem Level.Lives.target (hi : image.Carries b) (lives : L.Lives b image)
    (h : (L.context b).IsTarget t) :
    image.labels.get? ((L.context b).label t) = some (L.plan.pos t) ∧
      At image (L.context b) L.plan (L.plan.pos t) (L.plan.stage (L.context b) t) := by
  obtain ⟨k, i, hk, ht⟩ := h
  obtain ⟨ds, after, -, -, -, jumps, -⟩ := lives.plans.follows.code k i hk
  obtain ⟨-, inside, label⟩ := jumps t ht
  exact ⟨label, at_pos hi.regular (hi.modest _ lives.plans.routine) lives.plans.follows inside⟩

theorem Machine.find_of_get? {l : Label} {index : Nat} (h : image.labels.get? l = some index)
    (m : Machine) : (some <$> find image l : Op (Option Nat)) m = .ok (some index) m := by
  simp only [find, h, Functor.map, EStateM.map, Pure.pure, EStateM.pure]

theorem Disciplined.jump (hi : image.Carries b)
    (H : Disciplined b image x L (L.plan.stage (L.context b) t) v) (h : (L.context b).IsTarget t) :
    Keeps b image x.awaited (Machine.execute image (.jmp ((L.context b).label t)) (x.index + 1)
      x.machine) := by
  obtain ⟨label, place⟩ := H.lives.target hi h
  have done : Machine.execute image (.jmp ((L.context b).label t)) (x.index + 1) x.machine =
      .ok (some (L.plan.pos t)) x.machine :=
    Machine.find_of_get? label x.machine
  rw [done]
  exact ⟨L, _, v, H.lives, place, H.shown, H.near, H.linked⟩

theorem Disciplined.branch (hi : image.Carries b)
    (H : Disciplined b image x L (L.plan.stage (L.context b) t) v) (h : (L.context b).IsTarget t)
    (condition : Condition)
    (next : At image (L.context b) L.plan (x.index + 1) (L.plan.stage (L.context b) t)) :
    Keeps b image x.awaited (Machine.execute image (.jcc condition ((L.context b).label t))
      (x.index + 1) x.machine) := by
  cases taken : x.machine.flags.holds condition with
  | true =>
    have done : Machine.execute image (.jcc condition ((L.context b).label t)) (x.index + 1)
        x.machine = Machine.execute image (.jmp ((L.context b).label t)) (x.index + 1)
          x.machine := by
      simp only [Machine.execute, Machine.holds, Bind.bind, EStateM.bind, taken, if_true]
    rw [done]
    exact H.jump hi h
  | false =>
    have done : Machine.execute image (.jcc condition ((L.context b).label t)) (x.index + 1)
        x.machine = .ok (some (x.index + 1)) x.machine := by
      simp only [Machine.execute, Machine.holds, Bind.bind, EStateM.bind, taken]
      rfl
    rw [done]
    exact ⟨L, _, v, H.lives, next, H.shown, H.near, H.linked⟩

/-- A routine that is about to return has the base pointer of its caller. -/
theorem Disciplined.base_of_leaving (H : Disciplined b image x L (.leaving []) v) :
    v.registers.ebp = L.kept .ebp := by
  obtain ⟨-, -, registers, -⟩ := H.shown
  refine registers .ebp ?_ List.not_mem_nil
  unfold Context.kept
  split <;> decide

theorem Disciplined.pop_of_leaving (H : Disciplined b image x L (.leaving []) v)
    (S : x.machine.Shows v) {address : Int32} (there : v.cell L.top = some address)
    (low : 1 ≤ L.top) :
    ∃ m, Machine.pop x.machine = .ok address m ∧ m.Shows (v.moveTop (L.top - 1)) := by
  have height : v.height = L.top := H.shown.1
  refine S.pop ?_
  unfold View.pop?
  rw [height, if_pos low, there]
  rfl

/-- Behind a return the caller goes on. -/
theorem Suspended.resumes (hi : image.Carries b) {M : Level} {index : Nat} {rest : List Awaited}
    (h : Suspended b image v.cell L M n index rest)
    (H : Disciplined b image x L (.leaving []) v) (S : x.machine.Shows v) :
    ∃ m, Machine.execute image .ret (x.index + 1) x.machine = .ok (some index) m ∧
      m.Shows (v.moveTop (L.top - 1)) ∧
      Disciplined b image ⟨index, m, rest⟩ M (.standing n) (v.moveTop (L.top - 1)) := by
  obtain ⟨lives, place, top, given, address, base, stored, linked⟩ := h
  obtain ⟨height, -, -, written⟩ := H.shown
  obtain ⟨m, hp, S'⟩ := H.pop_of_leaving S address (by omega)
  obtain ⟨i, -, -, there, -⟩ := place.instruction
  have inside : index < image.code.size := (Array.getElem?_eq_some_iff.mp there).1
  have small : index < 2 ^ 31 := Nat.lt_of_lt_of_le inside hi.size
  have number : (Int32.ofNat index).toInt = index := Int32.toInt_ofNat_of_lt small
  have other : Int32.ofNat index ≠ hostAddress := by
    intro same
    rw [same] at number
    have negative : hostAddress.toInt = -1 := by decide
    omega
  have lower : L.top - 1 = M.base b + n := by omega
  have high : M.base b + n ≤ v.height := by
    have same : v.height = L.top := height
    omega
  refine ⟨m, ?_, S', lives, place, ⟨?_, Nat.le_refl n, ?_, ?_, ?_⟩, S'.near, ?_⟩
  · simp only [Machine.execute, Machine.leave, Bind.bind, EStateM.bind, hp, if_neg other, number]
    rw [if_pos ⟨Int.natCast_nonneg index, inside⟩]
    rfl
  · exact lower
  · exact (View.get_moveTop v (L.top - 1) (r := .ebp) (by decide)).trans
      (H.base_of_leaving.trans base)
  · exact stored.moveTop _ (Nat.le_trans (Nat.le_add_right _ n) high)
  · refine View.written_moveTop (fun k low hk => written k low ?_) high
    exact Nat.le_trans hk high
  · refine linked.congr fun k hk => View.cell_moveTop_of_le v ?_
    have base_eq : M.base b = M.top + (M.context b).kept.length := rfl
    omega

/-- A routine returns with the stack and base pointers of its caller. -/
theorem Disciplined.ret (hi : image.Carries b) (H : Disciplined b image x L (.leaving []) v)
    (S : x.machine.Shows v) :
    ∃ y rest m, x.awaited = y :: rest ∧
      Machine.execute image .ret (x.index + 1) x.machine = .ok y.back m ∧
      m.registers.esp = y.top ∧ m.registers.ebp = y.base ∧ Keeps b image rest (.ok y.back m) := by
  obtain ⟨height, -, registers, written⟩ := H.shown
  have ebp := H.base_of_leaving
  have linked := H.linked
  cases hx : x.awaited with
  | nil =>
    rw [hx] at linked
    cases linked
  | cons y rest =>
    rw [hx] at linked
    cases linked with
    | host entry top address kept =>
      rw [← top] at address
      obtain ⟨m, hp, S'⟩ := H.pop_of_leaving S address (by omega)
      refine ⟨_, [], m, rfl, ?_, ?_, ?_, v.moveTop (L.top - 1), S', ?_, fun r n hr => ?_⟩
      · simp only [Machine.execute, Machine.leave, Bind.bind, EStateM.bind, hp, if_true]
        rfl
      · rw [S'.registers, S'.top, View.height_moveTop, top]
      · rw [S'.registers]
        exact (View.get_moveTop v (L.top - 1) (r := .ebp) (by decide)).trans ebp
      · rw [View.height_moveTop, top]
      · have host : (L.context b).kept = [.ebp, .edi, .esi, .ebx] := if_pos entry
        have mem : r ∈ (L.context b).kept ∧ r ≠ .esp := by
          rw [host]
          simp only [hostRegisters, List.mem_cons, Prod.mk.injEq, List.not_mem_nil, or_false] at hr
          rcases hr with ⟨rfl, -⟩ | ⟨rfl, -⟩ | ⟨rfl, -⟩ <;> decide
        rw [View.get_moveTop v _ mem.2, registers r mem.1 List.not_mem_nil]
        exact kept r n hr
    | @call _ M n index _ lives place top given address base stored linked =>
      have suspended : Suspended b image v.cell L M n index rest :=
        ⟨lives, place, top, given, address, base, stored, linked⟩
      obtain ⟨m, done, S', resumed⟩ := suspended.resumes hi H S
      refine ⟨_, rest, m, rfl, done, ?_, ?_, M, .standing n, _, resumed⟩
      · have lower : L.top - 1 = M.base b + n := by omega
        rw [S'.registers, S'.top, View.height_moveTop, lower]
      · rw [S'.registers]
        exact (View.get_moveTop v (L.top - 1) (r := .ebp) (by decide)).trans ebp

/-- A routine only returns once its frame is gone. -/
theorem Disciplined.returns (hi : image.Carries b) (H : Disciplined b image x L s v)
    (above : x.machine.Above) : x.Returns image := by
  intro here
  have plans := H.lives.plans
  obtain ⟨i, s', there, takes, -⟩ :=
    H.place.next hi.regular (hi.modest _ plans.routine) plans.follows
  cases Option.some.inj (here.symm.trans there)
  cases takes with
  | works w => nomatch w
  | ret =>
    obtain ⟨y, rest, m, awaited, done, top, base, -⟩ := H.ret hi (H.near.shows_of_above above)
    exact ⟨y, rest, m, awaited, done, top, base⟩

/-- An instruction preserves the invariant, returns to the host, or is a mistake of the program. -/
theorem Disciplined.step (hi : image.Carries b) (H : Disciplined b image x L s v) (above : x.machine.Above) :
    ∃ i, image.code[x.index]? = some i ∧
      Keeps b image (x.behind image i) (Machine.execute image i (x.index + 1) x.machine) := by
  have S := H.near.shows_of_above above
  have plans := H.lives.plans
  obtain ⟨i, s', here, takes, next⟩ :=
    H.place.next hi.regular (hi.modest _ plans.routine) plans.follows
  refine ⟨i, here, ?_⟩
  cases takes with
  | works w => exact H.works hi S w next
  | routine hr given => exact H.call hi S hr given (next (by nofun))
  | branch target => exact H.branch hi target _ (next (by nofun))
  | jump target => exact H.jump hi target
  | ret =>
    obtain ⟨y, rest, m, awaited, done, -, -, kept⟩ := H.ret hi S
    have behind : x.behind image .ret = rest := by
      show x.awaited.tail = rest
      rw [awaited]
      rfl
    rw [done, behind]
    exact kept

end Steps

/-! ## Whole runs -/

section Runs

variable {b : Bytecode} {image : Image} {heap : Heap} {input : List Int32} {n limit : Nat}
  {x : Visit} {L : Level} {s : Stage} {v : View} {m : Machine}

/-- The host has put its return address on the stack and its words into registers. -/
theorem enter_shows (words : image.words = [(0x00010000, 0), (0x00010004, 0), (0x00010008, 0)]) :
    ∃ m v, Machine.enter (.start image.words heap input) = .ok () m ∧ m.Near v ∧ v.height = 1 ∧
      v.cell 1 = some hostAddress ∧ v.registers.ebp = 0 ∧
      ∀ r n, (r, n) ∈ hostRegisters → v.registers.get r = n := by
  let registers : Registers := ⟨0, 0x5eed0001, 0, 0, 0x5eed0002, 0x5eed0003, 0, heightWord 0⟩
  let m : Machine := { Machine.start image.words heap input with registers }
  let v : View :=
    ⟨registers, 0, fun _ => none, fun _ => 0, ⟨false, false, false⟩, ⟨heap, ⟨input, #[]⟩⟩⟩
  have S : m.Shows v := by
    refine ⟨rfl, rfl, rfl, rfl, Nat.zero_le _, fun k w _ _ hw => ?_, fun g => ?_⟩
    · cases hw
    · show (Std.TreeMap.ofList image.words)[g.address]? = some 0
      rw [words]
      cases g <;> rfl
  obtain ⟨m', pushed, near⟩ := S.push hostAddress
  refine ⟨m', v.push hostAddress, pushed, near, View.height_push v _, View.cell_push v _, ?_, ?_⟩
  · exact View.get_push v _ (r := .ebp) (by decide)
  · intro r n hr
    simp only [hostRegisters, List.mem_cons, Prod.mk.injEq, List.not_mem_nil, or_false] at hr
    rcases hr with ⟨rfl, rfl⟩ | ⟨rfl, rfl⟩ | ⟨rfl, rfl⟩ <;> exact View.get_push v _ (by decide)

/-- What is used of a program that the host can run. -/
structure Image.Starts (image : Image) (b : Bytecode) : Prop where
  carries : image.Carries b
  entry : (b.routine? b.entry).isSome
  words : image.words = [(0x00010000, 0), (0x00010004, 0), (0x00010008, 0)]

/-- The host calls the routine at which the program starts. -/
theorem Image.Starts.enter (hs : image.Starts b) (heap : Heap) (input : List Int32) :
    ∃ m p, Machine.enter (.start image.words heap input) = .ok () m ∧
      image.functions.get? Symbol.main = some p ∧
      ∃ L s v, Disciplined b image ⟨p, m, [⟨none, stackTop.toInt32, 0⟩]⟩ L s v := by
  obtain ⟨r, found⟩ := Option.isSome_iff_exists.mp hs.entry
  have hr : r ∈ b.routines := List.mem_of_find?_eq_some found
  have there := List.find?_some found
  have signature : r.signature = b.entry := of_decide_eq_true there
  have main : (Context.ofRoutine b r).symbol = Symbol.main := by
    show Symbol.ofSignature b.entry r.signature = _
    rw [signature, Symbol.ofSignature, if_pos rfl, hs.carries.regular.entry]
  have entry : (Context.ofRoutine b r).isEntry = true := decide_eq_true signature
  obtain ⟨p, plans⟩ := hs.carries.plans r hr
  obtain ⟨ss, steps, -⟩ := plans.steps
  obtain ⟨m, v, entered, near, height, address, ebp, kept⟩ := enter_shows hs.words
  have given : (Context.ofRoutine b r).given = 0 := if_pos entry
  refine ⟨m, p.start, entered, main ▸ plans.follows.function, ⟨r, p, 1, v.registers.get⟩,
    .entering [], v, ⟨plans, ?_⟩, ?_, ⟨height, trivial, fun _ _ => rfl, ?_⟩, near, ?_⟩
  · show (Context.ofRoutine b r).given < 1
    omega
  · exact at_start (hs.carries.modest r hr) plans.follows (Lowering.size_pos_of_routineSteps steps)
  · intro k low high
    have first : k = 1 := by omega
    rw [first, address]
    rfl
  · have host : Linked b image v.cell ⟨r, p, 1, v.registers.get⟩
        [⟨none, stackTop.toInt32, v.registers.ebp⟩] := .host entry rfl address kept
    rw [ebp] at host
    exact host

/-- The invariant holds at all visits of a run. -/
theorem Machine.Visited.holds (hs : image.Starts b)
    (h : Visited image (.start image.words heap input) n x) : ∃ L s v, Disciplined b image x L s v := by
  induction h with
  | host hm hi =>
    obtain ⟨m, p, entered, main, H⟩ := hs.enter heap input
    rw [entered] at hm
    rw [main] at hi
    cases hm
    cases hi
    exact H
  | next _ above hi he ih =>
    obtain ⟨L, s, v, H⟩ := ih
    obtain ⟨i, here, kept⟩ := H.step hs.carries above
    rw [hi] at here
    cases here
    rw [he] at kept
    exact kept

/-- How a run may end. -/
def Ended (limit : Nat) : EStateM.Result Trap Machine Nat → Prop
  | .ok _ m => Finished m
  | .error t _ => t = .stepLimit limit ∨ t.isMistake = true

theorem Machine.Visited.run (hs : image.Starts b) {remaining : Nat}
    (h : Visited image (.start image.words heap input) n x) (total : n + remaining = limit)
    (above : StaysAbove image (.start image.words heap input) limit) :
    Ended limit (Machine.run image limit remaining x.index x.machine) := by
  induction remaining generalizing n x with
  | zero => exact .inl rfl
  | succ remaining ih =>
    have here := above n (by omega) x h
    obtain ⟨L, s, v, H⟩ := h.holds hs
    obtain ⟨i, hi, kept⟩ := H.step hs.carries here
    simp only [Machine.run, hi, Bind.bind, EStateM.bind]
    cases he : Machine.execute image i (x.index + 1) x.machine with
    | error t m =>
      rw [he] at kept
      exact .inr kept
    | ok next m =>
      rw [he] at kept
      cases next with
      | none => exact kept
      | some index => exact ih (h.next here hi he) (by omega)

theorem Finished.check (h : Finished m) : Machine.check m = .ok () m := by
  obtain ⟨v, S, height, kept⟩ := h
  have top : m.registers.esp = heightWord 0 := by rw [S.registers, S.top, height]
  have ebx : m.registers.ebx = 0x5eed0001 := by
    rw [S.registers]
    exact kept .ebx _ (by decide)
  have esi : m.registers.esi = 0x5eed0002 := by
    rw [S.registers]
    exact kept .esi _ (by decide)
  have edi : m.registers.edi = 0x5eed0003 := by
    rw [S.registers]
    exact kept .edi _ (by decide)
  have place : (heightWord 0).toUInt32 = stackTop := by decide
  simp [Machine.check, Machine.get, hostRegisters, Bind.bind, EStateM.bind, Registers.get, top, ebx,
    esi, edi, place, Pure.pure, EStateM.pure]

theorem Finished.uncaught (hg : image.HasGlobals) (h : Finished m) (a : Assembly) :
    ∃ r, Machine.uncaught a image m = .ok r m := by
  obtain ⟨v, S, -, -⟩ := h
  have load (g : Global) : Machine.load g.address.toInt32.toUInt32 m = .ok (v.globals g) m := by
    rw [UInt32.toUInt32_toInt32]
    simp only [Machine.load, S.globals g]
  have number : image.data.get? Symbol.uncaught = some Global.uncaught.address.toInt32 :=
    hg .uncaught
  have payload : image.data.get? Symbol.payload = some Global.payload.address.toInt32 := hg .payload
  unfold Machine.uncaught
  simp only [number, Machine.datum, payload, Bind.bind, EStateM.bind, Pure.pure, load]
  split
  · exact ⟨_, rfl⟩
  · simp only [EStateM.bind, EStateM.pure, load]
    exact ⟨_, rfl⟩

/-- The plan of a routine is the one that its steps give. -/
theorem Image.Plans.planAt {r : Bytecode.Routine} {p : Plan} (h : image.Plans b r p)
    {ss : List Lowering.Step} {start : Nat} (steps : Lowering.routineSteps (.ofRoutine b r) = .ok ss)
    (function : image.functions.get? (Context.ofRoutine b r).symbol = some start) :
    p = Lowering.planAt start (.ofRoutine b r) ss := by
  obtain ⟨ss', steps', plan⟩ := h.steps
  rw [steps] at steps'
  cases steps'
  have same : start = p.start := Option.some.inj (function.symm.trans h.follows.function)
  rw [same]
  exact plan

/-- Control is in the code of one routine only. -/
theorem At.routine_eq (hi : image.Carries b) {r r' : Bytecode.Routine} {p p' : Plan} {index : Nat}
    {s s' : Stage} (hp : image.Plans b r p) (hp' : image.Plans b r' p')
    (h : At image (.ofRoutine b r) p index s) (h' : At image (.ofRoutine b r') p' index s') :
    r = r' := by
  have behind {r r' : Bytecode.Routine} {p p' : Plan} (hp : image.Plans b r p)
      (hp' : image.Plans b r' p') (apart : image.Apart b r r') : p.pos r.code.size ≤ p'.start := by
    obtain ⟨ss, steps, plan⟩ := hp.steps
    obtain ⟨ts, flowing⟩ := Lowering.routineSteps_flowing steps
    have size : ss.length = r.code.size := flowing.length
    have order := apart ss _ _ steps hp.follows.function hp'.follows.function
    rw [← plan, size] at order
    exact order
  have low := h.low
  have low' := h'.low
  have high : index < p.pos r.code.size := h.high
  have high' : index < p'.pos r'.code.size := h'.high
  refine Classical.byContradiction fun ne => ?_
  rcases hi.apart r hp.routine r' hp'.routine ne with apart | apart
  · have order := behind hp hp' apart
    omega
  · have order := behind hp' hp apart
    omega

/-- Where the code of an instruction of the bytecode begins, control is in its routine, and the frame has
the variables and the operands there. -/
theorem Disciplined.begins (hi : image.Carries b) (H : Disciplined b image x L s v)
    {r : Bytecode.Routine} (hr : r ∈ b.routines) {k : Nat} {st : Lowering.Step}
    (h : image.Begins b r k st x.index) :
    L.routine = r ∧ k < r.code.size ∧ L.plan.pos k = x.index ∧ L.plan.shape k = st.operands ∧
      s = .standing ((L.context b).extent st.operands) := by
  obtain ⟨ss, start, steps, function, hst, pos⟩ := h.place
  obtain ⟨p, plans⟩ := hi.plans r hr
  have plan := plans.planAt steps function
  rw [← plan] at pos
  have hk : k < r.code.size := by
    obtain ⟨ts, flowing⟩ := Lowering.routineSteps_flowing steps
    have size : ss.length = r.code.size := flowing.length
    rw [← size]
    exact (List.getElem?_eq_some_iff.mp hst).1
  have place := at_pos hi.regular (hi.modest r hr) plans.follows hk
  rw [pos] at place
  obtain ⟨routine, plan', top, kept⟩ := L
  have same : routine = r := H.place.routine_eq hi H.lives.plans plans place
  subst same
  have both : plan' = p := (H.lives.plans.planAt steps function).trans plan.symm
  subst both
  have shape : plan'.shape k = st.operands := by
    rw [plan]
    exact Lowering.shapeOf_of_getElem? hst
  have stage := H.place.stage k hk pos
  unfold Plan.stage at stage
  rw [shape] at stage
  exact ⟨rfl, hk, pos, shape, stage.symm⟩

/-- Where the code of an instruction of the bytecode begins, the height of the stack is that of the
operands there. -/
theorem Disciplined.height (hi : image.Carries b) (H : Disciplined b image x L s v)
    (above : x.machine.Above) {r : Bytecode.Routine} (hr : r ∈ b.routines) {k : Nat}
    {st : Lowering.Step} (h : image.Begins b r k st x.index) :
    x.machine.registers.esp = x.machine.registers.ebp - .ofNat (Frame.ofRoutine b r).size -
      .ofNat (8 * (st.operands.depth - 2)) := by
  have S := H.near.shows_of_above above
  obtain ⟨rfl, -, -, -, rfl⟩ := H.begins hi hr h
  obtain ⟨height, -, base, -, -⟩ := H.shown
  have size : (Frame.ofRoutine b L.routine).size =
      4 * (2 * (L.context b).frame.inner.length) := by
    have bytes : (Frame.ofRoutine b L.routine).size = 8 * (L.context b).frame.inner.length := rfl
    omega
  have operands : 8 * (st.operands.depth - 2) = 4 * (2 * (st.operands.depth - 2)) := by omega
  rw [S.registers, S.top, base, size, operands, heightWord_sub, heightWord_sub, height]
  unfold Context.extent
  rw [← Nat.add_assoc]

/-- A run ends as it should, is stopped by the limit, or comes to a mistake of the program. -/
theorem Image.Starts.run (hs : image.Starts b) {a : Assembly} (load : a.load = .ok (image, heap))
    (above : StaysAbove image (.start image.words heap input) limit) {t : Trap} (h : a.run input limit = .error t) :
    t = .stepLimit limit ∨ t.isMistake = true := by
  obtain ⟨m, p, entered, main, -⟩ := hs.enter heap input
  have ended := (Visited.host entered main).run hs (Nat.zero_add limit) above
  unfold Assembly.run at h
  simp only [load, Bind.bind, Except.bind, Assembly.runImage, main, EStateM.bind, entered] at h
  cases done : Machine.run image limit limit p m with
  | error t' m' =>
    rw [done] at ended
    simp only [done] at h
    cases h
    exact ended
  | ok remaining m' =>
    rw [done] at ended
    obtain ⟨u, uncaught⟩ := Finished.uncaught hs.carries.globals ended a
    simp only [done, Finished.check ended, Machine.get, uncaught] at h
    cases h

end Runs

/-- Generated code leaves the stack as it is expected, and every function returns to its caller, so
nothing but the limit and mistakes of the program can stop a run, as long as there are no more than
`2 ^ 31` instructions and every frame is smaller than `2 ^ 31` bytes. -/
theorem stack_discipline {b : Bytecode} {a : Assembly} (hb : Regular b) (ha : b.lower = .ok a) :
    ∃ image heap, a.load = .ok (image, heap) ∧ (image.Addressable b → ∀ input : List Int32,
      (∀ n x, Visited image (.start image.words heap input) n x → x.machine.Above →
        x.Balanced b image) ∧
      ∀ limit, StaysAbove image (.start image.words heap input) limit →
        ∀ t, a.run input limit = .error t → t = .stepLimit limit ∨ t.isMistake = true) := by
  obtain ⟨image, heap, load, loaded⟩ := loaded_of_lower hb ha
  refine ⟨image, heap, load, fun addressable input => ?_⟩
  have starts : image.Starts b :=
    ⟨loaded.carries hb addressable, (Lowering.parts_of_lower ha).1, loaded.words⟩
  refine ⟨fun n x visited above => ?_, fun limit above t h => starts.run load above h⟩
  obtain ⟨L, s, v, H⟩ := visited.holds starts
  exact ⟨fun r hr k st h => H.height starts.carries above hr h, H.returns starts.carries above⟩

/-- A call among operands, of which the innermost ones are on the machine stack. -/
def nested : Bytecode where
  routines := [
    ⟨⟨"main", 0⟩, [],
      #[.push 1, .push 2, .push 3, .push 4, .call (.routine ⟨"twice", 1⟩), .binary .plus,
        .binary .plus, .binary .plus, .call (.intrinsic .write), .pop, .returnZero], false⟩,
    ⟨⟨"twice", 1⟩, ["x"],
      #[.load (.named "x"), .load (.named "x"), .binary .plus, .returnValue], false⟩]
  entry := ⟨"main", 0⟩
  literals := []
  exceptions := []

theorem stack_discipline_nested :
    ∃ a image heap, nested.lower = .ok a ∧ a.load = .ok (image, heap) ∧ ∀ input : List Int32,
      (∀ n x, Visited image (.start image.words heap input) n x → x.machine.Above →
        x.Balanced nested image) ∧
      ∀ limit, StaysAbove image (.start image.words heap input) limit →
        ∀ t, a.run input limit = .error t → t = .stepLimit limit ∨ t.isMistake = true := by
  have regular : Regular nested := ⟨by decide, by decide, rfl⟩
  have small : (match nested.lower with
      | .ok a => match a.load with
        | .ok (image, _) => decide (image.code.size ≤ 2 ^ 31)
        | .error _ => false
      | .error _ => false) = true := by decide +kernel
  cases lowered : nested.lower with
  | error e =>
    rw [lowered] at small
    cases small
  | ok a =>
    obtain ⟨image, heap, load, disciplined⟩ := stack_discipline regular lowered
    simp only [lowered, load, decide_eq_true_eq] at small
    have addressable : image.Addressable nested := ⟨small, by decide⟩
    exact ⟨a, image, heap, rfl, load, disciplined addressable⟩

end Threefold.X86
