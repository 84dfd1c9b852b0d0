import Threefold.Proofs.X86.Activations
import Threefold.Proofs.X86.Homes

/-!
# The number of an exception on its way to the caller

A caller leaves a word for the number of an exception above the arguments of a call. An activation
writes to that word in one place only, in front of its return, so the caller finds there what the callee
has handed over, or what it has left there itself.

* `Calm.path` says that the word stays as it is where the code that hands over an exception does not
  begin. That code apart, the code of a routine is the same as if it could not throw (`sealed`), and then
  it would own no such word.
* `Comeback.handed` says that the number and the payload reach the caller where that code begins.
-/

namespace Threefold.X86

open Machine (Awaited Visit)
open Directive (codeOf)
open View (Runs Same)

/-! ## Code that does not hand over an exception -/

/-- The routine as if it could not throw. Its callers leave no word for the number of an exception. -/
def sealed (r : Bytecode.Routine) : Bytecode.Routine :=
  { r with canThrow := false }

/-- Only where it hands over an exception, the code of a routine depends on whether it can throw. -/
theorem Lowering.code_sealed {b : Bytecode} {r : Bytecode.Routine} {k : Nat} {s : Operands}
    {i : Bytecode.Instruction} (h : i ≠ .transfer) :
    Lowering.code (.ofRoutine b (sealed r)) k s i = Lowering.code (.ofRoutine b r) k s i := by
  cases i <;> first | rfl | exact absurd rfl h

theorem Context.given_sealed (b : Bytecode) (r : Bytecode.Routine) :
    (Context.ofRoutine b (sealed r)).given ≤ (Context.ofRoutine b r).given := by
  show (if (Context.ofRoutine b r).isEntry then 0
    else 2 * (Context.ofRoutine b r).frame.parameters.length) ≤ (Context.ofRoutine b r).given
  unfold given
  split
  · exact Nat.le_refl _
  · exact Nat.le_add_right _ _

/-- At a visit the code begins with which a routine hands over an exception. -/
def Level.Hands (L : Level) (x : Visit) : Prop :=
  ∃ k, L.routine.code[k]? = some .transfer ∧ x.index = L.plan.pos k

/-- The context of the routine as if it could not throw. -/
def Level.sealed (b : Bytecode) (L : Level) : Context :=
  .ofRoutine b (X86.sealed L.routine)

theorem Context.given_of_canThrow {c : Context} (throws : c.routine.canThrow = true)
    (host : c.isEntry = false) : c.given = 2 * c.frame.parameters.length + 1 := by
  unfold given
  rw [if_neg (Bool.eq_false_iff.mp host), if_pos throws]

/-- What is left of a piece of code that does not hand over an exception. -/
structure Level.Remains (b : Bytecode) (image : Image) (L : Level) (index : Nat) (is : Code) (s : Stage) :
    Prop where
  located : Machine.Located image index is
  behind : ∃ s' k, Leads (L.sealed b) L.plan is s s' ∧ index + is.length = L.plan.pos k ∧
    (s' = .gone ∨ k < L.routine.code.size ∧ s' = L.plan.stage (L.context b) k)

/-- At a visit an activation executes code that does not hand over an exception. -/
def Calm (b : Bytecode) (image : Image) (L : Level) (x : Visit) (v : View) : Prop :=
  ∃ i is s s', image.code[x.index]? = some i ∧ Takes (L.sealed b) L.plan i s s' ∧
    L.Remains b image (x.index + 1) is s' ∧ s.Shown (L.context b) L.kept L.top v

section Calm

variable {b : Bytecode} {image : Image} {L : Level} {x y : Visit} {v v' : View} {k n : Nat}

theorem Level.Remains.calm {is : Code} {i : Instruction} {s : Stage}
    (h : L.Remains b image x.index (i :: is) s) (shown : s.Shown (L.context b) L.kept L.top v) :
    Calm b image L x v := by
  obtain ⟨⟨here, located⟩, s', k, leads, place, next⟩ := h
  cases leads with
  | @cons _ _ _ s₁ _ takes leads =>
    rw [List.length_cons] at place
    exact ⟨i, is, s, s₁, here, takes, ⟨located, s', k, leads, by omega, next⟩, shown⟩

/-- The code of an instruction that does not hand over an exception. -/
theorem calm_of_pos (hi : image.Carries b) (lives : L.Lives b image) (hk : k < L.routine.code.size)
    (index : x.index = L.plan.pos k) (quiet : ¬ L.Hands x)
    (shown : (L.plan.stage (L.context b) k).Shown (L.context b) L.kept L.top v) :
    Calm b image L x v := by
  have F := lives.plans.follows
  have hc := hi.modest _ lives.plans.routine
  -- An instruction without code hands control on to the next one.
  induction rest : L.routine.code.size - k generalizing k with
  | zero => omega
  | succ n ih =>
    have there : L.routine.code[k]? = some L.routine.code[k] := Array.getElem?_eq_getElem hk
    have other : L.routine.code[k] ≠ .transfer := fun same => quiet ⟨k, same ▸ there, index⟩
    obtain ⟨ds, after, lowered, located, behind, jumps, falls⟩ := F.code k _ there
    cases code : codeOf ds with
    | nil =>
      rw [code] at behind
      obtain ⟨inside, stage⟩ := stage_of_empty hi.regular hc F hk behind
      have same : L.plan.stage (L.context b) (k + 1) = L.plan.stage (L.context b) k := stage
      exact ih inside (index.trans behind.symm) (same ▸ shown) (by omega)
    | cons i is =>
      have lowered' : Lowering.code (L.sealed b) k (L.plan.shape k) L.routine.code[k] =
        .ok (ds, after) := (Lowering.code_sealed other).trans lowered
      have leads := leads_code (r := X86.sealed L.routine) (p := L.plan) hi.regular
        ⟨hc.entry, hc.small⟩ lowered' fun t ht => ⟨(jumps t ht).1, k, _, there, ht⟩
      rw [code] at leads located behind
      suffices remains : L.Remains b image x.index (i :: is) (L.plan.stage (L.context b) k) from
        remains.calm shown
      refine ⟨index ▸ located, _, k + 1, leads, by rw [index, behind], ?_⟩
      unfold stageBehind
      split
      · exact .inl rfl
      · rename_i flows
        obtain ⟨inside, shape⟩ := falls (Bool.eq_false_iff.mpr flows)
        refine .inr ⟨inside, ?_⟩
        unfold Plan.stage
        rw [shape]
        rfl

/-- The code in front of a routine does not hand over an exception. -/
theorem calm_of_start (hi : image.Carries b) (lives : L.Lives b image) (index : x.index = L.plan.start)
    (shown : (Stage.entering []).Shown (L.context b) L.kept L.top v) (size : 0 < L.routine.code.size) :
    Calm b image L x v := by
  have F := lives.plans.follows
  have hc := hi.modest _ lives.plans.routine
  have leads : Leads (L.sealed b) L.plan (Code.prologue (L.context b)) (.entering [])
      (.standing (2 * (L.context b).frame.inner.length)) :=
    Leads.prologue (c := L.sealed b) ⟨hc.entry, hc.small⟩
  have stage : Stage.standing (2 * (L.context b).frame.inner.length) =
      L.plan.stage (L.context b) 0 := by
    unfold Plan.stage
    rw [F.shape]
    rfl
  have remains : L.Remains b image x.index (Code.prologue (L.context b)) (.entering []) :=
    ⟨index ▸ F.prologue, _, 0, leads, index ▸ F.first.symm, .inr ⟨size, stage⟩⟩
  cases code : Code.prologue (L.context b) with
  | nil =>
    rw [code] at leads
    cases leads
  | cons i is =>
    rw [code] at remains
    exact remains.calm shown

/-- Behind an instruction. -/
theorem Level.Remains.next {is : Code} {s : Stage} (hi : image.Carries b) (lives : L.Lives b image)
    (h : L.Remains b image (x.index + 1) is s) (index : y.index = x.index + 1)
    (shown : s.Shown (L.context b) L.kept L.top v) (quiet : ¬ L.Hands y) : Calm b image L y v := by
  rw [← index] at h
  cases is with
  | cons i is => exact h.calm shown
  | nil =>
    obtain ⟨-, s', k, leads, place, next⟩ := h
    cases leads
    rcases next with rfl | ⟨hk, rfl⟩
    · exact absurd shown id
    · exact calm_of_pos hi lives hk place quiet shown

/-- What the code of a routine spares that does not hand over an exception. -/
theorem View.Spares.sealed (h : v.Spares (L.sealed b) L.top v') {T : Nat}
    (below : T + 2 * (L.context b).frame.parameters.length < L.top) : v'.cell T = v.cell T := by
  refine h T (.inl ?_)
  have given : (L.sealed b).given ≤ 2 * (L.context b).frame.parameters.length := by
    unfold Context.given
    split
    · exact Nat.zero_le _
    · exact Nat.le_refl _
  omega

/-- Where a jump goes to. -/
theorem calm_of_target (hi : image.Carries b) {s : Stage} {t : Nat} (H : Disciplined b image y L s v)
    (target : (L.context b).IsTarget t) (index : y.index = L.plan.pos t) (quiet : ¬ L.Hands y) :
    Calm b image L y v := by
  obtain ⟨k, i, there, jump⟩ := target
  obtain ⟨ds, after, -, -, -, jumps, -⟩ := H.lives.plans.follows.code k i there
  have inside := (jumps t jump).2.1
  exact calm_of_pos hi H.lives inside index quiet (H.place.stage t inside index.symm ▸ H.shown)

theorem Disciplined.awaited_ne_nil {s : Stage} (H : Disciplined b image x L s v) : x.awaited ≠ [] := by
  intro none
  have linked := H.linked
  rw [none] at linked
  cases linked

/-- Where control is in the code of a routine determines how high the stack is. -/
theorem Stage.Shown.standing_inj {c : Context} {kept : Register → Int32} {top m : Nat}
    (h : (Stage.standing n).Shown c kept top v) (h' : (Stage.standing m).Shown c kept top v) : n = m := by
  have height := h.1
  have height' := h'.1
  omega

theorem Calm.stride (hi : image.Carries b) (calm : Calm b image L x v)
    (stride : Stride b image L n x v y v') (above : x.machine.Above) (quiet : ¬ L.Hands y) :
    Calm b image L y v' ∧ v.Spares (L.sealed b) L.top v' := by
  obtain ⟨i, is, s, s', here, takes, remains, shown⟩ := calm
  cases stride with
  | inner H inner H' =>
    obtain ⟨j, there, advances⟩ := inner.advances
    obtain rfl := Option.some.inj (here.symm.trans there)
    have ready := H.ready (H.near.shows_of_above above)
    have given : (L.sealed b).given < L.top :=
      Nat.lt_of_le_of_lt (Context.given_sealed b L.routine) H.lives.given
    cases takes with
    | works w =>
      obtain ⟨e, worked, met⟩ := w.exec ⟨ready.topped, ready.room, given⟩
        (hi.literals (X86.sealed L.routine)) hi.library shown
      cases advances with
      | works worked' index =>
        cases worked.symm.trans worked'
        exact ⟨remains.next hi H.lives index met.1 quiet, met.2⟩
      | passes => cases worked
      | jumps jump => rcases jump with rfl | ⟨_, rfl⟩ <;> cases worked
    | routine hr =>
      obtain ⟨p, plans⟩ := hi.plans _ hr
      obtain ⟨i, there, -, behind⟩ := inner.next
      obtain rfl := Option.some.inj (here.symm.trans there)
      have function : image.functions.get?
        (Context.ofRoutine (L.sealed b).bytecode _).symbol = some p.start := plans.follows.function
      have longer := congrArg List.length (behind.symm.trans inner.awaited)
      simp [Visit.behind, function] at longer
    | branch target =>
      cases advances with
      | works worked => cases worked
      | passes index => exact ⟨remains.next hi H.lives index shown quiet, fun _ _ => rfl⟩
      | jumps _ target index => exact ⟨calm_of_target hi H' target index quiet, fun _ _ => rfl⟩
    | jump target =>
      cases advances with
      | works worked => cases worked
      | jumps _ target index => exact ⟨calm_of_target hi H' target index quiet, fun _ _ => rfl⟩
    | ret =>
      obtain ⟨i, there, -, behind⟩ := inner.next
      obtain rfl := Option.some.inj (here.symm.trans there)
      have shorter : x.awaited.tail = x.awaited := behind.symm.trans inner.awaited
      have length := congrArg List.length shorter
      have some := List.length_pos_iff.mpr H.awaited_ne_nil
      rw [List.length_tail] at length
      omega
  | @call _ m _ _ _ _ r H mem given there steps index awaited spares resumed =>
    obtain ⟨p, plans⟩ := hi.plans r mem
    have function := plans.follows.function
    generalize (Context.ofRoutine b r).symbol = symbol at there function
    obtain rfl := Option.some.inj (here.symm.trans there)
    cases takes with
    | works w =>
      cases w with
      | plain h => cases h
      | library hs => cases (hi.library _ _ hs).symm.trans function
    | routine =>
      obtain rfl := shown.standing_inj H.shown
      refine ⟨remains.next hi H.lives index resumed.shown quiet, fun j hj => spares j ?_⟩
      have height := H.shown.1
      omega

/-- An activation that hands over no exception leaves the word for the number of one alone. -/
theorem Calm.path (hi : image.Carries b) (calm : Calm b image L x v) (path : Path b image L n x v y v')
    (above : x.StaysAbove image n)
    (quiet : ∀ k ≤ n, ∀ z, x.Steps image k z → z.awaited = x.awaited → ¬ L.Hands z) :
    v.Spares (L.sealed b) L.top v' := by
  induction path with
  | refl => exact fun _ _ => rfl
  | @step k n x y z v v' w first rest ih =>
    obtain ⟨calm', spares⟩ := calm.stride hi first above.now
      (quiet k (Nat.le_add_right k n) y first.steps first.awaited)
    have later := above.later first.steps (Nat.le_add_right k n)
    rw [Nat.add_sub_cancel_left] at later
    have spares' := ih calm' later fun j hj t ht same =>
      quiet (k + j) (Nat.add_le_add_left hj k) t (first.steps.trans ht) (same.trans first.awaited)
    exact fun j hj => (spares' j hj).trans (spares j hj)

end Calm

/-! ## Code that hands over an exception -/

namespace View

variable {image : Image} {v : View} {n : Int32} {E : Trap → World → Prop}

/-- Hand over the number of an exception and its payload. -/
theorem Runs.hand {home params j : Nat} {pending data : Words} {id : Int32} {r : Raw}
    (topped : v.Topped) (ebp : v.registers.ebp = heightWord home) (inside : v.height ≤ room)
    (low : 2 * params + 3 ≤ home) (hj : data = Frame.innerWords j) (high : home + 2 * j + 2 ≤ v.height)
    (number : v.read image pending.value = some id)
    (payload : v.Denotes image data r) :
    Runs image (Code.move pending.value (.frame (8 + 8 * params)) ++
      Code.moveWords data (Frame.homeWords .payload)) v (fun v' =>
        v.Moved (· = home - 2 - 2 * params) v' ∧ v'.cell (home - 2 - 2 * params) = some id ∧
          v'.globals .payload = r.word ∧ v'.globals .payloadTag = r.code) E := by
  have read {v' : View} (moved : v.Moved (· = home - 2 - 2 * params) v') :
      v'.Denotes image data r := by
    have height := moved.alters.height
    have other {k : Nat} (hk : home < k) : v'.cell k = v.cell k :=
      moved.alters.cell k fun same => by omega
    have reads := View.read_inner image (i := j) ebp high inside
    have reads' := View.read_inner image (i := j) (moved.alters.base.trans ebp) (height ▸ high)
      (height ▸ inside)
    subst hj
    refine ⟨reads'.1.trans ((other (by omega)).trans (reads.1.symm.trans payload.value)),
      reads'.2.trans ((other (by omega)).trans (reads.2.symm.trans payload.tag))⟩
  unfold Code.moveWords
  refine Runs.append ((Runs.moveFrame (k := home - 2 - 2 * params) (· = home - 2 - 2 * params) topped
    ebp number (by omega) (by omega) (by omega) inside rfl).imp fun v₁ ⟨moved₁, cell₁, _⟩ => ?_)
  refine Runs.append ((Runs.moveGlobal (· = home - 2 - 2 * params) moved₁.topped (read moved₁).value
    .payload).imp fun v₂ ⟨moved₂, cell₂, globals₂⟩ => ?_)
  have moved := moved₁.trans moved₂
  refine (Runs.moveGlobal (· = home - 2 - 2 * params) moved₂.topped (read moved).tag
    .payloadTag).imp fun v₃ ⟨moved₃, cell₃, globals₃⟩ => ?_
  refine ⟨moved.trans moved₃, ?_, ?_, ?_⟩
  · rw [cell₃, cell₂, cell₁, if_pos rfl]
  · rw [globals₃, if_neg (by decide), globals₂, if_pos rfl]
  · rw [globals₃, if_pos rfl]

/-- Give back what the variables of a routine hold. -/
theorem Runs.sweep {b : Bytecode} {r : Bytecode.Routine} {top n : Nat}
    (F : Framed (.ofRoutine b r) top n v) (hc : (Context.ofRoutine b r).Modest)
    (hn : 2 * (Context.ofRoutine b r).frame.inner.length ≤ n) (topped : v.Topped)
    (hw : Written v.cell v.height) (hl : image.HasLiterals (.ofRoutine b r))
    (hs : Counts image Symbol.release Library.release) :
    Runs image (Code.sweep (.ofRoutine b r)) v (Same 0 v) fun _ _ => True := by
  have known (ws : Words) : ∃ raw, ws ∈ (Context.ofRoutine b r).frame.swept →
      v.Denotes image ws raw ∧ ws.IsKept 0 := by
    by_cases mem : ws ∈ (Context.ofRoutine b r).frame.swept
    · obtain ⟨home, rfl, words⟩ : ∃ home, ws = Frame.homeWords home ∧
          ReadableWords (.ofRoutine b r) n ws := by
        rcases (Frame.proper_ofRoutine b r).mem_swept.mp mem with
          ⟨i, hi, rfl⟩ | ⟨x, i, hx, -, rfl⟩
        · exact ⟨.parameter i, rfl, (writable_parameter hc.entry hi).readable⟩
        · exact ⟨.inner i, rfl, (writable_inner (home?_bound hx) hn).readable⟩
      obtain ⟨raw, denotes⟩ := F.denotes hw hl words
      exact ⟨raw, fun _ => ⟨denotes, (isFree_homeWords home).kept 0⟩⟩
    · exact ⟨⟨0, 0⟩, fun h => absurd h mem⟩
  choose raw denotes using known
  have ceiling := room_add_le_ceiling
  have inside := F.room
  have each : Runs image (((Context.ofRoutine b r).frame.swept.map fun ws => (ws, raw ws)).flatMap
      fun x => Code.count Symbol.release x.1 0) v (Same 0 v) fun _ _ => True := by
    refine Runs.each hs 0 (fun x hx => ?_) topped (by omega) ?_
    · obtain ⟨ws, mem, rfl⟩ := List.mem_map.mp hx
      exact denotes ws mem
    · unfold Library.Wp
      split
      · exact fun v' same _ => same
      · trivial
  rw [List.flatMap_map] at each
  exact each

/-- Return zero, up to the return itself. -/
theorem Runs.fold {top : Nat} (ebp : v.registers.ebp = heightWord (top + 1))
    (below : top + 1 ≤ v.height) (inside : v.height ≤ room) (there : v.cell (top + 1) = some n) :
    Runs image [.mov (.immediate 0) Register.eax, .mov (.immediate 0) Register.ebx,
      .mov Register.ebp Register.esp, .pop Register.ebp] v
      (fun v' => (∀ k ≤ top, v'.cell k = v.cell k) ∧ v'.globals = v.globals) E := by
  have ceiling := room_le_ceiling
  have place : heightOf? v.registers.ebp = some (top + 1) := by
    rw [ebp]
    exact heightOf?_heightWord (by omega)
  refine .movRegister (by decide) rfl (.movRegister (by decide) rfl ?_)
  have folded : ((v.set .eax 0).set .ebx 0).write Register.esp v.registers.ebp =
      some (((v.set .eax 0).set .ebx 0).moveTop (top + 1)) := by
    simp only [write]
    rw [place]
    rfl
  refine .mov (n := v.registers.ebp) rfl folded (.pop (by decide) (Nat.le_add_left 1 top) (n := n) ?_
    (.nil ⟨fun k hk => ?_, rfl⟩))
  · exact (if_pos below).trans there
  · refine (if_pos ?_).trans (if_pos ?_)
    · exact Nat.le_succ_of_le hk
    · exact Nat.le_trans (Nat.le_succ_of_le hk) below

end View

/-- Once it has handed over an exception, a routine returns. -/
def Withdraws (r : Bytecode.Routine) : Prop :=
  ∀ k, r.code[k]? = some .transfer → r.code[k + 1]? = some .returnZero

/-- The code of a certain instruction of a routine begins at an index. -/
def Image.BeginsAt (image : Image) (b : Bytecode) (r : Bytecode.Routine) (i : Bytecode.Instruction)
    (index : Nat) : Prop :=
  ∃ k st, image.Begins b r k st index ∧ r.code[k]? = some i

/-- An exception that a callee hands over: its number, and its payload. -/
structure Thrown where
  number : Int32
  payload : Raw

/-- The code begins at a visit by which a routine hands an exception over to its caller. -/
structure Machine.Visit.HandsOver (b : Bytecode) (image : Image) (r : Bytecode.Routine) (t : Visit)
    (e : Thrown) : Prop where
  begins : image.BeginsAt b r .transfer t.index
  number : ∃ ws, (Context.ofRoutine b r).words .pending = .ok ws ∧
    Machine.read image ws.value t.machine = .ok e.number t.machine
  payload : ∃ ws, (Context.ofRoutine b r).words .pendingData = .ok ws ∧
    t.machine.Reads image ws e.payload

section Handing

variable {b : Bytecode} {image : Image} {L : Level} {t : Visit}

theorem Level.Lives.hands_iff (lives : L.Lives b image) :
    L.Hands t ↔ image.BeginsAt b L.routine .transfer t.index := by
  obtain ⟨ss, steps, plan⟩ := lives.plans.steps
  constructor
  · rintro ⟨k, there, index⟩
    have inside : k < L.routine.code.size := (Array.getElem?_eq_some_iff.mp there).1
    obtain ⟨ts, flowing⟩ := Lowering.routineSteps_flowing steps
    have size : ss.length = L.routine.code.size := flowing.length
    have step : ss[k]? = some ss[k] := List.getElem?_eq_getElem (size ▸ inside)
    refine ⟨k, ss[k], ⟨ss, L.plan.start, steps, lives.plans.follows.function, step, ?_⟩, there⟩
    rw [← plan]
    exact index.symm
  · rintro ⟨k, st, ⟨ss', start, steps', function, -, pos⟩, there⟩
    rw [← lives.plans.planAt steps' function] at pos
    exact ⟨k, there, pos.symm⟩

/-- The code by which a routine hands over an exception, up to its return. -/
def Context.handing (c : Context) (pending data : Words) : Code :=
  Code.move pending.value c.frame.thrownSlot ++
    Code.moveWords data (Frame.homeWords .payload) ++ (Code.sweep c ++
    [.mov (.immediate 0) Register.eax, .mov (.immediate 0) Register.ebx,
      .mov Register.ebp Register.esp, .pop Register.ebp])

theorem Level.Hands.located (lives : L.Lives b image) (hands : L.Hands t)
    (throws : L.routine.canThrow = true) (host : (L.context b).isEntry = false)
    (withdraws : Withdraws L.routine) :
    ∃ pending data, (L.context b).words .pending = .ok pending ∧
      (L.context b).words .pendingData = .ok data ∧
      Machine.Located image t.index ((L.context b).handing pending data ++ [.ret]) := by
  obtain ⟨k, there, index⟩ := hands
  obtain ⟨ds, after, code, located, behind, -⟩ := lives.plans.follows.code k _ there
  obtain ⟨ds', after', code', located', -⟩ :=
    lives.plans.follows.code (k + 1) _ (withdraws k there)
  obtain ⟨moved, transfer, code⟩ := Program.ok_of_bind code
  cases code
  have marked : (Context.ofRoutine b L.routine).routine.canThrow = true := throws
  have other : (Context.ofRoutine b L.routine).isEntry = false := host
  simp only [Lowering.transfer, marked, other, Bool.not_true, Bool.and_false, Bool.false_eq_true,
    if_false] at transfer
  obtain ⟨pending, hp, transfer⟩ := Program.ok_of_bind transfer
  obtain ⟨data, hd, transfer⟩ := Program.ok_of_bind transfer
  cases transfer
  cases code'
  rw [Directive.codeOf_map] at located behind located'
  rw [behind] at located'
  refine ⟨pending, data, hp, hd, ?_⟩
  have epilogue : Code.returnZero (.ofRoutine b L.routine) = Code.sweep (.ofRoutine b L.routine) ++
      [.mov (.immediate 0) Register.eax, .mov (.immediate 0) Register.ebx,
        .mov Register.ebp Register.esp, .pop Register.ebp] ++ [.ret] := by
    unfold Code.returnZero Code.epilogue
    rw [other]
    simp
  have both := Machine.Located.append.mpr ⟨located, located'⟩
  rw [epilogue] at both
  rw [index]
  show Machine.Located image _ ((Context.ofRoutine b L.routine).handing pending data ++ [.ret])
  unfold Context.handing
  simpa only [List.append_assoc] using both

/-- What the code does by which a routine hands over an exception. -/
theorem Disciplined.hands (hi : image.Carries b) {n : Nat} {v : View} {pending data : Words}
    (H : Disciplined b image t L (.standing n) v) (S : t.machine.Shows v)
    (hn : 2 * (L.context b).frame.inner.length ≤ n) (throws : L.routine.canThrow = true)
    (host : (L.context b).isEntry = false) (hp : (L.context b).words .pending = .ok pending)
    (hd : (L.context b).words .pendingData = .ok data) :
    ∃ id payload, Machine.read image pending.value t.machine = .ok id t.machine ∧
      t.machine.Reads image data payload ∧
      v.Runs image ((L.context b).handing pending data) (fun v' =>
        v'.cell (L.top - 1 - 2 * (L.context b).frame.parameters.length) = some id ∧
          v'.globals .payload = payload.word ∧ v'.globals .payloadTag = payload.code)
        fun _ _ => True := by
  have hc : (L.context b).Modest := hi.modest _ H.lives.plans.routine
  have literals : image.HasLiterals (L.context b) := hi.literals L.routine
  have F := (H.ready S).framed H.shown
  have written : Written v.cell v.height := by
    obtain ⟨height, -, -, -, written⟩ := H.shown
    rw [height]
    exact written
  have one : (L.context b).kept = [.ebp] := if_neg (Bool.eq_false_iff.mp host)
  have given : (L.context b).given = 2 * (L.context b).frame.parameters.length + 1 :=
    Context.given_of_canThrow throws host
  have low := F.given
  have base : v.registers.ebp = heightWord (L.top + 1) := by
    have base := F.base
    rw [one] at base
    exact base
  obtain ⟨id, number⟩ := F.read written literals (writable_words hc.entry hn hp).readable.value
  obtain ⟨payload, words⟩ := F.denotes written literals (writable_words hc.entry hn hd).readable
  obtain ⟨j, hj, -, inner⟩ := words_inner hd nofun nofun
  have hj : j < (L.context b).frame.inner.length := hj
  refine ⟨id, payload, S.read hi.globals number, S.reads hi.globals words, ?_⟩
  obtain ⟨height, -, -, stored, -⟩ := H.shown
  have high : v.height = L.top + 1 + n := by
    rw [height, one]
    rfl
  have saved : v.cell (L.top + 1) = some (L.kept .ebp) := by
    rw [one] at stored
    exact stored.1
  have slot : L.top + 1 - 2 - 2 * (L.context b).frame.parameters.length =
      L.top - 1 - 2 * (L.context b).frame.parameters.length := by omega
  unfold Context.handing
  refine Runs.append ((Runs.hand S.top base F.room (by omega) inner (by omega) number words).imp
    fun v₁ ⟨moved, handed, word, code⟩ => ?_)
  rw [slot] at moved handed
  have F₁ : Framed (L.context b) L.top n v₁ :=
    ⟨moved.alters.base.trans F.base, moved.alters.height.trans F.height,
      moved.alters.height ▸ F.room, F.given⟩
  refine Runs.append ((Runs.sweep F₁ hc hn moved.topped
    (fun k low high => moved.alters.written k (written k low (moved.alters.height ▸ high))) literals
    (View.counts_release (hi.library _ _ rfl))).imp fun v₂ same => ?_)
  have height₂ : v₂.height = v.height := same.height.trans moved.alters.height
  have base₂ : v₂.registers.ebp = heightWord (L.top + 1) :=
    (same.registers .ebp (by decide) (.inr (by decide))).trans (moved.alters.base.trans base)
  have saved₂ : v₂.cell (L.top + 1) = some (L.kept .ebp) :=
    (same.cell _ (by have := moved.alters.height; omega)).trans
      ((moved.alters.cell _ (by omega)).trans saved)
  refine (Runs.fold base₂ (by omega) (height₂ ▸ F.room) saved₂).imp
    fun v₃ ⟨cells, globals⟩ => ⟨?_, ?_, ?_⟩
  · rw [cells _ (by omega), same.cell _ (by have := moved.alters.height; omega), handed]
  · rw [globals, same.globals, word]
  · rw [globals, same.globals, code]

/-! ### On the way back -/

section Comebacks

variable {M : Level} {n index j i : Nat} {y w z : Visit} {s : Stage} {v v' : View}

theorem Comeback.length (comes : Comeback b image L M n index j y v w v' z) (some : y.awaited ≠ []) :
    y.awaited.length = z.awaited.length + 1 := by
  obtain ⟨i, there, -, behind⟩ := comes.next
  cases comes.here.symm.trans there
  have tail : z.awaited = w.awaited.tail := behind
  have positive := List.length_pos_iff.mpr some
  rw [tail, comes.path.awaited, List.length_tail]
  omega

/-- What a callee hands over reaches its caller. -/
theorem Comeback.handed (hi : image.Carries b) (comes : Comeback b image L M n index j y v w v' z)
    (H : Disciplined b image y L s v) (above : y.StaysAbove image (j + 1)) (before : i ≤ j)
    (reach : y.Steps image i t) (same : t.awaited = y.awaited) (hands : L.Hands t)
    (throws : L.routine.canThrow = true) (host : (L.context b).isEntry = false)
    (withdraws : Withdraws L.routine) :
    ∃ e, t.HandsOver b image L.routine e ∧
      v'.cell (L.top - 1 - 2 * (L.context b).frame.parameters.length) = some e.number ∧
      v'.globals .payload = e.payload.word ∧ v'.globals .payloadTag = e.payload.code := by
  have length := comes.length H.awaited_ne_nil
  obtain ⟨s', vt, path, Ht⟩ := exists_path hi i H (above.mono (Nat.le_succ_of_le before)) reach
    (fun k hk x hx => by
      have := comes.inside k (Nat.le_trans hk before) x hx
      omega) (congrArg List.length same)
  have there := above i (Nat.le_succ_of_le before) t reach
  obtain ⟨k, code, start⟩ := id hands
  have inside : k < L.routine.code.size := (Array.getElem?_eq_some_iff.mp code).1
  have stage := Ht.place.stage k inside start.symm
  subst stage
  obtain ⟨pending, data, hp, hd, located⟩ := hands.located H.lives throws host withdraws
  obtain ⟨number, payload, reads, words, runs⟩ := Ht.hands hi (Ht.near.shows_of_above there)
    (Nat.le_add_right _ _) throws host hp hd
  have toZ := comes.path.steps.trans (.one comes.next)
  have rest := toZ.between reach (Nat.le_succ_of_le before)
  obtain ⟨front, ret, -⟩ := Machine.Located.append.mp located
  obtain ⟨less, z₁, s₁, v₁, toRet, fromRet, place, awaited, H₁, handed, word, tag⟩ :=
    Ht.through hi (above.later reach (Nat.le_succ_of_le before)) front runs rest
      (.inr fun back => by
        have := congrArg List.length back
        rw [same] at this
        omega)
  -- The return behind the code is the one by which the callee comes back.
  have final : i + ((L.context b).handing pending data).length = j := by
    generalize steps : j + 1 - i - ((L.context b).handing pending data).length = m at fromRet
    cases fromRet with
    | refl =>
      rw [awaited, same] at length
      omega
    | @next m _ z₂ _ first _ =>
      obtain ⟨o, o', -, behind⟩ := id first
      rw [place] at o'
      cases ret.symm.trans o'
      have tail : z₂.awaited = z₁.awaited.tail := behind
      have shorter : z₂.awaited.length = z.awaited.length := by
        rw [tail, List.length_tail, awaited, same]
        omega
      have whole := (reach.trans toRet).trans (.one first)
      refine Classical.byContradiction fun more => ?_
      have := comes.inside _ (by omega) z₂ whole
      omega
  have atRet := reach.trans toRet
  rw [final] at atRet
  obtain rfl := atRet.unique comes.path.steps
  have S₁ := H₁.near.shows_of_above (above j (Nat.le_succ j) z₁ atRet)
  have S' := comes.leaving.near.shows_of_above (above j (Nat.le_succ j) z₁ atRet)
  obtain ⟨height, -, -, written⟩ := comes.leaving.shown
  have given : (L.context b).given = 2 * (L.context b).frame.parameters.length + 1 :=
    Context.given_of_canThrow throws host
  have low := H.lives.given
  have height : v'.height = L.top := height
  have high : v₁.height = L.top := (S'.height_eq S₁).trans height
  refine ⟨⟨number, payload⟩, ⟨H.lives.hands_iff.mp hands, ⟨pending, hp, reads⟩, data, hd, words⟩,
    S₁.cell_eq S' (by omega) (by omega) handed (written _ (by omega) (by omega)), ?_, ?_⟩
  · rw [S₁.globals_eq S', word]
  · rw [S₁.globals_eq S', tag]

end Comebacks

end Handing

end Threefold.X86
