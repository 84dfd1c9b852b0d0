import Mathlib.Data.Nat.Find
import Threefold.Proofs.X86.Visits

/-!
# Activations

From the call of a routine to its return control is in the code of the routine, but for the calls that
the routine makes itself. A `Stride` leads from one visit of an activation to the next one: by one
instruction, or by a call together with everything that runs until the callee has returned. Strides one
after the other are a `Path`. A run that comes back to what was awaited has followed a path
(`Disciplined.exists_path`), so what holds at a visit of an activation is shown by induction on paths,
and no other proof has to look into what the callees do.

* `Disciplined.moves` says what one instruction does.
* `Disciplined.exists_path` is about a run within an activation.
* `Comeback` is how a call comes to its end, and `Disciplined.comeback` says that it does if the run
  gets behind it.
-/

namespace Threefold.X86

open Machine (Awaited Visit)

variable {b : Bytecode} {image : Image}

/-! ## One instruction -/

/-- What an instruction that stays in an activation does to the view, and where control is behind it. -/
inductive Level.Advances (b : Bytecode) (image : Image) (L : Level) (x : Visit) (v : View) (y : Visit) :
    Instruction → View → Prop
  | works {i : Instruction} {v' : View} (worked : v.exec image i = some (.ok v'))
    (index : y.index = x.index + 1) : Advances b image L x v y i v'
  | passes {condition : Condition} {l : Label} (index : y.index = x.index + 1) :
    Advances b image L x v y (.jcc condition l) v
  | jumps {i : Instruction} {t : Nat} (jump : i = .jmp ((L.context b).label t) ∨
    ∃ condition, i = .jcc condition ((L.context b).label t)) (target : (L.context b).IsTarget t)
    (index : y.index = L.plan.pos t) : Advances b image L x v y i v

/-- An instruction leads from a visit of an activation to another one of the same activation. -/
structure Inner (b : Bytecode) (image : Image) (L : Level) (x : Visit) (v : View) (y : Visit)
    (v' : View) : Prop where
  next : x.Next image y
  awaited : y.awaited = x.awaited
  spares : v.Spares (L.context b) L.top v'
  advances : ∃ i, image.code[x.index]? = some i ∧ L.Advances b image x v y i v'

/-- What an instruction does that a routine executes: it stays in the activation, calls a routine, or
returns. -/
inductive Moves (b : Bytecode) (image : Image) (L : Level) (x : Visit) (s : Stage) (v : View)
    (y : Visit) : Prop
  | inner {s' : Stage} {v' : View} (inner : Inner b image L x v y v')
    (disciplined : Disciplined b image y L s' v')
  | enters {r : Bytecode.Routine} {p : Plan} {n : Nat} (mem : r ∈ b.routines) (stage : s = .standing n)
    (here : image.code[x.index]? = some (.call (Context.ofRoutine b r).symbol))
    (plans : image.Plans b r p) (index : y.index = p.start)
    (awaited : y.awaited =
      ⟨some (x.index + 1), heightWord (L.base b + n), v.registers.ebp⟩ :: x.awaited)
    (disciplined : Disciplined b image y ⟨r, p, v.height + 1, v.registers.get⟩ (.entering [])
      (v.push (.ofNat (x.index + 1))))
    (suspended : Suspended b image (v.push (.ofNat (x.index + 1))).cell
      ⟨r, p, v.height + 1, v.registers.get⟩ L n (x.index + 1) x.awaited)
  | returns (here : image.code[x.index]? = some .ret) (stage : s = .leaving [])

section Moves

theorem at_of_ok {index : Nat} {m : Machine} {y : Visit}
    (h : (.ok (some index) m : EStateM.Result Trap Machine (Option Nat)) =
      .ok (some y.index) y.machine) : y.index = index ∧ y.machine = m := by
  injection h with same machine
  injection same with index
  exact ⟨index.symm, machine.symm⟩

variable {x y : Visit} {L : Level} {s : Stage} {v : View}

theorem Disciplined.moves (hi : image.Carries b) (H : Disciplined b image x L s v)
    (above : x.machine.Above) (next : x.Next image y) : Moves b image L x s v y := by
  have S := H.near.shows_of_above above
  have plans := H.lives.plans
  obtain ⟨i, s', here, takes, place⟩ :=
    H.place.next hi.regular (hi.modest _ plans.routine) plans.follows
  obtain ⟨j, there, done, awaited⟩ := id next
  cases here.symm.trans there
  -- Where an instruction that changes nothing goes to, the view is the same.
  have stays {s : Stage} (shown : s.Shown (L.context b) L.kept L.top v)
      (machine : y.machine = x.machine) (same : y.awaited = x.awaited)
      (advances : L.Advances b image x v y i v)
      (place : At image (L.context b) L.plan y.index s) : Moves b image L x s v y :=
    .inner ⟨next, same, fun _ _ => rfl, i, there, advances⟩
      ⟨H.lives, place, shown, machine ▸ H.near, same ▸ H.linked⟩
  cases takes with
  | works w =>
    obtain ⟨e, worked, met⟩ := w.exec (H.ready S) (hi.literals L.routine) hi.library H.shown
    have yields := S.exec hi.globals worked (x.index + 1)
    rw [done] at yields
    cases e with
    | error e => exact absurd yields.choose_spec.1 nofun
    | ok v' =>
      obtain ⟨m, same, near⟩ := yields
      obtain ⟨index, machine⟩ := at_of_ok same.symm
      obtain ⟨shown, spares⟩ := met
      rw [x.behind_of_exec worked] at awaited
      refine .inner ⟨next, awaited, spares, i, there, .works worked index⟩
        ⟨H.lives, ?_, shown, machine ▸ near, awaited ▸ H.linked.congr spares⟩
      rw [index]
      refine place ?_
      rintro rfl
      exact shown
  | @routine r n hr given =>
    obtain ⟨p, m, entered, behind, disciplined, suspended⟩ := H.enters hi S hr given (place Stage.standing_ne_gone)
    obtain ⟨index, machine, calls⟩ := y
    cases done.symm.trans entered
    obtain rfl : calls = _ := awaited
    exact .enters hr rfl there disciplined.lives.plans rfl behind disciplined suspended
  | @branch condition t target =>
    obtain ⟨label, jumped⟩ := H.lives.target hi target
    have machine : y.machine = x.machine ∧ (y.index = L.plan.pos t ∨ y.index = x.index + 1) := by
      simp only [Machine.execute, Machine.holds, Bind.bind, EStateM.bind] at done
      split at done
      · obtain ⟨index, machine⟩ := at_of_ok ((Machine.find_of_get? label x.machine).symm.trans done)
        exact ⟨machine, .inl index⟩
      · obtain ⟨index, machine⟩ := at_of_ok done
        exact ⟨machine, .inr index⟩
    obtain ⟨machine, index | index⟩ := machine
    · exact stays H.shown machine awaited (.jumps (.inr ⟨condition, rfl⟩) target index)
        (index ▸ jumped)
    · exact stays H.shown machine awaited (.passes index) (index ▸ place Stage.standing_ne_gone)
  | @jump t target =>
    obtain ⟨label, jumped⟩ := H.lives.target hi target
    have same : Machine.execute image (.jmp ((L.context b).label t)) (x.index + 1) x.machine =
      .ok (some (L.plan.pos t)) x.machine := Machine.find_of_get? label x.machine
    obtain ⟨index, machine⟩ := at_of_ok (same.symm.trans done)
    exact stays H.shown machine awaited (.jumps (.inl rfl) target index) (index ▸ jumped)
  | ret => exact .returns there rfl

end Moves

/-! ## Pieces of code -/

/-- A run that gets behind a piece of code has executed it. -/
theorem Disciplined.through (hi : image.Carries b) {is : Code} {n : Nat} {x y : Visit} {L : Level}
    {s : Stage} {v : View} {Q : View → Prop} (H : Disciplined b image x L s v)
    (above : x.StaysAbove image n) (located : Machine.Located image x.index is)
    (runs : v.Runs image is Q fun _ _ => True) (steps : x.Steps image n y)
    (behind : x.index + is.length ≤ y.index ∨ y.awaited ≠ x.awaited) :
    is.length ≤ n ∧ ∃ z s' v', x.Steps image is.length z ∧ z.Steps image (n - is.length) y ∧
      z.index = x.index + is.length ∧ z.awaited = x.awaited ∧ Disciplined b image z L s' v' ∧
      Q v' := by
  induction is generalizing x v s n with
  | nil => exact ⟨Nat.zero_le n, x, s, v, .refl x, steps, rfl, rfl, H, runs⟩
  | cons i is ih =>
    rw [List.length_cons] at behind
    unfold View.Runs at runs
    simp only [View.execAll] at runs
    cases steps with
    | refl =>
      rcases behind with behind | elsewhere
      · omega
      · exact absurd rfl elsewhere
    | @next n _ x' _ first rest =>
      have aboveX := above.later (.one first) (Nat.le_add_left 1 n)
      rw [Nat.add_sub_cancel] at aboveX
      have here {j : Instruction} (there : image.code[x.index]? = some j) : j = i :=
        Option.some.inj (there.symm.trans located.1)
      cases H.moves hi above.now first with
      | @inner s' v' inner H' =>
        obtain ⟨j, there, advances⟩ := inner.advances
        obtain rfl := here there
        cases advances with
        | works worked index =>
          simp only [worked] at runs
          have behind' : x'.index + is.length ≤ y.index ∨ y.awaited ≠ x'.awaited :=
            behind.imp (fun far => by omega) fun other => inner.awaited ▸ other
          obtain ⟨less, z, s'', v'', before, after, place, awaited, H'', hq⟩ :=
            ih H' aboveX (index ▸ located.2) runs rest behind'
          have total : n + 1 - (is.length + 1) = n - is.length := by omega
          refine ⟨Nat.succ_le_succ less, z, s'', v'', .next first before, ?_, ?_,
            awaited.trans inner.awaited, H'', hq⟩
          · rw [List.length_cons, total]
            exact after
          · rw [place, index, List.length_cons]
            omega
        | passes index => simp only [View.exec] at runs
        | jumps jump => rcases jump with rfl | ⟨_, rfl⟩ <;> simp only [View.exec] at runs
      | enters _ _ there plans =>
        obtain rfl := here there
        simp only [View.exec, plans.follows.function] at runs
      | returns there =>
        obtain rfl := here there
        simp only [View.exec] at runs

/-! ## Paths -/

/-- From one visit of an activation to the next one, with the number of instructions in between. -/
inductive Stride (b : Bytecode) (image : Image) (L : Level) :
    Nat → Visit → View → Visit → View → Prop
  | inner {x y : Visit} {s s' : Stage} {v v' : View} (disciplined : Disciplined b image x L s v)
    (inner : Inner b image L x v y v') (stays : Disciplined b image y L s' v') :
    Stride b image L 1 x v y v'
  | call {k n : Nat} {x y : Visit} {v v' : View} {r : Bytecode.Routine}
    (disciplined : Disciplined b image x L (.standing n) v) (mem : r ∈ b.routines)
    (given : (Context.ofRoutine b r).given ≤ n)
    (here : image.code[x.index]? = some (.call (Context.ofRoutine b r).symbol))
    (steps : x.Steps image k y) (index : y.index = x.index + 1) (awaited : y.awaited = x.awaited)
    (spares : ∀ j, j + (Context.ofRoutine b r).given ≤ v.height → v'.cell j = v.cell j)
    (resumed : Disciplined b image y L (.standing n) v') : Stride b image L k x v y v'

/-- From one visit of an activation to a later one. -/
inductive Path (b : Bytecode) (image : Image) (L : Level) :
    Nat → Visit → View → Visit → View → Prop
  | refl (x : Visit) (v : View) : Path b image L 0 x v x v
  | step {k n : Nat} {x y z : Visit} {v v' w : View} (first : Stride b image L k x v y v')
    (rest : Path b image L n y v' z w) : Path b image L (k + n) x v z w

section Paths

variable {L : Level} {k n : Nat} {x y : Visit} {v v' : View}

theorem Stride.steps (h : Stride b image L k x v y v') : x.Steps image k y := by
  cases h with
  | inner _ inner _ => exact .one inner.next
  | call _ _ _ _ steps => exact steps

theorem Stride.awaited (h : Stride b image L k x v y v') : y.awaited = x.awaited := by
  cases h with
  | inner _ inner _ => exact inner.awaited
  | call _ _ _ _ _ _ awaited => exact awaited

theorem Stride.spares (h : Stride b image L k x v y v') : v.Spares (L.context b) L.top v' := by
  cases h with
  | inner _ inner _ => exact inner.spares
  | call H _ given _ _ _ _ spares =>
    intro j hj
    have height := H.shown.1
    exact spares j (by omega)

theorem Path.steps (h : Path b image L n x v y v') : x.Steps image n y := by
  induction h with
  | refl x v => exact .refl x
  | step first _ ih => exact first.steps.trans ih

theorem Path.awaited (h : Path b image L n x v y v') : y.awaited = x.awaited := by
  induction h with
  | refl x v => rfl
  | step first _ ih => exact ih.trans first.awaited

/-- An activation leaves the words of its caller alone. -/
theorem Path.spares (h : Path b image L n x v y v') : v.Spares (L.context b) L.top v' := by
  induction h with
  | refl x v => exact fun _ _ => rfl
  | step first _ ih => exact fun j hj => (ih j hj).trans (first.spares j hj)

end Paths

/-! ## Returns -/

theorem Machine.Visit.Next.length_le {x y : Visit} (h : x.Next image y) :
    x.awaited.length ≤ y.awaited.length + 1 := by
  obtain ⟨i, -, -, awaited⟩ := h
  rw [awaited]
  unfold Visit.behind
  split
  · split
    · rw [List.length_cons]
      omega
    · exact Nat.le_succ _
  · rw [List.length_tail]
    omega
  · omega

/-- A visit is never behind what was awaited at another one. -/
def Machine.Visit.StaysInside (image : Image) (n : Nat) (x : Visit) : Prop :=
  ∀ k ≤ n, ∀ y, x.Steps image k y → x.awaited.length ≤ y.awaited.length

/-- A run of some length that comes back to what was awaited has followed a path. -/
def Traced (b : Bytecode) (image : Image) (n : Nat) : Prop :=
  ∀ {x u : Visit} {L : Level} {s : Stage} {v : View}, Disciplined b image x L s v →
    x.StaysAbove image n → x.Steps image n u → x.StaysInside image n →
    u.awaited.length = x.awaited.length →
    ∃ s' v', Path b image L n x v u v' ∧ Disciplined b image u L s' v'

/-- How an activation comes to its end: it follows a path to a return, behind which its caller goes
on. -/
structure Comeback (b : Bytecode) (image : Image) (L M : Level) (n index j : Nat) (y : Visit)
    (v : View) (w : Visit) (v' : View) (z : Visit) : Prop where
  path : Path b image L j y v w v'
  inside : ∀ k ≤ j, ∀ x, y.Steps image k x → z.awaited.length < x.awaited.length
  leaving : Disciplined b image w L (.leaving []) v'
  here : image.code[w.index]? = some .ret
  next : w.Next image z
  index : z.index = index
  shows : z.machine.Shows (v'.moveTop (L.top - 1))
  resumed : Disciplined b image z M (.standing n) (v'.moveTop (L.top - 1))

section Returns

variable {L M : Level} {n index N : Nat} {y u : Visit} {s : Stage} {v : View} {a : Awaited}
  {rest : List Awaited}

theorem comeback_of_traced (traced : ∀ j < N, Traced b image j) (hi : image.Carries b)
    (H : Disciplined b image y L s v) (suspended : Suspended b image v.cell L M n index rest)
    (calls : y.awaited = a :: rest) (above : y.StaysAbove image N) (steps : y.Steps image N u)
    (low : u.awaited.length ≤ rest.length) :
    ∃ j w v' z, j < N ∧ z.awaited = rest ∧ Comeback b image L M n index j y v w v' z := by
  classical
  -- The first visit behind the return.
  have exists_low : ∃ k z, y.Steps image k z ∧ z.awaited.length ≤ rest.length := ⟨N, u, steps, low⟩
  obtain ⟨z, reach, behind⟩ := Nat.find_spec exists_low
  have first := Nat.find_min' exists_low ⟨u, steps, low⟩
  have before {k : Nat} {x : Visit} (hk : k < Nat.find exists_low) (hx : y.Steps image k x) :
      rest.length < x.awaited.length :=
    Nat.lt_of_not_le fun less => Nat.find_min exists_low hk ⟨x, hx, less⟩
  generalize Nat.find exists_low = k at reach first before
  have length : y.awaited.length = rest.length + 1 := by rw [calls, List.length_cons]
  obtain ⟨j, rfl⟩ : ∃ j, k = j + 1 := by
    refine ⟨k - 1, ?_⟩
    cases k with
    | zero =>
      cases reach
      omega
    | succ k => rfl
  obtain ⟨w, toW, last⟩ := reach.split (Nat.le_succ j)
  have next : w.Next image z := by
    have one : j + 1 - j = 1 := by omega
    rw [one] at last
    cases last with
    | next next rest =>
      cases rest
      exact next
  have still := before (Nat.lt_succ_self j) toW
  have bound := next.length_le
  obtain ⟨s', v', path, H'⟩ := traced j (by omega) H (above.mono (by omega)) toW
    (fun i hi x hx => by
      have := before (Nat.lt_succ_of_le hi) hx
      omega) (by omega)
  have awaited : w.awaited = a :: rest := path.awaited.trans calls
  have here := above j (by omega) w toW
  cases H'.moves hi here next with
  | inner inner =>
    have same := congrArg List.length inner.awaited
    omega
  | enters _ _ _ _ _ longer =>
    have same := congrArg List.length longer
    rw [List.length_cons] at same
    omega
  | returns code stage =>
    subst stage
    obtain ⟨m, done, shows, resumed⟩ :=
      (suspended.congr path.spares).resumes hi H' (H'.near.shows_of_above here)
    obtain ⟨i, there, done', behind'⟩ := id next
    cases code.symm.trans there
    obtain ⟨place, machine⟩ := at_of_ok (done.symm.trans done')
    have back : z.awaited = rest := by
      rw [behind']
      show w.awaited.tail = rest
      rw [awaited]
      rfl
    obtain ⟨zi, zm, za⟩ := z
    cases place
    cases machine
    cases back
    exact ⟨j, w, v', _, by omega, rfl, path, fun k hk x hx => before (Nat.lt_succ_of_le hk) hx, H',
      code, next, rfl, shows, resumed⟩

/-- A run that comes back to what was awaited has followed a path. -/
theorem exists_path (hi : image.Carries b) (n : Nat) : Traced b image n := by
  induction n using Nat.strongRecOn with
  | ind n ih =>
    intro x u L s v H above steps inside same
    cases steps with
    | refl => exact ⟨s, v, .refl x v, H⟩
    | @next n _ y _ first rest =>
      have aboveY := above.later (.one first) (Nat.le_add_left 1 n)
      rw [Nat.add_sub_cancel] at aboveY
      have insideY {k : Nat} (hk : k ≤ n) {z : Visit} (hz : y.Steps image k z) :
          x.awaited.length ≤ z.awaited.length := inside (k + 1) (by omega) z (.next first hz)
      cases H.moves hi above.now first with
      | inner inner H' =>
        have length := congrArg List.length inner.awaited
        obtain ⟨s', v', path, done⟩ := ih n (Nat.lt_succ_self n) H' aboveY rest
          (fun k hk z hz => length ▸ insideY hk hz) (same.trans length.symm)
        rw [Nat.add_comm]
        exact ⟨s', v', .step (.inner H inner H') path, done⟩
      | @enters r p m mem stage here _ index awaited H' suspended =>
        subst stage
        obtain ⟨j, w, v', z, less, back, comes⟩ := comeback_of_traced
          (fun j hj => ih j (Nat.lt_succ_of_lt hj)) hi H' suspended awaited aboveY rest
          (Nat.le_of_eq same)
        have toZ : y.Steps image (j + 1) z := comes.path.steps.trans (.one comes.next)
        have tail := rest.between toZ less
        obtain ⟨s', v'', path, done⟩ := ih (n - (j + 1)) (by omega) comes.resumed
          (aboveY.later toZ less) tail
          (fun k hk t ht => back ▸ insideY (by omega) (toZ.trans ht)) (back ▸ same)
        have total : n + 1 = j + 1 + 1 + (n - (j + 1)) := by omega
        rw [total]
        have height : v'.height = v.height + 1 := comes.leaving.shown.1
        have stride : Stride b image L (j + 1 + 1) x v z (v'.moveTop (v.height + 1 - 1)) := by
          refine .call H mem suspended.given here (.next first toZ) comes.index back (fun i hi => ?_)
            comes.resumed
          have outside : i + (Context.ofRoutine b r).given < v.height + 1 := Nat.lt_succ_of_le hi
          rw [View.cell_moveTop_of_le v' (by omega)]
          exact (comes.path.spares i (.inl outside)).trans (View.cell_push_of_le v _ (by omega))
        exact ⟨s', v'', .step stride path, done⟩
      | returns here stage =>
        subst stage
        obtain ⟨c, calls, m, awaited, -⟩ := H.ret hi (H.near.shows_of_above above.now)
        obtain ⟨i, there, -, behind⟩ := id first
        cases here.symm.trans there
        have less := insideY (Nat.zero_le n) (.refl y)
        have tail : y.awaited = calls := by
          rw [behind]
          show x.awaited.tail = calls
          rw [awaited]
          rfl
        rw [tail, awaited, List.length_cons] at less
        omega

/-- A call from behind which a run gets has come to its end. -/
theorem Disciplined.comeback (hi : image.Carries b) (H : Disciplined b image y L s v)
    (suspended : Suspended b image v.cell L M n index rest) (calls : y.awaited = a :: rest)
    (above : y.StaysAbove image N) (steps : y.Steps image N u)
    (low : u.awaited.length ≤ rest.length) :
    ∃ j w v' z, j < N ∧ z.awaited = rest ∧ Comeback b image L M n index j y v w v' z :=
  comeback_of_traced (fun j _ => exists_path hi j) hi H suspended calls above steps low

end Returns

end Threefold.X86
