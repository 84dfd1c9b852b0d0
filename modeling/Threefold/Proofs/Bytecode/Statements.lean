import Threefold.Proofs.Bytecode.Following

/-!
# The code of statements

The machine follows the execution of statements, given that it follows whatever is evaluated within
a smaller bound. A statement that catches is followed in two stages: its body with the branch that
catches, and what runs in any case. Between the stages nothing is under way, or what unwinds is.
-/

namespace Threefold.Bytecode.Machine

open Compilation (Goal CodeAt code codeAt_append codeAt_append₃ codeAt_settle redirect ExprOk
  ExprsOk StmtOk CatchesOk CleanupOk exprCode stmtCode catchesCode cleanupCode enterCleanup
  leaveCleanup numberOf number?_of_mem stmtCode_attempt)
open Evaluation (Variables Unwinding OwnNumber Action)

section Statements

variable {p : Program} {image : Image} {cx : Evaluation.Context} {K fuel : Nat}
  {S : Site} {targets : Goal → Nat} {pos cleanups arrays : Nat} {b : Store}
  {s : Evaluation.Scope}

theorem Follows.lift {α : Type} {start : Progress} {limit : Nat → Prop}
    {D : α → World → Progress → Prop} {U : Unwinding → Evaluation.Scope → Progress → Prop}
    {m : Variables → Action World α} {w : World} {xs : Variables}
    (h : Follows image start limit D (fun u w => U u ⟨w, xs⟩) (m xs w)) :
    Follows image start limit (fun a t q => t.bindings = xs ∧ D a t.world q) U
      (Evaluation.Scope.lift m ⟨w, xs⟩) := by
  simp only [Evaluation.Scope.lift]
  cases hr : m xs w with
  | done a w' =>
    rw [hr] at h
    obtain ⟨n, q, hn, hq⟩ := h
    exact ⟨n, q, hn, rfl, hq⟩
  | unwinding u w' =>
    rw [hr] at h
    exact h
  | fault f =>
    rw [hr] at h
    exact h
  | exhausted =>
    rw [hr] at h
    exact h

theorem Loaded.number? (L : Loaded p image cx) {x : String} (hx : x ∈ p.exceptions) :
    Exceptions.number? cx.exceptions x = some (numberOf p.compilation x) := by
  rw [L.exceptions]
  exact @number?_of_mem p.compilation x hx

/-- The value of an expression in a statement. -/
def Valued (S : Site) (arrays : Nat) (b : Store) (xs : Variables) (next : Nat) (v : Value)
    (s : Evaluation.Scope) (q : Progress) : Prop :=
  s.bindings = xs ∧ ∃ b', q = S.point s.world b' [v] next ∧ Kept arrays b b'

theorem follows_value (ih : Simulated p image cx K fuel) {e : Expr}
    (he : ExprOk p.compilation p.signatures e)
    (hcode : CodeAt S.routine.code targets pos (exprCode p.compilation pos 0 arrays e))
    (hr : Reads b s.bindings) (ht : (b.load .thrown).word = 0) :
    Follows image (S.point s.world b [] pos) (Affords K fuel (sizeOf e))
      (Valued S arrays b s.bindings (pos + (exprCode p.compilation pos 0 arrays e).length))
      (Unwound S cleanups b (targets .handler))
      (Evaluation.Scope.lift (Evaluation.evaluate cx fuel e) s) :=
  (ih.evaluate he hcode ⟨hr, ht, rfl⟩ cleanups s.world).lift

/-- A value is computed and taken along when the statement unwinds. -/
theorem follows_raising (reason : Value → Unwinding) (ih : Simulated p image cx K fuel) {e : Expr}
    {n : Int32} {origin : String} {D : Unit → Evaluation.Scope → Progress → Prop}
    (he : ExprOk p.compilation p.signatures e)
    (hcode : CodeAt S.routine.code targets pos (code [.push n, .store .pending] ++
      exprCode p.compilation (pos + 2) 0 arrays e ++ code [.store .pendingData] ++ [.raise origin]))
    (hr : Reads b s.bindings) (hi : Idle b) (hn : ∀ v, (reason v).number = n)
    (hp : ∀ v, (reason v).payload = v) :
    Follows image (S.point s.world b [] pos) (Affords K fuel (sizeOf e)) D
      (Unwound S cleanups b (targets .handler))
      ((Evaluation.Scope.lift (Evaluation.evaluate cx fuel e) >>= fun v =>
        Action.unwind (reason v)) s) := by
  simp only [List.append_assoc, codeAt_append] at hcode
  obtain ⟨first, value, store, raise⟩ := hcode
  let b₁ : Store := b.set .pending (.scalar n)
  have pushed : Steps image 2 (S.point s.world b [] pos) (S.point s.world b₁ [] (pos + 2)) :=
    Steps.block first rfl
  have saved₁ : Saved cleanups b b₁ := fun k _ => by simp [b₁]
  have hr₁ : Reads b₁ s.bindings := fun x => by simpa [b₁] using hr x
  have ht₁ : (b₁.load .thrown).word = 0 := by simpa [b₁] using hi.thrown
  refine .after pushed ((follows_value ih he value hr₁ ht₁).mapUnwound
    (fun _ _ _ hq => hq.before saved₁ (Nat.le_refl _)) |>.bind (fun _ => True)
    (fun _ hm => hm) (fun _ _ => trivial) ?_)
  rintro v t _ - ⟨hxs, b', rfl, kept⟩
  let b₂ : Store := b'.set .pendingData v
  have pending : b'.load .pending = .scalar n := by
    rw [kept.pending]
    simp [b₁]
  refine ⟨2, _, (Steps.move store.1 rfl).trans (Steps.raise raise), b₂, rfl, ?_, ?_, ?_⟩
  · refine ⟨by simp [b₂, pending, hn], by simp [b₂, hp], ?_⟩
    simpa [b₂] using kept.thrown ht₁
  · intro x
    simpa [b₂, hxs] using kept.reads hr₁ x
  · exact (saved₁.trans kept.saved).trans fun k _ => by simp [b₂]

/-- What a statement comes to that catches: what runs in any case, after the rest. -/
theorem execute_attempt_eq (cx : Evaluation.Context) (fuel : Nat) (body : Stmt)
    (catches : List Catch) (cleanup : Option Stmt) (s : Evaluation.Scope) :
    Evaluation.execute cx (fuel + 1) (.attempt body catches cleanup) s =
      match Evaluation.attempt cx fuel body catches s with
      | .done () t => Evaluation.finish cx fuel cleanup none t
      | .unwinding u t => Evaluation.finish cx fuel cleanup (some u) t
      | .fault f => .fault f
      | .exhausted => .exhausted := by
  simp only [Evaluation.execute]
  cases Evaluation.attempt cx fuel body catches s <;> rfl

/-- What runs in any case comes after whatever the rest comes to. -/
theorem Follows.finished {start : Progress} {limit₁ limit : Nat → Prop} {body : Stmt}
    {catches : List Catch} {cleanup : Option Stmt}
    {D D' : Unit → Evaluation.Scope → Progress → Prop}
    {U U' : Unwinding → Evaluation.Scope → Progress → Prop}
    (h : Follows image start limit₁ D U (Evaluation.attempt cx fuel body catches s))
    (limit₂ : Nat → Prop) (hl : ∀ m, limit m → limit₁ m) (hl' : ∀ m, limit m → limit₂ m)
    (hd : ∀ t q, D () t q → Follows image q limit₂ D' U' (Evaluation.finish cx fuel cleanup none t))
    (hu : ∀ u t q, Evaluation.attempt cx fuel body catches s = .unwinding u t → U u t q →
      Follows image q limit₂ D' U' (Evaluation.finish cx fuel cleanup (some u) t)) :
    Follows image start limit D' U'
      (Evaluation.execute cx (fuel + 1) (.attempt body catches cleanup) s) := by
  rw [execute_attempt_eq]
  cases hx : Evaluation.attempt cx fuel body catches s with
  | done a t =>
    rw [hx] at h
    obtain ⟨n, q, hn, hq⟩ := h
    exact .imp (.after hn (hd t q hq)) hl' (fun _ _ q hq => ⟨0, q, .refl q, hq⟩)
      fun _ _ q _ hq => ⟨0, q, .refl q, hq⟩
  | unwinding u t =>
    rw [hx] at h
    obtain ⟨n, q, hn, hq⟩ := h
    exact .imp (.after hn (hu u t q hx hq)) hl' (fun _ _ q hq => ⟨0, q, .refl q, hq⟩)
      fun _ _ q _ hq => ⟨0, q, .refl q, hq⟩
  | fault f =>
    rw [hx] at h
    exact h
  | exhausted =>
    rw [hx] at h
    exact fun m hm => h m (hl m hm)

/-- Nothing runs in any case. -/
theorem follows_finish_none {D : Unit → Evaluation.Scope → Progress → Prop}
    {U : Unwinding → Evaluation.Scope → Progress → Prop} {pending : Option Unwinding}
    {q : Progress} (hd : pending = none → D () s q) (hu : ∀ u, pending = some u → U u s q) :
    Follows image q (Affords K fuel 0) D U (Evaluation.finish cx fuel none pending s) := by
  cases fuel with
  | zero => exact fun m hm => absurd hm (Nat.not_lt_zero _)
  | succ fuel =>
    cases pending with
    | none => exact ⟨0, q, .refl q, hd rfl⟩
    | some u => exact ⟨0, q, .refl q, hu u rfl⟩

theorem execute_attempt (L : Loaded p image cx) (ih : Simulated p image cx K fuel) {body : Stmt}
    {catches : List Catch} {cleanup : Option Stmt}
    (hst : StmtOk p.compilation p.signatures (.attempt body catches cleanup))
    (hcode : CodeAt S.routine.code targets pos
      (stmtCode p.compilation pos cleanups arrays (.attempt body catches cleanup)))
    (hr : Reads b s.bindings) (hi : Idle b) :
    Follows image (S.point s.world b [] pos)
      (Affords K (fuel + 1) (sizeOf (Stmt.attempt body catches cleanup)))
      (fun _ => Executed S cleanups b
        (pos + (stmtCode p.compilation pos cleanups arrays
          (.attempt body catches cleanup)).length))
      (Unwound S cleanups b (targets .handler))
      (Evaluation.execute cx (fuel + 1) (.attempt body catches cleanup) s) := by
  have own : ∀ u t, Evaluation.attempt cx fuel body catches s = .unwinding u t → u.number ≠ 0 :=
    fun u t ha => ((L.unwinds fuel).attempt body catches s u t ha).number_ne
  let inner := stmtCode p.compilation pos cleanups arrays body
  by_cases plain : catches = [] ∧ cleanup = none
  · obtain ⟨rfl, rfl⟩ := plain
    rw [stmtCode] at hcode ⊢
    have h := ih.attempt (redirect .exit (pos + inner.length) targets) 0 hst.1 hst.2.1
      (Nat.le_refl cleanups) hcode (fun w b => ⟨0, .refl _⟩)
      (by simp [catchesCode, CodeAt]) hr hi
    refine h.finished (Affords K fuel 0) (fun m hm => hm.part (by simp +arith))
      (fun m hm => hm.part (by simp +arith)) (fun t q hq => ?_) fun u t q _ hq => ?_
    · exact follows_finish_none (fun _ => hq) (by rintro v ⟨⟩)
    · refine follows_finish_none (by rintro ⟨⟩) fun v hv => ?_
      cases hv
      simpa [catchesCode, redirect] using hq
  · rw [stmtCode_attempt plain] at hcode ⊢
    let landing := pos + inner.length + 1
    let branches := catchesCode p.compilation landing (cleanups + body.cleanupCount)
      (arrays + body.arrayCount) catches
    let last := landing + branches.length
    obtain ⟨first, rest⟩ := codeAt_append.mp hcode
    rw [codeAt_settle] at first
    have rest := rest.cast (pos + inner.length) (by simp [inner])
    have size : 0 < sizeOf cleanup := by cases cleanup <;> simp +arith
    cases cleanup with
    | none =>
      obtain ⟨jump, second, raise⟩ := codeAt_append₃.mp rest
      rw [codeAt_settle] at second
      have raise := raise.cast last (by simp [last, landing, branches, inner])
      have behind : pos + (inner.map (Compilation.Mark.settle .handler landing) ++ cleanupCode p.compilation last
          (cleanups + body.cleanupCount + Catch.cleanupCount catches)
          (arrays + body.arrayCount + Catch.arrayCount catches) branches none).length =
          last + 1 := by
        simp [cleanupCode, last, landing, branches]
        omega
      have h := ih.attempt (redirect .exit (last + 1) targets) (arrays + body.arrayCount)
        hst.1 hst.2.1 (Nat.le_add_right cleanups body.cleanupCount) first
        (fun w b => ⟨1, Steps.jump jump.1⟩) second hr hi
      refine h.finished (Affords K fuel 0) (fun m hm => hm.part (by simp +arith))
        (fun m hm => hm.part (by simp +arith)) (fun t q hq => ?_) fun u t q _ hq => ?_
      · refine follows_finish_none (fun _ => ?_) (by rintro v ⟨⟩)
        rw [behind]
        exact hq
      · rcases hq with hq | ⟨b', rfl, hu⟩
        · refine follows_finish_none (by rintro ⟨⟩) fun v hv => ?_
          cases hv
          exact hq
        · refine .after (Steps.raise raise) (follows_finish_none (by rintro ⟨⟩) fun v hv => ?_)
          cases hv
          exact ⟨b', rfl, hu⟩
    | some st =>
      let n := cleanups + body.cleanupCount + Catch.cleanupCount catches
      let more := arrays + body.arrayCount + Catch.arrayCount catches
      let block := stmtCode p.compilation (last + 6) (n + 1) more st
      have parts : cleanupCode p.compilation last n more branches (some st) =
          code [.jump last] ++ (branches.map (.settle .exit last)).map (.settle .handler last) ++
            (enterCleanup n ++ block ++ leaveCleanup (last + block.length + 6) n) := by
        simp [cleanupCode, block]
      have behind : pos + (inner.map (Compilation.Mark.settle .handler landing) ++
          cleanupCode p.compilation last n more branches (some st)).length =
          last + block.length + 15 := by
        rw [parts]
        simp [last, landing, branches]
        omega
      rw [parts] at rest
      obtain ⟨jump, second, final⟩ := codeAt_append₃.mp rest
      rw [codeAt_settle, codeAt_settle] at second
      have final := final.cast last (by simp [last, landing, branches, inner])
      have h := ih.attempt (redirect .exit last (redirect .handler last targets))
        (arrays + body.arrayCount) hst.1 hst.2.1 (Nat.le_add_right cleanups body.cleanupCount)
        first (fun w b => ⟨1, Steps.jump jump.1⟩) second hr hi
      have below : cleanups ≤ n := by simp only [n]; omega
      rw [behind]
      refine h.finished (Affords K fuel (sizeOf st + 1))
        (fun m hm => hm.part (by simp +arith)) (fun m hm => hm.part (by simp +arith))
        (fun t q hq => ?_) fun u t q hx hq => ?_
      · obtain ⟨b', rfl, hi', hr', saved⟩ := hq
        exact (ih.finish none hst.2.2 final hr' hi').inside (fun _ hm => hm) saved below
      · have hq : Unwound S cleanups b last u t q := by
          rcases hq with hq | hq
          · exact hq
          · exact hq
        obtain ⟨b', rfl, hu, hr', saved⟩ := hq
        exact (ih.finish (some u) hst.2.2 final hr' ⟨hu, own u t hx⟩).inside
          (fun _ hm => hm) saved below

theorem execute_succ (L : Loaded p image cx) (ih : Simulated p image cx K fuel) {st : Stmt}
    (hst : StmtOk p.compilation p.signatures st)
    (hcode : CodeAt S.routine.code targets pos (stmtCode p.compilation pos cleanups arrays st))
    (hr : Reads b s.bindings) (hi : Idle b) :
    Follows image (S.point s.world b [] pos) (Affords K (fuel + 1) (sizeOf st))
      (fun _ => Executed S cleanups b
        (pos + (stmtCode p.compilation pos cleanups arrays st).length))
      (Unwound S cleanups b (targets .handler))
      (Evaluation.execute cx (fuel + 1) st s) := by
  cases st with
  | skip => exact ⟨0, _, .refl _, b, by simp [stmtCode], hi, hr, .refl b⟩
  | assign x e =>
    rw [stmtCode] at hcode
    obtain ⟨first, last⟩ := codeAt_append.mp hcode
    simp only [Evaluation.execute]
    refine (follows_value ih hst first hr hi.thrown).bind (fun _ => True)
      (fun m hm => hm.part (by simp +arith)) (fun _ _ => trivial) ?_
    rintro v t _ - ⟨hxs, b', rfl, kept⟩
    have idle := kept.idle hi
    refine ⟨1, _, Steps.move last.1 rfl, Bindings.set b' (.named x) v, ?_, ?_, ?_, ?_⟩
    · simp [stmtCode, Nat.add_assoc]
    · exact idle.store v (by rintro ⟨⟩) (by rintro ⟨⟩)
    · exact (kept.reads (hxs ▸ hr)).store x v
    · exact kept.saved.trans fun k _ => by simp
  | branch c yes no =>
    let condition := exprCode p.compilation pos 0 arrays c
    let first := stmtCode p.compilation (pos + condition.length + 1) cleanups
      (arrays + c.arrayCount) yes
    let other := pos + condition.length + first.length + 2
    let second := stmtCode p.compilation other (cleanups + yes.cleanupCount)
      (arrays + c.arrayCount + yes.arrayCount) no
    simp only [stmtCode, List.append_assoc, codeAt_append] at hcode
    obtain ⟨hc, jz, hy, jump, hn⟩ := hcode
    have hc : CodeAt S.routine.code targets pos condition := hc
    have hy : CodeAt S.routine.code targets (pos + condition.length + 1) first := hy
    have jump := jump.cast (pos + condition.length + 1 + first.length) (by simp [condition, first])
    have hn : CodeAt S.routine.code targets other second :=
      hn.cast _ (by simp [condition, first, other]; omega)
    have behind : pos + (stmtCode p.compilation pos cleanups arrays (.branch c yes no)).length =
        other + second.length := by
      simp [stmtCode, condition, first, other, second]
      omega
    rw [behind]
    simp only [Evaluation.execute]
    refine (follows_value ih hst.1 hc hr hi.thrown).bind
      (Affords K fuel (sizeOf yes + sizeOf no))
      (fun m hm => hm.part (by simp +arith)) (fun m hm => hm.part (by simp +arith)) ?_
    rintro v t _ - ⟨hxs, b', rfl, kept⟩
    have jumped : Steps image 1 (S.point t.world b' [v] _) _ := Steps.jumpIfZero jz.1
    have hr' : Reads b' t.bindings := hxs ▸ kept.reads hr
    by_cases hv : v.word = 0
    · rw [if_pos hv] at jumped
      rw [if_neg (by simpa using hv)]
      exact .after jumped ((ih.execute hst.2.2 hn hr' (kept.idle hi)).inside
        (fun m hm => hm.less (Nat.le_add_left _ _)) kept.saved (Nat.le_add_right _ _))
    · rw [if_neg hv] at jumped
      rw [if_pos hv]
      refine .after jumped (((ih.execute hst.2.1 hy hr' (kept.idle hi)).inside
        (fun m hm => hm.less (Nat.le_add_right _ _)) kept.saved (Nat.le_refl _)).mapDone ?_)
      rintro ⟨⟩ t _ ⟨b'', rfl, rest⟩
      exact ⟨1, _, Steps.jump jump.1, b'', rfl, rest⟩
  | loop c body =>
    exact (ih.repeatWhile hst hcode hr hi).inside (fun m hm => hm.part (by simp +arith)) (.refl b)
      (Nat.le_refl _)
  | chain st st' =>
    rw [stmtCode] at hcode
    obtain ⟨first, second⟩ := codeAt_append.mp hcode
    simp only [Evaluation.execute]
    refine (ih.execute hst.1 first hr hi).bind (Affords K fuel (sizeOf st'))
      (fun m hm => hm.part (by simp +arith)) (fun m hm => hm.part (by simp +arith)) ?_
    rintro ⟨⟩ t _ - ⟨b', rfl, hi', hr', saved⟩
    have rest := (ih.execute hst.2 second hr' hi').inside (fun _ hm => hm) saved
      (Nat.le_add_right _ _)
    refine rest.mapDone fun _ t q hq => ⟨0, q, .refl q, ?_⟩
    simpa [stmtCode, Nat.add_assoc] using hq
  | leave e =>
    rw [stmtCode] at hcode
    exact (follows_raising .returning ih hst hcode hr hi (fun _ => rfl) fun _ => rfl).inside
      (fun m hm => hm.part (by simp +arith)) (.refl b) (Nat.le_refl _)
  | perform c =>
    rw [stmtCode] at hcode
    obtain ⟨first, last⟩ := codeAt_append.mp hcode
    simp only [Evaluation.execute]
    refine (follows_value (e := c.expr) ih hst first hr hi.thrown).bind (fun _ => True)
      (fun m hm => hm.part ?_) (fun _ _ => trivial) ?_
    · cases c
      simp +arith [Call.expr]
    · rintro v t _ - ⟨hxs, b', rfl, kept⟩
      refine ⟨1, _, Steps.move last.1 rfl, b', ?_, kept.idle hi, hxs ▸ kept.reads hr, kept.saved⟩
      simp [stmtCode, Nat.add_assoc]
  | throwing x e =>
    rw [stmtCode] at hcode
    simp only [Evaluation.execute, L.number? hst.1]
    exact (follows_raising (.thrown _) ih hst.2 hcode hr hi (fun _ => rfl)
      fun _ => rfl).inside
      (fun m hm => hm.part (by simp +arith)) (.refl b) (Nat.le_refl _)
  | attempt body catches cleanup => exact execute_attempt L ih hst hcode hr hi

/-! ## Catching -/

/-- A branch is entered: the payload is in its variable, and nothing is under way. -/
def Store.caught (b : Store) (target : String) (payload : Value) : Store :=
  ((b.set (.named target) payload).set .pending (.scalar 0)).set .pendingData (.scalar 0)

theorem Reads.caught {xs : Variables} (h : Reads b xs) (x : String) (v : Value) :
    Reads (b.caught x v) (xs.set x v) := by
  intro y
  have := h.store x v y
  simpa [Store.caught] using this

theorem Raised.caught {u : Unwinding} (h : Raised u b) (x : String) (v : Value) :
    Idle (b.caught x v) :=
  ⟨by simp [Store.caught, Value.scalar], by simpa [Store.caught] using h.thrown⟩

/-- The code of catch branches leads to the branch that catches, or behind all of them. -/
theorem follows_catches (L : Loaded p image cx) (S : Site) (w : World) {u : Unwinding}
    (hu : Raised u b) :
    ∀ {cs : List Catch}, CatchesOk p.compilation p.signatures cs →
    ∀ {pos cleanups arrays : Nat}, CodeAt S.routine.code targets pos
      (catchesCode p.compilation pos cleanups arrays cs) →
    (cx.handler? cs u.number = none ∧ ∃ n, Steps image n (S.point w b [] pos) (S.point w b []
      (pos + (catchesCode p.compilation pos cleanups arrays cs).length))) ∨
    ∃ c, cx.handler? cs u.number = some c ∧ StmtOk p.compilation p.signatures c.body ∧
      ∃ n place more arrays' origin, cleanups ≤ more ∧
        Steps image n (S.point w b [] pos) (S.point w (b.caught c.target u.payload) [] place) ∧
        CodeAt S.routine.code targets place
          (stmtCode p.compilation place more arrays' c.body ++ [.exit origin])
  | [], _, pos, cleanups, arrays, _ => .inl ⟨rfl, 0, .refl _⟩
  | .on x target body :: rest, hcs, pos, cleanups, arrays, hcode => by
    let inner := stmtCode p.compilation (pos + 10) cleanups arrays body
    simp only [catchesCode, List.append_assoc, codeAt_append] at hcode
    obtain ⟨bind, first, exit, others⟩ := hcode
    have first : CodeAt S.routine.code targets (pos + 10) inner := first
    have others := others.cast (pos + inner.length + 11) (by simp [inner]; omega)
    have test : CodeAt S.routine.code targets pos (code [.load .pending,
        .push (numberOf p.compilation x), .binary .eq, .jumpIfZero (pos + inner.length + 11)]) :=
      ⟨bind.1, bind.2.1, bind.2.2.1, bind.2.2.2.1, trivial⟩
    have compared : Steps image 4 (S.point w b [] pos) _ := Steps.compare test
    have number := L.number? hcs.1
    have word : (b.load .pending).word = u.number := by rw [hu.pending]; rfl
    by_cases same : u.number = numberOf p.compilation x
    · right
      rw [if_pos (word.trans same)] at compared
      let taking : List Instruction := [.load .pendingData, .store (.named target), .push 0,
        .store .pending, .push 0, .store .pendingData]
      have taken : moveAll? taking (b, []) = some (b.caught target u.payload, []) := by
        rw [Store.caught, ← hu.payload]
        rfl
      have entered : Steps image 6 (S.point w b [] (pos + 4)) _ :=
        Steps.block bind.2.2.2.2 taken
      refine ⟨.on x target body, ?_, hcs.2.1, _, pos + 10, cleanups, arrays, _, Nat.le_refl _,
        compared.trans entered, codeAt_append.mpr ⟨first, exit⟩⟩
      simp [Evaluation.Context.handler?, Catch.exception, number, same]
    · rw [if_neg (by rwa [word])] at compared
      have skipped : cx.handler? (.on x target body :: rest) u.number =
          cx.handler? rest u.number := by
        have differ : ¬ numberOf p.compilation x = u.number := fun h => same h.symm
        simp [Evaluation.Context.handler?, Catch.exception, number, differ]
      rw [skipped]
      have behind : pos + inner.length + 11 + (catchesCode p.compilation (pos + inner.length + 11)
          (cleanups + body.cleanupCount) (arrays + body.arrayCount) rest).length =
          pos + (catchesCode p.compilation pos cleanups arrays
            (.on x target body :: rest)).length := by
        simp [catchesCode, inner]
        omega
      rcases follows_catches L S w hu hcs.2.2 others with ⟨uncaught, n, steps⟩ |
        ⟨c, caught, hc, n, place, more, arrays', origin, hl, steps, there⟩
      · rw [behind] at steps
        exact .inl ⟨uncaught, _, compared.trans steps⟩
      · exact .inr ⟨c, caught, hc, _, place, more, arrays', origin,
          Nat.le_trans (Nat.le_add_right _ _) hl, compared.trans steps, there⟩

theorem uncaught_returning (L : Loaded p image cx) (cs : List Catch) :
    cx.handler? cs Exceptions.returning = none := by
  refine List.find?_eq_none.mpr fun c _ h => ?_
  exact (Evaluation.ownNumber_of_number? (L.exceptions ▸ L.few) (of_decide_eq_true h)).2 rfl

theorem attempt_succ (L : Loaded p image cx) (ih : Simulated p image cx K fuel) {body : Stmt}
    {catches : List Catch} (hbody : StmtOk p.compilation p.signatures body)
    (hcatches : CatchesOk p.compilation p.signatures catches) {inner outer : Goal → Nat}
    {more arrays' : Nat} (hl : cleanups ≤ more)
    (hcode : CodeAt S.routine.code inner pos
      (stmtCode p.compilation pos cleanups arrays body))
    (hexit : ∀ w b, ∃ n, Steps image n
      (S.point w b [] (pos + (stmtCode p.compilation pos cleanups arrays body).length))
      (S.point w b [] (outer .exit)))
    (hbranches : CodeAt S.routine.code outer (inner .handler)
      (catchesCode p.compilation (inner .handler) more arrays' catches))
    (hr : Reads b s.bindings) (hi : Idle b) :
    Follows image (S.point s.world b [] pos)
      (Affords K (fuel + 1) (sizeOf body + sizeOf catches))
      (fun _ => Executed S cleanups b (outer .exit))
      (fun u s q => Unwound S cleanups b (outer .handler) u s q ∨
        Unwound S cleanups b (inner .handler +
          (catchesCode p.compilation (inner .handler) more arrays' catches).length) u s q)
      (Evaluation.attempt cx (fuel + 1) body catches s) := by
  have h := ih.execute hbody hcode hr hi
  have nonempty : 0 < sizeOf catches := by cases catches <;> simp +arith
  simp only [Evaluation.attempt]
  cases hx : Evaluation.execute cx fuel body s with
  | done a t =>
    rw [hx] at h
    obtain ⟨n, _, hn, b', rfl, rest⟩ := h
    obtain ⟨m, hm⟩ := hexit t.world b'
    exact ⟨_, _, hn.trans hm, b', rfl, rest⟩
  | fault f =>
    rw [hx] at h
    exact h
  | exhausted =>
    rw [hx] at h
    exact fun m hm => h m (hm.part (by omega))
  | unwinding u t =>
    rw [hx] at h
    obtain ⟨n, _, hn, b', rfl, hu, hr', saved⟩ := h
    have found := follows_catches L S t.world hu hcatches hbranches
    cases u with
    | returning v =>
      rcases found with ⟨-, m, hm⟩ | ⟨c, hc, -⟩
      · exact ⟨_, _, hn.trans hm, .inr ⟨b', rfl, hu, hr', saved⟩⟩
      · rw [Unwinding.number, uncaught_returning L] at hc
        cases hc
    | thrown k v =>
      rcases found with ⟨hc, m, hm⟩ | ⟨c, hc, hok, m, place, more', arrays'', origin, hl', hm, there⟩
      · simp only [Unwinding.number] at hc
        simp only [hc]
        exact ⟨_, _, hn.trans hm, .inr ⟨b', rfl, hu, hr', saved⟩⟩
      · simp only [Unwinding.number] at hc
        simp only [hc]
        obtain ⟨branch, exit⟩ := codeAt_append.mp there
        have smaller : sizeOf c.body < sizeOf catches := by
          have := List.sizeOf_lt_of_mem (List.mem_of_find?_eq_some hc)
          cases c
          simp +arith [Catch.body] at this ⊢
          omega
        have entered := ih.execute (s := ⟨t.world, t.bindings.set c.target v⟩) hok branch
          (hr'.caught c.target v) (hu.caught c.target v)
        have kept : Saved cleanups b (b'.caught c.target v) :=
          saved.trans fun k _ => by simp [Store.caught]
        refine .after (hn.trans hm) (entered.imp (fun m hm => hm.part (by omega)) ?_ ?_)
        · rintro ⟨⟩ t' q hq
          obtain ⟨b'', rfl, rest⟩ := hq.before kept (Nat.le_trans hl hl')
          exact ⟨1, _, Steps.jump exit.1, b'', rfl, rest⟩
        · exact fun u t' q _ hq => ⟨0, q, .refl q, .inl (hq.before kept (Nat.le_trans hl hl'))⟩

theorem finish_succ (ih : Simulated p image cx K fuel) {st : Stmt} {n : Nat}
    {pending : Option Unwinding} (hst : StmtOk p.compilation p.signatures st)
    (hcode : CodeAt S.routine.code targets pos (enterCleanup n ++
      stmtCode p.compilation (pos + 6) (n + 1) arrays st ++ leaveCleanup
        (pos + (stmtCode p.compilation (pos + 6) (n + 1) arrays st).length + 6) n))
    (hr : Reads b s.bindings) (hp : Pending pending b) :
    Follows image (S.point s.world b [] pos) (Affords K (fuel + 1) (sizeOf st + 1))
      (fun _ => Executed S n b
        (pos + (stmtCode p.compilation (pos + 6) (n + 1) arrays st).length + 15))
      (Unwound S n b (targets .handler))
      (Evaluation.finish cx (fuel + 1) (some st) pending s) := by
  let inner := stmtCode p.compilation (pos + 6) (n + 1) arrays st
  obtain ⟨enter, run, leave⟩ := codeAt_append₃.mp hcode
  have run : CodeAt S.routine.code targets (pos + 6)
      (stmtCode p.compilation (pos + 6) (n + 1) arrays st) := run
  obtain ⟨leave, raise⟩ := codeAt_append.mp leave
  have leave := leave.cast (pos + inner.length + 6) (by simp [inner]; omega)
  have raise := raise.cast (pos + inner.length + 14) (by simp [inner]; omega)
  let b₁ : Store := ((b.set (.saved n) (b.load .pending)).set (.savedData n)
    (b.load .pendingData)).set .pending (.scalar 0)
  have entered : Steps image 6 (S.point s.world b [] pos) (S.point s.world b₁ [] (pos + 6)) :=
    Steps.block enter (by simp [moveAll?, move?, b₁])
  have thrown : (b.load .thrown).word = 0 := by
    cases pending with
    | none => exact hp.thrown
    | some u => exact hp.1.thrown
  have hr₁ : Reads b₁ s.bindings := fun x => by simpa [b₁] using hr x
  have hi₁ : Idle b₁ := ⟨by simp [b₁, Value.scalar], by simpa [b₁] using thrown⟩
  have saved₁ : Saved n b b₁ := fun k hk => by
    have : n ≠ k := by omega
    simp [b₁, this]
  unfold Evaluation.finish
  refine .after entered (((ih.execute hst run hr₁ hi₁).mapUnwound
    fun _ _ _ hq => hq.before saved₁ (Nat.le_succ n)).bind (fun _ => True)
    (fun m hm => hm.part (Nat.lt_succ_self _)) (fun _ _ => trivial) ?_)
  rintro ⟨⟩ t _ - ⟨b', rfl, hi', hr', saved'⟩
  have here : pos + 6 + (stmtCode p.compilation (pos + 6) (n + 1) arrays st).length =
      pos + inner.length + 6 := by
    simp [inner]
    omega
  rw [here]
  have pend : b'.load (.saved n) = b.load .pending := by
    rw [(saved' n (Nat.lt_succ_self n)).1]
    simp [b₁]
  have data : b'.load (.savedData n) = b.load .pendingData := by
    rw [(saved' n (Nat.lt_succ_self n)).2]
    simp [b₁]
  have loaded : Steps image 1 (S.point t.world b' [] _) (S.point t.world b' [_] _) :=
    Steps.move leave.1 rfl
  have looked := loaded.trans (Steps.jumpIfZero leave.2.1)
  have saved : Saved n b b' := saved₁.trans (saved'.mono (Nat.le_succ n))
  cases pending with
  | none =>
    have zero : (b'.load (.saved n)).word = 0 := by
      rw [pend]
      exact hp.pending
    rw [if_pos zero] at looked
    exact ⟨_, _, looked, b', rfl, hi', hr', saved⟩
  | some u =>
    have nonzero : (b'.load (.saved n)).word ≠ 0 := by
      rw [pend, hp.1.pending]
      exact hp.2
    rw [if_neg nonzero] at looked
    let b₂ : Store := ((b'.set .pending (b'.load (.saved n))).set .pendingData
      (b'.load (.savedData n))).set (.savedData n) (.scalar 0)
    have moved : Steps image 6 (S.point t.world b' [] (pos + inner.length + 6 + 1 + 1))
        (S.point t.world b₂ [] (pos + inner.length + 14)) :=
      Steps.block leave.2.2 (by simp [moveAll?, move?, b₂])
    refine ⟨_, _, (looked.trans moved).trans (Steps.raise raise), b₂, rfl, ?_, ?_, ?_⟩
    · exact ⟨by simp [b₂, pend, hp.1.pending], by simp [b₂, data, hp.1.payload],
        by simpa [b₂] using hi'.thrown⟩
    · exact fun x => by simpa [b₂] using hr' x
    · refine saved.trans fun k hk => ?_
      have : n ≠ k := by omega
      simp [b₂, this]

theorem repeatWhile_eq (cx : Evaluation.Context) (fuel : Nat) (c : Expr) (body : Stmt) :
    Evaluation.repeatWhile cx (fuel + 1) c body =
      (Evaluation.Scope.lift (Evaluation.evaluate cx fuel c) >>= fun v =>
        if v.word ≠ 0 then
          Evaluation.execute cx fuel body >>= fun _ => Evaluation.repeatWhile cx fuel c body
        else pure ()) := by
  funext s
  simp only [Evaluation.repeatWhile, Bind.bind, Action.bind]
  cases Evaluation.Scope.lift (Evaluation.evaluate cx fuel c) s with
  | done v t =>
    by_cases hv : v.word ≠ 0
    · simp only [if_pos hv, Action.bind]
      cases Evaluation.execute cx fuel body t <;> rfl
    · simp only [if_neg hv]
      rfl
  | unwinding u t => rfl
  | fault f => rfl
  | exhausted => rfl

theorem repeatWhile_succ (hK : 0 < K) (ih : Simulated p image cx K fuel) {c : Expr} {body : Stmt}
    (hst : StmtOk p.compilation p.signatures (.loop c body))
    (hcode : CodeAt S.routine.code targets pos
      (stmtCode p.compilation pos cleanups arrays (.loop c body)))
    (hr : Reads b s.bindings) (hi : Idle b) :
    Follows image (S.point s.world b [] pos) (Affords K (fuel + 1) (sizeOf c + sizeOf body))
      (fun _ => Executed S cleanups b
        (pos + (stmtCode p.compilation pos cleanups arrays (.loop c body)).length))
      (Unwound S cleanups b (targets .handler))
      (Evaluation.repeatWhile cx (fuel + 1) c body s) := by
  let condition := exprCode p.compilation pos 0 arrays c
  let inner := stmtCode p.compilation (pos + condition.length + 1) cleanups
    (arrays + c.arrayCount) body
  have again := fun {b s} => ih.repeatWhile hst hcode (b := b) (s := s)
  have size : 0 < sizeOf c ∧ 0 < sizeOf body :=
    ⟨by cases c <;> simp +arith, by cases body <;> simp +arith⟩
  have behind : pos + (stmtCode p.compilation pos cleanups arrays (.loop c body)).length =
      pos + condition.length + inner.length + 2 := by
    simp [stmtCode, condition, inner]
    omega
  simp only [stmtCode, List.append_assoc, codeAt_append] at hcode
  obtain ⟨hc, jz, hb, jump⟩ := hcode
  have hc : CodeAt S.routine.code targets pos condition := hc
  have hb : CodeAt S.routine.code targets (pos + condition.length + 1) inner := hb
  have jump := jump.cast (pos + condition.length + 1 + inner.length)
    (by simp [condition, inner])
  rw [behind] at again ⊢
  rw [repeatWhile_eq]
  refine (follows_value ih hst.1 hc hr hi.thrown).bind
    (Affords K (fuel + 1) (sizeOf c + sizeOf body))
    (fun m hm => hm.part (by omega)) (fun _ hm => hm) ?_
  rintro v t _ - ⟨hxs, b', rfl, kept⟩
  have hr' : Reads b' t.bindings := hxs ▸ kept.reads hr
  have jumped : Steps image 1 (S.point t.world b' [v] _) _ := Steps.jumpIfZero jz.1
  by_cases hv : v.word = 0
  · rw [if_pos hv] at jumped
    rw [if_neg (by simpa using hv)]
    exact ⟨1, _, jumped, b', rfl, kept.idle hi, hr', kept.saved⟩
  · rw [if_neg hv] at jumped
    rw [if_pos hv]
    refine .after jumped (((ih.execute hst.2 hb hr' (kept.idle hi)).mapUnwound
      fun _ _ _ hq => hq.before kept.saved (Nat.le_refl _)).bind
      (Affords K (fuel + 1) (sizeOf c + sizeOf body))
      (fun m hm => hm.part (by omega)) (fun _ hm => hm) ?_)
    rintro ⟨⟩ t' _ - ⟨b'', rfl, hi'', hr'', saved⟩
    refine .afterOne (Steps.jump jump.1) ((again hr'' hi'').inside (fun _ hm => hm)
      (kept.saved.trans saved) (Nat.le_refl _)) fun m hm => ?_
    -- the jump back is the instruction that pays for the next round
    unfold Affords at hm ⊢
    rw [Nat.add_one_mul] at hm
    omega

end Statements

end Threefold.Bytecode.Machine
