import Threefold.Proofs.Bytecode.Points
import Threefold.Proofs.Bytecode.Writing
import Threefold.Proofs.Evaluation.Unwinding

/-!
# What compiled code is to do

The machine follows the evaluation of a program. From the code of an expression it comes to the
value on top of the operands, from the code of a statement to the point behind it, and when
something unwinds it comes to where exceptions go, with no operands left and with the reason under
way (`Raised`). What a piece of code may change is part of each claim: the code of an expression
keeps all variables but the arrays of its own literals (`Kept`), that of a statement keeps what the
blocks around it have saved (`Saved`). `Simulated` puts these claims together for one bound on the
depth of the evaluation.

An exhausted evaluation is no evidence that the machine stops. On the contrary: a bound is used up by
going into parts of a body, of which there are only so many, or by calls and loops, and each of these
takes an instruction. So an evaluation that is exhausted at a large bound stands for a long run
(`Affords`).
-/

namespace Threefold

namespace Evaluation

/-- The number that stands for the reason of unwinding. -/
def Unwinding.number : Unwinding → Int32
  | returning _ => Exceptions.returning
  | thrown n _ => n

/-- The value that is taken along. -/
def Unwinding.payload : Unwinding → Value
  | returning v => v
  | thrown _ v => v

theorem Variables.load_set (xs : Variables) (x y : String) (v : Value) :
    Variables.load (xs.set x v) y = if x = y then v else xs.load y := by
  unfold Variables.load Bindings.getD
  rw [Bindings.get?_set]
  by_cases h : x = y <;> simp [h]

theorem Leaves.number_ne {allowed : Bool} {u : Unwinding} (h : Leaves OwnNumber allowed u) :
    u.number ≠ 0 := by
  cases u with
  | returning v => exact (by decide : Exceptions.returning ≠ 0)
  | thrown n v => exact h.2.1

end Evaluation

namespace Bytecode.Machine

open Compilation (Goal Mark CodeAt code codeAt_append codeAt_settle redirect ExprOk ExprsOk StmtOk
  CatchesOk CleanupOk exprCode exprsCode itemsCode stmtCode catchesCode cleanupCode checkCode
  enterCleanup leaveCleanup landingCode bodyCode routineOf numberOf)
open Evaluation (Variables Unwinding Result Action OwnNumber Leaves Throws)

/-! ## What is known of an activation -/

/-- All variables are kept but the arrays of literals from a number on. -/
def Kept (arrays : Nat) (b b' : Store) : Prop :=
  ∀ x, (∀ k, arrays ≤ k → x ≠ .array k) → b'.load x = b.load x

/-- What the blocks up to a number have saved is kept. -/
def Saved (cleanups : Nat) (b b' : Store) : Prop :=
  ∀ k < cleanups, b'.load (.saved k) = b.load (.saved k) ∧
    b'.load (.savedData k) = b.load (.savedData k)

/-- The variables of the program have the values that the tree gives them. -/
def Reads (b : Store) (xs : Variables) : Prop :=
  ∀ x, b.load (.named x) = xs.load x

/-- Where an expression begins: its operands are counted, and no exception was handed over. -/
structure Ready (b : Store) (ops : List Value) (xs : Variables) (depth : Nat) : Prop where
  reads : Reads b xs
  thrown : (b.load .thrown).word = 0
  depth : ops.length = depth

/-- Between statements no exception is under way. -/
structure Idle (b : Store) : Prop where
  pending : (b.load .pending).word = 0
  thrown : (b.load .thrown).word = 0

/-- A reason of unwinding is under way. -/
structure Raised (u : Unwinding) (b : Store) : Prop where
  pending : b.load .pending = .scalar u.number
  payload : b.load .pendingData = u.payload
  thrown : (b.load .thrown).word = 0

/-- What is under way where a block begins that runs in any case. -/
def Pending : Option Unwinding → Store → Prop
  | none, b => Idle b
  | some u, b => Raised u b ∧ u.number ≠ 0

section Frames

variable {arrays more cleanups : Nat} {b b' b'' : Store} {xs : Variables}

theorem Kept.refl (b : Store) : Kept arrays b b :=
  fun _ _ => rfl

theorem Kept.trans (h : Kept arrays b b') (h' : Kept arrays b' b'') : Kept arrays b b'' :=
  fun x hx => (h' x hx).trans (h x hx)

theorem Kept.mono (h : Kept more b b') (hl : arrays ≤ more) : Kept arrays b b' :=
  fun x hx => h x fun k hk => hx k (Nat.le_trans hl hk)

theorem Kept.array (b : Store) (v : Value) : Kept arrays b (b.set (.array arrays) v) := by
  intro x hx
  rw [Store.load_set, if_neg fun h => hx arrays (Nat.le_refl _) h.symm]

theorem Kept.saved (h : Kept arrays b b') : Saved cleanups b b' :=
  fun k _ => ⟨h (.saved k) fun _ _ => by nofun, h (.savedData k) fun _ _ => by nofun⟩

theorem Kept.reads (h : Kept arrays b b') (hr : Reads b xs) : Reads b' xs :=
  fun x => (h (.named x) fun _ _ => by nofun).trans (hr x)

theorem Kept.thrown (h : Kept arrays b b') (ht : (b.load .thrown).word = 0) :
    (b'.load .thrown).word = 0 := by
  rwa [h .thrown fun _ _ => by nofun]

theorem Kept.pending (h : Kept arrays b b') : b'.load .pending = b.load .pending :=
  h .pending fun _ _ => by nofun

theorem Kept.idle (h : Kept arrays b b') (hi : Idle b) : Idle b' :=
  ⟨by rw [h.pending]; exact hi.pending, h.thrown hi.thrown⟩

theorem Saved.refl (b : Store) : Saved cleanups b b :=
  fun _ _ => ⟨rfl, rfl⟩

theorem Saved.trans (h : Saved cleanups b b') (h' : Saved cleanups b' b'') :
    Saved cleanups b b'' :=
  fun k hk => ⟨(h' k hk).1.trans (h k hk).1, (h' k hk).2.trans (h k hk).2⟩

theorem Saved.mono (h : Saved more b b') (hl : cleanups ≤ more) : Saved cleanups b b' :=
  fun k hk => h k (Nat.lt_of_lt_of_le hk hl)

theorem Reads.store (h : Reads b xs) (x : String) (v : Value) :
    Reads (b.set (.named x) v) (xs.set x v) := by
  intro y
  rw [Store.load_set, Variables.load_set, h y]
  by_cases hxy : x = y <;> simp [hxy]

theorem Idle.store (h : Idle b) {x : Variable} (v : Value) (hp : x ≠ .pending)
    (ht : x ≠ .thrown) : Idle (b.set x v) :=
  ⟨by rw [Store.load_set, if_neg hp]; exact h.pending,
    by rw [Store.load_set, if_neg ht]; exact h.thrown⟩

theorem Ready.kept {ops : List Value} {depth : Nat} (h : Ready b ops xs depth) (vs : List Value)
    (hk : Kept arrays b b') : Ready b' (vs.reverse ++ ops) xs (depth + vs.length) :=
  ⟨hk.reads h.reads, hk.thrown h.thrown, by simp [h.depth, Nat.add_comm]⟩

end Frames

/-! ## What is reached -/

/-- A value was returned, on top of the operands. -/
def Returned (S : Site) (b : Store) (ops : List Value) (next : Nat) (v : Value) (w : World)
    (q : Progress) : Prop :=
  q = S.point w b (v :: ops) next

/-- An exception was handed over by a callee. -/
def Handed (S : Site) (b : Store) (ops : List Value) (next : Nat) (u : Unwinding) (w : World)
    (q : Progress) : Prop :=
  q = S.point w ((b.set .thrown (.scalar u.number)).set .thrownData u.payload)
    (.scalar 0 :: ops) next

/-- Values are on top of the operands, the last one topmost. -/
def Evaluated (S : Site) (arrays : Nat) (b : Store) (ops : List Value) (next : Nat)
    (vs : List Value) (w : World) (q : Progress) : Prop :=
  ∃ b', q = S.point w b' (vs.reverse ++ ops) next ∧ Kept arrays b b'

/-- A statement is done. -/
def Executed (S : Site) (cleanups : Nat) (b : Store) (next : Nat) (s : Evaluation.Scope) (q : Progress) :
    Prop :=
  ∃ b', q = S.point s.world b' [] next ∧ Idle b' ∧ Reads b' s.bindings ∧ Saved cleanups b b'

/-- Something unwinds, and control is where exceptions go. -/
def Unwound (S : Site) (cleanups : Nat) (b : Store) (target : Nat) (u : Unwinding) (s : Evaluation.Scope)
    (q : Progress) : Prop :=
  ∃ b', q = S.point s.world b' [] target ∧ Raised u b' ∧ Reads b' s.bindings ∧
    Saved cleanups b b'

theorem Unwound.before {S : Site} {cleanups more target : Nat} {b b' : Store} {u : Unwinding}
    {s : Evaluation.Scope} {q : Progress} (h : Unwound S more b' target u s q)
    (hs : Saved cleanups b b') (hl : cleanups ≤ more) : Unwound S cleanups b target u s q := by
  obtain ⟨b'', hq, hu, hr, hs'⟩ := h
  exact ⟨b'', hq, hu, hr, hs.trans (hs'.mono hl)⟩

theorem Executed.before {S : Site} {cleanups more next : Nat} {b b' : Store}
    {s : Evaluation.Scope} {q : Progress} (h : Executed S more b' next s q)
    (hs : Saved cleanups b b') (hl : cleanups ≤ more) : Executed S cleanups b next s q := by
  obtain ⟨b'', hq, hi, hr, hs'⟩ := h
  exact ⟨b'', hq, hi, hr, hs.trans (hs'.mono hl)⟩

/-- A bound on the depth is large enough for a run of some length from code of some size on, if
calls and loops take `K` of it. -/
def Affords (K fuel size m : Nat) : Prop :=
  m * K + size < fuel

theorem Affords.part {K fuel size part m : Nat} (h : Affords K (fuel + 1) size m)
    (hp : part < size) : Affords K fuel part m := by
  unfold Affords at h ⊢
  omega

theorem Affords.less {K fuel size part m : Nat} (h : Affords K fuel size m)
    (hp : part ≤ size) : Affords K fuel part m := by
  unfold Affords at h ⊢
  omega

/-! ## Calls of built-in functions, and the code behind calls -/

section Calls

variable {image : Image} {S : Site} {w : World} {b : Store} {ops : List Value} {pos : Nat}
  {targets : Goal → Nat}

theorem execute_call {callee : Callee} {vs : List Value} {a : Activation}
    {callers : List Activation} (ha : a.operands = vs.reverse ++ ops) :
    vs.length = callee.arity → execute image (.call callee) w a callers =
      match callee with
      | .routine s => enter image w s vs ({ a with operands := ops } :: callers)
      | .intrinsic i => callIntrinsic w i vs { a with operands := ops } callers := by
  intro hv
  have enough : ¬ a.operands.length < callee.arity := by
    rw [ha, List.length_append, List.length_reverse, hv]
    omega
  have taken : a.operands.take callee.arity = vs.reverse := by
    rw [ha, ← hv, ← List.length_reverse, List.take_left]
  have left : a.operands.drop callee.arity = ops := by
    rw [ha, ← hv, ← List.length_reverse, List.drop_left]
  cases callee <;>
    simp only [execute, enough, if_false, taken, left, List.reverse_reverse]

theorem follows_callIntrinsic {i : Intrinsic} {vs : List Value} {limit : Nat → Prop}
    (h : S.routine.code[pos]? = some (.call (.intrinsic i))) (hv : vs.length = i.arity) :
    Follows image (S.point w b (vs.reverse ++ ops) pos) limit (Returned S b ops (pos + 1))
      (Handed S b ops (pos + 1)) (Evaluation.callIntrinsic i vs w) := by
  have called : Steps image 1 (S.point w b (vs.reverse ++ ops) pos) _ := Steps.one h (by nofun)
  rw [execute_call rfl (by exact hv)] at called
  simp only [callIntrinsic] at called
  unfold Evaluation.callIntrinsic
  cases hr : i.call vs w with
  | ok r w' =>
    rw [hr] at called
    cases r with
    | returned v => exact ⟨1, _, called, rfl⟩
    | outOfBounds n => exact ⟨1, _, called, rfl⟩
  | error f w' =>
    rw [hr] at called
    exact ⟨1, called⟩

/-- Nothing was handed over. -/
theorem Steps.check {depth : Nat} {origin : String}
    (h : CodeAt S.routine.code targets pos (checkCode pos depth origin))
    (ht : (b.load .thrown).word = 0) :
    Steps image 2 (S.point w b ops pos) (S.point w b ops (pos + depth + 9)) := by
  obtain ⟨h, -⟩ := codeAt_append.mp h
  have looked : Steps image 1 (S.point w b (b.load .thrown :: ops) (pos + 1)) _ :=
    Steps.jumpIfZero h.2.1
  rw [if_pos ht] at looked
  exact (Steps.move h.1 rfl).trans looked

/-- An exception was handed over: it is under way now. -/
theorem Steps.receive {depth : Nat} {origin : String} {u : Unwinding} {xs : Variables}
    (h : CodeAt S.routine.code targets pos (checkCode pos depth origin))
    (hops : ops.length = depth) (hr : Reads b xs) (hu : u.number ≠ 0) (cleanups : Nat) :
    ∃ n q, Steps image n
      (S.point w ((b.set .thrown (.scalar u.number)).set .thrownData u.payload) ops pos) q ∧
      Unwound S cleanups b (targets .handler) u ⟨w, xs⟩ q := by
  let b₁ : Store := (b.set .thrown (.scalar u.number)).set .thrownData u.payload
  let b₂ : Store := ((b₁.set .pending (b₁.load .thrown)).set .pendingData
    (b₁.load .thrownData)).set .thrown (.scalar 0)
  have given : b₁.load .thrown = .scalar u.number := by simp [b₁]
  have data : b₁.load .thrownData = u.payload := by simp [b₁]
  obtain ⟨h, raise⟩ := codeAt_append.mp h
  have looked : Steps image 1 (S.point w b₁ (b₁.load .thrown :: ops) (pos + 1)) _ :=
    Steps.jumpIfZero h.2.1
  have nonzero : (b₁.load .thrown).word ≠ 0 := by
    rw [given]
    exact hu
  rw [if_neg nonzero] at looked
  let taking : List Instruction := [.load .thrown, .store .pending, .load .thrownData,
    .store .pendingData, .push 0, .store .thrown] ++ .replicate depth .pop
  have moved : moveAll? taking (b₁, ops) = some (b₂, []) := by
    rw [moveAll?_append, ← hops]
    have popped := moveAll?_pop ops [] b₂
    rw [List.append_nil] at popped
    refine Eq.trans ?_ popped
    simp [moveAll?, move?, b₂, given, data]
  have behind : CodeAt S.routine.code targets (pos + 2) (code taking) := h.2.2
  have block : Steps image taking.length (S.point w b₁ ops (pos + 2)) _ :=
    Steps.block behind moved
  have there : pos + 2 + taking.length = pos + depth + 8 := by
    simp [taking]
    omega
  rw [there] at block
  have raise := raise.cast (pos + depth + 8) (by simp; omega)
  have raised : Steps image 1 (S.point w b₂ [] (pos + depth + 8)) _ := Steps.raise raise
  refine ⟨_, _, ((Steps.move h.1 rfl).trans looked).trans (block.trans raised), b₂, rfl, ?_, ?_, ?_⟩
  · exact ⟨by simp [b₂, given], by simp [b₂, data], by simp [b₂, Value.scalar]⟩
  · intro x
    simpa [b₂, b₁] using hr x
  · intro k _
    simp [b₂, b₁]

/-- A call with the code behind it that looks for an exception. -/
theorem Follows.checked {limit : Nat → Prop} {r : Result World Value} {start : Progress}
    {next depth : Nat} {origin : String} {xs : Variables} (cleanups : Nat)
    (h : Follows image start limit (Returned S b ops next) (Handed S b ops next) r)
    (code : CodeAt S.routine.code targets next (checkCode next (depth + 1) origin))
    (ready : Ready b ops xs depth) (hu : ∀ u w, r = .unwinding u w → u.number ≠ 0) :
    Follows image start limit (Returned S b ops (next + depth + 10))
      (fun u w => Unwound S cleanups b (targets .handler) u ⟨w, xs⟩) r := by
  refine h.imp (fun _ hm => hm) ?_ ?_
  · rintro v w q rfl
    exact ⟨2, _, Steps.check code ready.thrown, rfl⟩
  · rintro u w q hr rfl
    exact Steps.receive code (by simp [ready.depth]) ready.reads (hu u w hr) cleanups

/-- A call that hands nothing over. -/
theorem Follows.unchecked {limit : Nat → Prop} {r : Result World Value} {start : Progress}
    {next : Nat} {U : Unwinding → World → Progress → Prop}
    (h : Follows image start limit (Returned S b ops next) (Handed S b ops next) r)
    (hu : ∀ u w, r ≠ .unwinding u w) :
    Follows image start limit (Returned S b ops next) U r :=
  h.imp (fun _ hm => hm) (fun _ _ q hq => ⟨0, q, .refl q, hq⟩)
    fun u w _ hr _ => absurd hr (hu u w)

/-- Something unwinds from code that began with other variables. -/
theorem Follows.before {α : Type} {limit : Nat → Prop} {r : Result World α} {start : Progress}
    {D : α → World → Progress → Prop} {b' : Store} {xs : Variables} {cleanups target : Nat}
    (h : Follows image start limit D (fun u w => Unwound S cleanups b' target u ⟨w, xs⟩) r)
    (hs : Saved cleanups b b') :
    Follows image start limit D (fun u w => Unwound S cleanups b target u ⟨w, xs⟩) r :=
  h.mapUnwound fun _ _ _ hq => hq.before hs (Nat.le_refl _)

/-- A statement inside of another one, which may have saved more, is followed. -/
theorem Follows.inside {limit limit' : Nat → Prop} {more cleanups next target : Nat}
    {start : Progress} {b' : Store} {r : Result Evaluation.Scope Unit}
    (h : Follows image start limit' (fun _ => Executed S more b' next) (Unwound S more b' target) r)
    (hm : ∀ m, limit m → limit' m) (hs : Saved cleanups b b') (hl : cleanups ≤ more) :
    Follows image start limit (fun _ => Executed S cleanups b next)
      (Unwound S cleanups b target) r :=
  h.imp hm (fun _ _ q hq => ⟨0, q, .refl q, hq.before hs hl⟩)
    fun _ _ q _ hq => ⟨0, q, .refl q, hq.before hs hl⟩

end Calls

/-! ## The claims -/

/-- The machine runs the bytecode of the program that is evaluated. -/
structure Loaded (p : Program) (image : Image) (cx : Evaluation.Context) : Prop where
  linked : p.Linked
  program : cx.program = p
  exceptions : cx.exceptions = p.exceptions
  literals : cx.literals = p.literals
  pool : cx.pool = image.pool
  pooled : image.pool.size = p.literals.length
  routines : image.routines = p.functions.map (routineOf p.compilation)
  few : p.exceptions.length < 2 ^ 32 - 1

theorem Loaded.unwinds {p : Program} {image : Image} {cx : Evaluation.Context}
    (L : Loaded p image cx) (fuel : Nat) :
    Evaluation.Unwinding.Within OwnNumber p.throwing cx fuel := by
  refine Evaluation.Unwinding.within ⟨fun s f hf hc => ?_,
    ⟨by decide, by decide⟩, fun x n hn => ?_⟩ fuel
  · obtain ⟨hm, rfl⟩ := Evaluation.Context.of_function? hf
    exact p.throwing_closed f (L.program ▸ hm) hc
  · exact Evaluation.ownNumber_of_number? L.few (L.exceptions ▸ hn)

/-- The machine follows everything that is evaluated within a bound on the depth. -/
structure Simulated (p : Program) (image : Image) (cx : Evaluation.Context) (K fuel : Nat) :
    Prop where
  evaluate : ∀ {e : Expr}, ExprOk p.compilation p.signatures e →
    ∀ {S : Site} {targets : Goal → Nat} {pos depth arrays : Nat},
    CodeAt S.routine.code targets pos (exprCode p.compilation pos depth arrays e) →
    ∀ {b : Store} {ops : List Value} {xs : Variables}, Ready b ops xs depth →
    ∀ (cleanups : Nat) (w : World),
    Follows image (S.point w b ops pos) (Affords K fuel (sizeOf e))
      (fun v => Evaluated S arrays b ops
        (pos + (exprCode p.compilation pos depth arrays e).length) [v])
      (fun u w => Unwound S cleanups b (targets .handler) u ⟨w, xs⟩)
      (Evaluation.evaluate cx fuel e xs w)
  evaluateAll : ∀ {es : List Expr}, ExprsOk p.compilation p.signatures es →
    ∀ {S : Site} {targets : Goal → Nat} {pos depth arrays : Nat},
    CodeAt S.routine.code targets pos (exprsCode p.compilation pos depth arrays es) →
    ∀ {b : Store} {ops : List Value} {xs : Variables}, Ready b ops xs depth →
    ∀ (cleanups : Nat) (w : World),
    Follows image (S.point w b ops pos) (Affords K fuel (sizeOf es))
      (fun vs w q => vs.length = es.length ∧ Evaluated S arrays b ops
        (pos + (exprsCode p.compilation pos depth arrays es).length) vs w q)
      (fun u w => Unwound S cleanups b (targets .handler) u ⟨w, xs⟩)
      (Evaluation.evaluateAll cx fuel es xs w)
  fill : ∀ {es : List Expr}, ExprsOk p.compilation p.signatures es →
    ∀ {S : Site} {targets : Goal → Nat} {pos depth arrays k index : Nat}, k < arrays →
    CodeAt S.routine.code targets pos
      (itemsCode p.compilation pos depth arrays (.array k) index es) →
    ∀ {b : Store} {ops : List Value} {xs : Variables}, Ready b ops xs depth →
    ∀ (cleanups : Nat) (w : World),
    Follows image (S.point w b ops pos) (Affords K fuel (sizeOf es))
      (fun _ => Evaluated S arrays b ops
        (pos + (itemsCode p.compilation pos depth arrays (.array k) index es).length) [])
      (fun u w => Unwound S cleanups b (targets .handler) u ⟨w, xs⟩)
      (Evaluation.fill cx fuel (b.load (.array k)) index es xs w)
  call : ∀ {s : Signature}, s ∈ p.signatures → ∀ (vs : List Value) (w : World)
    (callers : List Activation),
    Follows image (enter image w s vs callers) (fun m => m * K + K ≤ fuel)
      (fun v w q => q = leave w v none callers)
      (fun u w q => q = leave w (.scalar 0) (some (.scalar u.number, u.payload)) callers)
      (Evaluation.call cx fuel s vs w)
  execute : ∀ {st : Stmt}, StmtOk p.compilation p.signatures st →
    ∀ {S : Site} {targets : Goal → Nat} {pos cleanups arrays : Nat},
    CodeAt S.routine.code targets pos (stmtCode p.compilation pos cleanups arrays st) →
    ∀ {b : Store} {s : Evaluation.Scope}, Reads b s.bindings → Idle b →
    Follows image (S.point s.world b [] pos) (Affords K fuel (sizeOf st))
      (fun _ => Executed S cleanups b
        (pos + (stmtCode p.compilation pos cleanups arrays st).length))
      (Unwound S cleanups b (targets .handler))
      (Evaluation.execute cx fuel st s)
  repeatWhile : ∀ {c : Expr} {body : Stmt}, StmtOk p.compilation p.signatures (.loop c body) →
    ∀ {S : Site} {targets : Goal → Nat} {pos cleanups arrays : Nat},
    CodeAt S.routine.code targets pos
      (stmtCode p.compilation pos cleanups arrays (.loop c body)) →
    ∀ {b : Store} {s : Evaluation.Scope}, Reads b s.bindings → Idle b →
    Follows image (S.point s.world b [] pos) (Affords K fuel (sizeOf c + sizeOf body))
      (fun _ => Executed S cleanups b
        (pos + (stmtCode p.compilation pos cleanups arrays (.loop c body)).length))
      (Unwound S cleanups b (targets .handler))
      (Evaluation.repeatWhile cx fuel c body s)
  attempt : ∀ {body : Stmt} {catches : List Catch} (outer : Goal → Nat) (more' : Nat),
    StmtOk p.compilation p.signatures body → CatchesOk p.compilation p.signatures catches →
    ∀ {S : Site} {inner : Goal → Nat} {pos cleanups more arrays : Nat}, cleanups ≤ more →
    CodeAt S.routine.code inner pos (stmtCode p.compilation pos cleanups arrays body) →
    (∀ w b, ∃ n, Steps image n
      (S.point w b [] (pos + (stmtCode p.compilation pos cleanups arrays body).length))
      (S.point w b [] (outer .exit))) →
    CodeAt S.routine.code outer (inner .handler)
      (catchesCode p.compilation (inner .handler) more more' catches) →
    ∀ {b : Store} {s : Evaluation.Scope}, Reads b s.bindings → Idle b →
    Follows image (S.point s.world b [] pos)
      (Affords K fuel (sizeOf body + sizeOf catches))
      (fun _ => Executed S cleanups b (outer .exit))
      (fun u s q => Unwound S cleanups b (outer .handler) u s q ∨
        Unwound S cleanups b (inner .handler +
          (catchesCode p.compilation (inner .handler) more more' catches).length) u s q)
      (Evaluation.attempt cx fuel body catches s)
  finish : ∀ {st : Stmt} (pending : Option Unwinding), StmtOk p.compilation p.signatures st →
    ∀ {S : Site} {targets : Goal → Nat} {pos n arrays : Nat},
    CodeAt S.routine.code targets pos (enterCleanup n ++
      stmtCode p.compilation (pos + 6) (n + 1) arrays st ++ leaveCleanup
        (pos + (stmtCode p.compilation (pos + 6) (n + 1) arrays st).length + 6) n) →
    ∀ {b : Store} {s : Evaluation.Scope}, Reads b s.bindings → Pending pending b →
    Follows image (S.point s.world b [] pos) (Affords K fuel (sizeOf st + 1))
      (fun _ => Executed S n b
        (pos + (stmtCode p.compilation (pos + 6) (n + 1) arrays st).length + 15))
      (Unwound S n b (targets .handler))
      (Evaluation.finish cx fuel (some st) pending s)

end Bytecode.Machine

end Threefold
