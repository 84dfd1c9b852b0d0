import Threefold.Proofs.Bytecode.Points
import Threefold.Proofs.Bytecode.Reached
import Threefold.Proofs.Bytecode.Writing
import Threefold.Proofs.Evaluation.Unwinding

/-!
# Functions that cannot throw

A function that the analysis of exceptions does not name never ends with an exception: in the tree
nothing unwinds out of a call of it, and its routine never hands an exception over. For the tree this
follows from what is known of everything that unwinds.

The routine of such a function does have code that hands an exception over, behind a test whether the
function is returning. That code is never reached, because what is under way in the routine is only
ever a return (`Calm`). `Safe` looks at the code of one routine alone: whatever values its calls
yield, a number of instructions can be executed without an exception that is handed over. The code of
a statement is safe if the code behind it and the code where exceptions go are
(`continues_stmt`), and so the code of a whole routine is (`safe_routine`).

* `Guarded.step` says that routines which cannot throw receive no exception either, since they only
  call each other.
* `throwing_sound` is about whole programs.
-/

namespace Threefold.Bytecode.Machine

open Compilation (Goal Mark CodeAt code codeAt_append codeAt_append₃ codeAt_settle redirect ExprOk
  ExprsOk StmtOk CatchesOk CleanupOk exprCode exprsCode stmtCode catchesCode cleanupCode
  enterCleanup leaveCleanup stmtCode_attempt landingCode bodyCode codeAt_bodyCode routineOf)

/-! ## Code that is safe whatever calls yield -/

/-- A call that hands no exception over, given the functions that can throw. -/
def Harmless (throwing : List Signature) : Callee → Prop
  | .intrinsic i => i.canThrow = false
  | .routine s => s ∉ throwing

/-- An instruction hands no exception over, whatever it yields, and what comes behind it is safe. A
fault ends the routine. -/
def SafeStep (throwing : List Signature) (behind : Nat → Store → List Value → Prop) (pos : Nat)
    (b : Store) (ops : List Value) : Instruction → Prop
  | .push k => behind (pos + 1) b (.scalar k :: ops)
  | .pushLiteral _ => ∀ k, behind (pos + 1) b (.scalar k :: ops)
  | .load x => behind (pos + 1) b (b.load x :: ops)
  | .store x =>
    match ops with
    | [] => True
    | v :: ops => behind (pos + 1) (b.set x v) ops
  | .unary op =>
    match ops with
    | [] => True
    | v :: ops => behind (pos + 1) b (.scalar (op.eval v.word) :: ops)
  | .binary op =>
    match ops with
    | [] => True
    | [_] => True
    | r :: l :: ops => ∀ k, op.eval? l.word r.word = some k → behind (pos + 1) b (.scalar k :: ops)
  | .jump t => behind t b ops
  | .jumpIfZero t =>
    match ops with
    | [] => True
    | v :: ops => behind (if v.word = 0 then t else pos + 1) b ops
  | .call c => Harmless throwing c ∧ ∀ v, behind (pos + 1) b (v :: ops.drop c.arity)
  | .pop =>
    match ops with
    | [] => True
    | _ :: ops => behind (pos + 1) b ops
  | .returnValue => True
  | .returnZero => True
  | .transfer => False

/-- From an index on, a number of instructions of a routine can be executed, whatever its calls
yield, and no exception is handed over to the routine or by it. -/
def Safe (F : Array Instruction) (throwing : List Signature) :
    Nat → Nat → Store → List Value → Prop
  | 0, _, _, _ => True
  | n + 1, pos, b, ops =>
    match F[pos]? with
    | none => True
    | some i => SafeStep throwing (Safe F throwing n) pos b ops i

/-- From an index on, at most a number of instructions are safe, if the variables have a
property. -/
def Continues (F : Array Instruction) (throwing : List Signature) (n pos : Nat)
    (P : Store → Prop) : Prop :=
  ∀ m ≤ n, ∀ b ops, P b → Safe F throwing m pos b ops

variable {F : Array Instruction} {throwing : List Signature} {targets : Goal → Nat} {n pos : Nat}
  {P Q : Store → Prop}

theorem safe_succ {b : Store} {ops : List Value} {i : Instruction} (hi : F[pos]? = some i) :
    Safe F throwing (n + 1) pos b ops ↔
      SafeStep throwing (Safe F throwing n) pos b ops i := by
  rw [Safe, hi]

namespace Continues

theorem mono (h : Continues F throwing n pos P) {m : Nat} (hm : m ≤ n) :
    Continues F throwing m pos P :=
  fun k hk => h k (Nat.le_trans hk hm)

theorem imp (h : Continues F throwing n pos Q) (hPQ : ∀ b, P b → Q b) :
    Continues F throwing n pos P :=
  fun m hm b ops hP => h m hm b ops (hPQ b hP)

theorem cast (h : Continues F throwing n pos P) {pos' : Nat} (hp : pos = pos') :
    Continues F throwing n pos' P :=
  hp ▸ h

/-- Where no variables have the property nothing is executed. -/
theorem vacuous (h : ∀ b, ¬ P b) : Continues F throwing n pos P :=
  fun _ _ b _ hP => absurd hP (h b)

end Continues

/-- An instruction that keeps the variables and leads to the next one. -/
def Keeps (throwing : List Signature) : Instruction → Prop
  | .push _ | .pushLiteral _ | .load _ | .unary _ | .binary _ | .pop => True
  | .call c => Harmless throwing c
  | _ => False

namespace Continues

theorem keep {i : Instruction} (hi : F[pos]? = some i) (keeps : Keeps throwing i)
    (h : Continues F throwing n (pos + 1) P) : Continues F throwing n pos P := by
  intro m hm b ops hP
  cases m with
  | zero => trivial
  | succ m =>
    have next : ∀ ops, Safe F throwing m (pos + 1) b ops := fun ops => h m (by omega) b ops hP
    apply (safe_succ hi).mpr
    cases i with
    | push k => exact next _
    | pushLiteral k => exact fun k => next _
    | load x => exact next _
    | unary op =>
      cases ops with
      | nil => trivial
      | cons v ops => exact next _
    | binary op =>
      match ops with
      | [] => trivial
      | [v] => trivial
      | r :: l :: ops => exact fun k _ => next _
    | call c => exact ⟨keeps, fun v => next _⟩
    | pop =>
      cases ops with
      | nil => trivial
      | cons v ops => exact next _
    | _ => exact keeps.elim

theorem store {x : Variable} (hi : F[pos]? = some (.store x))
    (h : Continues F throwing n (pos + 1) Q) (hs : ∀ b v, P b → Q (b.set x v)) :
    Continues F throwing n pos P := by
  intro m hm b ops hP
  cases m with
  | zero => trivial
  | succ m =>
    apply (safe_succ hi).mpr
    cases ops with
    | nil => trivial
    | cons v ops => exact h m (by omega) _ ops (hs b v hP)

/-- A jump takes one instruction, so less is left of the code that it goes to. -/
theorem jump {t : Nat} (hi : F[pos]? = some (.jump t)) (h : Continues F throwing n t P) :
    Continues F throwing (n + 1) pos P := by
  intro m hm b ops hP
  cases m with
  | zero => trivial
  | succ m => exact (safe_succ hi).mpr (h m (by omega) b ops hP)

theorem jumpIfZero {t : Nat} (hi : F[pos]? = some (.jumpIfZero t))
    (zero : Continues F throwing n t P) (other : Continues F throwing n (pos + 1) P) :
    Continues F throwing n pos P := by
  intro m hm b ops hP
  cases m with
  | zero => trivial
  | succ m =>
    apply (safe_succ hi).mpr
    cases ops with
    | nil => trivial
    | cons v ops =>
      simp only [SafeStep]
      split
      · exact zero m (by omega) b ops hP
      · exact other m (by omega) b ops hP

end Continues

/-! ### Blocks -/

theorem Safe.move {i : Instruction} {b b' : Store} {ops ops' : List Value}
    (hi : F[pos]? = some i) (hm : move? i (b, ops) = some (b', ops'))
    (h : Safe F throwing n (pos + 1) b' ops') : Safe F throwing (n + 1) pos b ops := by
  apply (safe_succ hi).mpr
  cases i with
  | push k =>
    cases hm
    exact h
  | load x =>
    cases hm
    exact h
  | store x =>
    cases ops with
    | nil => cases hm
    | cons v ops =>
      cases hm
      exact h
  | pop =>
    cases ops with
    | nil => cases hm
    | cons v ops =>
      cases hm
      exact h
  | _ => cases hm

/-- Code that only moves values. -/
theorem Safe.block {is : List Instruction} (hc : CodeAt F targets pos (code is)) {b b' : Store}
    {ops ops' : List Value} (hm : moveAll? is (b, ops) = some (b', ops'))
    (h : ∀ m ≤ n, Safe F throwing m (pos + is.length) b' ops') : Safe F throwing n pos b ops := by
  induction is generalizing n pos b ops with
  | nil =>
    cases hm
    exact h n (Nat.le_refl n)
  | cons i is ih =>
    obtain ⟨⟨b₁, ops₁⟩, first, rest⟩ := Option.bind_eq_some_iff.mp hm
    cases n with
    | zero => trivial
    | succ n =>
      refine .move hc.1 first (ih hc.2 rest fun m hm => ?_)
      have place : pos + 1 + is.length = pos + (i :: is).length := by
        rw [List.length_cons]
        omega
      rw [place]
      exact h m (by omega)

namespace Continues

/-- Code that only moves values, and leaves as many operands as there were. -/
theorem block {is : List Instruction} (hc : CodeAt F targets pos (code is)) (f : Store → Store)
    (hm : ∀ b ops, moveAll? is (b, ops) = some (f b, ops))
    (h : Continues F throwing n (pos + is.length) Q) (hf : ∀ b, P b → Q (f b)) :
    Continues F throwing n pos P :=
  fun _ hmn b ops hP => .block hc (hm b ops) fun k hk =>
    h k (Nat.le_trans hk hmn) (f b) ops (hf b hP)

/-- A variable is tested for zero. -/
theorem test {x : Variable} {t : Nat} (hc : CodeAt F targets pos (code [.load x, .jumpIfZero t]))
    (zero : Continues F throwing n t P)
    (other : Continues F throwing n (pos + 2) fun b => P b ∧ (b.load x).word ≠ 0) :
    Continues F throwing n pos P := by
  intro m hm b ops hP
  have load : CodeAt F targets pos (code [.load x]) := ⟨hc.1, trivial⟩
  refine .block load rfl fun k hk => ?_
  cases k with
  | zero => trivial
  | succ k =>
    have jump : F[pos + 1]? = some (.jumpIfZero t) := hc.2.1
    show Safe F throwing (k + 1) (pos + 1) b (b.load x :: ops)
    apply (safe_succ jump).mpr
    simp only [SafeStep]
    split
    · exact zero k (by omega) b ops hP
    · rename_i differs
      exact other k (by omega) b ops ⟨hP, differs⟩

/-- A variable is compared with a number. -/
theorem compare {x : Variable} {c : Int32} {t : Nat}
    (hc : CodeAt F targets pos (code [.load x, .push c, .binary .eq, .jumpIfZero t]))
    (same : Continues F throwing n (pos + 4) fun b => P b ∧ (b.load x).word = c)
    (other : Continues F throwing n t fun b => P b ∧ (b.load x).word ≠ c) :
    Continues F throwing n pos P := by
  intro m hm b ops hP
  have pushed : CodeAt F targets pos (code [.load x, .push c]) := ⟨hc.1, hc.2.1, trivial⟩
  refine .block pushed rfl fun k hk => ?_
  match k with
  | 0 => trivial
  | 1 =>
    have binary : F[pos + 2]? = some (.binary .eq) := hc.2.2.1
    show Safe F throwing 1 (pos + 2) b (.scalar c :: b.load x :: ops)
    exact (safe_succ binary).mpr fun _ _ => trivial
  | k + 2 =>
    have binary : F[pos + 2]? = some (.binary .eq) := hc.2.2.1
    have jump : F[pos + 2 + 1]? = some (.jumpIfZero t) := hc.2.2.2.1
    show Safe F throwing (k + 2) (pos + 2) b (.scalar c :: b.load x :: ops)
    apply (safe_succ binary).mpr
    intro value found
    cases found
    apply (safe_succ jump).mpr
    simp only [SafeStep]
    by_cases equal : (b.load x).word = c
    · have one : (Value.scalar (truth ((b.load x).word == (Value.scalar c).word))).word ≠ 0 := by
        simp [equal, Value.scalar, truth]
      rw [if_neg one]
      exact same k (by omega) b ops ⟨hP, equal⟩
    · have zero : (Value.scalar (truth ((b.load x).word == (Value.scalar c).word))).word = 0 := by
        simp [equal, Value.scalar, truth]
      rw [if_pos zero]
      exact other k (by omega) b ops ⟨hP, equal⟩

/-- Where the routine returns nothing more is executed. -/
theorem ends {i : Instruction} (hi : F[pos]? = some i) (he : i = .returnValue ∨ i = .returnZero) :
    Continues F throwing n pos P := by
  intro m _ b ops _
  cases m with
  | zero => trivial
  | succ m =>
    apply (safe_succ hi).mpr
    rcases he with rfl | rfl <;> trivial

theorem raise {origin : String} (hc : CodeAt F targets pos [.raise origin])
    (h : Continues F throwing n (targets .handler) P) : Continues F throwing n pos P :=
  (jump hc.1 h).mono (Nat.le_succ n)

end Continues

/-! ## What is under way in a function that cannot throw -/

/-- Nothing, or a return. -/
def Resting (v : Value) : Prop :=
  v.word = 0 ∨ v.word = Exceptions.returning

/-- Nothing but a return is under way, now or where a block that runs in any case began. -/
structure Calm (b : Store) : Prop where
  pending : Resting (b.load .pending)
  saved : ∀ k, Resting (b.load (.saved k))

/-- A return is under way. -/
structure Returning (b : Store) : Prop where
  calm : Calm b
  pending : (b.load .pending).word = Exceptions.returning

theorem Calm.set {b : Store} (h : Calm b) {x : Variable} {v : Value}
    (hv : x.isNumber = true → Resting v) : Calm (b.set x v) := by
  refine ⟨?_, fun k => ?_⟩
  · rw [Store.load_set]
    split
    · rename_i same
      exact hv (same ▸ rfl)
    · exact h.pending
  · rw [Store.load_set]
    split
    · rename_i same
      exact hv (same ▸ rfl)
    · exact h.saved k

theorem Calm.data {b : Store} (h : Calm b) {x : Variable} (v : Value) (hx : x.isNumber = false) :
    Calm (b.set x v) :=
  h.set fun number => by rw [hx] at number; cases number

/-- What is not the number of what is under way does not end a return. -/
theorem Returning.data {b : Store} (h : Returning b) {x : Variable} (v : Value)
    (hx : x.isNumber = false) : Returning (b.set x v) := by
  refine ⟨h.calm.data v hx, ?_⟩
  rw [Store.load_set, if_neg]
  · exact h.pending
  · rintro rfl
    cases hx

theorem Calm.raise {b : Store} (h : Calm b) :
    Returning (b.set .pending (.scalar Exceptions.returning)) := by
  refine ⟨h.set fun _ => .inr rfl, ?_⟩
  rw [Store.load_set, if_pos rfl]
  rfl

/-- What is under way is kept when a block begins that runs in any case. -/
theorem Calm.enter {b : Store} (h : Calm b) (k : Nat) :
    Calm (((b.set (.saved k) (b.load .pending)).set (.savedData k)
      (Store.load (b.set (.saved k) (b.load .pending)) .pendingData)).set .pending (.scalar 0)) :=
  ((h.set fun _ => h.pending).data _ rfl).set fun _ => .inl rfl

/-- What was kept goes on afterwards. -/
theorem Calm.leave {b : Store} (h : Calm b) (k : Nat) (hk : (b.load (.saved k)).word ≠ 0) :
    Returning (((b.set .pending (b.load (.saved k))).set .pendingData
      (Store.load (b.set .pending (b.load (.saved k))) (.savedData k))).set (.savedData k)
        (.scalar 0)) := by
  have returning : Returning (b.set .pending (b.load (.saved k))) := by
    refine ⟨h.set fun _ => h.saved k, ?_⟩
    rw [Store.load_set, if_pos rfl]
    exact (h.saved k).resolve_left hk
  exact (returning.data _ rfl).data _ rfl

/-! ## The code of expressions and statements -/

section Code

variable {cx : Compilation.Context} {declared : List Signature}

theorem harmless_of_bound {callee : Threefold.Callee} {k : Nat} (bound : callee.Bound declared k)
    (h : callee.canThrow cx.throwing = false) : Harmless cx.throwing callee.target := by
  cases callee with
  | unbound name arity => exact bound.elim
  | declared s => exact of_decide_eq_false h
  | intrinsic i => exact h

mutual

/-- The code of an expression that cannot throw keeps the variables. -/
theorem continues_expr : ∀ {e : Expr} {pos depth arrays : Nat}, ExprOk cx declared e →
    e.canThrow cx.throwing = false → CodeAt F targets pos (exprCode cx pos depth arrays e) →
    Continues F cx.throwing n (pos + (exprCode cx pos depth arrays e).length) P →
    Continues F cx.throwing n pos P
  | .const k, _, _, _, _, _, hc, h => .keep hc.1 trivial h
  | .string s, _, _, _, _, _, hc, h =>
    .keep hc.1 trivial (.keep hc.2.1 (rfl : Intrinsic.canThrow .strDup = false) h)
  | .array _ _, _, _, _, _, no, _, _ => by cases no
  | .var x, _, _, _, _, _, hc, h => .keep hc.1 trivial h
  | .unary op e, pos, depth, arrays, ok, no, hc, h => by
    obtain ⟨operand, operator⟩ := codeAt_append.mp hc
    refine continues_expr (e := e) ok no operand (.keep operator.1 trivial ?_)
    exact h.cast (by simp [exprCode, Nat.add_assoc])
  | .binary op l r, pos, depth, arrays, ok, no, hc, h => by
    obtain ⟨left, right, operator⟩ := codeAt_append₃.mp hc
    obtain ⟨noLeft, noRight⟩ := Bool.or_eq_false_iff.mp no
    refine continues_expr (e := l) ok.1 noLeft left
      (continues_expr (e := r) ok.2 noRight right (.keep operator.1 trivial ?_))
    exact h.cast (by simp [exprCode, Nat.add_assoc])
  | .call callee arguments location, pos, depth, arrays, ok, no, hc, h => by
    obtain ⟨noCall, noArguments⟩ := Bool.or_eq_false_iff.mp no
    have unchecked : ¬ callee.canThrow cx.throwing = true := by rw [noCall]; exact Bool.false_ne_true
    simp only [exprCode, if_neg unchecked, List.append_nil] at hc h
    obtain ⟨values, call⟩ := codeAt_append.mp hc
    refine continues_exprs ok.2 noArguments values
      (.keep call.1 (harmless_of_bound ok.1 noCall) ?_)
    exact h.cast (by simp [Nat.add_assoc])

theorem continues_exprs : ∀ {es : List Expr} {pos depth arrays : Nat}, ExprsOk cx declared es →
    Expr.anyCanThrow cx.throwing es = false →
    CodeAt F targets pos (exprsCode cx pos depth arrays es) →
    Continues F cx.throwing n (pos + (exprsCode cx pos depth arrays es).length) P →
    Continues F cx.throwing n pos P
  | [], _, _, _, _, _, _, h => h
  | e :: rest, pos, depth, arrays, ok, no, hc, h => by
    obtain ⟨noFirst, noRest⟩ := Bool.or_eq_false_iff.mp no
    obtain ⟨first, others⟩ := codeAt_append.mp hc
    refine continues_expr ok.1 noFirst first (continues_exprs ok.2 noRest others ?_)
    exact h.cast (by simp [exprsCode, Nat.add_assoc])

end

/-- The end of a statement that catches: behind its body all is calm, and in front of its catch
branches a return is under way. -/
structure Caught (F : Array Instruction) (throwing : List Signature) (n start : Nat) : Prop where
  done : Continues F throwing n start Calm
  raised : Continues F throwing n (start + 1) Returning

mutual

/-- The code of a statement that cannot throw is safe, if the code behind it is and the code where
its returns go. -/
theorem continues_stmt : ∀ {s : Stmt} {n pos cleanups arrays : Nat} {targets : Goal → Nat},
    StmtOk cx declared s → s.canThrow cx.throwing = false →
    CodeAt F targets pos (stmtCode cx pos cleanups arrays s) →
    Continues F cx.throwing n (targets .handler) Returning →
    Continues F cx.throwing n (pos + (stmtCode cx pos cleanups arrays s).length) Calm →
    Continues F cx.throwing n pos Calm
  | .skip, _, _, _, _, _, _, _, _, _, h => h.cast (by simp [stmtCode])
  | .assign x e, _, pos, _, arrays, _, ok, no, hc, _, h => by
    simp only [stmtCode] at hc h
    obtain ⟨value, stored⟩ := codeAt_append.mp hc
    refine continues_expr (e := e) ok no value
      (.store stored.1 ?_ fun b v calm => Calm.data calm v rfl)
    exact h.cast (by simp [Nat.add_assoc])
  | .branch c yes other, n, pos, _, arrays, _, ok, no, hc, raise, h => by
    obtain ⟨noFirst, noOther⟩ := Bool.or_eq_false_iff.mp no
    obtain ⟨noCondition, noYes⟩ := Bool.or_eq_false_iff.mp noFirst
    simp only [stmtCode] at hc h
    obtain ⟨rest, last⟩ := codeAt_append.mp hc
    obtain ⟨rest, past⟩ := codeAt_append.mp rest
    obtain ⟨condition, test, first⟩ := codeAt_append₃.mp rest
    have second := continues_stmt ok.2.2 noOther (last.cast _ (by simp; omega)) raise
      (h.cast (by simp; omega))
    refine continues_expr (e := c) ok.1 noCondition condition (.jumpIfZero test.1 second ?_)
    refine continues_stmt ok.2.1 noYes (first.cast _ (by simp)) raise ?_
    refine ((Continues.jump past.1 (h.cast ?_)).mono (Nat.le_succ n)).cast ?_
    · simp
      omega
    · simp
      omega
  | .loop c body, n, pos, cleanups, arrays, _, ok, no, hc, raise, h => by
    obtain ⟨noCondition, noBody⟩ := Bool.or_eq_false_iff.mp no
    let condition := exprCode cx pos 0 arrays c
    let inside := stmtCode cx (pos + condition.length + 1) cleanups (arrays + c.arrayCount) body
    simp only [stmtCode] at hc h
    obtain ⟨rest, back⟩ := codeAt_append.mp hc
    obtain ⟨first, test, inner⟩ := codeAt_append₃.mp rest
    have behind : Continues F cx.throwing n (pos + condition.length + inside.length + 2) Calm :=
      h.cast (by simp [condition, inside]; omega)
    -- Every time round the loop takes an instruction, so the number of them is what decreases.
    have around : ∀ k ≤ n, Continues F cx.throwing k pos Calm := by
      intro k
      induction k with
      | zero =>
        intro _ m hm b ops _
        rw [Nat.le_zero.mp hm]
        trivial
      | succ k ih =>
        intro hk
        have again : Continues F cx.throwing (k + 1) _ Calm :=
          .jump back.1 (ih (Nat.le_of_succ_le hk))
        refine continues_expr (e := c) ok.1 noCondition first
          (.jumpIfZero test.1 (behind.mono hk) ?_)
        refine continues_stmt ok.2 noBody (inner.cast _ (by simp)) (raise.mono hk) (again.cast ?_)
        simp
        omega
    exact around n (Nat.le_refl n)
  | .chain s t, _, _, _, _, _, ok, no, hc, raise, h => by
    obtain ⟨noFirst, noSecond⟩ := Bool.or_eq_false_iff.mp no
    simp only [stmtCode] at hc h
    obtain ⟨first, second⟩ := codeAt_append.mp hc
    refine continues_stmt ok.1 noFirst first raise (continues_stmt ok.2 noSecond second raise ?_)
    exact h.cast (by simp [Nat.add_assoc])
  | .leave e, n, pos, _, arrays, _, ok, no, hc, raise, _ => by
    simp only [stmtCode] at hc
    obtain ⟨rest, raised⟩ := codeAt_append.mp hc
    obtain ⟨number, value, stored⟩ := codeAt_append₃.mp rest
    have left := Continues.raise raised raise
    have evaluated : Continues F cx.throwing n (pos + 2) Returning :=
      continues_expr (e := e) ok no value
        (.store stored.1 (left.cast (by simp; omega)) fun b v h => Returning.data h v rfl)
    exact .block number _ (fun _ _ => rfl) evaluated fun b calm => Calm.raise calm
  | .perform c, _, pos, _, arrays, _, ok, no, hc, _, h => by
    simp only [stmtCode] at hc h
    obtain ⟨value, popped⟩ := codeAt_append.mp hc
    refine continues_expr (e := c.expr) ok no value (.keep popped.1 trivial ?_)
    exact h.cast (by simp [Nat.add_assoc])
  | .throwing _ _, _, _, _, _, _, _, no, _, _, _ => by cases no
  | .attempt body catches cleanup, n, pos, cleanups, arrays, targets, ok, no, hc, raise, h => by
    obtain ⟨noInner, noCleanup⟩ := Bool.or_eq_false_iff.mp no
    obtain ⟨noBody, noCatches⟩ := Bool.or_eq_false_iff.mp noInner
    by_cases bare : catches = [] ∧ cleanup = none
    · obtain ⟨rfl, rfl⟩ := bare
      rw [stmtCode] at hc h
      exact continues_stmt ok.1 noBody hc raise h
    · rw [stmtCode_attempt bare] at hc h
      obtain ⟨inner, behind⟩ := codeAt_append.mp hc
      rw [List.length_map] at behind
      have caught : Caught F cx.throwing n
          (pos + (stmtCode cx pos cleanups arrays body).length) :=
        continues_cleanup ok.2.2 noCleanup rfl
          (fun _ hcode handler exit last =>
            continues_catches ok.2.1 noCatches hcode handler exit last)
          behind raise (h.cast (by simp [Nat.add_assoc]))
      exact continues_stmt ok.1 noBody (codeAt_settle.mp inner) caught.raised caught.done

/-- The code of catch branches begins with a return under way. -/
theorem continues_catches : ∀ {cs : List Catch} {n pos cleanups arrays : Nat}
    {targets : Goal → Nat}, CatchesOk cx declared cs → Catch.anyCanThrow cx.throwing cs = false →
    CodeAt F targets pos (catchesCode cx pos cleanups arrays cs) →
    Continues F cx.throwing n (targets .handler) Returning →
    Continues F cx.throwing n (targets .exit) Calm →
    Continues F cx.throwing n (pos + (catchesCode cx pos cleanups arrays cs).length) Returning →
    Continues F cx.throwing n pos Returning
  | [], _, _, _, _, _, _, _, _, _, _, h => h.cast (by simp [catchesCode])
  | .on x target body :: rest, n, pos, _, _, targets, ok, no, hc, raise, exit, h => by
    obtain ⟨noBody, noRest⟩ := Bool.or_eq_false_iff.mp no
    simp only [catchesCode] at hc h
    obtain ⟨front, others⟩ := codeAt_append.mp hc
    obtain ⟨begun, inner, leave⟩ := codeAt_append₃.mp front
    have next := continues_catches ok.2.2 noRest (others.cast _ (by simp; omega)) raise exit
      (h.cast (by simp; omega))
    have left : Continues F cx.throwing n _ Calm :=
      (Continues.jump leave.1 exit).mono (Nat.le_succ n)
    have caught := continues_stmt ok.2.1 noBody (inner.cast _ (by simp)) raise
      (left.cast (by simp))
    refine .compare ⟨begun.1, begun.2.1, begun.2.2.1, begun.2.2.2.1, trivial⟩ ?_
      (next.imp fun b returning => returning.1)
    refine .block begun.2.2.2.2 _ (fun _ _ => rfl) caught fun b returning => ?_
    have stored := Calm.data returning.1.calm (b.load .pendingData) (x := .named target) rfl
    exact Calm.data (Calm.set stored fun _ => .inl rfl) _ rfl

/-- The end of a statement that catches, given its catch branches. -/
theorem continues_cleanup : ∀ {cleanup : Option Stmt} {n start last cleanups arrays : Nat}
    {targets : Goal → Nat} {branches : List Mark}, CleanupOk cx declared cleanup →
    Stmt.cleanupCanThrow cx.throwing cleanup = false → last = start + 1 + branches.length →
    (∀ targets', CodeAt F targets' (start + 1) branches →
      Continues F cx.throwing n (targets' .handler) Returning →
      Continues F cx.throwing n (targets' .exit) Calm →
      Continues F cx.throwing n (start + 1 + branches.length) Returning →
      Continues F cx.throwing n (start + 1) Returning) →
    CodeAt F targets start (cleanupCode cx last cleanups arrays branches cleanup) →
    Continues F cx.throwing n (targets .handler) Returning →
    Continues F cx.throwing n
      (start + (cleanupCode cx last cleanups arrays branches cleanup).length) Calm →
    Caught F cx.throwing n start
  | none, n, start, last, _, _, targets, branches, _, _, hlast, catching, hc, raise, h => by
    subst hlast
    simp only [cleanupCode] at hc h
    obtain ⟨jump, settled, unmatched⟩ := codeAt_append₃.mp hc
    rw [List.length_map] at unmatched
    have behind : Continues F cx.throwing n (start + 1 + branches.length + 1) Calm :=
      h.cast (by simp; omega)
    exact ⟨(Continues.jump jump.1 behind).mono (Nat.le_succ n),
      catching _ (codeAt_settle.mp settled) raise behind (.raise unmatched raise)⟩
  | some s, n, start, last, cleanups, arrays, targets, branches, ok, no, hlast, catching, hc,
      raise, h => by
    subst hlast
    let inside := stmtCode cx (start + 1 + branches.length + 6) (cleanups + 1) arrays s
    simp only [cleanupCode] at hc h
    obtain ⟨rest, leave⟩ := codeAt_append.mp hc
    obtain ⟨rest, inner⟩ := codeAt_append.mp rest
    obtain ⟨rest, enter⟩ := codeAt_append.mp rest
    obtain ⟨jump, settled⟩ := codeAt_append.mp rest
    have placed := leave.cast (start + 1 + branches.length + 6 + inside.length)
      (by simp [inside]; omega)
    obtain ⟨tested, rethrown⟩ := codeAt_append.mp placed
    have behind : Continues F cx.throwing n
        (start + 1 + branches.length + inside.length + 6 + 9) Calm :=
      h.cast (by simp [inside]; omega)
    have resumed : Continues F cx.throwing n
        (start + 1 + branches.length + 6 + inside.length) Calm := by
      refine .test ⟨tested.1, tested.2.1, trivial⟩ behind ?_
      have rethrow := Continues.raise rethrown raise
      exact .block tested.2.2 _ (fun _ _ => rfl) (rethrow.cast (by simp)) fun b kept =>
        kept.1.leave cleanups kept.2
    have run := continues_stmt ok no (inner.cast _ (by simp; omega)) raise resumed
    have begun : Continues F cx.throwing n (start + 1 + branches.length) Calm := by
      have stored := enter.cast (start + 1 + branches.length) (by simp; omega)
      exact .block stored _ (fun _ _ => rfl) run fun b calm => calm.enter cleanups
    exact ⟨(Continues.jump jump.1 begun).mono (Nat.le_succ n),
      catching _ (codeAt_settle.mp (codeAt_settle.mp settled)) (begun.imp fun b r => r.calm)
        begun (begun.imp fun b r => r.calm)⟩

end

/-- The code of a routine that cannot throw is safe. -/
theorem continues_body {s : Stmt} (ok : StmtOk cx declared s)
    (no : s.canThrow cx.throwing = false) (n : Nat) :
    Continues (bodyCode cx s).toArray cx.throwing n 0 Calm := by
  obtain ⟨inner, behind⟩ := codeAt_append.mp (codeAt_bodyCode cx s)
  rw [Nat.zero_add] at behind
  obtain ⟨zero, landing⟩ := behind
  have landed : Continues (bodyCode cx s).toArray cx.throwing n
      ((stmtCode cx 0 0 0 s).length + 1) Returning := by
    refine .compare ⟨landing.1, landing.2.1, landing.2.2.1, landing.2.2.2.1, trivial⟩ ?_
      (.vacuous fun b returning => returning.2 returning.1.pending)
    exact .keep landing.2.2.2.2.1 trivial (.ends landing.2.2.2.2.2.1 (.inl rfl))
  refine continues_stmt ok no inner landed ?_
  rw [Nat.zero_add]
  exact .ends zero (.inr rfl)

end Code

theorem calm_start (r : Routine) (vs : List Value) : Calm (Activation.start r vs).bindings := by
  have all : ∀ (ps : List (String × Value)) (b : Store), Calm b →
      Calm (ps.foldl (fun xs p => xs.set (.named p.1) p.2) b) := by
    intro ps
    induction ps with
    | nil => exact fun b calm => calm
    | cons q ps ih => exact fun b calm => ih _ (calm.data q.2 rfl)
  exact all _ _ ⟨.inl rfl, fun _ => .inl rfl⟩

/-! ## Runs -/

/-- An activation has no exception to hand over, and goes on safely. -/
structure Activation.Settled (throwing : List Signature) (a : Activation) : Prop where
  transferred : a.transferred = none
  safe : ∀ n, Safe a.routine.code throwing n a.next a.bindings a.operands

/-- An activation goes on safely with whatever value it waits for. -/
def Activation.Awaits (throwing : List Signature) (a : Activation) : Prop :=
  ∀ v, (a.push v).Settled throwing

/-- Callers that cannot throw wait for routines that cannot throw. -/
def Guarded (throwing : List Signature) : Signature → List Activation → Prop
  | _, [] => True
  | s, a :: callers =>
    (a.routine.signature ∉ throwing → s ∉ throwing ∧ a.Awaits throwing) ∧
      Guarded throwing a.routine.signature callers

/-- In a run no exception reaches a routine that cannot throw. -/
def Undisturbed (throwing : List Signature) : Progress → Prop
  | .running _ a callers =>
    (a.routine.signature ∉ throwing → a.Settled throwing) ∧
      Guarded throwing a.routine.signature callers
  | .ended .. | .fault _ => True

/-- What a call reaches has the signature that was called, and begins safely if it cannot throw. -/
def Image.BeginsSafely (image : Image) (throwing : List Signature) : Prop :=
  ∀ s r, image.routine? s = some r → r.signature = s ∧
    (s ∉ throwing → ∀ vs, (Activation.start r vs).Settled throwing)

section Step

variable {image : Image} {w : World} {a : Activation} {callers : List Activation}

theorem undisturbed_enter (begins : image.BeginsSafely throwing) {s : Signature} (vs : List Value)
    (h : Guarded throwing s callers) : Undisturbed throwing (enter image w s vs callers) := by
  unfold enter
  cases found : image.routine? s with
  | none => trivial
  | some r =>
    obtain ⟨same, settled⟩ := begins s r found
    subst same
    exact ⟨fun hs => settled hs vs, h⟩

/-- A caller that cannot throw receives a value and no exception. -/
theorem undisturbed_leave {s : Signature} (h : Guarded throwing s callers) (v : Value)
    {t : Option Transferred} (ht : s ∉ throwing → t = none) :
    Undisturbed throwing (leave w v t callers) := by
  cases callers with
  | nil => trivial
  | cons caller callers =>
    obtain ⟨awaits, rest⟩ := h
    have same : (caller.receive t).routine = caller.routine := by cases t <;> rfl
    refine ⟨fun hs => ?_, ?_⟩
    · have hs : caller.routine.signature ∉ throwing := same ▸ hs
      rw [ht (awaits hs).1]
      exact (awaits hs).2 v
    · show Guarded throwing (caller.receive t).routine.signature callers
      rw [same]
      exact rest

theorem undisturbed_callIntrinsic (i : Intrinsic) (vs : List Value)
    (h : a.routine.signature ∉ throwing → i.canThrow = false ∧ a.Awaits throwing)
    (rest : Guarded throwing a.routine.signature callers) :
    Undisturbed throwing (callIntrinsic w i vs a callers) := by
  unfold callIntrinsic
  cases hc : i.call vs w with
  | ok reply w' =>
    cases reply with
    | returned v => exact ⟨fun hs => (h hs).2 v, rest⟩
    | outOfBounds k =>
      refine ⟨fun hs => ?_, rest⟩
      obtain ⟨v, impossible⟩ := Intrinsic.call_answers (h hs).1 hc
      cases impossible
  | error f w' => trivial

/-- Execute an instruction. -/
theorem undisturbed_execute (begins : image.BeginsSafely throwing) {i : Instruction}
    (hi : a.routine.code[a.next]? = some i)
    (settled : a.routine.signature ∉ throwing → a.Settled throwing)
    (guarded : Guarded throwing a.routine.signature callers) :
    Undisturbed throwing (execute image i w { a with next := a.next + 1 } callers) := by
  obtain ⟨r, xs, ops, next, t⟩ := a
  dsimp only at hi settled guarded
  -- What is known of a routine that cannot throw, one instruction further.
  have safe : r.signature ∉ throwing → ∀ n,
      SafeStep throwing (Safe r.code throwing n) next xs ops i :=
    fun hs n => (safe_succ hi).mp ((settled hs).safe (n + 1))
  have quiet : r.signature ∉ throwing → t = none := fun hs => (settled hs).transferred
  cases i with
  | push k => exact ⟨fun hs => ⟨quiet hs, safe hs⟩, guarded⟩
  | pushLiteral k =>
    simp only [execute]
    split
    · exact ⟨fun hs => ⟨quiet hs, fun n => safe hs n _⟩, guarded⟩
    · trivial
  | load x => exact ⟨fun hs => ⟨quiet hs, safe hs⟩, guarded⟩
  | store x =>
    cases ops with
    | nil => trivial
    | cons v ops => exact ⟨fun hs => ⟨quiet hs, safe hs⟩, guarded⟩
  | unary op =>
    cases ops with
    | nil => trivial
    | cons v ops => exact ⟨fun hs => ⟨quiet hs, safe hs⟩, guarded⟩
  | binary op =>
    match ops, safe with
    | [], _ => trivial
    | [v], _ => trivial
    | right :: left :: ops, safe =>
      simp only [execute]
      cases value : op.eval? left.word right.word with
      | none => trivial
      | some k => exact ⟨fun hs => ⟨quiet hs, fun n => safe hs n k value⟩, guarded⟩
  | jump target => exact ⟨fun hs => ⟨quiet hs, safe hs⟩, guarded⟩
  | jumpIfZero target =>
    cases ops with
    | nil => trivial
    | cons v ops => exact ⟨fun hs => ⟨quiet hs, safe hs⟩, guarded⟩
  | call callee =>
    simp only [execute]
    split
    · trivial
    · have awaits : r.signature ∉ throwing → Activation.Awaits throwing
          ⟨r, xs, ops.drop callee.arity, next + 1, t⟩ :=
        fun hs v => ⟨quiet hs, fun n => (safe hs n).2 v⟩
      cases callee with
      | intrinsic i =>
        exact undisturbed_callIntrinsic i _ (fun hs => ⟨(safe hs 0).1, awaits hs⟩) guarded
      | routine s =>
        exact undisturbed_enter begins _ ⟨fun hs => ⟨(safe hs 0).1, awaits hs⟩, guarded⟩
  | pop =>
    cases ops with
    | nil => trivial
    | cons v ops => exact ⟨fun hs => ⟨quiet hs, safe hs⟩, guarded⟩
  | returnValue =>
    cases ops with
    | nil => trivial
    | cons v ops => exact undisturbed_leave guarded v quiet
  | returnZero => exact undisturbed_leave guarded _ quiet
  | transfer => exact ⟨fun hs => (safe hs 0).elim, guarded⟩

/-- An instruction preserves the invariant. -/
theorem Undisturbed.step (begins : image.BeginsSafely throwing)
    (h : Undisturbed throwing (.running w a callers)) :
    Undisturbed throwing (Machine.step image w a callers) := by
  unfold Machine.step
  cases hi : a.routine.code[a.next]? with
  | none => trivial
  | some i => exact undisturbed_execute begins hi h.1 h.2

end Step

end Threefold.Bytecode.Machine

namespace Threefold.Program

open Bytecode.Machine
open Bytecode.Compilation (bodyCode)

variable {p : Program}

theorem Linked.beginsSafely (h : p.Linked) (input : List Int32) :
    (p.bytecode.load input).1.BeginsSafely p.throwing := by
  intro s r hr
  rw [Image.routine?, latest?_eq_find?_reverse, Bytecode.load_routines] at hr
  have same : r.signature = s := by simpa using List.find?_some hr
  obtain ⟨f, hf, rfl⟩ := List.mem_map.mp (List.mem_reverse.mp (List.mem_of_find?_eq_some hr))
  refine ⟨same, fun hs vs => ⟨rfl, fun n => ?_⟩⟩
  have no : f.body.canThrow p.throwing = false := by
    cases can : f.body.canThrow p.throwing with
    | false => rfl
    | true => exact absurd (same ▸ p.throwing_closed f hf can) hs
  have continues : Continues (bodyCode p.compilation f.body).toArray p.throwing n 0 Calm :=
    continues_body (h.stmtOk hf) no n
  exact continues n (Nat.le_refl n) _ _ (calm_start _ vs)

/-- A function that the analysis of exceptions does not name never ends with an exception: neither
does a call of it in the tree, nor does its routine hand one over. -/
theorem throwing_sound {file source entry : String} (h : load file source entry = .ok p) :
    ∃ b, p.compile = .ok b ∧ ∀ s, s ∉ p.throwing → ∀ input,
      (∀ fuel vs w n v w',
        Evaluation.call (Evaluation.start p input).1 fuel s vs w ≠ .unwinding (.thrown n v) w') ∧
      ∀ w a callers,
        Reached (b.load input).1 (enter (b.load input).1 (b.load input).2 b.entry [] [])
          (.running w a callers) →
        a.routine.signature = s →
          a.routine.code[a.next]? ≠ some .transfer ∧ a.transferred = none := by
  have linked := linked_of_load h
  refine ⟨p.bytecode, linked.compile_eq, fun s hs input => ⟨?_, ?_⟩⟩
  · intro fuel vs w n v w' unwound
    have analysed : Evaluation.Analysed (fun _ => True) p.throwing (Evaluation.start p input).1 :=
      Evaluation.analysed_start input trivial fun _ _ _ => trivial
    have thrown := (Evaluation.Unwinding.within analysed fuel).call s vs _ _ _ unwound
    exact hs (of_decide_eq_true thrown.1)
  · rintro w a callers reached rfl
    have begins := linked.beginsSafely input
    have outermost : Guarded p.throwing p.bytecode.entry [] := trivial
    have undisturbed : Undisturbed p.throwing (.running w a callers) :=
      reached.invariant (undisturbed_enter begins _ outermost) fun _ _ _ h => h.step begins
    have settled := undisturbed.1 hs
    exact ⟨fun transfer => (safe_succ transfer).mp (settled.safe 1), settled.transferred⟩

/-- A program with a function that returns through a block that runs in any case, and is called where
an exception can be under way. -/
def returning : String :=
  "fun f(n) begin try return n finally write(n) yrt end
fun g(n) begin throw (A n) end
write(f(g(1)))"

theorem throwing_sound_returning :
    ∃ p, load "returning" returning entryName = .ok p ∧ (⟨"f", 1⟩ : Signature) ∉ p.throwing ∧
      ∃ b, p.compile = .ok b ∧ ∀ s, s ∉ p.throwing → ∀ input,
        (∀ fuel vs w n v w',
          Evaluation.call (Evaluation.start p input).1 fuel s vs w ≠
            .unwinding (.thrown n v) w') ∧
        ∀ w a callers,
          Reached (b.load input).1 (enter (b.load input).1 (b.load input).2 b.entry [] [])
            (.running w a callers) →
          a.routine.signature = s →
            a.routine.code[a.next]? ≠ some .transfer ∧ a.transferred = none := by
  have names : (load "returning" returning entryName).toOption.map throwing =
      some [⟨"main", 0⟩, ⟨"g", 1⟩] := by decide +kernel
  cases h : load "returning" returning entryName with
  | error e =>
    rw [h] at names
    cases names
  | ok p =>
    rw [h] at names
    have quiet : (⟨"f", 1⟩ : Signature) ∉ p.throwing := by
      rw [Option.some.inj names]
      decide
    exact ⟨p, rfl, quiet, throwing_sound h⟩

end Threefold.Program
