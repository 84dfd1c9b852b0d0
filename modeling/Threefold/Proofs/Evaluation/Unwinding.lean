import Mathlib.Algebra.Group.Int.Defs
import Mathlib.Algebra.Group.Nat.Defs
import Threefold.Evaluation
import Threefold.Proofs.Heap.Catalogue
import Threefold.Proofs.Program.Throwing

/-!
# What unwinds

The analysis of exceptions is sound for the tree: an expression that unwinds can throw, and so does
a call, a statement that unwinds returns or can throw (`unwinds`). Expressions never return, and the
numbers of exceptions are those that the program names or that of the built-in functions. The claim
about all parts of a program is made for one bound on the depth at a time (`Unwinding.Within`), and
each bound is reduced to the one below.
-/

namespace Threefold

namespace Evaluation

/-! ## Computations that unwind -/

/-- An exception with a number of its own, where the analysis allows one. -/
def Throws (Q : Int32 → Prop) (allowed : Bool) : Unwinding → Prop
  | .returning _ => False
  | .thrown n _ => allowed = true ∧ Q n

/-- A return, or an exception where the analysis allows one. -/
def Leaves (Q : Int32 → Prop) (allowed : Bool) : Unwinding → Prop
  | .returning _ => True
  | .thrown n _ => allowed = true ∧ Q n

variable {Q : Int32 → Prop}

theorem Throws.leaves {allowed : Bool} {u : Unwinding} (h : Throws Q allowed u) :
    Leaves Q allowed u := by
  cases u with
  | returning v => trivial
  | thrown n v => exact h

theorem Throws.mono {a b : Bool} (hab : a = true → b = true) {u : Unwinding}
    (h : Throws Q a u) : Throws Q b u := by
  cases u with
  | returning v => exact h
  | thrown n v => exact ⟨hab h.1, h.2⟩

theorem Leaves.mono {a b : Bool} (hab : a = true → b = true) {u : Unwinding}
    (h : Leaves Q a u) : Leaves Q b u := by
  cases u with
  | returning v => trivial
  | thrown n v => exact ⟨hab h.1, h.2⟩

/-- Whatever unwinds out of a computation has a property. -/
def Action.Unwinds {σ α : Type} (P : Unwinding → Prop) (m : Action σ α) : Prop :=
  ∀ s u s', m s = .unwinding u s' → P u

namespace Action.Unwinds

variable {σ α β : Type} {P P' : Unwinding → Prop}

theorem pure (a : α) : Unwinds P (Pure.pure a : Action σ α) :=
  fun _ _ _ h => by cases h

theorem fault (f : Fault) : Unwinds P (Action.fault f : Action σ α) :=
  fun _ _ _ h => by cases h

theorem exhausted : Unwinds P (Action.exhausted : Action σ α) :=
  fun _ _ _ h => by cases h

theorem unwind {u : Unwinding} (h : P u) : Unwinds P (Action.unwind u : Action σ α) := by
  intro s u' s' he
  cases he
  exact h

theorem bind {m : Action σ α} {k : α → Action σ β} (hm : Unwinds P m)
    (hk : ∀ a, Unwinds P (k a)) : Unwinds P (m >>= k) := by
  intro s u s' h
  simp only [Bind.bind, Action.bind] at h
  split at h
  · exact hk _ _ _ _ h
  · rename_i hu
    cases h
    exact hm _ _ _ hu
  · cases h
  · cases h

theorem lift {m : Variables → Action World α} (hm : ∀ xs, Unwinds P (m xs)) :
    Unwinds P (Scope.lift m) := by
  rintro ⟨w, xs⟩ u s' h
  simp only [Scope.lift] at h
  split at h
  · cases h
  · rename_i hu
    cases h
    exact hm _ _ _ _ hu
  · cases h
  · cases h

/-- Going on with what was under way. -/
theorem resume {pending : Option Unwinding} : (∀ u, pending = some u → P u) →
    Unwinds P (match pending with
      | some u => Action.unwind u
      | none => Action.pure () : Action σ Unit) := by
  intro hp
  cases pending with
  | none => exact .pure _
  | some u => exact .unwind (hp u rfl)

theorem store (x : String) (v : Value) : Unwinds P (Scope.store x v) :=
  fun _ _ _ h => by cases h

theorem imp {m : Action σ α} (hm : Unwinds P m) (h : ∀ u, P u → P' u) : Unwinds P' m :=
  fun s u s' hu => h u (hm s u s' hu)

end Action.Unwinds

open Threefold.Evaluation.Action (Unwinds)

theorem callIntrinsic_unwinds (hQ : Q Exceptions.outOfBounds) (i : Intrinsic) (vs : List Value) :
    Unwinds (Throws Q i.canThrow) (callIntrinsic i vs) := by
  intro w u w' h
  simp only [callIntrinsic] at h
  split at h
  · cases h
  · rename_i n w'' hc
    cases h
    refine ⟨?_, hQ⟩
    by_cases hi : i.canThrow = true
    · exact hi
    · obtain ⟨v, hv⟩ := Intrinsic.call_answers (by simpa using hi) hc
      cases hv
  · cases h

/-! ## The parts of a program -/

/-- The analysis holds for the functions of a context, and its exceptions have numbers of their
own. -/
structure Analysed (Q : Int32 → Prop) (throwing : List Signature) (cx : Context) : Prop where
  closed : ∀ s f, cx.function? s = some f → f.body.canThrow throwing = true → s ∈ throwing
  outOfBounds : Q Exceptions.outOfBounds
  numbered : ∀ x n, Exceptions.number? cx.exceptions x = some n → Q n

namespace Unwinding

/-- What unwinds, within a bound on the depth. -/
structure Within (Q : Int32 → Prop) (throwing : List Signature) (cx : Context) (fuel : Nat) :
    Prop where
  evaluate : ∀ e xs, Unwinds (Throws Q (e.canThrow throwing)) (evaluate cx fuel e xs)
  evaluateAll : ∀ es xs,
    Unwinds (Throws Q (Expr.anyCanThrow throwing es)) (evaluateAll cx fuel es xs)
  fill : ∀ array index es xs, Unwinds (Throws Q true) (fill cx fuel array index es xs)
  call : ∀ s vs, Unwinds (Throws Q (decide (s ∈ throwing))) (call cx fuel s vs)
  execute : ∀ s, Unwinds (Leaves Q (s.canThrow throwing)) (execute cx fuel s)
  repeatWhile : ∀ c body,
    Unwinds (Leaves Q (c.canThrow throwing || body.canThrow throwing))
      (repeatWhile cx fuel c body)
  attempt : ∀ body catches,
    Unwinds (Leaves Q (body.canThrow throwing || Catch.anyCanThrow throwing catches))
      (attempt cx fuel body catches)
  finish : ∀ cleanup u allowed, (∀ v, u = some v → Leaves Q allowed v) →
    Unwinds (Leaves Q (allowed || Stmt.cleanupCanThrow throwing cleanup))
      (finish cx fuel cleanup u)

theorem within_zero (throwing : List Signature) (cx : Context) : Within Q throwing cx 0 where
  evaluate _ _ := .exhausted
  evaluateAll _ _ := .exhausted
  fill _ _ _ _ := .exhausted
  call _ _ := .exhausted
  execute _ := .exhausted
  repeatWhile _ _ := .exhausted
  attempt _ _ := .exhausted
  finish _ _ _ _ := .exhausted

section Step

variable {throwing : List Signature} {cx : Context} {fuel : Nat}

theorem evaluate_succ (h : Analysed Q throwing cx) (ih : Within Q throwing cx fuel) (e : Expr)
    (xs : Variables) :
    Unwinds (Throws Q (e.canThrow throwing)) (Evaluation.evaluate cx (fuel + 1) e xs) := by
  cases e with
  | const n => exact .pure _
  | var x => exact .pure _
  | string s =>
    simp only [Evaluation.evaluate, literal]
    split
    · exact callIntrinsic_unwinds h.outOfBounds .strDup _
    · exact .fault _
  | array boxed items =>
    refine .bind ?_ fun array => .bind (ih.fill _ _ _ _) fun _ => .pure _
    exact (callIntrinsic_unwinds h.outOfBounds _ _).imp fun _ hu => hu.mono fun _ => rfl
  | unary op e => exact .bind (ih.evaluate e xs) fun _ => .pure _
  | binary op l r =>
    refine .bind ((ih.evaluate l xs).imp fun _ hu => hu.mono fun ht => ?_) fun _ =>
      .bind ((ih.evaluate r xs).imp fun _ hu => hu.mono fun ht => ?_) fun _ => ?_
    · simp [Expr.canThrow, ht]
    · simp [Expr.canThrow, ht]
    · unfold operate
      split
      · exact .pure _
      · exact .fault _
  | call callee arguments location =>
    refine .bind ((ih.evaluateAll arguments xs).imp fun _ hu => hu.mono fun ht => ?_) fun vs => ?_
    · simp [Expr.canThrow, ht]
    · cases callee with
      | unbound name arity => exact .fault _
      | declared s =>
        exact (ih.call s vs).imp fun _ hu => hu.mono fun ht => by
          simp [Expr.canThrow, Callee.canThrow, of_decide_eq_true ht]
      | intrinsic i =>
        exact (callIntrinsic_unwinds h.outOfBounds i vs).imp fun _ hu => hu.mono fun ht => by
          simp [Expr.canThrow, Callee.canThrow, ht]

theorem evaluateAll_succ (ih : Within Q throwing cx fuel) (es : List Expr) (xs : Variables) :
    Unwinds (Throws Q (Expr.anyCanThrow throwing es))
      (Evaluation.evaluateAll cx (fuel + 1) es xs) := by
  cases es with
  | nil => exact .pure _
  | cons e rest =>
    refine .bind ((ih.evaluate e xs).imp fun _ hu => hu.mono fun ht => ?_) fun _ =>
      .bind ((ih.evaluateAll rest xs).imp fun _ hu => hu.mono fun ht => ?_) fun _ => .pure _
    · simp [Expr.anyCanThrow, ht]
    · simp [Expr.anyCanThrow, ht]

theorem fill_succ (h : Analysed Q throwing cx) (ih : Within Q throwing cx fuel) (array : Value)
    (index : Nat) (es : List Expr) (xs : Variables) :
    Unwinds (Throws Q true) (Evaluation.fill cx (fuel + 1) array index es xs) := by
  cases es with
  | nil => exact .pure _
  | cons e rest =>
    refine .bind ((ih.evaluate e xs).imp fun _ hu => hu.mono fun _ => rfl) fun _ =>
      .bind (callIntrinsic_unwinds h.outOfBounds .arrSet _) fun _ => ih.fill _ _ _ _

theorem call_succ (h : Analysed Q throwing cx) (ih : Within Q throwing cx fuel) (s : Signature)
    (vs : List Value) :
    Unwinds (Throws Q (decide (s ∈ throwing))) (Evaluation.call cx (fuel + 1) s vs) := by
  simp only [Evaluation.call]
  cases hf : cx.function? s with
  | none => exact .fault _
  | some f =>
    intro w u w' hu
    simp only at hu
    split at hu
    · cases hu
    · cases hu
    · rename_i v t notReturning he
      cases hu
      have left := ih.execute f.body _ _ _ he
      cases u with
      | returning v => exact (notReturning v rfl).elim
      | thrown n v => exact ⟨decide_eq_true (h.closed s f hf left.1), left.2⟩
    · cases hu
    · cases hu

theorem execute_succ (h : Analysed Q throwing cx) (ih : Within Q throwing cx fuel) (s : Stmt) :
    Unwinds (Leaves Q (s.canThrow throwing)) (Evaluation.execute cx (fuel + 1) s) := by
  have value : ∀ {a : Bool} (e : Expr), (e.canThrow throwing = true → a = true) →
      Unwinds (Leaves Q a) (Scope.lift (Evaluation.evaluate cx fuel e)) := fun e ha =>
    .lift fun xs => (ih.evaluate e xs).imp fun _ hu => (hu.mono ha).leaves
  cases s with
  | skip => exact .pure _
  | assign x e => exact .bind (value e id) fun _ => .store _ _
  | branch c yes no =>
    refine .bind (value c fun ht => by simp [Stmt.canThrow, ht]) fun v => ?_
    split
    · exact (ih.execute yes).imp fun _ hu => hu.mono fun ht => by simp [Stmt.canThrow, ht]
    · exact (ih.execute no).imp fun _ hu => hu.mono fun ht => by simp [Stmt.canThrow, ht]
  | loop c body => exact ih.repeatWhile c body
  | chain s t =>
    exact .bind ((ih.execute s).imp fun _ hu => hu.mono fun ht => by simp [Stmt.canThrow, ht])
      fun _ => (ih.execute t).imp fun _ hu => hu.mono fun ht => by simp [Stmt.canThrow, ht]
  | leave e => exact .bind (value e id) fun _ => .unwind trivial
  | perform c => exact .bind (value c.expr id) fun _ => .pure _
  | throwing x e =>
    simp only [Evaluation.execute]
    split
    · exact .fault _
    · rename_i n hn
      exact .bind (value e fun _ => rfl) fun _ => .unwind ⟨rfl, h.numbered x n hn⟩
  | attempt body catches cleanup =>
    intro t u t' hu
    simp only [Evaluation.execute] at hu
    split at hu
    · refine (ih.finish cleanup none false (fun _ hv => by cases hv) _ _ _ hu).mono fun ht => ?_
      simp only [Bool.false_or] at ht
      simp [Stmt.canThrow, ht]
    · rename_i v t'' ha
      refine (ih.finish cleanup (some v) _ (fun v' hv => ?_) _ _ _ hu).mono id
      cases hv
      exact ih.attempt body catches _ _ _ ha
    · rename_i stopped
      exact (stopped u t' hu).elim

theorem repeatWhile_succ (ih : Within Q throwing cx fuel) (c : Expr) (body : Stmt) :
    Unwinds (Leaves Q (c.canThrow throwing || body.canThrow throwing))
      (Evaluation.repeatWhile cx (fuel + 1) c body) := by
  intro t u t' hu
  simp only [Evaluation.repeatWhile] at hu
  split at hu
  · split at hu
    · split at hu
      · exact ih.repeatWhile c body _ _ _ hu
      · exact (ih.execute body _ _ _ hu).mono fun ht => by simp [ht]
    · cases hu
  · rename_i v t'' hc
    cases hu
    have left : Leaves Q (c.canThrow throwing) u :=
      (Action.Unwinds.lift fun xs => ih.evaluate c xs : Unwinds _ _) _ _ _ hc |>.leaves
    exact left.mono fun ht => by simp [ht]
  · cases hu
  · cases hu

theorem mem_anyCanThrow {c : Catch} : ∀ {catches : List Catch}, c ∈ catches →
    c.body.canThrow throwing = true → Catch.anyCanThrow throwing catches = true
  | .on _ _ s :: rest, hm, hc => by
    rcases List.mem_cons.mp hm with rfl | hm
    · simpa [Catch.anyCanThrow, Catch.body] using .inl hc
    · simp [Catch.anyCanThrow, mem_anyCanThrow hm hc]

theorem attempt_succ (ih : Within Q throwing cx fuel) (body : Stmt) (catches : List Catch) :
    Unwinds (Leaves Q (body.canThrow throwing || Catch.anyCanThrow throwing catches))
      (Evaluation.attempt cx (fuel + 1) body catches) := by
  intro t u t' hu
  simp only [Evaluation.attempt] at hu
  split at hu
  · rename_i n v t'' hb
    split at hu
    · rename_i c hc
      have inBranch : Unwinds (Leaves Q (c.body.canThrow throwing)) (Action.bind
          (Scope.store c.target v) fun _ => Evaluation.execute cx fuel c.body) :=
        .bind (.store _ _) fun _ => ih.execute c.body
      refine (inBranch _ _ _ hu).mono fun ht => ?_
      simp [mem_anyCanThrow (List.mem_of_find?_eq_some hc) ht]
    · cases hu
      exact (ih.execute body _ _ _ hb).mono fun ht => by simp [ht]
  · exact (ih.execute body _ _ _ hu).mono fun ht => by simp [ht]

theorem finish_succ (ih : Within Q throwing cx fuel) (cleanup : Option Stmt)
    (pending : Option Unwinding) (allowed : Bool)
    (hp : ∀ v, pending = some v → Leaves Q allowed v) :
    Unwinds (Leaves Q (allowed || Stmt.cleanupCanThrow throwing cleanup))
      (Evaluation.finish cx (fuel + 1) cleanup pending) := by
  have last : ∀ u, pending = some u →
      Leaves Q (allowed || Stmt.cleanupCanThrow throwing cleanup) u :=
    fun u hu => (hp u hu).mono fun ht => by simp [ht]
  cases cleanup with
  | none => exact .bind (.pure _) fun _ => .resume last
  | some s =>
    exact .bind ((ih.execute s).imp fun _ hu => hu.mono fun ht => by
      simp [Stmt.cleanupCanThrow, ht]) fun _ => .resume last

end Step

theorem within {throwing : List Signature} {cx : Context} (h : Analysed Q throwing cx)
    (fuel : Nat) : Within Q throwing cx fuel := by
  induction fuel with
  | zero => exact within_zero throwing cx
  | succ fuel ih =>
    exact {
      evaluate := evaluate_succ h ih
      evaluateAll := evaluateAll_succ ih
      fill := fill_succ h ih
      call := call_succ h ih
      execute := execute_succ h ih
      repeatWhile := repeatWhile_succ ih
      attempt := attempt_succ ih
      finish := finish_succ ih }

end Unwinding

/-! ## Programs -/

theorem Context.of_function? {cx : Context} {s : Signature} {f : Function}
    (h : cx.function? s = some f) : f ∈ cx.program.functions ∧ f.signature = s := by
  rw [Context.function?, latest?_eq_find?_reverse] at h
  exact ⟨List.mem_reverse.mp (List.mem_of_find?_eq_some h), by simpa using List.find?_some h⟩

/-- A number that stands neither for a return nor for nothing. -/
def OwnNumber (n : Int32) : Prop :=
  n ≠ 0 ∧ n ≠ Exceptions.returning

/-- As long as the numbers do not wrap, a type of exception has a number of its own. -/
theorem ownNumber_of_number? {names : List String} {x : String} {n : Int32}
    (few : names.length < 2 ^ 32 - 1) (h : Exceptions.number? names x = some n) :
    OwnNumber n := by
  obtain ⟨i, hi, rfl⟩ := Option.map_eq_some_iff.mp h
  have lt : i < names.length := (List.idxOf?_eq_some_iff.mp hi).choose
  have word : (Int32.ofNat (i + 1)).toInt = ((i + 1 : Nat) : Int).bmod (2 ^ 32) := by simp
  constructor
  · intro h0
    have : (Int32.ofNat (i + 1)).toInt = 0 := by rw [h0]; rfl
    rw [word, Int.bmod_def] at this
    omega
  · intro h1
    have : (Int32.ofNat (i + 1)).toInt = -1 := by rw [h1]; rfl
    rw [word, Int.bmod_def] at this
    omega

theorem analysed_start {p : Program} {Q : Int32 → Prop} (input : List Int32)
    (one : Q Exceptions.outOfBounds)
    (numbered : ∀ x n, Exceptions.number? p.exceptions x = some n → Q n) :
    Analysed Q p.throwing (start p input).1 := by
  have parts : (start p input).1.program = p ∧ (start p input).1.exceptions = p.exceptions := by
    unfold start World.start
    dsimp only
    split
    · exact ⟨rfl, rfl⟩
    · exact ⟨rfl, rfl⟩
  refine ⟨fun s f hf hc => ?_, one, fun x n hn => numbered x n (parts.2 ▸ hn)⟩
  obtain ⟨hm, rfl⟩ := Context.of_function? hf
  exact p.throwing_closed f (parts.1 ▸ hm) hc

end Evaluation

end Threefold
