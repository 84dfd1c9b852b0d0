import Threefold.Proofs.Evaluation.Unwinding
import Threefold.Proofs.Heap.Moments

/-!
# The moments of an evaluation

Which built-in functions an evaluation calls, and when it begins to evaluate a string literal, in the
order in which that happens. The functions below follow the rules of evaluation. That they leave
nothing out is `recounted`: the moments of an evaluation are a chain from the world in which it begins
to the one in which it ends, and only calls of built-in functions lead to another world.
-/

namespace Threefold

theorem Catch.mem_literals {catches : List Catch} {c : Catch} {text : String} (mem : c ∈ catches)
    (there : text ∈ c.body.literals) : text ∈ Catch.literals catches := by
  induction catches with
  | nil => cases mem
  | cons d rest ih =>
    obtain ⟨exception, target, body⟩ := d
    rw [Catch.literals, List.mem_append]
    obtain rfl | mem := List.mem_cons.mp mem
    · exact .inl there
    · exact .inr (ih mem)

namespace Evaluation

/-- The moments that come after something is done. -/
def Result.andThen {σ α : Type} (r : Result σ α) (k : α → σ → List Moment) : List Moment :=
  match r with
  | .done a s => k a s
  | _ => []

/-- The state after a computation, if there is one. -/
def Result.state? {σ α : Type} : Result σ α → Option σ
  | .done _ s | .unwinding _ s => some s
  | .fault _ | .exhausted => none

/-- The moments of the evaluation of a string literal. -/
def literalMoments (cx : Context) (text : String) (w : World) : List Moment :=
  ⟨w, .literal text⟩ :: match (cx.literals.idxOf? text).bind (cx.pool[·]?) with
    | some n => [⟨w, .call .strDup [.scalar n]⟩]
    | none => []

mutual

/-- The moments of the evaluation of an expression. -/
def evaluateMoments (cx : Context) (fuel : Nat) (e : Expr) (xs : Variables) (w : World) :
    List Moment :=
  match fuel with
  | 0 => []
  | fuel + 1 =>
    match e with
    | .const _ | .var _ => []
    | .string text => literalMoments cx text w
    | .array boxed items =>
      let i := if boxed then .arrMakeBoxed else .arrMake
      let arguments := [.scalar (.ofNat items.length), .scalar 0]
      ⟨w, .call i arguments⟩ :: (callIntrinsic i arguments w).andThen fun array w =>
        fillMoments cx fuel array 0 items xs w
    | .unary _ e => evaluateMoments cx fuel e xs w
    | .binary _ l r =>
      evaluateMoments cx fuel l xs w ++ (evaluate cx fuel l xs w).andThen fun _ w =>
        evaluateMoments cx fuel r xs w
    | .call callee arguments _ =>
      evaluateAllMoments cx fuel arguments xs w ++
        (evaluateAll cx fuel arguments xs w).andThen fun vs w =>
          match callee with
          | .declared s => callMoments cx fuel s vs w
          | .intrinsic i => [⟨w, .call i vs⟩]
          | .unbound _ _ => []

/-- The moments of the evaluation of some expressions. -/
def evaluateAllMoments (cx : Context) (fuel : Nat) (es : List Expr) (xs : Variables) (w : World) :
    List Moment :=
  match fuel with
  | 0 => []
  | fuel + 1 =>
    match es with
    | [] => []
    | e :: rest =>
      evaluateMoments cx fuel e xs w ++ (evaluate cx fuel e xs w).andThen fun _ w =>
        evaluateAllMoments cx fuel rest xs w

/-- The moments of the filling of an array. -/
def fillMoments (cx : Context) (fuel : Nat) (array : Value) (index : Nat) (es : List Expr)
    (xs : Variables) (w : World) : List Moment :=
  match fuel with
  | 0 => []
  | fuel + 1 =>
    match es with
    | [] => []
    | e :: rest =>
      evaluateMoments cx fuel e xs w ++ (evaluate cx fuel e xs w).andThen fun v w =>
        let arguments := [array, .scalar (.ofNat index), v]
        ⟨w, .call .arrSet arguments⟩ :: (callIntrinsic .arrSet arguments w).andThen fun _ w =>
          fillMoments cx fuel array (index + 1) rest xs w

/-- The moments of a call of a function. -/
def callMoments (cx : Context) (fuel : Nat) (s : Signature) (arguments : List Value) (w : World) :
    List Moment :=
  match fuel with
  | 0 => []
  | fuel + 1 =>
    match cx.function? s with
    | none => []
    | some f => executeMoments cx fuel f.body ⟨w, .bind f.parameters arguments⟩

/-- The moments of the execution of a statement. -/
def executeMoments (cx : Context) (fuel : Nat) (st : Stmt) (s : Scope) : List Moment :=
  match fuel with
  | 0 => []
  | fuel + 1 =>
    match st with
    | .skip => []
    | .assign _ e | .leave e => evaluateMoments cx fuel e s.bindings s.world
    | .perform c => evaluateMoments cx fuel c.expr s.bindings s.world
    | .branch c yes no =>
      evaluateMoments cx fuel c s.bindings s.world ++
        (Scope.lift (evaluate cx fuel c) s).andThen fun v s =>
          if v.word ≠ 0 then executeMoments cx fuel yes s else executeMoments cx fuel no s
    | .loop c body => repeatMoments cx fuel c body s
    | .chain r t =>
      executeMoments cx fuel r s ++ (execute cx fuel r s).andThen fun _ s =>
        executeMoments cx fuel t s
    | .throwing x e =>
      match Exceptions.number? cx.exceptions x with
      | none => []
      | some _ => evaluateMoments cx fuel e s.bindings s.world
    | .attempt body catches cleanup =>
      attemptMoments cx fuel body catches s ++
        match (attempt cx fuel body catches s).state? with
        | some s => finishMoments cx fuel cleanup s
        | none => []

/-- The moments of the repetition of a statement. -/
def repeatMoments (cx : Context) (fuel : Nat) (c : Expr) (body : Stmt) (s : Scope) : List Moment :=
  match fuel with
  | 0 => []
  | fuel + 1 =>
    evaluateMoments cx fuel c s.bindings s.world ++
      (Scope.lift (evaluate cx fuel c) s).andThen fun v s =>
        if v.word ≠ 0 then
          executeMoments cx fuel body s ++ (execute cx fuel body s).andThen fun _ s =>
            repeatMoments cx fuel c body s
        else []

/-- The moments of a statement and of the branch that catches its exception. -/
def attemptMoments (cx : Context) (fuel : Nat) (body : Stmt) (catches : List Catch) (s : Scope) :
    List Moment :=
  match fuel with
  | 0 => []
  | fuel + 1 =>
    executeMoments cx fuel body s ++
      match execute cx fuel body s with
      | .unwinding (.thrown n v) s =>
        match cx.handler? catches n with
        | some c => executeMoments cx fuel c.body ⟨s.world, s.bindings.set c.target v⟩
        | none => []
      | _ => []

/-- The moments of what runs in any case. -/
def finishMoments (cx : Context) (fuel : Nat) (cleanup : Option Stmt) (s : Scope) : List Moment :=
  match fuel with
  | 0 => []
  | fuel + 1 =>
    match cleanup with
    | some st => executeMoments cx fuel st s
    | none => []

end

/-! ## Chains -/

/-- Some moments lead from the state in which something begins to what comes of it, and the literals
evaluated among them are in the pool. -/
structure Recounts {σ α : Type} (cx : Context) (world : σ → World) (s : σ) (ms : List Moment)
    (r : Result σ α) : Prop where
  chain : Chain (world s) ms (r.state?.map world)
  pooled : ∀ w text, ⟨w, .literal text⟩ ∈ ms → text ∈ cx.literals

namespace Recounts

variable {σ α β : Type} {cx : Context} {world : σ → World} {s : σ} {ms : List Moment}

/-- Nothing happens. -/
theorem still {r : Result σ α} (same : ∀ s', r.state? = some s' → world s' = world s) :
    Recounts cx world s [] r := by
  refine ⟨fun w hw => ?_, fun _ _ hm => by cases hm⟩
  obtain ⟨s', hs, rfl⟩ := Option.map_eq_some_iff.mp hw
  exact same s' hs

/-- One thing after the other. -/
theorem append {ms' : List Moment} {s' : σ} {r : Result σ α} {r' : Result σ β}
    (first : Recounts cx world s ms r) (next : r.state? = some s')
    (second : Recounts cx world s' ms' r') : Recounts cx world s (ms ++ ms') r' := by
  have chain := first.chain
  rw [next] at chain
  refine ⟨chain.append second.chain, fun w text hm => ?_⟩
  exact (List.mem_append.mp hm).elim (first.pooled w text) (second.pooled w text)

/-- What comes to the same, with the state in the same world. -/
theorem turn {r : Result σ α} {r' : Result σ β} (h : Recounts cx world s ms r)
    (same : r'.state?.map world = r.state?.map world) : Recounts cx world s ms r' :=
  ⟨same ▸ h.chain, h.pooled⟩

theorem bind {m : Action σ α} {k : α → Action σ β} {moments : α → σ → List Moment}
    (first : Recounts cx world s ms (m s))
    (second : ∀ a s', m s = .done a s' → Recounts cx world s' (moments a s') (k a s')) :
    Recounts cx world s (ms ++ (m s).andThen moments) ((m >>= k) s) := by
  simp only [Bind.bind, Action.bind]
  cases done : m s with
  | done a s' =>
    rw [done] at first
    exact first.append rfl (second a s' done)
  | unwinding u s' =>
    rw [done] at first
    exact (List.append_nil ms).symm ▸ first.turn rfl
  | fault f =>
    rw [done] at first
    exact (List.append_nil ms).symm ▸ first.turn rfl
  | exhausted =>
    rw [done] at first
    exact (List.append_nil ms).symm ▸ first.turn rfl

/-- Going on without a call. -/
theorem bind_still {m : Action σ α} {k : α → Action σ β} (first : Recounts cx world s ms (m s))
    (second : ∀ a s' s'', (k a s').state? = some s'' → world s'' = world s') :
    Recounts cx world s ms ((m >>= k) s) := by
  have both := @bind σ α β cx world s ms m k (fun _ _ => []) first fun a s' _ => still (second a s')
  have none : (m s).andThen (fun _ _ => []) = [] := by
    cases m s <;> rfl
  rwa [none, List.append_nil] at both

theorem lift {m : Variables → Action World α} {s : Scope}
    (h : Recounts cx id s.world ms (m s.bindings s.world)) :
    Recounts cx Scope.world s ms (Scope.lift m s) := by
  refine ⟨?_, h.pooled⟩
  have chain := h.chain
  unfold Scope.lift
  dsimp only
  cases done : m s.bindings s.world <;> rw [done] at chain <;> exact chain

theorem callIntrinsic (i : Intrinsic) (vs : List Value) (w : World) :
    Recounts cx id w [⟨w, .call i vs⟩] (Evaluation.callIntrinsic i vs w) := by
  refine ⟨⟨rfl, ?_⟩, fun w text hm => by simp at hm⟩
  simp only [Moment.next?, Evaluation.callIntrinsic]
  cases i.call vs w with
  | ok reply w' =>
    cases reply with
    | returned v => exact Chain.nil
    | outOfBounds n => exact Chain.nil
  | error f w' => exact ⟨trivial, rfl⟩

theorem literal {text : String} {w : World} (there : text ∈ cx.literals) :
    Recounts cx id w (literalMoments cx text w) (Evaluation.literal cx text w) := by
  have begins : Recounts cx id w [⟨w, .literal text⟩] (Result.done () w) := by
    refine ⟨⟨rfl, Chain.nil⟩, fun w' text' hm => ?_⟩
    cases List.mem_singleton.mp hm
    exact there
  unfold literalMoments Evaluation.literal
  cases (cx.literals.idxOf? text).bind (cx.pool[·]?) with
  | some n => exact begins.append rfl (callIntrinsic .strDup [.scalar n] w)
  | none => exact ⟨⟨rfl, Chain.none⟩, begins.pooled⟩

end Recounts

/-! ## Evaluations -/

/-- The literals in the functions of a context are in its pool. -/
def Context.Pooled (cx : Context) : Prop :=
  ∀ s f, cx.function? s = some f → ∀ text ∈ f.body.literals, text ∈ cx.literals

/-- The moments of everything that is evaluated within a bound on the depth. -/
structure Recounted (cx : Context) (fuel : Nat) : Prop where
  evaluate : ∀ e, (∀ text ∈ e.literals, text ∈ cx.literals) → ∀ xs w,
    Recounts cx id w (evaluateMoments cx fuel e xs w) (evaluate cx fuel e xs w)
  evaluateAll : ∀ es, (∀ text ∈ Expr.listLiterals es, text ∈ cx.literals) → ∀ xs w,
    Recounts cx id w (evaluateAllMoments cx fuel es xs w) (evaluateAll cx fuel es xs w)
  fill : ∀ es, (∀ text ∈ Expr.listLiterals es, text ∈ cx.literals) → ∀ array index xs w,
    Recounts cx id w (fillMoments cx fuel array index es xs w) (fill cx fuel array index es xs w)
  call : ∀ s vs w, Recounts cx id w (callMoments cx fuel s vs w) (call cx fuel s vs w)
  execute : ∀ st, (∀ text ∈ st.literals, text ∈ cx.literals) → ∀ s,
    Recounts cx Scope.world s (executeMoments cx fuel st s) (execute cx fuel st s)
  repeatWhile : ∀ c body, (∀ text ∈ c.literals, text ∈ cx.literals) →
    (∀ text ∈ body.literals, text ∈ cx.literals) → ∀ s,
    Recounts cx Scope.world s (repeatMoments cx fuel c body s) (repeatWhile cx fuel c body s)
  attempt : ∀ body catches, (∀ text ∈ body.literals, text ∈ cx.literals) →
    (∀ text ∈ Catch.literals catches, text ∈ cx.literals) → ∀ s,
    Recounts cx Scope.world s (attemptMoments cx fuel body catches s) (attempt cx fuel body catches s)
  finish : ∀ cleanup pending, (∀ text ∈ Stmt.cleanupLiterals cleanup, text ∈ cx.literals) → ∀ s,
    Recounts cx Scope.world s (finishMoments cx fuel cleanup s) (finish cx fuel cleanup pending s)

namespace Recounted

variable {cx : Context} {fuel : Nat}

theorem zero (cx : Context) : Recounted cx 0 where
  evaluate _ _ _ _ := .still (by rintro _ ⟨⟩)
  evaluateAll _ _ _ _ := .still (by rintro _ ⟨⟩)
  fill _ _ _ _ _ _ := .still (by rintro _ ⟨⟩)
  call _ _ _ := .still (by rintro _ ⟨⟩)
  execute _ _ _ := .still (by rintro _ ⟨⟩)
  repeatWhile _ _ _ _ _ := .still (by rintro _ ⟨⟩)
  attempt _ _ _ _ _ := .still (by rintro _ ⟨⟩)
  finish _ _ _ _ := .still (by rintro _ ⟨⟩)

theorem evaluate_succ (ih : Recounted cx fuel) (e : Expr)
    (pooled : ∀ text ∈ e.literals, text ∈ cx.literals) (xs : Variables) (w : World) :
    Recounts cx id w (evaluateMoments cx (fuel + 1) e xs w) (Evaluation.evaluate cx (fuel + 1) e xs w) := by
  cases e with
  | const n => exact .still (by rintro _ ⟨⟩; rfl)
  | var x => exact .still (by rintro _ ⟨⟩; rfl)
  | string text => exact .literal (pooled text (by simp [Expr.literals]))
  | array boxed items =>
    simp only [Expr.literals] at pooled
    refine .bind (.callIntrinsic _ _ w) fun array w' _ => ?_
    exact .bind_still (ih.fill items pooled array 0 xs w') (by rintro _ _ _ ⟨⟩; rfl)
  | unary op e =>
    exact .bind_still (ih.evaluate e pooled xs w) (by rintro _ _ _ ⟨⟩; rfl)
  | binary op l r =>
    simp only [Expr.literals, List.mem_append, or_imp, forall_and] at pooled
    refine .bind (ih.evaluate l pooled.1 xs w) fun a w' _ => ?_
    refine .bind_still (ih.evaluate r pooled.2 xs w') fun b w₁ w₂ after => ?_
    unfold operate at after
    cases result : op.eval? a.word b.word with
    | some n =>
      rw [result] at after
      cases after
      rfl
    | none =>
      rw [result] at after
      cases after
  | call callee arguments location =>
    simp only [Expr.literals] at pooled
    refine .bind (ih.evaluateAll arguments pooled xs w) fun vs w' _ => ?_
    cases callee with
    | declared s => exact ih.call s vs w'
    | intrinsic i => exact .callIntrinsic i vs w'
    | unbound name arity => exact .still (by rintro _ ⟨⟩)

theorem evaluateAll_succ (ih : Recounted cx fuel) (es : List Expr)
    (pooled : ∀ text ∈ Expr.listLiterals es, text ∈ cx.literals) (xs : Variables) (w : World) :
    Recounts cx id w (evaluateAllMoments cx (fuel + 1) es xs w)
      (Evaluation.evaluateAll cx (fuel + 1) es xs w) := by
  cases es with
  | nil => exact .still (by rintro _ ⟨⟩; rfl)
  | cons e rest =>
    simp only [Expr.listLiterals, List.mem_append, or_imp, forall_and] at pooled
    refine .bind (ih.evaluate e pooled.1 xs w) fun v w' _ => ?_
    exact .bind_still (ih.evaluateAll rest pooled.2 xs w') (by rintro _ _ _ ⟨⟩; rfl)

theorem fill_succ (ih : Recounted cx fuel) (es : List Expr)
    (pooled : ∀ text ∈ Expr.listLiterals es, text ∈ cx.literals) (array : Value) (index : Nat)
    (xs : Variables) (w : World) :
    Recounts cx id w (fillMoments cx (fuel + 1) array index es xs w)
      (Evaluation.fill cx (fuel + 1) array index es xs w) := by
  cases es with
  | nil => exact .still (by rintro _ ⟨⟩; rfl)
  | cons e rest =>
    simp only [Expr.listLiterals, List.mem_append, or_imp, forall_and] at pooled
    refine .bind (ih.evaluate e pooled.1 xs w) fun v w' _ => ?_
    exact .bind (.callIntrinsic _ _ w') fun _ w'' _ => ih.fill rest pooled.2 array (index + 1) xs w''

theorem call_succ (ih : Recounted cx fuel) (known : cx.Pooled) (s : Signature) (vs : List Value)
    (w : World) : Recounts cx id w (callMoments cx (fuel + 1) s vs w)
      (Evaluation.call cx (fuel + 1) s vs w) := by
  simp only [callMoments, Evaluation.call]
  cases found : cx.function? s with
  | none => exact .still (by rintro _ ⟨⟩)
  | some f =>
    have body := ih.execute f.body (known s f found) ⟨w, .bind f.parameters vs⟩
    refine ⟨?_, body.pooled⟩
    have chain := body.chain
    dsimp only
    cases done : Evaluation.execute cx fuel f.body ⟨w, .bind f.parameters vs⟩ with
    | done u s' =>
      rw [done] at chain
      exact chain
    | unwinding u s' =>
      rw [done] at chain
      cases u <;> exact chain
    | fault f =>
      rw [done] at chain
      exact chain
    | exhausted =>
      rw [done] at chain
      exact chain

theorem execute_succ (ih : Recounted cx fuel) (st : Stmt)
    (pooled : ∀ text ∈ st.literals, text ∈ cx.literals) (s : Scope) :
    Recounts cx Scope.world s (executeMoments cx (fuel + 1) st s)
      (Evaluation.execute cx (fuel + 1) st s) := by
  have value (e : Expr) (pooled : ∀ text ∈ e.literals, text ∈ cx.literals) (s : Scope) :
      Recounts cx Scope.world s (evaluateMoments cx fuel e s.bindings s.world)
        (Scope.lift (Evaluation.evaluate cx fuel e) s) :=
    .lift (ih.evaluate e pooled s.bindings s.world)
  cases st with
  | skip => exact .still (by rintro _ ⟨⟩; rfl)
  | assign x e => exact .bind_still (value e pooled s) (by rintro _ _ _ ⟨⟩; rfl)
  | leave e => exact .bind_still (value e pooled s) (by rintro _ _ _ ⟨⟩; rfl)
  | perform c => exact .bind_still (value c.expr pooled s) (by rintro _ _ _ ⟨⟩; rfl)
  | throwing x e =>
    simp only [executeMoments, Evaluation.execute]
    cases Exceptions.number? cx.exceptions x with
    | none => exact .still (by rintro _ ⟨⟩)
    | some n => exact .bind_still (value e pooled s) (by rintro _ _ _ ⟨⟩; rfl)
  | branch c yes no =>
    simp only [Stmt.literals, List.mem_append, or_imp, forall_and] at pooled
    refine .bind (value c pooled.1.1 s) fun v s' _ => ?_
    split
    · exact ih.execute yes pooled.1.2 s'
    · exact ih.execute no pooled.2 s'
  | loop c body =>
    simp only [Stmt.literals, List.mem_append, or_imp, forall_and] at pooled
    exact ih.repeatWhile c body pooled.1 pooled.2 s
  | chain r t =>
    simp only [Stmt.literals, List.mem_append, or_imp, forall_and] at pooled
    exact .bind (ih.execute r pooled.1 s) fun _ s' _ => ih.execute t pooled.2 s'
  | attempt body catches cleanup =>
    simp only [Stmt.literals, List.mem_append, or_imp, forall_and] at pooled
    have first := ih.attempt body catches pooled.1.1 pooled.1.2 s
    simp only [executeMoments, Evaluation.execute]
    cases done : Evaluation.attempt cx fuel body catches s with
    | done u s' =>
      rw [done] at first
      exact first.append rfl (ih.finish cleanup none pooled.2 s')
    | unwinding u s' =>
      rw [done] at first
      exact first.append rfl (ih.finish cleanup (some u) pooled.2 s')
    | fault f =>
      rw [done] at first
      exact (List.append_nil _).symm ▸ first
    | exhausted =>
      rw [done] at first
      exact (List.append_nil _).symm ▸ first

theorem repeatWhile_succ (ih : Recounted cx fuel) (c : Expr) (body : Stmt)
    (condition : ∀ text ∈ c.literals, text ∈ cx.literals)
    (pooled : ∀ text ∈ body.literals, text ∈ cx.literals) (s : Scope) :
    Recounts cx Scope.world s (repeatMoments cx (fuel + 1) c body s)
      (Evaluation.repeatWhile cx (fuel + 1) c body s) := by
  have value : Recounts cx Scope.world s (evaluateMoments cx fuel c s.bindings s.world)
      (Scope.lift (Evaluation.evaluate cx fuel c) s) :=
    .lift (ih.evaluate c condition s.bindings s.world)
  simp only [repeatMoments, Evaluation.repeatWhile]
  cases tested : Scope.lift (Evaluation.evaluate cx fuel c) s with
  | unwinding u s' =>
    rw [tested] at value
    exact (List.append_nil _).symm ▸ value.turn rfl
  | fault f =>
    rw [tested] at value
    exact (List.append_nil _).symm ▸ value.turn rfl
  | exhausted =>
    rw [tested] at value
    exact (List.append_nil _).symm ▸ value.turn rfl
  | done v s' =>
    rw [tested] at value
    refine value.append rfl ?_
    dsimp only [Result.andThen]
    split
    case isFalse => exact .still (by rintro _ ⟨⟩; rfl)
    have round := ih.execute body pooled s'
    cases done : Evaluation.execute cx fuel body s' with
    | done u s'' =>
      rw [done] at round
      exact round.append rfl (ih.repeatWhile c body condition pooled s'')
    | unwinding u s'' =>
      rw [done] at round
      exact (List.append_nil _).symm ▸ round
    | fault f =>
      rw [done] at round
      exact (List.append_nil _).symm ▸ round
    | exhausted =>
      rw [done] at round
      exact (List.append_nil _).symm ▸ round

theorem attempt_succ (ih : Recounted cx fuel) (body : Stmt) (catches : List Catch)
    (pooled : ∀ text ∈ body.literals, text ∈ cx.literals)
    (handled : ∀ text ∈ Catch.literals catches, text ∈ cx.literals) (s : Scope) :
    Recounts cx Scope.world s (attemptMoments cx (fuel + 1) body catches s)
      (Evaluation.attempt cx (fuel + 1) body catches s) := by
  have first := ih.execute body pooled s
  simp only [attemptMoments, Evaluation.attempt]
  cases done : Evaluation.execute cx fuel body s with
  | done u s' =>
    rw [done] at first
    exact (List.append_nil _).symm ▸ first
  | fault f =>
    rw [done] at first
    exact (List.append_nil _).symm ▸ first
  | exhausted =>
    rw [done] at first
    exact (List.append_nil _).symm ▸ first
  | unwinding u s' =>
    rw [done] at first
    cases u with
    | returning v => exact (List.append_nil _).symm ▸ first
    | thrown n v =>
      dsimp only
      cases found : cx.handler? catches n with
      | none => exact (List.append_nil _).symm ▸ first
      | some c =>
        have mem : c ∈ catches := List.mem_of_find?_eq_some found
        have branch := ih.execute c.body (fun text there => handled text (Catch.mem_literals mem there))
          ⟨s'.world, s'.bindings.set c.target v⟩
        exact first.append rfl ⟨branch.chain, branch.pooled⟩

theorem finish_succ (ih : Recounted cx fuel) (cleanup : Option Stmt) (pending : Option Unwinding)
    (pooled : ∀ text ∈ Stmt.cleanupLiterals cleanup, text ∈ cx.literals) (s : Scope) :
    Recounts cx Scope.world s (finishMoments cx (fuel + 1) cleanup s)
      (Evaluation.finish cx (fuel + 1) cleanup pending s) := by
  cases cleanup with
  | none =>
    refine .still fun s' after => ?_
    cases pending <;> cases after <;> rfl
  | some st =>
    refine .bind_still (ih.execute st pooled s) fun _ s' s'' after => ?_
    cases pending <;> cases after <;> rfl

end Recounted

/-- The moments of an evaluation lead from the world in which it begins to what comes of it. -/
theorem recounted {cx : Context} (known : cx.Pooled) (fuel : Nat) : Recounted cx fuel := by
  induction fuel with
  | zero => exact .zero cx
  | succ fuel ih =>
    exact {
      evaluate := ih.evaluate_succ
      evaluateAll := ih.evaluateAll_succ
      fill := fun es pooled array index xs w => ih.fill_succ es pooled array index xs w
      call := ih.call_succ known
      execute := ih.execute_succ
      repeatWhile := ih.repeatWhile_succ
      attempt := ih.attempt_succ
      finish := ih.finish_succ }

/-! ## Runs -/

theorem start_eq (p : Program) (input : List Int32) :
    start p input = (⟨p, p.exceptions, p.literals,
      ((List.range p.literals.length).map Heap.handle).toArray⟩,
      ⟨finalState (Heap.preload p.literals (.empty false)), ⟨input, #[]⟩⟩) := by
  simp only [start, World.start, Heap.preload_eq]
  simp [Heap.empty, finalState]

theorem pooled_start (p : Program) (input : List Int32) : (start p input).1.Pooled := by
  rw [start_eq]
  intro s f found text there
  obtain ⟨mem, -⟩ := Context.of_function? found
  rw [Program.literals, Numbering.ofList, Numbering.mem_addAll]
  exact .inr (List.mem_flatMap.mpr ⟨f, mem, there⟩)

end Evaluation

/-- The moments of a run of a program. -/
def Program.moments (p : Program) (input : List Int32) (fuel : Nat) : List Moment :=
  let (cx, w) := Evaluation.start p input
  Evaluation.callMoments cx fuel p.entry [] w

end Threefold
