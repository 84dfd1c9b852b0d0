import Threefold.Proofs.Program.Throwing

/-!
# What the analysis of exceptions computes

An exception has a *source* in the text: a throw statement, an array literal, or a call of a function
that can throw. `Stmt.Raises` says that a statement has a source somewhere in it, however deep, and
`Stmt.canThrow_iff` that the analysis finds just that. A set of functions is `RaisingClosed` if it has
every function in whose body there is a source, given the set.

The functions that can throw are the least such set (`Program.throwing_least`): the passes go on until
one adds nothing (`Settles`), what they have found by then is closed, and a pass never leaves a closed
set (`RaisingClosed.pass`), in whatever order it looks at the functions.
-/

namespace Threefold

/-! ## Parts -/

/-- An expression stands in another one, at some depth. -/
inductive Expr.Has : Expr → Expr → Prop
  | self (e : Expr) : Has e e
  | item {boxed : Bool} {items : List Expr} {i e : Expr} : i ∈ items → Has i e →
    Has (.array boxed items) e
  | operand {op : UnaryOp} {a e : Expr} : Has a e → Has (.unary op a) e
  | left {op : BinaryOp} {a b e : Expr} : Has a e → Has (.binary op a b) e
  | right {op : BinaryOp} {a b e : Expr} : Has b e → Has (.binary op a b) e
  | argument {callee : Callee} {arguments : List Expr} {location : Location} {a e : Expr} :
    a ∈ arguments → Has a e → Has (.call callee arguments location) e

/-- A statement stands in another one, at some depth. -/
inductive Stmt.Has : Stmt → Stmt → Prop
  | self (s : Stmt) : Has s s
  | yes {c : Expr} {yes no t : Stmt} : Has yes t → Has (.branch c yes no) t
  | no {c : Expr} {yes no t : Stmt} : Has no t → Has (.branch c yes no) t
  | loop {c : Expr} {body t : Stmt} : Has body t → Has (.loop c body) t
  | first {r s t : Stmt} : Has r t → Has (.chain r s) t
  | second {r s t : Stmt} : Has s t → Has (.chain r s) t
  | attempted {body t : Stmt} {catches : List Catch} {cleanup : Option Stmt} : Has body t →
    Has (.attempt body catches cleanup) t
  | handling {body t : Stmt} {catches : List Catch} {cleanup : Option Stmt} {c : Catch} :
    c ∈ catches → Has c.body t → Has (.attempt body catches cleanup) t
  | cleanup {body s t : Stmt} {catches : List Catch} : Has s t →
    Has (.attempt body catches (some s)) t

/-- A statement has an expression of its own. -/
inductive Stmt.Evaluates : Stmt → Expr → Prop
  | assign {x : String} {e : Expr} : Evaluates (.assign x e) e
  | branch {c : Expr} {yes no : Stmt} : Evaluates (.branch c yes no) c
  | loop {c : Expr} {body : Stmt} : Evaluates (.loop c body) c
  | leave {e : Expr} : Evaluates (.leave e) e
  | perform {c : Call} : Evaluates (.perform c) c.expr
  | throwing {x : String} {e : Expr} : Evaluates (.throwing x e) e

/-- An expression that can raise an exception by itself: an array literal, or a call of a built-in
function that can throw or of a function of a set. -/
inductive Expr.Source (S : Signature → Prop) : Expr → Prop
  | array {boxed : Bool} {items : List Expr} : Source S (.array boxed items)
  | intrinsic {i : Intrinsic} {arguments : List Expr} {location : Location} : i.canThrow = true →
    Source S (.call (.intrinsic i) arguments location)
  | declared {k : Signature} {arguments : List Expr} {location : Location} : S k →
    Source S (.call (.declared k) arguments location)

/-- There is a source of exceptions in an expression. -/
def Expr.Raises (S : Signature → Prop) (e : Expr) : Prop :=
  ∃ source, e.Has source ∧ source.Source S

/-- There is a source of exceptions in a statement: a throw statement, or one in an expression. -/
def Stmt.Raises (S : Signature → Prop) (s : Stmt) : Prop :=
  ∃ t, s.Has t ∧ ((∃ x e, t = .throwing x e) ∨ ∃ e, t.Evaluates e ∧ e.Raises S)

/-! ## What the analysis finds -/

variable {throwing : List Signature} {S S' : Signature → Prop}

theorem Expr.Source.mono (more : ∀ k, S k → S' k) {e : Expr} (h : e.Source S) : e.Source S' := by
  cases h with
  | array => exact .array
  | intrinsic canThrow => exact .intrinsic canThrow
  | declared mem => exact .declared (more _ mem)

theorem Stmt.Raises.mono (more : ∀ k, S k → S' k) {s : Stmt} (h : s.Raises S) : s.Raises S' := by
  obtain ⟨t, has, throwing | ⟨e, evaluates, source, inside, h⟩⟩ := h
  · exact ⟨t, has, .inl throwing⟩
  · exact ⟨t, has, .inr ⟨e, evaluates, source, inside, h.mono more⟩⟩

namespace Expr

theorem raises_leaf {e : Expr} (leaf : ∀ e', e.Has e' → e' = e) (harmless : ¬ e.Source S) :
    ¬ e.Raises S := by
  rintro ⟨source, has, h⟩
  obtain rfl := leaf _ has
  exact harmless h

theorem raises_unary {op : UnaryOp} {a : Expr} : (unary op a).Raises S ↔ a.Raises S := by
  constructor
  · rintro ⟨_, has | _ | has, h⟩
    · cases h
    · exact ⟨_, has, h⟩
  · rintro ⟨source, has, h⟩
    exact ⟨source, .operand has, h⟩

theorem raises_binary {op : BinaryOp} {a b : Expr} :
    (binary op a b).Raises S ↔ a.Raises S ∨ b.Raises S := by
  constructor
  · rintro ⟨_, has | _ | _ | has | has, h⟩
    · cases h
    · exact .inl ⟨_, has, h⟩
    · exact .inr ⟨_, has, h⟩
  · rintro (⟨source, has, h⟩ | ⟨source, has, h⟩)
    · exact ⟨source, .left has, h⟩
    · exact ⟨source, .right has, h⟩

theorem raises_call {callee : Callee} {arguments : List Expr} {location : Location} :
    (call callee arguments location).Raises S ↔
      (call callee arguments location).Source S ∨ ∃ a ∈ arguments, a.Raises S := by
  constructor
  · rintro ⟨_, has | _ | _ | _ | _ | ⟨mem, has⟩, h⟩
    · exact .inl h
    · exact .inr ⟨_, mem, _, has, h⟩
  · rintro (h | ⟨a, mem, source, has, h⟩)
    · exact ⟨_, .self _, h⟩
    · exact ⟨source, .argument mem has, h⟩

theorem source_call {callee : Callee} {arguments : List Expr} {location : Location} :
    (call callee arguments location).Source (· ∈ throwing) ↔ callee.canThrow throwing = true := by
  cases callee with
  | unbound => exact iff_of_false (by rintro ⟨⟩) Bool.false_ne_true
  | declared k =>
    rw [Callee.canThrow, decide_eq_true_iff]
    refine ⟨fun h => ?_, .declared⟩
    cases h with
    | declared mem => exact mem
  | intrinsic i =>
    refine ⟨fun h => ?_, .intrinsic⟩
    cases h with
    | intrinsic canThrow => exact canThrow

mutual

/-- The analysis finds an expression that can throw just where there is a source of exceptions. -/
theorem canThrow_iff : ∀ e : Expr, e.canThrow throwing = true ↔ e.Raises (· ∈ throwing)
  | .const _ => iff_of_false Bool.false_ne_true (raises_leaf (by rintro _ ⟨⟩; rfl) (by rintro ⟨⟩))
  | .string _ => iff_of_false Bool.false_ne_true (raises_leaf (by rintro _ ⟨⟩; rfl) (by rintro ⟨⟩))
  | .var _ => iff_of_false Bool.false_ne_true (raises_leaf (by rintro _ ⟨⟩; rfl) (by rintro ⟨⟩))
  | .array _ _ => iff_of_true rfl ⟨_, .self _, .array⟩
  | .unary _ a => by rw [canThrow, canThrow_iff a, raises_unary]
  | .binary _ a b => by
    rw [canThrow, Bool.or_eq_true, canThrow_iff a, canThrow_iff b, raises_binary]
  | .call callee arguments _ => by
    rw [canThrow, Bool.or_eq_true, anyCanThrow_iff arguments, raises_call, source_call]

theorem anyCanThrow_iff : ∀ es : List Expr,
    anyCanThrow throwing es = true ↔ ∃ e ∈ es, e.Raises (· ∈ throwing)
  | [] => iff_of_false Bool.false_ne_true (by simp)
  | e :: es => by
    rw [anyCanThrow, Bool.or_eq_true, canThrow_iff e, anyCanThrow_iff es]
    simp

end

end Expr

namespace Stmt

/-- A statement without parts raises what its expression raises. -/
theorem raises_own {s : Stmt} {e : Expr} (leaf : ∀ t, s.Has t → t = s) (own : s.Evaluates e)
    (only : ∀ e', s.Evaluates e' → e' = e) (calm : ∀ x e, s ≠ .throwing x e) :
    s.Raises S ↔ e.Raises S := by
  constructor
  · rintro ⟨t, has, h⟩
    obtain rfl := leaf t has
    obtain ⟨x, e', rfl⟩ | ⟨e', evaluates, h⟩ := h
    · exact absurd rfl (calm x e')
    · exact only e' evaluates ▸ h
  · exact fun h => ⟨s, .self s, .inr ⟨e, own, h⟩⟩

theorem raises_assign {x : String} {e : Expr} : (assign x e).Raises S ↔ e.Raises S :=
  raises_own (by rintro _ ⟨⟩; rfl) .assign (by rintro _ ⟨⟩; rfl) (by rintro _ _ ⟨⟩)

theorem raises_leave {e : Expr} : (leave e).Raises S ↔ e.Raises S :=
  raises_own (by rintro _ ⟨⟩; rfl) .leave (by rintro _ ⟨⟩; rfl) (by rintro _ _ ⟨⟩)

theorem raises_perform {c : Call} : (perform c).Raises S ↔ c.expr.Raises S :=
  raises_own (by rintro _ ⟨⟩; rfl) .perform (by rintro _ ⟨⟩; rfl) (by rintro _ _ ⟨⟩)

theorem raises_branch {c : Expr} {yes no : Stmt} :
    (branch c yes no).Raises S ↔ c.Raises S ∨ yes.Raises S ∨ no.Raises S := by
  constructor
  · rintro ⟨_, has | has | has, h⟩
    · obtain ⟨_, _, ⟨⟩⟩ | ⟨_, ⟨⟩, h⟩ := h
      exact .inl h
    · exact .inr (.inl ⟨_, has, h⟩)
    · exact .inr (.inr ⟨_, has, h⟩)
  · rintro (h | ⟨t, has, h⟩ | ⟨t, has, h⟩)
    · exact ⟨_, .self _, .inr ⟨c, .branch, h⟩⟩
    · exact ⟨t, .yes has, h⟩
    · exact ⟨t, .no has, h⟩

theorem raises_loop {c : Expr} {body : Stmt} :
    (loop c body).Raises S ↔ c.Raises S ∨ body.Raises S := by
  constructor
  · rintro ⟨_, has | _ | _ | has, h⟩
    · obtain ⟨_, _, ⟨⟩⟩ | ⟨_, ⟨⟩, h⟩ := h
      exact .inl h
    · exact .inr ⟨_, has, h⟩
  · rintro (h | ⟨t, has, h⟩)
    · exact ⟨_, .self _, .inr ⟨c, .loop, h⟩⟩
    · exact ⟨t, .loop has, h⟩

theorem raises_chain {r s : Stmt} : (chain r s).Raises S ↔ r.Raises S ∨ s.Raises S := by
  constructor
  · rintro ⟨_, has | _ | _ | _ | has | has, h⟩
    · obtain ⟨_, _, ⟨⟩⟩ | ⟨_, ⟨⟩, _⟩ := h
    · exact .inl ⟨_, has, h⟩
    · exact .inr ⟨_, has, h⟩
  · rintro (⟨t, has, h⟩ | ⟨t, has, h⟩)
    · exact ⟨t, .first has, h⟩
    · exact ⟨t, .second has, h⟩

theorem raises_attempt {body : Stmt} {catches : List Catch} {cleanup : Option Stmt} :
    (attempt body catches cleanup).Raises S ↔ body.Raises S ∨
      (∃ c ∈ catches, c.body.Raises S) ∨ ∃ s, cleanup = some s ∧ s.Raises S := by
  constructor
  · rintro ⟨_, has | _ | _ | _ | _ | _ | has | ⟨mem, has⟩ | has, h⟩
    · obtain ⟨_, _, ⟨⟩⟩ | ⟨_, ⟨⟩, _⟩ := h
    · exact .inl ⟨_, has, h⟩
    · exact .inr (.inl ⟨_, mem, _, has, h⟩)
    · exact .inr (.inr ⟨_, rfl, _, has, h⟩)
  · rintro (⟨t, has, h⟩ | ⟨c, mem, t, has, h⟩ | ⟨s, rfl, t, has, h⟩)
    · exact ⟨t, .attempted has, h⟩
    · exact ⟨t, .handling mem has, h⟩
    · exact ⟨t, .cleanup has, h⟩

mutual

/-- The analysis finds a statement that can throw just where there is a source of exceptions. -/
theorem canThrow_iff : ∀ s : Stmt, s.canThrow throwing = true ↔ s.Raises (· ∈ throwing)
  | .skip => by
    refine iff_of_false Bool.false_ne_true ?_
    rintro ⟨_, ⟨⟩, ⟨_, _, ⟨⟩⟩ | ⟨_, ⟨⟩, _⟩⟩
  | .throwing x e => iff_of_true rfl ⟨_, .self _, .inl ⟨x, e, rfl⟩⟩
  | .assign _ e => by rw [canThrow, Expr.canThrow_iff e, raises_assign]
  | .leave e => by rw [canThrow, Expr.canThrow_iff e, raises_leave]
  | .perform c => by rw [canThrow, Expr.canThrow_iff c.expr, raises_perform]
  | .branch c yes no => by
    rw [canThrow, Bool.or_eq_true, Bool.or_eq_true, Expr.canThrow_iff c, canThrow_iff yes,
      canThrow_iff no, raises_branch, or_assoc]
  | .loop c body => by
    rw [canThrow, Bool.or_eq_true, Expr.canThrow_iff c, canThrow_iff body, raises_loop]
  | .chain r s => by
    rw [canThrow, Bool.or_eq_true, canThrow_iff r, canThrow_iff s, raises_chain]
  | .attempt body catches cleanup => by
    rw [canThrow, Bool.or_eq_true, Bool.or_eq_true, canThrow_iff body,
      Catch.anyCanThrow_iff catches, cleanupCanThrow_iff cleanup, raises_attempt, or_assoc]

theorem Catch.anyCanThrow_iff : ∀ catches : List Catch,
    Catch.anyCanThrow throwing catches = true ↔ ∃ c ∈ catches, c.body.Raises (· ∈ throwing)
  | [] => iff_of_false Bool.false_ne_true (by simp)
  | .on _ _ s :: rest => by
    rw [Catch.anyCanThrow, Bool.or_eq_true, canThrow_iff s, Catch.anyCanThrow_iff rest]
    simp [Catch.body]

theorem cleanupCanThrow_iff : ∀ cleanup : Option Stmt,
    cleanupCanThrow throwing cleanup = true ↔ ∃ s, cleanup = some s ∧ s.Raises (· ∈ throwing)
  | none => iff_of_false Bool.false_ne_true (by simp)
  | some s => by
    rw [cleanupCanThrow, canThrow_iff s]
    simp

end

end Stmt

/-! ## The passes -/

namespace Program

variable {p : Program} {fs : List Function} {r : List Signature}

/-- A set of functions has every function with a source of exceptions in its body, given the set. -/
def RaisingClosed (p : Program) (S : Signature → Prop) : Prop :=
  ∀ f ∈ p.functions, f.body.Raises S → S f.signature

/-- The passes over a program, from some functions that can throw on, come to an end: they are repeated
until one changes nothing. -/
inductive Settles (p : Program) : List Signature → List Signature → Prop
  | done {throwing : List Signature} : p.throwingPass throwing = throwing →
    Settles p throwing throwing
  | again {throwing r : List Signature} : p.throwingPass throwing ≠ throwing →
    Settles p (p.throwingPass throwing) r → Settles p throwing r

theorem raisingClosed_mem : p.RaisingClosed (· ∈ throwing) ↔ p.ThrowingClosed throwing :=
  forall₂_congr fun f _ => imp_congr_left (Stmt.canThrow_iff f.body).symm

/-- Looking at some functions adds nothing that is not in a closed set. -/
theorem foldl_addThrowing_subset (closed : ∀ f ∈ fs, f.body.Raises S → S f.signature)
    (h : ∀ k ∈ throwing, S k) : ∀ k ∈ fs.foldl addThrowing throwing, S k := by
  induction fs generalizing throwing with
  | nil => exact h
  | cons f fs ih =>
    rw [List.foldl_cons]
    refine ih (fun g hg => closed g (List.mem_cons_of_mem f hg)) ?_
    unfold addThrowing
    split
    case isTrue found =>
      have raises := ((Stmt.canThrow_iff f.body).mp found.2).mono h
      exact List.forall_mem_cons.mpr ⟨closed f List.mem_cons_self raises, h⟩
    case isFalse => exact h

theorem RaisingClosed.pass (closed : p.RaisingClosed S) (h : ∀ k ∈ throwing, S k) :
    ∀ k ∈ p.throwingPass throwing, S k :=
  foldl_addThrowing_subset closed h

theorem Settles.subset (h : p.Settles throwing r) (closed : p.RaisingClosed S)
    (inside : ∀ k ∈ throwing, S k) : ∀ k ∈ r, S k := by
  induction h with
  | done => exact inside
  | again _ _ ih => exact ih (closed.pass inside)

/-- A pass that makes the list no longer leaves it as it is. -/
theorem throwingPass_eq_of_length (h : (p.throwingPass throwing).length = throwing.length) :
    p.throwingPass throwing = throwing := by
  have nothing := foldl_addThrowing_closed h
  unfold throwingPass
  generalize p.functions = fs at nothing ⊢
  induction fs with
  | nil => rfl
  | cons f fs ih =>
    have same : addThrowing throwing f = throwing :=
      if_neg fun found => found.1 (nothing f List.mem_cons_self found.2)
    rw [List.foldl_cons, same]
    exact ih fun g hg => nothing g (List.mem_cons_of_mem f hg)

theorem Settles.unique {r' : List Signature} (h : p.Settles throwing r)
    (h' : p.Settles throwing r') : r = r' := by
  induction h with
  | done same =>
    cases h' with
    | done => rfl
    | again change => exact absurd same change
  | again change _ ih =>
    cases h' with
    | done same => exact absurd same change
    | again _ rest => exact ih rest

/-- There are as many passes as it takes. -/
theorem settles_throwingWithin {n : Nat} (found : p.ThrowingFound throwing)
    (enough : p.functions.length < n + throwing.length) :
    p.Settles throwing (p.throwingWithin n throwing) := by
  induction n generalizing throwing with
  | zero =>
    have := found.length_le
    omega
  | succ n ih =>
    rw [throwingWithin]
    split
    case isTrue same => exact .done (throwingPass_eq_of_length same)
    case isFalse more =>
      have grows : throwing.length ≤ (p.throwingPass throwing).length :=
        length_le_foldl_addThrowing throwing p.functions
      exact .again (fun same => more (congrArg List.length same)) (ih found.pass (by omega))

theorem settles_throwing (p : Program) : p.Settles [] p.throwing :=
  settles_throwingWithin ⟨List.nodup_nil, by simp⟩ (by simp only [List.length_nil]; omega)

theorem raisingClosed_throwing (p : Program) : p.RaisingClosed (· ∈ p.throwing) :=
  raisingClosed_mem.mpr p.throwing_closed

theorem mem_throwing_of_closed (closed : p.RaisingClosed S) {k : Signature} (h : k ∈ p.throwing) :
    S k :=
  p.settles_throwing.subset closed (by simp) k h

/-- What the functions that can throw are. -/
structure LeastThrowing (p : Program) : Prop where
  /-- The passes come to an end, with the functions that can throw. -/
  settles : ∀ r, p.Settles [] r ↔ r = p.throwing
  closed : p.RaisingClosed (· ∈ p.throwing)
  least : ∀ S, p.RaisingClosed S → ∀ k ∈ p.throwing, S k
  /-- The order of the declarations makes no difference. -/
  permuted : ∀ q : Program, q.functions.Perm p.functions → ∀ k, k ∈ q.throwing ↔ k ∈ p.throwing

theorem throwing_least (p : Program) : p.LeastThrowing where
  settles r := ⟨fun h => h.unique p.settles_throwing, fun h => h ▸ p.settles_throwing⟩
  closed := p.raisingClosed_throwing
  least _ closed _ h := mem_throwing_of_closed closed h
  permuted q same k := by
    have closed_of_perm {a b : Program} (same : a.functions.Perm b.functions) :
        a.RaisingClosed (· ∈ b.throwing) :=
      fun f hf => b.raisingClosed_throwing f (same.subset hf)
    exact ⟨mem_throwing_of_closed (closed_of_perm same),
      mem_throwing_of_closed (closed_of_perm same.symm)⟩

end Program

end Threefold
