import Threefold.Program.Source

/-!
# The calls of a program

A property of calls, said of the callee and of the number of arguments, extends to everything that
has calls in it. Three such properties carry the theory of compiled programs.

* `Callee.Takes`: the callee takes as many arguments as the call has. The parser builds no other
  calls (`Parser.declarations_yields`), and binding keeps it.
* `Callee.Bound`: besides, the callee is built in or one of the functions of the program.
* `Callee.Known`: the callee is so, whatever arguments it gets.

A program that a text holds, with its calls bound, is `Linked` (`linked_of_load`): its functions
have different signatures, the entry is one of them, and every call is bound.
-/

namespace Threefold

/-! ## Properties of calls -/

mutual

/-- Every call in an expression has a property. -/
def Expr.AllCalls (P : Callee → Nat → Prop) : Expr → Prop
  | .const _ | .string _ | .var _ => True
  | .array _ items => Expr.AllCallsIn P items
  | .unary _ e => e.AllCalls P
  | .binary _ l r => l.AllCalls P ∧ r.AllCalls P
  | .call callee arguments _ => P callee arguments.length ∧ Expr.AllCallsIn P arguments

/-- Every call in some expressions has a property. -/
def Expr.AllCallsIn (P : Callee → Nat → Prop) : List Expr → Prop
  | [] => True
  | e :: rest => e.AllCalls P ∧ Expr.AllCallsIn P rest

end

mutual

/-- Every call in a statement has a property. -/
def Stmt.AllCalls (P : Callee → Nat → Prop) : Stmt → Prop
  | .skip => True
  | .assign _ e | .leave e | .throwing _ e => e.AllCalls P
  | .branch c yes no => c.AllCalls P ∧ yes.AllCalls P ∧ no.AllCalls P
  | .loop c body => c.AllCalls P ∧ body.AllCalls P
  | .chain s t => s.AllCalls P ∧ t.AllCalls P
  | .perform c => c.expr.AllCalls P
  | .attempt body catches cleanup =>
    body.AllCalls P ∧ Catch.AllCalls P catches ∧ Stmt.CleanupAllCalls P cleanup

/-- Every call in some catch branches has a property. -/
def Catch.AllCalls (P : Callee → Nat → Prop) : List Catch → Prop
  | [] => True
  | .on _ _ s :: rest => s.AllCalls P ∧ Catch.AllCalls P rest

/-- Every call in what runs in any case has a property. -/
def Stmt.CleanupAllCalls (P : Callee → Nat → Prop) : Option Stmt → Prop
  | none => True
  | some s => s.AllCalls P

end

/-- A callee that takes a number of arguments. -/
def Callee.Takes : Callee → Nat → Prop
  | .unbound _ arity, n => arity = n
  | .declared s, n => s.arity = n
  | .intrinsic i, n => i.arity = n

/-- A callee that is built in or declared, and takes a number of arguments. -/
def Callee.Bound (declared : List Signature) : Callee → Nat → Prop
  | .unbound _ _, _ => False
  | .declared s, n => s ∈ declared ∧ s.arity = n
  | .intrinsic i, n => i.arity = n

/-- A callee that is built in or one of the declared functions, whatever arguments it gets. -/
def Callee.Known (declared : List Signature) : Callee → Prop
  | .unbound _ _ => False
  | .declared s => s ∈ declared
  | .intrinsic _ => True

theorem Expr.allCallsIn_iff {P : Callee → Nat → Prop} {es : List Expr} :
    Expr.AllCallsIn P es ↔ ∀ e ∈ es, e.AllCalls P := by
  induction es with
  | nil => simp [Expr.AllCallsIn]
  | cons e rest ih => simp [Expr.AllCallsIn, ih]

theorem Expr.allCalls_named {name : String} {es : List Expr} {l : Location}
    (h : Expr.AllCallsIn Callee.Takes es) : (Call.named name es l).expr.AllCalls Callee.Takes :=
  ⟨rfl, h⟩

theorem Stmt.allCalls_ofList {P : Callee → Nat → Prop} :
    ∀ {ss : List Stmt}, (∀ s ∈ ss, s.AllCalls P) → (Stmt.ofList ss).AllCalls P
  | [], _ => trivial
  | [s], h => h s (by simp)
  | s :: t :: rest, h =>
    ⟨h s (by simp), @Stmt.allCalls_ofList P (t :: rest) fun u hu => h u (by simp [hu])⟩

mutual

/-- What holds of all calls there are holds of those in an expression. -/
theorem Expr.allCalls_of_forall {P : Callee → Nat → Prop} (h : ∀ c n, P c n) :
    ∀ e : Expr, e.AllCalls P
  | .const _ | .string _ | .var _ => trivial
  | .array _ items => Expr.allCallsIn_of_forall h items
  | .unary _ e => Expr.allCalls_of_forall h e
  | .binary _ l r => ⟨Expr.allCalls_of_forall h l, Expr.allCalls_of_forall h r⟩
  | .call c arguments _ => ⟨h c arguments.length, Expr.allCallsIn_of_forall h arguments⟩

theorem Expr.allCallsIn_of_forall {P : Callee → Nat → Prop} (h : ∀ c n, P c n) :
    ∀ es : List Expr, Expr.AllCallsIn P es
  | [] => trivial
  | e :: rest => ⟨Expr.allCalls_of_forall h e, Expr.allCallsIn_of_forall h rest⟩

end

mutual

/-- What holds of all calls there are holds of those in a statement. -/
theorem Stmt.allCalls_of_forall {P : Callee → Nat → Prop} (h : ∀ c n, P c n) :
    ∀ s : Stmt, s.AllCalls P
  | .skip => trivial
  | .assign _ e | .leave e | .throwing _ e => e.allCalls_of_forall h
  | .branch c yes no =>
    ⟨c.allCalls_of_forall h, Stmt.allCalls_of_forall h yes, Stmt.allCalls_of_forall h no⟩
  | .loop c body => ⟨c.allCalls_of_forall h, Stmt.allCalls_of_forall h body⟩
  | .chain s t => ⟨Stmt.allCalls_of_forall h s, Stmt.allCalls_of_forall h t⟩
  | .perform c => c.expr.allCalls_of_forall h
  | .attempt body catches cleanup =>
    ⟨Stmt.allCalls_of_forall h body, Catch.allCalls_of_forall h catches,
      Stmt.cleanupAllCalls_of_forall h cleanup⟩

theorem Catch.allCalls_of_forall {P : Callee → Nat → Prop} (h : ∀ c n, P c n) :
    ∀ cs : List Catch, Catch.AllCalls P cs
  | [] => trivial
  | .on _ _ s :: rest => ⟨Stmt.allCalls_of_forall h s, Catch.allCalls_of_forall h rest⟩

theorem Stmt.cleanupAllCalls_of_forall {P : Callee → Nat → Prop} (h : ∀ c n, P c n) :
    ∀ s : Option Stmt, Stmt.CleanupAllCalls P s
  | none => trivial
  | some s => Stmt.allCalls_of_forall h s

end

/-! ## What the parser yields -/

namespace Program.Parser

/-- Whatever a step of the descent yields has a property. -/
def Yields {α : Type} (P : α → Prop) (m : Parser α) : Prop :=
  ∀ ts a ts', m ts = .ok (a, ts') → P a

namespace Yields

variable {α β : Type} {P : α → Prop} {Q : β → Prop}

theorem pure {a : α} (h : P a) : Yields P (pure a) := by
  intro ts b ts' hb
  cases hb
  exact h

theorem bind {m : Parser α} {k : α → Parser β} (hm : Yields P m)
    (hk : ∀ a, P a → Yields Q (k a)) : Yields Q (m >>= k) := by
  intro ts b ts' hb
  change (m ts >>= fun r => k r.1 r.2) = _ at hb
  match hr : m ts with
  | .error e => rw [hr] at hb; cases hb
  | .ok (a, ts₁) =>
    rw [hr] at hb
    exact hk a (hm ts a ts₁ hr) ts₁ b ts' hb

/-- Nothing is needed of what a step yields. -/
theorem skip {m : Parser α} {k : α → Parser β} (hk : ∀ a, Yields Q (k a)) :
    Yields Q (m >>= k) :=
  bind (P := fun _ => True) (fun _ _ _ _ => trivial) fun a _ => hk a

theorem refuse {why : Option Token.Kind → Refusal} : Yields P (refuse why) := by
  intro ts b ts' hb
  cases hb

theorem ite {c : Prop} [Decidable c] {m n : Parser α} (hm : Yields P m) (hn : Yields P n) :
    Yields P (if c then m else n) := by
  split
  · exact hm
  · exact hn

end Yields

/-- The calls in an expression fit. -/
abbrev ExprFits (e : Expr) : Prop := e.AllCalls Callee.Takes

/-- The calls in expressions fit. -/
abbrev ExprsFit (es : List Expr) : Prop := Expr.AllCallsIn Callee.Takes es

/-- The calls in a statement fit. -/
abbrev StmtFits (s : Stmt) : Prop := s.AllCalls Callee.Takes

theorem exprFits_applyIndices {a : Expr} {is : List Expr} {l : Location} (ha : ExprFits a)
    (his : ExprsFit is) : ExprFits (applyIndices a is l) := by
  induction is generalizing a with
  | nil => exact ha
  | cons i rest ih =>
    exact ih (a := (Call.named "arrget" [a, i] l).expr)
      (Expr.allCalls_named ⟨ha, his.1, trivial⟩) his.2

theorem constant_yields (n : Int) (l : Location) : Yields ExprFits (constant n l) := by
  unfold constant
  refine .ite (.pure trivial) ?_
  intro ts b ts' hb
  cases hb

/-- What the descent into expressions yields, within a bound. -/
structure ExprYields (fuel : Nat) : Prop where
  operation : ∀ level, Yields ExprFits (operation fuel level)
  operand : ∀ level, Yields ExprFits (operand fuel level)
  operationTail : ∀ level left, ExprFits left → Yields ExprFits (operationTail fuel level left)
  term : Yields ExprFits (term fuel)
  atom : Yields ExprFits (atom fuel)
  call : ∀ name, Yields (fun c => ExprFits c.expr) (call fuel name)
  items : ∀ closing, Yields ExprsFit (items fuel closing)
  itemList : Yields ExprsFit (itemList fuel)
  indices : Yields ExprsFit (indices fuel)

theorem exprYields (fuel : Nat) : ExprYields fuel := by
  induction fuel with
  | zero =>
    constructor <;> intros <;> simp only [operation, operand, operationTail, term, atom, call,
      items, itemList, indices] <;> exact .refuse
  | succ fuel ih =>
    constructor
    case operation =>
      intro level
      rw [operation]
      exact .bind (ih.operand level) fun left hl => ih.operationTail level left hl
    case operand =>
      intro level
      rw [operand]
      cases level.tighter? with
      | none => exact ih.term
      | some tighter => exact ih.operation tighter
    case operationTail =>
      intro level left hl
      rw [operationTail]
      refine .skip fun op => ?_
      cases op with
      | none => exact .pure hl
      | some op =>
        refine .skip fun _ => .bind (ih.operand level) fun right hr => ?_
        exact .ite (ih.operationTail level _ ⟨hl, hr⟩) (.pure ⟨hl, hr⟩)
    case term =>
      rw [term]
      refine .skip fun l => .bind ih.atom fun e he => .bind ih.indices fun is his => ?_
      exact .pure (exprFits_applyIndices he his)
    case atom =>
      rw [atom]
      refine .skip fun l => .skip fun k => ?_
      split
      · exact .refuse
      · exact .skip fun _ => constant_yields _ _
      · exact .skip fun _ => .pure trivial
      · exact .skip fun _ => .pure trivial
      · refine .skip fun _ => .ite ?_ (.skip fun _ => .pure trivial)
        exact .bind (ih.call _) fun c hc => .pure hc
      · -- keywords
        split
        · exact .skip fun _ => .pure trivial
        · exact .skip fun _ => .pure trivial
        · exact .refuse
      · -- symbols
        split
        · refine .skip fun _ => .skip fun k => ?_
          split
          · exact .skip fun _ => constant_yields _ _
          · exact .refuse
        · exact .skip fun _ => .bind ih.term fun e he => .pure he
        · exact .skip fun _ => .bind (ih.operation _) fun e he => .skip fun _ => .pure he
        · exact .skip fun _ => .bind (ih.items _) fun es hes => .skip fun _ => .pure hes
        · exact .skip fun _ => .bind (ih.items _) fun es hes => .skip fun _ => .pure hes
        · exact .refuse
    case call =>
      intro name
      rw [call]
      refine .skip fun l => .skip fun _ => .skip fun _ => .bind (ih.items _) fun es hes => ?_
      exact .skip fun _ => .pure (Expr.allCalls_named hes)
    case items =>
      intro closing
      rw [items]
      exact .skip fun _ => .ite (.pure trivial) ih.itemList
    case itemList =>
      rw [itemList]
      refine .bind (ih.operation _) fun e he => .skip fun _ => .ite ?_ (.pure ⟨he, trivial⟩)
      exact .skip fun _ => .bind ih.itemList fun es hes => .pure ⟨he, hes⟩
    case indices =>
      rw [indices]
      refine .skip fun _ => .ite ?_ (.pure trivial)
      refine .skip fun _ => .bind (ih.operation _) fun e he => .skip fun _ => ?_
      exact .bind ih.indices fun es hes => .pure ⟨he, hes⟩

theorem expression_yields (fuel : Nat) : Yields ExprFits (expression fuel) :=
  (exprYields fuel).operation _

theorem nameStatement_yields (fuel : Nat) (name : String) :
    Yields StmtFits (nameStatement fuel name) := by
  unfold nameStatement
  refine .skip fun l => .skip fun k => ?_
  split
  · exact .bind ((exprYields fuel).call name) fun c hc => .pure hc
  · exact .skip fun _ => .skip fun _ => .bind (expression_yields fuel) fun e he => .pure he
  · refine .skip fun _ => .skip fun _ => .bind (expression_yields fuel) fun first hf => ?_
    refine .skip fun _ => .bind (exprYields fuel).indices fun rest hr => .skip fun b => ?_
    -- the array is what all indices but the last lead to
    have fits : ∀ value, ExprFits value → ExprFits (Call.named "arrset"
        [applyIndices (.var name) (first :: rest).dropLast l,
          (first :: rest).getLast (List.cons_ne_nil first rest), value] l).expr := by
      intro value hv
      have all : ∀ e ∈ first :: rest, ExprFits e := Expr.allCallsIn_iff.mp ⟨hf, hr⟩
      refine Expr.allCalls_named ⟨exprFits_applyIndices trivial ?_, ?_, hv, trivial⟩
      · exact Expr.allCallsIn_iff.mpr fun e he => all e ((List.dropLast_sublist _).subset he)
      · exact all _ (List.getLast_mem _)
    split
    · exact .skip fun _ => .bind (expression_yields fuel) fun v hv => .pure (fits v hv)
    · exact .skip fun _ => .bind (expression_yields fuel) fun v hv => .pure (fits v hv)
  · exact .skip fun _ => .refuse

theorem throwing_yields (fuel : Nat) : Yields StmtFits (throwing fuel) := by
  unfold throwing
  refine .skip fun _ => .skip fun _ => .skip fun x => .bind (expression_yields fuel) fun e he => ?_
  exact .skip fun _ => .pure he

/-- What the descent into statements yields, within a bound. -/
structure StmtYields (fuel : Nat) : Prop where
  statement : Yields StmtFits (statement fuel)
  block : Yields StmtFits (block fuel)
  statements : Yields (fun ss => ∀ s ∈ ss, StmtFits s) (statements fuel)
  branches : ∀ construct, Yields StmtFits (branches fuel construct)
  catches : Yields (Catch.AllCalls Callee.Takes) (catches fuel)
  cleanup : Yields (Stmt.CleanupAllCalls Callee.Takes) (cleanup fuel)

theorem stmtYields (fuel : Nat) : StmtYields fuel := by
  induction fuel with
  | zero =>
    constructor <;> intros <;> simp only [statement, block, statements, branches, catches,
      cleanup] <;> exact .refuse
  | succ fuel ih =>
    constructor
    case statement =>
      rw [statement]
      refine .skip fun k => ?_
      split
      · exact nameStatement_yields fuel _
      · exact .skip fun _ => .pure trivial
      · exact .skip fun _ => .bind (ih.branches _) fun s hs => .skip fun _ => .pure hs
      · refine .skip fun _ => .bind (expression_yields fuel) fun c hc => .skip fun _ => ?_
        exact .bind ih.block fun s hs => .skip fun _ => .pure ⟨hc, hs⟩
      · refine .skip fun _ => .bind ih.statement fun start hstart => .skip fun _ => ?_
        refine .bind (expression_yields fuel) fun c hc => .skip fun _ => ?_
        refine .bind ih.statement fun step hstep => .skip fun _ => ?_
        exact .bind ih.block fun s hs => .skip fun _ => .pure ⟨hstart, hc, hs, hstep⟩
      · refine .skip fun _ => .bind ih.block fun s hs => .skip fun _ => ?_
        exact .bind (expression_yields fuel) fun c hc => .pure ⟨hs, hc, hs⟩
      · exact .skip fun _ => .bind (expression_yields fuel) fun e he => .pure he
      · refine .skip fun _ => .bind ih.block fun s hs => .bind ih.catches fun cs hcs => ?_
        exact .bind ih.cleanup fun l hl => .skip fun _ => .pure ⟨hs, hcs, hl⟩
      · exact throwing_yields fuel
      · exact .refuse
    case block =>
      rw [block]
      refine .skip fun k => .ite ?_ .refuse
      exact .bind ih.statements fun ss hss => .pure (Stmt.allCalls_ofList hss)
    case statements =>
      rw [statements]
      refine .skip fun k => .ite ?_ (.pure (by simp))
      refine .bind ih.statement fun s hs => .skip fun _ => .bind ih.statements fun ss hss => ?_
      exact .pure (by simpa using ⟨hs, hss⟩)
    case branches =>
      intro construct
      rw [branches]
      refine .bind (expression_yields fuel) fun c hc => .skip fun _ => .bind ih.block fun s hs => ?_
      refine .skip fun _ => .ite ?_ (.skip fun _ => .ite ?_ (.pure ⟨hc, hs, trivial⟩))
      · exact .skip fun _ => .bind (ih.branches _) fun t ht => .pure ⟨hc, hs, ht⟩
      · exact .skip fun _ => .bind ih.block fun t ht => .pure ⟨hc, hs, ht⟩
    case catches =>
      rw [catches]
      refine .skip fun _ => .ite ?_ (.pure trivial)
      refine .skip fun _ => .skip fun _ => .skip fun x => .skip fun y => .skip fun _ => ?_
      exact .bind ih.block fun s hs => .bind ih.catches fun cs hcs => .pure ⟨hs, hcs⟩
    case cleanup =>
      rw [cleanup]
      refine .skip fun _ => .ite ?_ (.pure trivial)
      exact .skip fun _ => .bind ih.block fun s hs => .pure hs

theorem function_yields (fuel : Nat) : Yields (fun f => StmtFits f.body) (function fuel) := by
  unfold function
  refine .skip fun l => .skip fun _ => .skip fun x => .skip fun _ => ?_
  refine .skip fun b => ?_
  split
  all_goals
    refine .skip fun ps => .skip fun _ => .skip fun _ => ?_
    exact .bind (stmtYields fuel).block fun s hs => .skip fun _ => .pure hs

theorem declarations_yields (fuel : Nat) :
    Yields (fun r => (∀ f ∈ r.1, StmtFits f.body) ∧ ∀ s ∈ r.2, StmtFits s)
      (declarations fuel) := by
  induction fuel with
  | zero => exact .refuse
  | succ fuel ih =>
    rw [declarations]
    refine .skip fun k => ?_
    split
    · exact .pure (by simp)
    · refine .bind (function_yields fuel) fun f hf => .bind ih fun r hr => ?_
      exact .pure (by simpa [hf] using hr)
    · refine .ite ?_ .refuse
      refine .bind (stmtYields fuel).statement fun s hs => .skip fun _ => .bind ih fun r hr => ?_
      exact .pure (by simpa [hs] using hr)

end Program.Parser

/-! ## What binding yields -/

namespace Program

theorem Intrinsic.signature_of_ofSignature? {s : Signature} {i : Intrinsic}
    (h : Intrinsic.ofSignature? s = some i) : i.signature = s := by
  simpa using List.find?_some h

/-- A computation that yields a result begins with one that does. -/
theorem ok_of_bind {ε α β : Type} {m : Except ε α} {k : α → Except ε β} {b : β}
    (h : (m >>= k) = .ok b) : ∃ a, m = .ok a ∧ k a = .ok b := by
  cases m with
  | error e => cases h
  | ok a => exact ⟨a, rfl, h⟩

/-- Binding turns callees with one property into callees with another. -/
def Binds (declared : List Signature) (P Q : Callee → Nat → Prop) : Prop :=
  ∀ l c d n, P c n → bindCallee declared l c = .ok d → Q d n

theorem binds_bound (declared : List Signature) :
    Binds declared Callee.Takes (Callee.Bound declared) := by
  intro l c d n hc h
  cases c with
  | unbound name arity =>
    simp only [bindCallee] at h
    split at h
    · rename_i hs
      cases h
      exact ⟨hs, hc⟩
    · split at h
      · rename_i i hi
        cases h
        have hs := Intrinsic.signature_of_ofSignature? hi
        exact (congrArg Signature.arity hs).trans hc
      · cases h
  | declared s =>
    simp only [bindCallee] at h
    split at h
    · rename_i hs
      cases h
      exact ⟨hs, hc⟩
    · cases h
  | intrinsic i =>
    cases h
    exact hc

section Binds

variable {declared : List Signature} {P Q : Callee → Nat → Prop}

mutual

/-- What binding turns one property of callees into, it does so everywhere in an expression. -/
theorem bindExpr_allCalls (binds : Binds declared P Q) : ∀ {e e' : Expr}, e.AllCalls P →
    bindExpr declared e = .ok e' → e'.AllCalls Q
  | .const _, _, _, h => by cases h; trivial
  | .string _, _, _, h => by cases h; trivial
  | .var _, _, _, h => by cases h; trivial
  | .array boxed items, _, hf, h => by
    obtain ⟨items', hi, h⟩ := ok_of_bind (by rwa [bindExpr] at h)
    cases h
    exact (bindExprs_allCalls binds hf hi).2
  | .unary op e, _, hf, h => by
    obtain ⟨e', he, h⟩ := ok_of_bind (by rwa [bindExpr] at h)
    cases h
    have bound : e'.AllCalls Q := bindExpr_allCalls binds (e := e) hf he
    exact bound
  | .binary op l r, _, hf, h => by
    obtain ⟨l', hl, h⟩ := ok_of_bind (by rwa [bindExpr] at h)
    obtain ⟨r', hr, h⟩ := ok_of_bind h
    cases h
    exact ⟨bindExpr_allCalls binds hf.1 hl, bindExpr_allCalls binds hf.2 hr⟩
  | .call callee arguments location, _, hf, h => by
    obtain ⟨arguments', ha, h⟩ := ok_of_bind (by rwa [bindExpr] at h)
    obtain ⟨callee', hc, h⟩ := ok_of_bind h
    cases h
    obtain ⟨hlen, hargs⟩ := bindExprs_allCalls binds hf.2 ha
    exact ⟨hlen ▸ binds _ _ _ _ hf.1 hc, hargs⟩

theorem bindExprs_allCalls (binds : Binds declared P Q) : ∀ {es es' : List Expr},
    Expr.AllCallsIn P es → bindExprs declared es = .ok es' →
    es'.length = es.length ∧ Expr.AllCallsIn Q es'
  | [], _, _, h => by cases h; exact ⟨rfl, trivial⟩
  | e :: rest, _, hf, h => by
    obtain ⟨e', he, h⟩ := ok_of_bind (by rwa [bindExprs] at h)
    obtain ⟨rest', hr, h⟩ := ok_of_bind h
    cases h
    obtain ⟨hlen, hrest⟩ := bindExprs_allCalls binds hf.2 hr
    exact ⟨by simp [hlen], bindExpr_allCalls binds hf.1 he, hrest⟩

end

theorem bindCall_allCalls (binds : Binds declared P Q) {c c' : Call} (hf : c.expr.AllCalls P)
    (h : bindCall declared c = .ok c') : c'.expr.AllCalls Q := by
  obtain ⟨arguments', ha, h⟩ := ok_of_bind (by rwa [bindCall] at h)
  obtain ⟨callee', hc, h⟩ := ok_of_bind h
  cases h
  obtain ⟨hlen, hargs⟩ := bindExprs_allCalls binds hf.2 ha
  exact ⟨hlen ▸ binds _ _ _ _ hf.1 hc, hargs⟩

mutual

theorem bindStmt_allCalls (binds : Binds declared P Q) : ∀ {s s' : Stmt}, s.AllCalls P →
    bindStmt declared s = .ok s' → s'.AllCalls Q
  | .skip, _, _, h => by cases h; trivial
  | .assign x e, _, hf, h => by
    obtain ⟨e', he, h⟩ := ok_of_bind (by rwa [bindStmt] at h)
    cases h
    exact bindExpr_allCalls binds (e := e) hf he
  | .branch c yes no, _, hf, h => by
    obtain ⟨c', hc, h⟩ := ok_of_bind (by rwa [bindStmt] at h)
    obtain ⟨yes', hy, h⟩ := ok_of_bind h
    obtain ⟨no', hn, h⟩ := ok_of_bind h
    cases h
    exact ⟨bindExpr_allCalls binds hf.1 hc, bindStmt_allCalls binds hf.2.1 hy,
      bindStmt_allCalls binds hf.2.2 hn⟩
  | .loop c body, _, hf, h => by
    obtain ⟨c', hc, h⟩ := ok_of_bind (by rwa [bindStmt] at h)
    obtain ⟨body', hb, h⟩ := ok_of_bind h
    cases h
    exact ⟨bindExpr_allCalls binds hf.1 hc, bindStmt_allCalls binds hf.2 hb⟩
  | .chain s t, _, hf, h => by
    obtain ⟨s', hs, h⟩ := ok_of_bind (by rwa [bindStmt] at h)
    obtain ⟨t', ht, h⟩ := ok_of_bind h
    cases h
    exact ⟨bindStmt_allCalls binds hf.1 hs, bindStmt_allCalls binds hf.2 ht⟩
  | .leave e, _, hf, h => by
    obtain ⟨e', he, h⟩ := ok_of_bind (by rwa [bindStmt] at h)
    cases h
    exact bindExpr_allCalls binds (e := e) hf he
  | .perform c, _, hf, h => by
    obtain ⟨c', hc, h⟩ := ok_of_bind (by rwa [bindStmt] at h)
    cases h
    exact bindCall_allCalls binds hf hc
  | .attempt body catches cleanup, _, hf, h => by
    obtain ⟨body', hb, h⟩ := ok_of_bind (by rwa [bindStmt] at h)
    obtain ⟨catches', hc, h⟩ := ok_of_bind h
    obtain ⟨cleanup', hl, h⟩ := ok_of_bind h
    cases h
    exact ⟨bindStmt_allCalls binds hf.1 hb, bindCatches_allCalls binds hf.2.1 hc,
      bindCleanup_allCalls binds hf.2.2 hl⟩
  | .throwing x e, _, hf, h => by
    obtain ⟨e', he, h⟩ := ok_of_bind (by rwa [bindStmt] at h)
    cases h
    exact bindExpr_allCalls binds (e := e) hf he

theorem bindCatches_allCalls (binds : Binds declared P Q) : ∀ {cs cs' : List Catch},
    Catch.AllCalls P cs → bindCatches declared cs = .ok cs' → Catch.AllCalls Q cs'
  | [], _, _, h => by cases h; trivial
  | .on e x s :: rest, _, hf, h => by
    obtain ⟨s', hs, h⟩ := ok_of_bind (by rwa [bindCatches] at h)
    obtain ⟨rest', hr, h⟩ := ok_of_bind h
    cases h
    exact ⟨bindStmt_allCalls binds hf.1 hs, bindCatches_allCalls binds hf.2 hr⟩

theorem bindCleanup_allCalls (binds : Binds declared P Q) : ∀ {s s' : Option Stmt},
    Stmt.CleanupAllCalls P s → bindCleanup declared s = .ok s' → Stmt.CleanupAllCalls Q s'
  | none, _, _, h => by cases h; trivial
  | some s, _, hf, h => by
    obtain ⟨s', hs, h⟩ := ok_of_bind (by rwa [bindCleanup] at h)
    cases h
    exact bindStmt_allCalls binds (s := s) hf hs

end

theorem mapM_bindFunction_allCalls (binds : Binds declared P Q) : ∀ {fs fs' : List Function},
    (∀ f ∈ fs, f.body.AllCalls P) → fs.mapM (bindFunction declared) = .ok fs' →
    fs'.map Function.signature = fs.map Function.signature ∧ ∀ f ∈ fs', f.body.AllCalls Q
  | [], _, _, h => by
    cases h
    simp
  | f :: rest, _, hf, h => by
    rw [List.mapM_cons] at h
    obtain ⟨f', hf', h⟩ := ok_of_bind h
    obtain ⟨rest', hr, h⟩ := ok_of_bind h
    cases h
    rw [bindFunction] at hf'
    obtain ⟨body', hb, hf'⟩ := ok_of_bind hf'
    cases hf'
    have first := bindStmt_allCalls binds (hf f (by simp)) hb
    have later := mapM_bindFunction_allCalls binds (fun g hg => hf g (by simp [hg])) hr
    exact ⟨by simp [later.1, Function.signature], by simpa [first] using later.2⟩

/-- Binding a program keeps its entry and its signatures, and turns a property of all its calls into
another. -/
theorem allCalls_of_bind (binds : Binds declared P Q) {p q : Program} (same : declared = p.signatures)
    (hp : ∀ f ∈ p.functions, f.body.AllCalls P) (h : p.bind = .ok q) :
    q.entry = p.entry ∧ q.signatures = p.signatures ∧ ∀ f ∈ q.functions, f.body.AllCalls Q := by
  subst same
  obtain ⟨⟨⟩, -, h⟩ := ok_of_bind (by rwa [bind] at h)
  split at h
  · cases h
  · obtain ⟨fs, hfs, h⟩ := ok_of_bind h
    cases h
    obtain ⟨signatures, bound⟩ := mapM_bindFunction_allCalls binds hp hfs
    exact ⟨rfl, signatures, bound⟩

end Binds

theorem nodup_of_checkDistinct : ∀ {earlier : List Signature} {fs : List Function},
    checkDistinct earlier fs = .ok () →
      (fs.map Function.signature).Nodup ∧ ∀ f ∈ fs, f.signature ∉ earlier
  | _, [], _ => by simp
  | earlier, f :: rest, h => by
    rw [checkDistinct] at h
    split at h
    · cases h
    · rename_i hf
      simp only [not_or] at hf
      obtain ⟨distinct, later⟩ := nodup_of_checkDistinct h
      constructor
      · simp only [List.map_cons, List.nodup_cons, List.mem_map, not_exists, not_and]
        refine ⟨fun g hg heq => later g hg ?_, distinct⟩
        simp [heq]
      · intro g hg
        simp only [List.mem_cons] at hg
        rcases hg with rfl | hg
        · exact hf.2
        · exact fun he => later g hg (by simp [he])

/-- A program that makes sense as a whole: no two functions have one signature, the entry is one of
them, and every call goes to a function that is there, with as many arguments as it takes. -/
structure Linked (p : Program) : Prop where
  distinct : p.signatures.Nodup
  entry_mem : p.entry ∈ p.signatures
  bound : ∀ f ∈ p.functions, f.body.AllCalls (Callee.Bound p.signatures)

theorem linked_of_bind {p q : Program} (hp : ∀ f ∈ p.functions, f.body.AllCalls Callee.Takes)
    (h : p.bind = .ok q) : q.Linked := by
  obtain ⟨entry, signatures, bound⟩ := allCalls_of_bind (binds_bound _) rfl hp h
  obtain ⟨⟨⟩, hd, h⟩ := ok_of_bind (by rwa [bind] at h)
  split at h
  · cases h
  · rename_i he
    refine ⟨?_, ?_, ?_⟩
    · rw [signatures]
      exact (nodup_of_checkDistinct hd).1
    · rw [signatures, entry]
      exact Decidable.of_not_not he
    · rw [signatures]
      exact bound

theorem allCalls_takes_of_ofTokens {ts : Tokens} {entry : String} {p : Program}
    (h : ofTokens ts entry = .ok p) : ∀ f ∈ p.functions, f.body.AllCalls Callee.Takes := by
  obtain ⟨⟨⟨fs, ss⟩, ts'⟩, hr, h⟩ := ok_of_bind (by rwa [ofTokens] at h)
  cases h
  obtain ⟨hfs, hss⟩ := Parser.declarations_yields _ ts _ ts' hr
  simp only [List.mem_append, List.mem_singleton]
  rintro f (hf | rfl)
  · exact hfs f hf
  · exact Stmt.allCalls_ofList hss

theorem ok_of_mapError {ε δ α : Type} {m : Except ε α} {k : ε → δ} {a : α}
    (h : m.mapError k = .ok a) : m = .ok a := by
  cases m with
  | error e => cases h
  | ok b =>
    cases h
    rfl

/-- Whatever a text holds is linked once its calls are bound. -/
theorem linked_of_load {file source entry : String} {p : Program}
    (h : load file source entry = .ok p) : p.Linked := by
  obtain ⟨q, hq, h⟩ := ok_of_bind (by rwa [load] at h)
  obtain ⟨ts, -, hq⟩ := ok_of_bind (by rwa [parse] at hq)
  exact linked_of_bind (allCalls_takes_of_ofTokens (ok_of_mapError hq)) (ok_of_mapError h)

end Program

end Threefold
