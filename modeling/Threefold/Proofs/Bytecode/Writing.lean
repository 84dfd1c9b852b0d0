import Threefold.Proofs.Bytecode.Layout
import Threefold.Proofs.Program.Calls

/-!
# What the compiler writes

The compiler never fails on the functions of a linked program, and what it writes is the code that
the layout describes (`compileFunction_eq`). The proof follows the compiler: `Wrote` says which
marks stand in the draft behind a given point and which parts are open, and each operation of the
compiler has its rule, stated as a triple. A jump to where exceptions go is at the same time a mark
in the draft and an entry of the innermost part that catches (`raiseTo`); when that part is closed,
its entries are exactly the indices of these marks, so each of them is settled once.
-/

namespace Threefold

namespace Bytecode.Compilation

open Draft (JumpKind Slot)

/-! ## What a program needs to be compiled -/

mutual

/-- Calls are bound and literals pooled. -/
def ExprOk (cx : Context) (declared : List Signature) : Expr → Prop
  | .const _ | .var _ => True
  | .string s => s ∈ cx.literals
  | .array _ items => ExprsOk cx declared items
  | .unary _ e => ExprOk cx declared e
  | .binary _ l r => ExprOk cx declared l ∧ ExprOk cx declared r
  | .call callee arguments _ =>
    callee.Bound declared arguments.length ∧ ExprsOk cx declared arguments

/-- Calls are bound and literals pooled in every expression. -/
def ExprsOk (cx : Context) (declared : List Signature) : List Expr → Prop
  | [] => True
  | e :: rest => ExprOk cx declared e ∧ ExprsOk cx declared rest

end

mutual

/-- Calls are bound, literals pooled and types of exceptions numbered. -/
def StmtOk (cx : Context) (declared : List Signature) : Stmt → Prop
  | .skip => True
  | .assign _ e | .leave e => ExprOk cx declared e
  | .branch c yes no => ExprOk cx declared c ∧ StmtOk cx declared yes ∧ StmtOk cx declared no
  | .loop c body => ExprOk cx declared c ∧ StmtOk cx declared body
  | .chain s t => StmtOk cx declared s ∧ StmtOk cx declared t
  | .perform c => ExprOk cx declared c.expr
  | .attempt body catches cleanup =>
    StmtOk cx declared body ∧ CatchesOk cx declared catches ∧ CleanupOk cx declared cleanup
  | .throwing x e => x ∈ cx.exceptions ∧ ExprOk cx declared e

/-- Calls are bound, literals pooled and types of exceptions numbered in catch branches. -/
def CatchesOk (cx : Context) (declared : List Signature) : List Catch → Prop
  | [] => True
  | .on x _ s :: rest =>
    x ∈ cx.exceptions ∧ StmtOk cx declared s ∧ CatchesOk cx declared rest

/-- Calls are bound, literals pooled and types of exceptions numbered in what runs in any case. -/
def CleanupOk (cx : Context) (declared : List Signature) : Option Stmt → Prop
  | none => True
  | some s => StmtOk cx declared s

end

section Known

variable {cx : Context} {declared : List Signature}

mutual

theorem exprOk : ∀ {e : Expr}, e.AllCalls (Callee.Bound declared) →
    (∀ s ∈ e.literals, s ∈ cx.literals) → ExprOk cx declared e
  | .const _, _, _ => trivial
  | .var _, _, _ => trivial
  | .string s, _, hl => hl s (by simp [Expr.literals])
  | .array _ items, hb, hl => @exprsOk items hb hl
  | .unary _ e, hb, hl => exprOk (e := e) hb hl
  | .binary _ l r, hb, hl =>
    ⟨exprOk hb.1 fun s hs => hl s (by simp [Expr.literals, hs]),
      exprOk hb.2 fun s hs => hl s (by simp [Expr.literals, hs])⟩
  | .call _ arguments _, hb, hl => ⟨hb.1, @exprsOk arguments hb.2 hl⟩

theorem exprsOk : ∀ {es : List Expr}, Expr.AllCallsIn (Callee.Bound declared) es →
    (∀ s ∈ Expr.listLiterals es, s ∈ cx.literals) → ExprsOk cx declared es
  | [], _, _ => trivial
  | e :: rest, hb, hl =>
    ⟨exprOk hb.1 fun s hs => hl s (by simp [Expr.listLiterals, hs]),
      exprsOk hb.2 fun s hs => hl s (by simp [Expr.listLiterals, hs])⟩

end

mutual

theorem stmtOk : ∀ {s : Stmt}, s.AllCalls (Callee.Bound declared) →
    (∀ l ∈ s.literals, l ∈ cx.literals) → (∀ x ∈ s.exceptions, x ∈ cx.exceptions) →
    StmtOk cx declared s
  | .skip, _, _, _ => trivial
  | .assign _ e, hb, hl, _ => exprOk (e := e) hb hl
  | .leave e, hb, hl, _ => exprOk (e := e) hb hl
  | .branch c yes no, hb, hl, hx =>
    ⟨exprOk hb.1 fun l h => hl l (by simp [Stmt.literals, h]),
      stmtOk hb.2.1 (fun l h => hl l (by simp [Stmt.literals, h]))
        fun x h => hx x (by simp [Stmt.exceptions, h]),
      stmtOk hb.2.2 (fun l h => hl l (by simp [Stmt.literals, h]))
        fun x h => hx x (by simp [Stmt.exceptions, h])⟩
  | .loop c body, hb, hl, hx =>
    ⟨exprOk hb.1 fun l h => hl l (by simp [Stmt.literals, h]),
      stmtOk hb.2 (fun l h => hl l (by simp [Stmt.literals, h])) hx⟩
  | .chain s t, hb, hl, hx =>
    ⟨stmtOk hb.1 (fun l h => hl l (by simp [Stmt.literals, h]))
        fun x h => hx x (by simp [Stmt.exceptions, h]),
      stmtOk hb.2 (fun l h => hl l (by simp [Stmt.literals, h]))
        fun x h => hx x (by simp [Stmt.exceptions, h])⟩
  | .perform c, hb, hl, _ => exprOk (e := c.expr) hb hl
  | .attempt body catches cleanup, hb, hl, hx =>
    ⟨stmtOk hb.1 (fun l h => hl l (by simp [Stmt.literals, h]))
        fun x h => hx x (by simp [Stmt.exceptions, h]),
      catchesOk hb.2.1 (fun l h => hl l (by simp [Stmt.literals, h]))
        fun x h => hx x (by simp [Stmt.exceptions, h]),
      cleanupOk hb.2.2 (fun l h => hl l (by simp [Stmt.literals, h]))
        fun x h => hx x (by simp [Stmt.exceptions, h])⟩
  | .throwing x e, hb, hl, hx => ⟨hx x (by simp [Stmt.exceptions]), exprOk (e := e) hb hl⟩

theorem catchesOk : ∀ {cs : List Catch}, Catch.AllCalls (Callee.Bound declared) cs →
    (∀ l ∈ Catch.literals cs, l ∈ cx.literals) → (∀ x ∈ Catch.exceptions cs, x ∈ cx.exceptions) →
    CatchesOk cx declared cs
  | [], _, _, _ => trivial
  | .on x _ s :: rest, hb, hl, hx =>
    ⟨hx x (by simp [Catch.exceptions]),
      stmtOk hb.1 (fun l h => hl l (by simp [Catch.literals, h]))
        fun x h => hx x (by simp [Catch.exceptions, h]),
      catchesOk hb.2 (fun l h => hl l (by simp [Catch.literals, h]))
        fun x h => hx x (by simp [Catch.exceptions, h])⟩

theorem cleanupOk : ∀ {s : Option Stmt}, Stmt.CleanupAllCalls (Callee.Bound declared) s →
    (∀ l ∈ Stmt.cleanupLiterals s, l ∈ cx.literals) →
    (∀ x ∈ Stmt.cleanupExceptions s, x ∈ cx.exceptions) → CleanupOk cx declared s
  | none, _, _, _ => trivial
  | some s, hb, hl, hx => stmtOk (s := s) hb hl hx

end

end Known

/-! ## Jumps that wait for a target -/

theorem waiting_append (g : Goal) (pos : Nat) (ms ns : List Mark) :
    waiting g pos (ms ++ ns) = waiting g pos ms ++ waiting g (pos + ms.length) ns := by
  induction ms generalizing pos with
  | nil => simp [waiting]
  | cons m ms ih =>
    have shift : pos + 1 + ms.length = pos + (ms.length + 1) := by omega
    cases m with
    | done i => simp [waiting, ih, shift]
    | jump g' kind origin =>
      by_cases hg : g' = g <;> simp [waiting, ih, shift, hg]

@[simp]
theorem waiting_code (g : Goal) (pos : Nat) (is : List Instruction) :
    waiting g pos (code is) = [] := by
  induction is generalizing pos with
  | nil => rfl
  | cons i is ih => exact ih (pos + 1)

@[simp]
theorem waiting_nil (g : Goal) (pos : Nat) : waiting g pos [] = [] := rfl

@[simp]
theorem waiting_raise (pos : Nat) (origin : String) :
    waiting .handler pos [.raise origin] = [pos] := rfl

@[simp]
theorem waiting_exit (pos : Nat) (origin : String) :
    waiting .exit pos [.exit origin] = [pos] := rfl

@[simp]
theorem waiting_handler_exit (pos : Nat) (origin : String) :
    waiting .handler pos [.exit origin] = [] := rfl

theorem waiting_eq_nil {g : Goal} {pos : Nat} {ms : List Mark} (hms : ∀ m ∈ ms, m.Inside)
    (hg : g ≠ .handler) : waiting g pos ms = [] := by
  induction ms generalizing pos with
  | nil => rfl
  | cons m ms ih =>
    cases m with
    | done i => exact ih fun n hn => hms n (by simp [hn])
    | jump g' kind origin =>
      obtain ⟨rfl, -⟩ := hms (.jump g' kind origin) (by simp)
      rw [waiting, if_neg hg.symm]
      exact ih fun n hn => hms n (by simp [hn])

theorem waiting_settle (g g' : Goal) (t pos : Nat) (ms : List Mark) :
    waiting g pos (ms.map (.settle g' t)) = if g = g' then [] else waiting g pos ms := by
  induction ms generalizing pos with
  | nil => simp
  | cons m ms ih =>
    cases m with
    | done i => simp [waiting, Mark.settle, ih]
    | jump h kind origin =>
      by_cases hg' : h = g' <;> by_cases hg : g = g' <;> by_cases hh : h = g <;>
        simp_all [waiting, Mark.settle]

/-! ## Open parts -/

/-- The open parts after jumps were added to the innermost that catches. -/
def raiseTo (slots : List Nat) : List Scope → List Scope
  | [] => []
  | s :: rest =>
    if s.catches then { s with throws := s.throws ++ slots } :: rest else s :: raiseTo slots rest

@[simp]
theorem raiseTo_nil (ss : List Scope) : raiseTo [] ss = ss := by
  induction ss with
  | nil => rfl
  | cons s ss ih => simp [raiseTo, ih]

@[simp]
theorem raiseTo_raiseTo (ps qs : List Nat) (ss : List Scope) :
    raiseTo qs (raiseTo ps ss) = raiseTo (ps ++ qs) ss := by
  induction ss with
  | nil => rfl
  | cons s ss ih =>
    by_cases hs : s.catches <;> simp [raiseTo, hs, ih]

/-- Some open part catches exceptions. -/
def Catching (ss : List Scope) : Prop :=
  ∃ s ∈ ss, s.catches = true

theorem Catching.raiseTo {ss : List Scope} (h : Catching ss) (ps : List Nat) :
    Catching (raiseTo ps ss) := by
  induction ss with
  | nil => exact h
  | cons s ss ih =>
    by_cases hs : s.catches
    · exact ⟨{ s with throws := s.throws ++ ps }, by simp [Compilation.raiseTo, hs], hs⟩
    · obtain ⟨t, ht, hc⟩ := h
      rcases List.mem_cons.mp ht with rfl | ht
      · exact absurd hc hs
      · obtain ⟨u, hu, hc⟩ := ih ⟨t, ht, hc⟩
        exact ⟨u, by simp [Compilation.raiseTo, hs, hu], hc⟩

theorem change?_catches {ss : List Scope} (h : Catching ss) (slot : Nat) :
    Scopes.change? (·.catches) (fun c => { c with throws := c.throws ++ [slot] }) ss =
      some (raiseTo [slot] ss) := by
  induction ss with
  | nil =>
    obtain ⟨s, hs, -⟩ := h
    cases hs
  | cons s ss ih =>
    by_cases hs : s.catches
    · simp [Scopes.change?, raiseTo, hs]
    · obtain ⟨t, ht, hc⟩ := h
      rcases List.mem_cons.mp ht with rfl | ht
      · exact absurd hc hs
      · simp [Scopes.change?, raiseTo, hs, ih ⟨t, ht, hc⟩]

/-! ## Triples -/

/-- From a state with one property a step yields a result and a state with another. -/
def Triple {α : Type} (P : State → Prop) (m : Step α) (Q : α → State → Prop) : Prop :=
  ∀ t, P t → ∃ a u, m t = .ok a u ∧ Q a u

namespace Triple

variable {α β : Type} {P : State → Prop} {Q : α → State → Prop} {R : β → State → Prop}

theorem pure {a : α} (h : ∀ t, P t → Q a t) : Triple P (pure a) Q :=
  fun t ht => ⟨a, t, rfl, h t ht⟩

theorem bind {m : Step α} {k : α → Step β} (hm : Triple P m Q)
    (hk : ∀ a, Triple (Q a) (k a) R) : Triple P (m >>= k) R := by
  intro t ht
  obtain ⟨a, u, hu, hq⟩ := hm t ht
  obtain ⟨b, v, hv, hr⟩ := hk a u hq
  exact ⟨b, v, by simp only [Bind.bind, EStateM.bind, hu, hv], hr⟩

theorem imp {m : Step α} {Q' : α → State → Prop} (hm : Triple P m Q)
    (h : ∀ a t, Q a t → Q' a t) : Triple P m Q' := by
  intro t ht
  obtain ⟨a, u, hu, hq⟩ := hm t ht
  exact ⟨a, u, hu, h a u hq⟩

end Triple

/-- The number of operands and how many blocks that run in any case and array literals were met. -/
structure Counts where
  depth : Nat
  cleanups : Nat
  arrays : Nat

/-- The counts behind an instruction. -/
def Counts.after (n : Counts) (i : Instruction) : Counts :=
  { n with depth := n.depth - i.pops + i.pushes }

/-- Marks were written behind a state, certain parts are open, and the counts are known. -/
structure Wrote (s : State) (ms : List Mark) (opened : List Scope) (n : Counts) (t : State) :
    Prop where
  slots : t.draft.slots.toList = s.draft.slots.toList ++ ms.map Mark.slot
  opened : t.scopes.opened = opened
  depth : t.depth = n.depth
  cleanups : t.cleanups = n.cleanups
  arrays : t.arrays = n.arrays

section Rules

variable {s t : State} {ms : List Mark} {o : List Scope} {n : Counts}

theorem Wrote.next (h : Wrote s ms o n t) : t.draft.next = s.draft.next + ms.length := by
  have := congrArg List.length h.slots
  simpa [Draft.next] using this

theorem here_triple : Triple (Wrote s ms o n) here
    fun a u => a = s.draft.next + ms.length ∧ Wrote s ms o n u :=
  fun t h => ⟨t.draft.next, t, rfl, h.next, h⟩

theorem emit_triple (i : Instruction) : Triple (Wrote s ms o n) (emit i)
    fun _ => Wrote s (ms ++ code [i]) o (n.after i) := by
  intro t h
  refine ⟨(), _, rfl, ?_⟩
  constructor
  · simp [Draft.emit, h.slots, Mark.slot]
  · exact h.opened
  · simp [Counts.after, h.depth]
  · exact h.cleanups
  · exact h.arrays

theorem emitAll_triple (is : List Instruction) : Triple (Wrote s ms o n) (emitAll is)
    fun _ => Wrote s (ms ++ code is) o (is.foldl Counts.after n) := by
  induction is generalizing ms n with
  | nil => exact .pure fun t h => by simpa using h
  | cons i is ih =>
    have first : Triple (Wrote s ms o n) (emitAll (i :: is)) _ := (emit_triple i).bind fun _ => ih
    exact first.imp fun _ t h => by simpa using h

theorem reserve_triple (g : Goal) (origin : String) : Triple (Wrote s ms o n) (reserve origin)
    fun a u => a = s.draft.next + ms.length ∧
      Wrote s (ms ++ [.jump g .always origin]) o n u := by
  intro t h
  refine ⟨_, _, rfl, h.next, ?_⟩
  constructor
  · simp [Draft.reserve, h.slots, Mark.slot]
  · exact h.opened
  · exact h.depth
  · exact h.cleanups
  · exact h.arrays

theorem reserveIfZero_triple (origin : String) : Triple (Wrote s ms o n) (reserveIfZero origin)
    fun a u => a = s.draft.next + ms.length ∧
      Wrote s (ms ++ [.jump .inside .ifZero origin]) o { n with depth := n.depth - 1 } u := by
  intro t h
  refine ⟨_, _, rfl, h.next, ?_⟩
  constructor
  · simp [Draft.reserve, h.slots, Mark.slot]
  · exact h.opened
  · simp [h.depth]
  · exact h.cleanups
  · exact h.arrays

theorem throwEdge_triple (hc : Catching o) (origin : String) :
    Triple (Wrote s ms o n) (throwEdge origin)
      fun _ => Wrote s (ms ++ [.raise origin]) (raiseTo [s.draft.next + ms.length] o) n := by
  refine (reserve_triple .handler origin).bind fun slot => ?_
  rintro t ⟨rfl, h⟩
  refine ⟨(), { t with scopes := { t.scopes with
    opened := raiseTo [s.draft.next + ms.length] o } }, ?_, ?_⟩
  · simp [onScopes, Scopes.addThrow, h.opened, change?_catches hc]
  · exact ⟨h.slots, rfl, h.depth, h.cleanups, h.arrays⟩

theorem openScope_triple (kind : ScopeKind) (catches : Bool) :
    Triple (Wrote s ms o n) (openScope kind catches)
      fun id => Wrote s ms (⟨id, kind, catches, [], []⟩ :: o) n := by
  intro t h
  refine ⟨_, _, rfl, ?_⟩
  exact ⟨h.slots, by simp [Scopes.push, h.opened], h.depth, h.cleanups, h.arrays⟩

theorem closeScope_triple (c : Scope) : Triple (Wrote s ms (c :: o) n) (closeScope c.id)
    fun closed u => closed = c ∧ Wrote s ms o n u := by
  intro t h
  refine ⟨c, { t with scopes := { t.scopes with opened := o } }, ?_, rfl, ?_⟩
  · simp [closeScope, onScopes, Scopes.pop, h.opened]
  · exact ⟨h.slots, rfl, h.depth, h.cleanups, h.arrays⟩

theorem exitEdge_triple (c : Scope) (origin : String) :
    Triple (Wrote s ms (c :: o) n) (exitEdge c.id origin)
      fun _ => Wrote s (ms ++ [.exit origin])
        ({ c with exits := c.exits ++ [s.draft.next + ms.length] } :: o) n := by
  refine (reserve_triple .exit origin).bind fun slot => ?_
  rintro t ⟨rfl, h⟩
  refine ⟨(), { t with scopes := { t.scopes with
    opened := { c with exits := c.exits ++ [s.draft.next + ms.length] } :: o } }, ?_, ?_⟩
  · simp [onScopes, Scopes.addExit, Scopes.change?, h.opened]
  · exact ⟨h.slots, rfl, h.depth, h.cleanups, h.arrays⟩

/-- Giving a target to a jump that was written. -/
theorem resolve_triple {xs ys : List Mark} {g : Goal} {kind : JumpKind} {origin : String}
    {slot : Nat} (hs : slot = s.draft.next + xs.length) (target : Nat) :
    Triple (Wrote s (xs ++ .jump g kind origin :: ys) o n) (onDraft (Draft.resolve slot target))
      fun _ => Wrote s (xs ++ .done (kind.instruction target) :: ys) o n := by
  intro t h
  have there : t.draft.slots[slot]? = some (.reserved kind origin) := by
    rw [← Array.getElem?_toList, h.slots, hs]
    simp [Draft.next, Mark.slot]
  refine ⟨(), { t with draft := ⟨t.draft.slots.setIfInBounds slot
    (.filled (kind.instruction target))⟩ }, ?_, ?_⟩
  · simp [onDraft, Draft.resolve, there]
  · refine ⟨?_, h.opened, h.depth, h.cleanups, h.arrays⟩
    simp only [Array.toList_setIfInBounds, h.slots, hs, Draft.next]
    rw [← Array.length_toList, List.set_append_right _ _ (by omega)]
    simp [Mark.slot]

theorem resolveHere_triple {xs ys : List Mark} {g : Goal} {kind : JumpKind} {origin : String}
    {slot : Nat} (hs : slot = s.draft.next + xs.length) :
    Triple (Wrote s (xs ++ .jump g kind origin :: ys) o n) (resolveHere slot)
      fun _ => Wrote s
        (xs ++ .done (kind.instruction (s.draft.next + xs.length + ys.length + 1)) :: ys) o n := by
  refine here_triple.bind fun target => ?_
  rintro t ⟨rfl, h⟩
  have := resolve_triple hs (s.draft.next + (xs ++ Mark.jump g kind origin :: ys).length) t h
  simpa [Nat.add_assoc] using this

/-- Giving one target to all jumps with a goal in a part that was written. -/
theorem resolveAll_triple {xs ys zs : List Mark} {g : Goal} {pos : Nat}
    (hp : pos = s.draft.next + xs.length) (target : Nat) :
    Triple (Wrote s (xs ++ ys ++ zs) o n) (resolveAll (waiting g pos ys) target)
      fun _ => Wrote s (xs ++ ys.map (.settle g target) ++ zs) o n := by
  induction ys generalizing xs pos with
  | nil =>
    intro t h
    exact ⟨(), t, rfl, by simpa using h⟩
  | cons y ys ih =>
    have step : ∀ y', Triple (Wrote s (xs ++ [y'] ++ ys ++ zs) o n)
        (resolveAll (waiting g (pos + 1) ys) target)
        fun _ => Wrote s (xs ++ [y'] ++ ys.map (.settle g target) ++ zs) o n :=
      fun y' => ih (by simp [hp, Nat.add_assoc])
    cases y with
    | done i =>
      intro t h
      have := step (.done i) t (by simpa using h)
      simpa [waiting, Mark.settle] using this
    | jump g' kind origin =>
      by_cases hg : g' = g
      · intro t h
        obtain ⟨⟨⟩, u, hu, h'⟩ := resolve_triple hp target t
          (show Wrote s (xs ++ .jump g' kind origin :: (ys ++ zs)) o n t by simpa using h)
        obtain ⟨⟨⟩, v, hv, h''⟩ := step (.done (kind.instruction target)) u (by simpa using h')
        refine ⟨(), v, ?_, by simpa [Mark.settle, hg] using h''⟩
        simp only [resolveAll, onDraft] at hu hv ⊢
        rw [waiting, if_pos hg]
        simp only [Draft.resolveAll, Bind.bind, EStateM.bind]
        revert hu
        cases Draft.resolve pos target t.draft with
        | error e d => intro hu; cases hu
        | ok a d =>
          intro hu
          cases hu
          exact hv
      · intro t h
        have := step (.jump g' kind origin) t (by simpa using h)
        simpa [waiting, Mark.settle, hg] using this

theorem get_triple : Triple (Wrote s ms o n) get fun a u => a = u ∧ Wrote s ms o n u :=
  fun t h => ⟨t, t, rfl, rfl, h⟩

theorem modify_triple {f : State → State} {m : Counts}
    (hf : ∀ t, Wrote s ms o n t → Wrote s ms o m (f t)) :
    Triple (Wrote s ms o n) (modify f) fun _ => Wrote s ms o m :=
  fun t h => ⟨(), f t, rfl, hf t h⟩

/-- The same marks, open parts and counts in another form. -/
theorem Wrote.cast {o' : List Scope} {n' : Counts} (h : Wrote s ms o n t) (ms' : List Mark)
    (hm : ms = ms') (ho : o = o') (hn : n = n') : Wrote s ms' o' n' t :=
  hm ▸ ho ▸ hn ▸ h

theorem number?_of_mem {cx : Context} {x : String} (hx : x ∈ cx.exceptions) :
    Exceptions.number? cx.exceptions x = some (numberOf cx x) := by
  obtain ⟨i, hi⟩ := Option.isSome_iff_exists.mp (List.isSome_idxOf?.mpr hx)
  rw [numberOf, Exceptions.number?, hi]
  rfl

theorem number_triple {cx : Context} {x : String} (hx : x ∈ cx.exceptions) :
    Triple (Wrote s ms o n) (number cx x) fun a u => a = numberOf cx x ∧ Wrote s ms o n u := by
  intro t h
  exact ⟨_, t, by simp only [number, number?_of_mem hx]; rfl, rfl, h⟩

theorem waiting_checkCode (pos depth : Nat) (origin : String) :
    waiting .handler pos (checkCode pos depth origin) = [pos + depth + 8] := by
  rw [checkCode, waiting_append, waiting_code, List.nil_append, waiting_raise]
  simp
  omega

theorem waiting_leaveCleanup (pos c : Nat) :
    waiting .handler pos (leaveCleanup pos c) = [pos + 8] := rfl

theorem foldl_after_pop (d : Nat) (n : Counts) :
    (List.replicate d Instruction.pop).foldl Counts.after n = { n with depth := n.depth - d } := by
  induction d generalizing n with
  | zero => rfl
  | succ d ih =>
    rw [List.replicate_succ, List.foldl_cons, ih]
    simp only [Counts.after, Instruction.pops, Instruction.pushes, Nat.add_zero, Counts.mk.injEq,
      and_true]
    omega

theorem checkThrown_triple (pos : Nat) (hp : pos = s.draft.next + ms.length) (hc : Catching o)
    (origin : String) :
    Triple (Wrote s ms o n) (checkThrown origin) fun _ =>
      Wrote s (ms ++ checkCode pos n.depth origin)
        (raiseTo (waiting .handler pos (checkCode pos n.depth origin)) o) n := by
  unfold checkThrown
  refine (emit_triple _).bind fun _ => (reserveIfZero_triple origin).bind fun fine => ?_
  rintro t ⟨rfl, h⟩
  refine ((emitAll_triple _).bind fun _ => get_triple.bind fun st => ?_) t h
  rintro t ⟨rfl, h⟩
  have hd : st.depth = n.depth := h.depth
  rw [hd]
  refine ((emitAll_triple _).bind fun _ => (throwEdge_triple hc origin).bind fun _ =>
    (modify_triple (m := n) ?_).bind fun _ => ?_) st h
  · intro t h
    simp only [foldl_after_pop] at h
    exact ⟨h.slots, h.opened, rfl, h.cleanups, h.arrays⟩
  · rintro t h
    have h' := h.cast ((ms ++ code [.load .thrown]) ++ .jump .inside .ifZero origin ::
      (code [.load .thrown, .store .pending, .load .thrownData, .store .pendingData, .push 0,
        .store .thrown] ++ code (.replicate n.depth .pop) ++ [.raise origin])) (by simp) rfl rfl
    refine ((resolveHere_triple (by simp)).imp ?_) t h'
    rintro - t h
    refine h.cast _ ?_ ?_ rfl
    · simp [checkCode, code, JumpKind.instruction, hp]
      omega
    · rw [waiting_checkCode, hp]
      simp
      congr 2
      omega

end Rules

/-! ## Expressions -/

/-- What stands in the draft behind a part that was written in one piece. -/
abbrev Appended (s : State) (ms : List Mark) (o : List Scope) (pos : Nat) (part : List Mark)
    (n : Counts) : State → Prop :=
  Wrote s (ms ++ part) (raiseTo (waiting .handler pos part) o) n

section Expressions

variable {cx : Context} {declared : List Signature}

theorem waiting_itemsCode (pos depth arrays : Nat) (array : Variable) (index : Nat) (e : Expr)
    (rest : List Expr) :
    waiting .handler pos (itemsCode cx pos depth arrays array index (e :: rest)) =
      waiting .handler (pos + 2) (exprCode cx (pos + 2) (depth + 2) arrays e) ++
        (waiting .handler (pos + (exprCode cx (pos + 2) (depth + 2) arrays e).length + 3)
          (checkCode (pos + (exprCode cx (pos + 2) (depth + 2) arrays e).length + 3) (depth + 1)
            ("element " ++ toString index ++ " of array literal")) ++
        waiting .handler (pos + (exprCode cx (pos + 2) (depth + 2) arrays e).length + depth + 14)
          (itemsCode cx (pos + (exprCode cx (pos + 2) (depth + 2) arrays e).length + depth + 14)
            depth (arrays + e.arrayCount) array (index + 1) rest)) := by
  simp only [itemsCode, waiting_append, waiting_code, List.nil_append, length_code,
    length_checkCode, List.length_cons, List.length_nil, List.append_assoc]
  have check : pos + (0 + 1 + 1) + (exprCode cx (pos + 2) (depth + 2) arrays e).length + (0 + 1) =
      pos + (exprCode cx (pos + 2) (depth + 2) arrays e).length + 3 := by omega
  have behind : pos + (0 + 1 + 1) + (exprCode cx (pos + 2) (depth + 2) arrays e).length + (0 + 1) +
      (depth + 1 + 9) + (0 + 1) =
      pos + (exprCode cx (pos + 2) (depth + 2) arrays e).length + depth + 14 := by omega
  rw [behind, check]

mutual

theorem compileExpr_triple : ∀ {e : Expr}, ExprOk cx declared e →
    ∀ {s : State} {ms : List Mark} {o : List Scope} {n : Counts} (pos : Nat),
    pos = s.draft.next + ms.length → Catching o →
    Triple (Wrote s ms o n) (compileExpr cx e) fun _ =>
      Appended s ms o pos (exprCode cx pos n.depth n.arrays e)
        ⟨n.depth + 1, n.cleanups, n.arrays + e.arrayCount⟩
  | .const k, _, s, ms, o, n, pos, hp, hc => by
    rw [compileExpr]
    exact (emit_triple _).imp fun _ t h => h.cast _ rfl (by simp [exprCode, waiting]) rfl
  | .var x, _, s, ms, o, n, pos, hp, hc => by
    rw [compileExpr]
    exact (emit_triple _).imp fun _ t h => h.cast _ rfl (by simp [exprCode, waiting]) rfl
  | .string l, hl, s, ms, o, n, pos, hp, hc => by
    obtain ⟨i, hi⟩ := Option.isSome_iff_exists.mp (List.isSome_idxOf?.mpr hl)
    simp only [compileExpr, hi]
    refine ((emit_triple _).bind fun _ => emit_triple _).imp fun _ t h => h.cast _ ?_ ?_ rfl
    · simp [exprCode, hi]
    · simp [exprCode, waiting]
  | .array boxed items, hi, s, ms, o, n, pos, hp, hc => by
    rw [compileExpr]
    refine get_triple.bind fun st => ?_
    rintro t ⟨rfl, h⟩
    have ha : st.arrays = n.arrays := h.arrays
    rw [ha]
    refine ((modify_triple (m := { n with arrays := n.arrays + 1 }) ?_).bind fun _ =>
      (emitAll_triple _).bind fun _ => ?_) st h
    · intro t h
      exact ⟨h.slots, h.opened, h.depth, h.cleanups, by rw [h.arrays]⟩
    · refine ((compileItems_triple hi (pos + 4) (by simp [hp, Nat.add_assoc]) hc).bind
        fun _ => emit_triple _).imp fun _ t h => h.cast _ ?_ ?_ ?_
      · cases boxed <;> simp [exprCode, Counts.after, Instruction.pops, Instruction.pushes,
          Callee.arity, Callee.signature, Intrinsic.signature, Intrinsic.arity]
      · cases boxed <;> simp [exprCode, waiting_append, waiting, Counts.after, Instruction.pops,
          Instruction.pushes, Callee.arity, Callee.signature, Intrinsic.signature,
          Intrinsic.arity]
      · cases boxed <;> simp [Expr.arrayCount, Counts.after, Instruction.pops,
          Instruction.pushes, Callee.arity, Callee.signature, Intrinsic.signature,
          Intrinsic.arity, Nat.add_assoc]
  | .unary op e, he, s, ms, o, n, pos, hp, hc => by
    rw [compileExpr]
    refine ((compileExpr_triple (e := e) he pos hp hc).bind fun _ => emit_triple _).imp
      fun _ t h => h.cast _ ?_ ?_ rfl
    · simp [exprCode]
    · simp [exprCode, waiting_append, waiting]
  | .binary op l r, he, s, ms, o, n, pos, hp, hc => by
    rw [compileExpr]
    refine ((compileExpr_triple he.1 pos hp hc).bind fun _ =>
      (compileExpr_triple he.2 (pos + (exprCode cx pos n.depth n.arrays l).length)
        (by simp [hp, Nat.add_assoc]) (hc.raiseTo _)).bind fun _ => emit_triple _).imp
      fun _ t h => h.cast _ ?_ ?_ ?_
    · simp [exprCode]
    · simp [exprCode, waiting_append, waiting]
    · simp [Expr.arrayCount, Counts.after, Instruction.pops, Instruction.pushes, Nat.add_assoc]
  | .call callee arguments location, he, s, ms, o, n, pos, hp, hc => by
    have rest : ∀ target : Bytecode.Callee, target = callee.target →
        target.arity = arguments.length →
        Triple (Wrote s ms o n)
          (do compileExprs cx arguments
              emit (.call target)
              if callee.canThrow cx.throwing then
                checkThrown ("call " ++ (Expr.call callee arguments location).text))
          fun _ => Appended s ms o pos
            (exprCode cx pos n.depth n.arrays (.call callee arguments location))
            ⟨n.depth + 1, n.cleanups, n.arrays + (Expr.call callee arguments location).arrayCount⟩ := by
      rintro target rfl ha
      refine (compileExprs_triple he.2 pos hp hc).bind fun _ => (emit_triple _).bind fun _ => ?_
      split
      · rename_i ht
        refine (checkThrown_triple
          (pos + (exprsCode cx pos n.depth n.arrays arguments).length + 1)
          (by simp [hp, Nat.add_assoc]) (hc.raiseTo _) _).imp fun _ t h => h.cast _ ?_ ?_ ?_
        · simp [exprCode, ht, Counts.after, Instruction.pops, Instruction.pushes, ha]
        · simp [exprCode, ht, waiting_append, waiting, Counts.after, Instruction.pops,
            Instruction.pushes, ha, Nat.add_assoc]
        · simp [Expr.arrayCount, Counts.after, Instruction.pops, Instruction.pushes, ha]
      · rename_i ht
        refine .pure fun t h => h.cast _ ?_ ?_ ?_
        · simp [exprCode, ht]
        · simp [exprCode, ht, waiting_append, waiting]
        · simp [Expr.arrayCount, Counts.after, Instruction.pops, Instruction.pushes, ha]
    cases callee with
    | unbound name arity => exact he.1.elim
    | declared g =>
      rw [compileExpr.eq_def]
      exact rest _ rfl he.1.2
    | intrinsic i =>
      rw [compileExpr.eq_def]
      exact rest _ rfl he.1

theorem compileExprs_triple : ∀ {es : List Expr}, ExprsOk cx declared es →
    ∀ {s : State} {ms : List Mark} {o : List Scope} {n : Counts} (pos : Nat),
    pos = s.draft.next + ms.length → Catching o →
    Triple (Wrote s ms o n) (compileExprs cx es) fun _ =>
      Appended s ms o pos (exprsCode cx pos n.depth n.arrays es)
        ⟨n.depth + es.length, n.cleanups, n.arrays + Expr.listArrayCount es⟩
  | [], _, s, ms, o, n, pos, hp, hc => by
    rw [compileExprs]
    exact .pure fun t h => h.cast _ (by simp [exprsCode]) (by simp [exprsCode]) rfl
  | e :: rest, he, s, ms, o, n, pos, hp, hc => by
    rw [compileExprs]
    refine ((compileExpr_triple he.1 pos hp hc).bind fun _ =>
      compileExprs_triple he.2 (pos + (exprCode cx pos n.depth n.arrays e).length)
        (by simp [hp, Nat.add_assoc]) (hc.raiseTo _)).imp fun _ t h => h.cast _ ?_ ?_ ?_
    · simp [exprsCode]
    · simp [exprsCode, waiting_append]
    · simp only [Expr.listArrayCount, List.length_cons, Counts.mk.injEq, true_and]
      omega

theorem compileItems_triple : ∀ {es : List Expr}, ExprsOk cx declared es →
    ∀ {s : State} {ms : List Mark} {o : List Scope} {n : Counts} (pos : Nat) {array : Variable}
    {index : Nat}, pos = s.draft.next + ms.length → Catching o →
    Triple (Wrote s ms o n) (compileItems cx array index es) fun _ =>
      Appended s ms o pos (itemsCode cx pos n.depth n.arrays array index es)
        ⟨n.depth, n.cleanups, n.arrays + Expr.listArrayCount es⟩
  | [], _, s, ms, o, n, pos, array, index, hp, hc => by
    rw [compileItems]
    exact .pure fun t h => h.cast _ (by simp [itemsCode]) (by simp [itemsCode]) rfl
  | e :: rest, he, s, ms, o, n, pos, array, index, hp, hc => by
    rw [compileItems]
    refine ((emit_triple _).bind fun _ => (emit_triple _).bind fun _ =>
      (compileExpr_triple he.1 (pos + 2) (by simp [hp, Nat.add_assoc]) hc).bind fun _ =>
      (emit_triple _).bind fun _ =>
      (checkThrown_triple
        (pos + (exprCode cx (pos + 2) (n.depth + 2) n.arrays e).length + 3)
        ?_ (hc.raiseTo _) _).bind fun _ => (emit_triple _).bind fun _ =>
      compileItems_triple he.2
        (pos + (exprCode cx (pos + 2) (n.depth + 2) n.arrays e).length + n.depth + 14)
        ?_ ((hc.raiseTo _).raiseTo _)).imp fun _ t h => h.cast _ ?_ ?_ ?_
    · simp [hp, Counts.after, Instruction.pops, Instruction.pushes, Nat.add_assoc]
    · simp [hp, Counts.after, Instruction.pops, Instruction.pushes, Callee.arity,
        Callee.signature, Intrinsic.signature, Intrinsic.arity, Nat.add_assoc]
    · simp [itemsCode, Counts.after, Instruction.pops, Instruction.pushes, Callee.arity,
        Callee.signature, Intrinsic.signature, Intrinsic.arity]
    · rw [waiting_itemsCode]
      simp [Counts.after, Instruction.pops, Instruction.pushes, Callee.arity, Callee.signature,
        Intrinsic.signature, Intrinsic.arity]
    · simp [Expr.listArrayCount, Counts.after, Instruction.pops, Instruction.pushes,
        Callee.arity, Callee.signature, Intrinsic.signature, Intrinsic.arity, Nat.add_assoc]

end

end Expressions

/-! ## Statements -/

section Statements

variable {cx : Context} {declared : List Signature}

/-- The counts where a statement begins: it has no operands below. -/
abbrev level (cleanups arrays : Nat) : Counts := ⟨0, cleanups, arrays⟩

theorem waiting_catchesCode (pos c a : Nat) (x target : String) (body : Stmt)
    (rest : List Catch) :
    waiting .handler pos (catchesCode cx pos c a (.on x target body :: rest)) =
      waiting .handler (pos + 10) (stmtCode cx (pos + 10) c a body) ++
        waiting .handler (pos + (stmtCode cx (pos + 10) c a body).length + 11)
          (catchesCode cx (pos + (stmtCode cx (pos + 10) c a body).length + 11)
            (c + body.cleanupCount) (a + body.arrayCount) rest) := by
  simp only [catchesCode, waiting_append, waiting_code, waiting_handler_exit, List.nil_append,
    List.append_nil, List.length_append, length_code, List.length_cons, List.length_nil,
    Nat.zero_add, Nat.reduceAdd]
  have behind : pos + (10 + (stmtCode cx (pos + 10) c a body).length + 1) =
      pos + (stmtCode cx (pos + 10) c a body).length + 11 := by omega
  rw [behind]

theorem waiting_exit_catchesCode (pos c a : Nat) (x target : String) (body : Stmt)
    (rest : List Catch) :
    waiting .exit pos (catchesCode cx pos c a (.on x target body :: rest)) =
      (pos + (stmtCode cx (pos + 10) c a body).length + 10) ::
        waiting .exit (pos + (stmtCode cx (pos + 10) c a body).length + 11)
          (catchesCode cx (pos + (stmtCode cx (pos + 10) c a body).length + 11)
            (c + body.cleanupCount) (a + body.arrayCount) rest) := by
  have none : waiting .exit (pos + 10) (stmtCode cx (pos + 10) c a body) = [] :=
    waiting_eq_nil stmtCode_inside (by decide)
  simp only [catchesCode, waiting_append, waiting_code, waiting_exit, List.nil_append,
    List.length_append, length_code, List.length_cons, List.length_nil,
    Nat.zero_add, Nat.reduceAdd, none, List.singleton_append]
  have there : pos + (10 + (stmtCode cx (pos + 10) c a body).length) =
      pos + (stmtCode cx (pos + 10) c a body).length + 10 := by omega
  have behind : pos + (10 + (stmtCode cx (pos + 10) c a body).length + 1) =
      pos + (stmtCode cx (pos + 10) c a body).length + 11 := by omega
  rw [there, behind]

/-- How a statement is compiled that catches or cleans up. -/
theorem compileStmt_attempt {body : Stmt} {catches : List Catch} {cleanup : Option Stmt}
    (h : ¬ (catches = [] ∧ cleanup = none)) :
    compileStmt cx (.attempt body catches cleanup) = (do
      let scope ← openScope .attempt true
      compileStmt cx body
      exitEdge scope "try"
      let closed ← closeScope scope
      resolveAll closed.throws (← here)
      let (exits, throws) ← compileCatches cx cleanup.isSome catches
      compileCleanup cx (closed.exits ++ exits) throws cleanup) := by
  match catches, cleanup with
  | [], none => exact absurd ⟨rfl, rfl⟩ h
  | [], some s => rw [compileStmt]; simp
  | k :: ks, cleanup => rw [compileStmt]; simp

mutual

theorem compileStmt_triple : ∀ {st : Stmt}, StmtOk cx declared st →
    ∀ {s : State} {ms : List Mark} {o : List Scope} {c a : Nat} (pos : Nat),
    pos = s.draft.next + ms.length → Catching o →
    Triple (Wrote s ms o (level c a)) (compileStmt cx st) fun _ =>
      Appended s ms o pos (stmtCode cx pos c a st)
        (level (c + st.cleanupCount) (a + st.arrayCount))
  | .skip, _, s, ms, o, c, a, pos, hp, hc => by
    rw [compileStmt]
    exact .pure fun t h => h.cast _ (by simp [stmtCode]) (by simp [stmtCode]) rfl
  | .assign x e, he, s, ms, o, c, a, pos, hp, hc => by
    rw [compileStmt]
    refine ((compileExpr_triple (e := e) he pos hp hc).bind fun _ => emit_triple _).imp
      fun _ t h => h.cast _ ?_ ?_ rfl
    · simp [stmtCode]
    · simp [stmtCode, waiting_append, waiting]
  | .branch e yes no, he, s, ms, o, c, a, pos, hp, hc => by
    rw [compileStmt]
    let condition := exprCode cx pos 0 a e
    let first := stmtCode cx (pos + condition.length + 1) c (a + e.arrayCount) yes
    let other := pos + condition.length + first.length + 2
    let second := stmtCode cx other (c + yes.cleanupCount) (a + e.arrayCount + yes.arrayCount) no
    refine (compileExpr_triple he.1 pos hp hc).bind fun _ =>
      (reserveIfZero_triple _).bind fun toNo => ?_
    rintro t ⟨rfl, h⟩
    refine ((compileStmt_triple he.2.1 (pos + condition.length + 1)
      (by simp [hp, condition, Nat.add_assoc]) (hc.raiseTo _)).bind fun _ =>
        (reserve_triple .inside _).bind fun pastNo => ?_) t h
    rintro t ⟨rfl, h⟩
    have h' := h.cast ((ms ++ condition) ++ .jump .inside .ifZero ("if " ++ e.text) ::
      (first ++ [.jump .inside .always ("if " ++ e.text)])) (by simp [condition, first]) rfl rfl
    refine ((resolveHere_triple (by simp [condition])).bind fun _ => ?_) t h'
    intro t h
    have h' := h.cast (ms ++ condition ++ [.done (.jumpIfZero other)] ++ first ++
      [.jump .inside .always ("if " ++ e.text)])
      (by simp [condition, first, other, hp, JumpKind.instruction]; omega) rfl rfl
    refine ((compileStmt_triple he.2.2 other ?_ ((hc.raiseTo _).raiseTo _)).bind
      fun _ => ?_) t h'
    · simp [hp, condition, first, other]
      omega
    · intro t h
      have h' := h.cast ((ms ++ condition ++ [.done (.jumpIfZero other)] ++ first) ++
        .jump .inside .always ("if " ++ e.text) :: second) (by simp [second]) rfl rfl
      refine ((resolveHere_triple ?_).imp fun _ t h => h.cast _ ?_ ?_ ?_) t h'
      · simp [condition, first]
      · simp [stmtCode, condition, first, second, other, hp, JumpKind.instruction]
        omega
      · simp only [raiseTo_raiseTo]
        congr 1
        simp [stmtCode, waiting_append, waiting, condition, first, other, Nat.add_assoc]
        congr 1
        omega
      · simp [Stmt.cleanupCount, Stmt.arrayCount, Nat.add_assoc]
  | .loop e body, he, s, ms, o, c, a, pos, hp, hc => by
    rw [compileStmt]
    let condition := exprCode cx pos 0 a e
    let inner := stmtCode cx (pos + condition.length + 1) c (a + e.arrayCount) body
    refine here_triple.bind fun start => ?_
    rintro t ⟨rfl, h⟩
    refine ((compileExpr_triple he.1 pos hp hc).bind fun _ =>
      (reserveIfZero_triple _).bind fun exit => ?_) t h
    rintro t ⟨rfl, h⟩
    refine ((compileStmt_triple he.2 (pos + condition.length + 1)
      (by simp [hp, condition, Nat.add_assoc]) (hc.raiseTo _)).bind fun _ =>
        (emit_triple _).bind fun _ => ?_) t h
    intro t h
    have h' := h.cast ((ms ++ condition) ++ .jump .inside .ifZero ("while " ++ e.text) ::
      (inner ++ code [.jump pos])) (by simp [condition, inner, hp]) rfl rfl
    refine ((resolveHere_triple (by simp [condition])).imp fun _ t h => h.cast _ ?_ ?_ ?_) t h'
    · simp [stmtCode, condition, inner, hp, JumpKind.instruction]
      omega
    · simp only [raiseTo_raiseTo]
      congr 1
      simp [stmtCode, waiting_append, waiting, condition, Nat.add_assoc]
    · simp [Stmt.cleanupCount, Stmt.arrayCount, Nat.add_assoc, Counts.after, Instruction.pops,
        Instruction.pushes]
  | .chain st st', he, s, ms, o, c, a, pos, hp, hc => by
    rw [compileStmt]
    refine ((compileStmt_triple he.1 pos hp hc).bind fun _ =>
      compileStmt_triple he.2 (pos + (stmtCode cx pos c a st).length)
        (by simp [hp, Nat.add_assoc]) (hc.raiseTo _)).imp fun _ t h => h.cast _ ?_ ?_ ?_
    · simp [stmtCode]
    · simp [stmtCode, waiting_append]
    · simp [Stmt.cleanupCount, Stmt.arrayCount, Nat.add_assoc]
  | .leave e, he, s, ms, o, c, a, pos, hp, hc => by
    rw [compileStmt]
    refine ((emit_triple _).bind fun _ => (emit_triple _).bind fun _ =>
      (compileExpr_triple (e := e) he (pos + 2) (by simp [hp, Nat.add_assoc]) hc).bind
        fun _ => (emit_triple _).bind fun _ => throwEdge_triple (hc.raiseTo _) _).imp
      fun _ t h => h.cast _ ?_ ?_ rfl
    · simp [stmtCode, Counts.after, Instruction.pops, Instruction.pushes]
    · simp [stmtCode, waiting_append, waiting, Counts.after, Instruction.pops,
        Instruction.pushes, hp, Nat.add_assoc]
      congr 3
      omega
  | .perform e, he, s, ms, o, c, a, pos, hp, hc => by
    rw [compileStmt]
    refine ((compileExpr_triple (e := e.expr) he pos hp hc).bind fun _ => emit_triple _).imp
      fun _ t h => h.cast _ ?_ ?_ rfl
    · simp [stmtCode]
    · simp [stmtCode, waiting_append, waiting]
  | .throwing x e, he, s, ms, o, c, a, pos, hp, hc => by
    rw [compileStmt]
    refine (number_triple he.1).bind fun k => ?_
    rintro t ⟨rfl, h⟩
    revert t
    refine ((emit_triple _).bind fun _ => (emit_triple _).bind fun _ =>
      (compileExpr_triple he.2 (pos + 2) (by simp [hp, Nat.add_assoc]) hc).bind
        fun _ => (emit_triple _).bind fun _ => throwEdge_triple (hc.raiseTo _) _).imp
      fun _ t h => h.cast _ ?_ ?_ rfl
    · simp [stmtCode, Counts.after, Instruction.pops, Instruction.pushes]
    · simp [stmtCode, waiting_append, waiting, Counts.after, Instruction.pops,
        Instruction.pushes, hp, Nat.add_assoc]
      congr 3
      omega
  | .attempt body catches cleanup, he, s, ms, o, c, a, pos, hp, hc => by
    by_cases plain : catches = [] ∧ cleanup = none
    · obtain ⟨rfl, rfl⟩ := plain
      rw [compileStmt, stmtCode]
      exact compileStmt_triple he.1 pos hp hc
    · rw [compileStmt_attempt plain, stmtCode_attempt plain]
      let inner := stmtCode cx pos c a body
      let landing := pos + inner.length + 1
      let settled := inner.map (Mark.settle .handler landing)
      let branches := catchesCode cx landing (c + body.cleanupCount) (a + body.arrayCount) catches
      have same : settled.length = inner.length := by simp [settled]
      refine (openScope_triple .attempt true).bind fun id =>
        (compileStmt_triple he.1 (o := ⟨id, .attempt, true, [], []⟩ :: o) pos hp
          ⟨_, List.mem_cons_self, rfl⟩).bind fun _ => ?_
      refine (exitEdge_triple ⟨id, .attempt, true, waiting .handler pos inner, []⟩ "try").bind
        fun _ => (closeScope_triple _).bind fun closed => ?_
      rintro t ⟨rfl, h⟩
      refine (here_triple.bind fun target => ?_) t h
      rintro t ⟨rfl, h⟩
      have atLanding : s.draft.next + (ms ++ inner ++ [Mark.exit "try"]).length = landing := by
        simp [hp, landing]
        omega
      rw [atLanding]
      refine ((resolveAll_triple (g := .handler) hp landing).bind fun _ =>
        (compileCatches_triple he.2.1 landing cleanup.isSome ?_ hc).bind fun r => ?_) t h
      · simp [hp, landing]
        omega
      · rintro t ⟨rfl, h⟩
        have h' := h.cast ((ms ++ settled) ++ .exit "try" :: branches)
          (by simp [settled, branches]) rfl rfl
        have placed : s.draft.next + (ms ++ settled).length = pos + inner.length := by
          simp [hp, same]
          omega
        have atExit : s.draft.next + (ms ++ stmtCode cx pos c a body).length =
            pos + inner.length := by
          simp [hp, inner]
          omega
        simp only [List.nil_append, List.singleton_append]
        rw [atExit]
        refine ((compileCleanup_triple he.2.2 branches (landing + branches.length) catchesCode_leaving
          placed.symm (by simp [landing]; omega) hc).imp
          fun _ t h => h.cast _ ?_ ?_ ?_) t h'
        · simp [settled, landing, branches, inner]
        · rw [waiting_append, waiting_settle, if_pos rfl, List.nil_append, List.length_map]
        · simp [Stmt.cleanupCount, Stmt.arrayCount, Nat.add_assoc]

theorem compileCatches_triple : ∀ {cs : List Catch}, CatchesOk cx declared cs →
    ∀ {s : State} {ms : List Mark} {o : List Scope} {c a : Nat} (pos : Nat) (catchesInside : Bool),
    pos = s.draft.next + ms.length → Catching o →
    Triple (Wrote s ms o (level c a)) (compileCatches cx catchesInside cs) fun r u =>
      r = (waiting .exit pos (catchesCode cx pos c a cs),
        if catchesInside then waiting .handler pos (catchesCode cx pos c a cs) else []) ∧
      Wrote s (ms ++ catchesCode cx pos c a cs)
        (if catchesInside then o else raiseTo (waiting .handler pos (catchesCode cx pos c a cs)) o)
        (level (c + Catch.cleanupCount cs) (a + Catch.arrayCount cs)) u
  | [], _, s, ms, o, c, a, pos, inside, hp, hc => by
    rw [compileCatches]
    exact .pure fun t h => ⟨by simp [catchesCode],
      h.cast _ (by simp [catchesCode]) (by simp [catchesCode]) rfl⟩
  | .on x target body :: rest, he, s, ms, o, c, a, pos, inside, hp, hc => by
    rw [compileCatches]
    let origin := "catch (" ++ x ++ " " ++ target ++ ")"
    let inner := stmtCode cx (pos + 10) c a body
    let next := pos + inner.length + 11
    let bind : List Instruction := [.load .pendingData, .store (.named target), .push 0,
      .store .pending, .push 0, .store .pendingData]
    refine (number_triple he.1).bind fun k => ?_
    rintro t ⟨rfl, h⟩
    refine ((emitAll_triple _).bind fun _ => (reserveIfZero_triple _).bind fun slot => ?_) t h
    rintro t ⟨rfl, h⟩
    have h' := h.cast _ rfl rfl (show _ = level c a from rfl)
    refine ((emitAll_triple _).bind fun _ => (openScope_triple _ _).bind fun id =>
      (compileStmt_triple (c := c) (a := a) (o := ⟨id, .catching, inside, [], []⟩ :: o) he.2.1 (pos + 10)
        (by simp [hp, Nat.add_assoc]) ?_).bind fun _ => ?_) t h'
    · obtain ⟨u, hu, hcu⟩ := hc
      exact ⟨u, by simp [hu], hcu⟩
    -- what is thrown inside stays with the branch, or goes on to the parts around it
    · let kept := if inside then waiting .handler (pos + 10) inner else []
      let outer := if inside then o else raiseTo (waiting .handler (pos + 10) inner) o
      have ho : raiseTo (waiting .handler (pos + 10) inner)
          (⟨id, .catching, inside, [], []⟩ :: o) = ⟨id, .catching, inside, kept, []⟩ :: outer := by
        cases inside <;> simp [raiseTo, kept, outer]
      have hcouter : Catching outer := by
        cases inside
        · exact hc.raiseTo _
        · exact hc
      intro t h
      have h' := h.cast (ms ++ code [.load .pending, .push (numberOf cx x), .binary .eq] ++
        [.jump .inside .ifZero origin] ++ code bind ++ inner) rfl ho rfl
      refine ((exitEdge_triple ⟨id, .catching, inside, kept, []⟩ origin).bind fun _ =>
        (closeScope_triple _).bind fun closed => ?_) t h'
      rintro t ⟨rfl, h⟩
      have h' := h.cast ((ms ++ code [.load .pending, .push (numberOf cx x),
        .binary .eq]) ++ .jump .inside .ifZero origin :: (code bind ++ inner ++ [.exit origin]))
        (by simp) rfl rfl
      refine ((resolveHere_triple (by simp)).bind fun _ =>
        (compileCatches_triple he.2.2 next inside ?_ hcouter).bind fun r => ?_) t h'
      · simp [hp, next, inner, bind]
        omega
      · rintro t ⟨rfl, h⟩
        refine ⟨_, t, rfl, ?_, h.cast _ ?_ ?_ ?_⟩
        · rw [waiting_exit_catchesCode, waiting_catchesCode]
          have there : s.draft.next + (ms.length + ((stmtCode cx (pos + 10) c a body).length + 10)) =
            pos + (stmtCode cx (pos + 10) c a body).length + 10 := by omega
          cases inside <;> simp [kept, inner, next, bind, there]
        · simp [catchesCode, origin, inner, bind, JumpKind.instruction, next]
          omega
        · rw [waiting_catchesCode]
          cases inside <;> simp [outer, inner, next]
        · simp [Catch.cleanupCount, Catch.arrayCount, Nat.add_assoc]

theorem compileCleanup_triple : ∀ {cleanup : Option Stmt}, CleanupOk cx declared cleanup →
    ∀ {s : State} {ms : List Mark} {o : List Scope} {c a pos : Nat} {origin : String}
    (branches : List Mark) (last : Nat), (∀ m ∈ branches, m.Leaving) → pos = s.draft.next + ms.length →
    last = pos + branches.length + 1 → Catching o →
    Triple
      (Wrote s (ms ++ .exit origin :: branches)
        (if cleanup.isSome then o else raiseTo (waiting .handler (pos + 1) branches) o)
        (level c a))
      (compileCleanup cx (pos :: waiting .exit (pos + 1) branches)
        (if cleanup.isSome then waiting .handler (pos + 1) branches else []) cleanup)
      fun _ => Appended s ms o pos (cleanupCode cx last c a branches cleanup)
        (level (c + Stmt.cleanupCleanupCount cleanup) (a + Stmt.cleanupArrayCount cleanup))
  | none, _, s, ms, o, c, a, pos, origin, branches, last, hb, hp, hl, hc => by
    rw [compileCleanup]
    refine (throwEdge_triple (by exact hc.raiseTo _) _).bind fun _ => here_triple.bind fun target => ?_
    rintro t ⟨rfl, h⟩
    have h' := h.cast (ms ++ (.exit origin :: branches) ++ [.raise "unmatched exception"])
      (by simp) rfl rfl
    have same : pos :: waiting .exit (pos + 1) branches =
        waiting .exit pos (.exit origin :: branches) := by simp [waiting, Mark.exit]
    rw [same]
    have behind : s.draft.next + (ms ++ Mark.exit origin :: branches ++
        [Mark.raise "unmatched exception"]).length = last + 1 := by
      simp [hp, hl]
      omega
    rw [behind]
    refine ((resolveAll_triple hp _).imp fun _ t h => h.cast _ ?_ ?_ rfl) t h'
    · simp [cleanupCode]
    · have there : s.draft.next + (ms.length + (branches.length + 1)) =
          pos + (branches.length + 1) := by omega
      have here : pos + (branches.length + 1) = pos + 1 + branches.length := by omega
      simp [cleanupCode, waiting, waiting_append, waiting_settle, there, here, Mark.raise]
  | some st, he, s, ms, o, c, a, pos, origin, branches, last, hb, hp, hl, hc => by
    rw [compileCleanup]
    let inner := stmtCode cx (last + 6) (c + 1) a st
    let settled := (branches.map (Mark.settle .exit last)).map (Mark.settle .handler last)
    refine here_triple.bind fun start => ?_
    rintro t ⟨rfl, h⟩
    have there : s.draft.next + (ms ++ Mark.exit origin :: branches).length = last := by
      simp [hp, hl]
      omega
    rw [there]
    have same : pos :: waiting .exit (pos + 1) branches =
        waiting .exit pos (.exit origin :: branches) := by simp [waiting, Mark.exit]
    have kept : waiting .handler (pos + 1) branches =
        waiting .handler pos ((Mark.exit origin :: branches).map (.settle .exit last)) := by
      rw [waiting_settle]
      simp [waiting, Mark.exit]
    have h' := h.cast (ms ++ (.exit origin :: branches) ++ []) (by simp) rfl rfl
    simp only [Option.isSome_some, if_true]
    rw [same, kept]
    refine ((resolveAll_triple hp _).bind fun _ => (resolveAll_triple hp _).bind fun _ =>
      get_triple.bind fun u => ?_) t h'
    rintro t ⟨rfl, h⟩
    have hn : u.cleanups = c := h.cleanups
    rw [hn]
    refine ((modify_triple (m := level (c + 1) a) ?_).bind fun _ => (emitAll_triple _).bind
      fun _ => ?_) u h
    · intro t h
      exact ⟨h.slots, h.opened, h.depth, by simp [h.cleanups], h.arrays⟩
    · intro t h
      have h' := h.cast (ms ++ (code [.jump last] ++ settled ++ enterCleanup c))
        (by simp [settled, enterCleanup]) rfl (show _ = level (c + 1) a from rfl)
      refine ((openScope_triple .cleanup false).bind fun id =>
        (compileStmt_triple he (o := ⟨id, .cleanup, false, [], []⟩ :: o) (last + 6)
          ?_ ?_).bind fun _ => ?_) t h'
      · simp [hp, hl, settled]
        omega
      · obtain ⟨u, hu, hcu⟩ := hc
        exact ⟨u, by simp [hu], hcu⟩
      · intro t h
        have around : raiseTo (waiting .handler (last + 6) inner)
            (⟨id, .cleanup, false, [], []⟩ :: o) =
            ⟨id, .cleanup, false, [], []⟩ :: raiseTo (waiting .handler (last + 6) inner) o := by
          simp [raiseTo]
        have h' := h.cast _ rfl around rfl
        refine ((closeScope_triple _).bind fun closed => ?_) t h'
        rintro t ⟨rfl, h⟩
        refine ((emit_triple _).bind fun _ => (reserveIfZero_triple _).bind fun slot => ?_) t h
        rintro t ⟨rfl, h⟩
        refine ((emitAll_triple _).bind fun _ =>
          (throwEdge_triple (hc.raiseTo _) "rethrow after finally").bind fun _ => ?_) t h
        intro t h
        have h' := h.cast ((ms ++ (code [.jump last] ++ settled ++ enterCleanup c) ++ inner ++
          code [.load (.saved c)]) ++ .jump .inside .ifZero "finally" ::
          (code [.load (.saved c), .store .pending, .load (.savedData c), .store .pendingData,
            .push 0, .store (.savedData c)] ++ [.raise "rethrow after finally"]))
          (by simp [inner]) rfl
          (show _ = level (c + 1 + st.cleanupCount) (a + st.arrayCount) from rfl)
        refine ((resolveHere_triple ?_).imp fun _ t h => h.cast _ ?_ ?_ ?_) t h'
        · simp [inner]
        · simp [cleanupCode, leaveCleanup, JumpKind.instruction, inner, settled]
          omega
        · have inCleanup : pos + (1 + branches.length + 6) = last + 6 := by omega
          have behind : pos + (1 + branches.length + 6 + inner.length) =
              last + inner.length + 6 := by omega
          have rethrow : s.draft.next + (ms.length + (1 + settled.length + 6) + inner.length + 1 +
              1 + 6) = last + inner.length + 6 + 8 := by
            simp [hp, hl, settled]
            omega
          simp only [cleanupCode, waiting_append, waiting_code, waiting_settle, enterCleanup,
            if_true, List.nil_append, length_code, List.length_append, List.length_map,
            List.length_cons, List.length_nil, Nat.zero_add, Nat.reduceAdd, raiseTo_raiseTo]
          rw [inCleanup, behind, waiting_leaveCleanup, rethrow]
        · simp [Stmt.cleanupCleanupCount, Stmt.cleanupArrayCount, Nat.add_assoc]

end

end Statements

/-! ## Functions and programs -/

theorem finishFrom_filled (index : Nat) (is : List Instruction) :
    Draft.finishFrom index (is.map .filled) = .ok is := by
  induction is generalizing index with
  | nil => rfl
  | cons i is ih =>
    rw [List.map_cons, Draft.finishFrom, ih]
    rfl

theorem slot_settle_handler {m : Mark} (h : m.Inside) (target : Nat) :
    (m.settle .handler target).slot = .filled (m.instruction fun _ => target) := by
  cases m with
  | done i => rfl
  | jump g kind origin =>
    obtain ⟨rfl, rfl⟩ := h
    rfl

theorem compileBody_triple {cx : Context} {declared : List Signature} {f : Function}
    (hf : StmtOk cx declared f.body) :
    Triple (· = State.start) (compileBody cx f) fun _ t =>
      t.draft.slots.toList = (bodyCode cx f.body).map .filled ∧ t.scopes.opened = [] := by
  rintro s rfl
  let inner := stmtCode cx 0 0 0 f.body
  have begun : Wrote State.start [] [] (level 0 0) State.start := ⟨rfl, rfl, rfl, rfl, rfl⟩
  unfold compileBody
  refine ((openScope_triple .body true).bind fun id =>
    (compileStmt_triple hf 0 rfl ⟨_, List.mem_cons_self, rfl⟩).bind fun _ =>
      (emit_triple .returnZero).bind fun _ =>
        (closeScope_triple ⟨id, .body, true, waiting .handler 0 inner, []⟩).bind fun closed => ?_)
    _ begun
  rintro t ⟨rfl, h⟩
  refine (here_triple.bind fun target => ?_) t h
  rintro t ⟨rfl, h⟩
  have behind : State.start.draft.next +
      ([] ++ stmtCode cx 0 0 0 f.body ++ code [.returnZero]).length = inner.length + 1 := by
    simp [inner, State.start, Draft.next, Draft.empty]
  rw [behind]
  have h' := h.cast ([] ++ inner ++ [.done .returnZero]) (by simp [inner]) rfl rfl
  refine ((resolveAll_triple (g := .handler) rfl _).bind fun _ => (emitAll_triple _).bind fun _ =>
    (reserveIfZero_triple _).bind fun uncaught => ?_) t h'
  rintro t ⟨rfl, h⟩
  let settled := inner.map (Mark.settle .handler (inner.length + 1))
  refine ((emitAll_triple _).bind fun _ => ?_) t h
  intro t h
  have h' := h.cast ((settled ++ code [.returnZero, .load .pending,
    .push Exceptions.returning, .binary .eq]) ++
      .jump .inside .ifZero ("exit of " ++ f.signature.text) ::
      code [.load .pendingData, .returnValue]) (by simp [settled]) rfl rfl
  refine ((resolveHere_triple (by simp [settled])).bind fun _ => emitAll_triple _).imp ?_ t h'
  intro _ t h
  have filled : settled.map Mark.slot =
      (inner.map (Mark.instruction fun _ => inner.length + 1)).map .filled := by
    simp only [settled, List.map_map]
    exact List.map_congr_left fun m hm => slot_settle_handler (stmtCode_inside m hm) _
  refine ⟨?_, h.opened⟩
  rw [h.slots]
  simp only [List.map_append, List.map_cons, filled, bodyCode]
  simp [State.start, Draft.empty, Draft.next, settled, inner, landingCode, code, Mark.slot,
    JumpKind.instruction]

/-- The routine that the layout describes. -/
def routineOf (cx : Context) (f : Function) : Routine :=
  ⟨f.signature, f.parameters, (bodyCode cx f.body).toArray, decide (f.signature ∈ cx.throwing)⟩

/-- A function is compiled to the routine that the layout describes. -/
theorem compileFunction_eq {cx : Context} {declared : List Signature} {f : Function}
    (hf : StmtOk cx declared f.body) : compileFunction cx f = .ok (routineOf cx f) := by
  obtain ⟨⟨⟩, t, ht, hslots, hopened⟩ := compileBody_triple hf _ rfl
  have finished : t.draft.finish = .ok (bodyCode cx f.body).toArray := by
    rw [Draft.finish, hslots, finishFrom_filled]
    rfl
  simp only [compileFunction, ht, Scopes.isEmpty, hopened, List.isEmpty_nil, if_true, finished]
  rfl

end Bytecode.Compilation

namespace Program

/-- What is known of a program while its functions are compiled. -/
def compilation (p : Program) : Bytecode.Compilation.Context :=
  ⟨p.exceptions, p.literals, p.throwing⟩

/-- The bytecode that the layout describes. -/
def bytecode (p : Program) : Bytecode :=
  ⟨p.functions.map (Bytecode.Compilation.routineOf p.compilation), p.entry, p.literals,
    p.exceptions⟩

theorem mem_literals {p : Program} {f : Function} (hf : f ∈ p.functions) {s : String}
    (hs : s ∈ f.body.literals) : s ∈ p.literals :=
  Numbering.mem_addAll.mpr (.inr (List.mem_flatMap.mpr ⟨f, hf, hs⟩))

theorem mem_exceptions {p : Program} {f : Function} (hf : f ∈ p.functions) {x : String}
    (hx : x ∈ f.body.exceptions) : x ∈ p.exceptions :=
  Numbering.mem_addAll.mpr (.inr (List.mem_cons_of_mem _ (List.mem_flatMap.mpr ⟨f, hf, hx⟩)))

theorem Linked.stmtOk {p : Program} (h : p.Linked) {f : Function} (hf : f ∈ p.functions) :
    Bytecode.Compilation.StmtOk p.compilation p.signatures f.body :=
  Bytecode.Compilation.stmtOk (h.bound f hf) (fun _ => mem_literals hf) fun _ => mem_exceptions hf

/-- Compiling a linked program succeeds. -/
theorem Linked.compile_eq {p : Program} (h : p.Linked) : p.compile = .ok p.bytecode := by
  have all : ∀ fs : List Function, (∀ f ∈ fs, f ∈ p.functions) →
      fs.mapM (Bytecode.Compilation.compileFunction p.compilation) =
        .ok (fs.map (Bytecode.Compilation.routineOf p.compilation)) := by
    intro fs hfs
    induction fs with
    | nil => rfl
    | cons f fs ih =>
      rw [List.mapM_cons, Bytecode.Compilation.compileFunction_eq (h.stmtOk (hfs f (by simp))),
        ih fun g hg => hfs g (by simp [hg])]
      rfl
  have routines := all p.functions fun _ hf => hf
  rw [compile]
  unfold compilation at routines
  rw [routines]
  rfl

end Program

end Threefold
