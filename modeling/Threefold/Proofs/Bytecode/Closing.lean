import Threefold.Proofs.Bytecode.Reached
import Threefold.Proofs.Bytecode.Writing

/-!
# Every jump gets its target

Whatever program has its calls bound, compiling it succeeds (`compile_of_bind`), even if a call in
it has another number of arguments than its callee takes. The code of its routines is closed: its
jumps go to its own instructions, its literals are in the pool, and it ends with a return, so that
control never runs past its end.

The proof follows the slots of the draft. A reserved jump is either held by the part of the compiler
that is going to give it its target, or listed in an open part of the function as one that an
exception takes. `Tidy` says that the slots of these two kinds are the reserved ones, each of them
once. Every operation of the compiler has its rule for it; whoever gives a jump its target lets go
of its slot, so no slot is left at the end and none is given a target twice.
-/

namespace Threefold

namespace Bytecode

/-- Code that control cannot leave but by a return: its jumps go to its own instructions, its
literals are in a pool of a given size, and its last instruction returns. -/
structure Routine.Closed (r : Routine) (pool : Nat) : Prop where
  jumps : ∀ i ∈ r.code, ∀ t, i.target? = some t → t < r.code.size
  literals : ∀ k, .pushLiteral k ∈ r.code → k < pool
  last : r.code.back? = some .returnZero

namespace Compilation

/-! ## Slots -/

/-- A slot that holds a jump without a target. -/
def Waits (d : Draft) (i : Nat) : Prop :=
  ∃ kind origin, d.slots[i]? = some (.reserved kind origin)

/-- The jumps of a draft that have no target stand in given slots, which are listed once each. -/
structure Open (d : Draft) (slots : List Nat) : Prop where
  nodup : slots.Nodup
  mem_iff : ∀ i, i ∈ slots ↔ Waits d i

section Open

variable {d : Draft} {slots : List Nat}

theorem Waits.lt {i : Nat} (h : Waits d i) : i < d.next := by
  obtain ⟨kind, origin, h⟩ := h
  exact (Array.getElem?_eq_some_iff.mp h).1

theorem Open.perm (h : Open d slots) {slots' : List Nat} (hp : slots.Perm slots') :
    Open d slots' :=
  ⟨hp.nodup_iff.mp h.nodup, fun i => hp.mem_iff.symm.trans (h.mem_iff i)⟩

theorem Open.emit (h : Open d slots) (i : Instruction) : Open (d.emit i) slots := by
  refine ⟨h.nodup, fun j => (h.mem_iff j).trans ?_⟩
  by_cases hj : j = d.slots.size
  · simp [Waits, Draft.emit, hj]
  · simp [Waits, Draft.emit, Array.getElem?_push, hj]

theorem Open.reserve (h : Open d slots) (kind : Draft.JumpKind) (origin : String) :
    Open (d.reserve kind origin) (d.next :: slots) := by
  refine ⟨List.nodup_cons.mpr ⟨fun hm => ?_, h.nodup⟩, fun j => ?_⟩
  · exact Nat.lt_irrefl _ ((h.mem_iff _).mp hm).lt
  · rw [List.mem_cons, h.mem_iff]
    by_cases hj : j = d.next
    · simp [Waits, Draft.reserve, hj, Draft.next]
    · have hj' : ¬ j = d.slots.size := hj
      simp [Waits, Draft.reserve, Array.getElem?_push, hj, hj']

/-- A jump that has no target yet can be given one, and waits no more. -/
theorem Open.resolve {slot : Nat} (h : Open d (slot :: slots)) (target : Nat) :
    ∃ kind : Draft.JumpKind,
      Draft.resolve slot target d =
        .ok () ⟨d.slots.setIfInBounds slot (.filled (kind.instruction target))⟩ ∧
      Open ⟨d.slots.setIfInBounds slot (.filled (kind.instruction target))⟩ slots := by
  obtain ⟨kind, origin, there⟩ := (h.mem_iff slot).mp List.mem_cons_self
  obtain ⟨fresh, nodup⟩ := List.nodup_cons.mp h.nodup
  refine ⟨kind, by simp only [Draft.resolve, there], nodup, fun j => ?_⟩
  have others := h.mem_iff j
  rw [List.mem_cons] at others
  by_cases hj : slot = j
  · subst hj
    simp only [fresh, false_iff]
    rintro ⟨kind', origin', h'⟩
    simp [(Array.getElem?_eq_some_iff.mp there).1] at h'
  · have hj' : ¬ j = slot := fun e => hj e.symm
    simpa [Waits, Array.getElem?_setIfInBounds, hj, hj'] using others

end Open

theorem exists_of_filled {ss : List Draft.Slot} (h : ∀ s ∈ ss, ∃ i, s = .filled i) :
    ∃ is : List Instruction, ss = is.map .filled := by
  induction ss with
  | nil => exact ⟨[], rfl⟩
  | cons s ss ih =>
    obtain ⟨i, rfl⟩ := h s List.mem_cons_self
    obtain ⟨is, rfl⟩ := ih fun t ht => h t (List.mem_cons_of_mem _ ht)
    exact ⟨i :: is, rfl⟩

/-- A draft in which no jump waits holds instructions only. -/
theorem exists_of_open {d : Draft} (h : Open d []) :
    ∃ is : List Instruction, d.slots.toList = is.map .filled := by
  refine exists_of_filled fun s hs => ?_
  obtain ⟨k, hk, rfl⟩ := List.getElem_of_mem hs
  cases hd : d.slots.toList[k] with
  | filled i => exact ⟨i, rfl⟩
  | reserved kind origin =>
    have waits : Waits d k :=
      ⟨kind, origin, by rw [← Array.getElem?_toList, List.getElem?_eq_getElem hk, hd]⟩
    exact absurd ((h.mem_iff k).mpr waits) List.not_mem_nil

theorem finish_of_filled {d : Draft} {is : List Instruction}
    (h : d.slots.toList = is.map .filled) : d.finish = .ok is.toArray := by
  rw [Draft.finish, h, finishFrom_filled]
  rfl

/-! ## Open parts -/

/-- What is fixed of an open part of a function while it is open: all but the jumps that exceptions
take. -/
structure Outline where
  id : Nat
  catches : Bool
  exits : List Nat

/-- The outline of an open part. -/
def outline (c : Scope) : Outline :=
  ⟨c.id, c.catches, c.exits⟩

/-- The jumps out of open parts that exceptions take. -/
def thrown (ss : List Scope) : List Nat :=
  ss.flatMap Scope.throws

/-- An exception goes to some open part. -/
theorem change?_throws {ss : List Scope} (h : ∃ c ∈ ss.map outline, c.catches = true) (slot : Nat) :
    ∃ ss', Scopes.change? (·.catches) (fun c => { c with throws := c.throws ++ [slot] }) ss =
        some ss' ∧
      (thrown ss').Perm (slot :: thrown ss) ∧ ss'.map outline = ss.map outline ∧
      ((∀ c ∈ ss, c.catches = false → c.throws = []) →
        ∀ c ∈ ss', c.catches = false → c.throws = []) := by
  induction ss with
  | nil =>
    obtain ⟨c, hc, -⟩ := h
    cases hc
  | cons s ss ih =>
    by_cases hs : s.catches = true
    · refine ⟨{ s with throws := s.throws ++ [slot] } :: ss, ?_, ?_, rfl, ?_⟩
      · simp [Scopes.change?, hs]
      · simp only [thrown, List.flatMap_cons, List.append_assoc]
        exact List.perm_middle
      · intro quiet c hc
        rcases List.mem_cons.mp hc with rfl | hc
        · intro no
          simp [hs] at no
        · exact quiet c (List.mem_cons_of_mem s hc)
    · have later : ∃ c ∈ ss.map outline, c.catches = true := by
        obtain ⟨c, hc, catches⟩ := h
        rcases List.mem_cons.mp hc with rfl | hc
        · exact absurd catches hs
        · exact ⟨c, hc, catches⟩
      obtain ⟨ss', changed, perm, same, quiet⟩ := ih later
      refine ⟨s :: ss', by simp [Scopes.change?, hs, changed], ?_, by simp [same], ?_⟩
      · simp only [thrown, List.flatMap_cons]
        exact (perm.append_left _).trans List.perm_middle
      · intro before c hc
        rcases List.mem_cons.mp hc with rfl | hc
        · exact before c List.mem_cons_self
        · exact quiet (fun c hc => before c (List.mem_cons_of_mem s hc)) c hc

/-! ## The invariant and its rules -/

/-- An instruction whose jump, if it is one, goes no further than an index, and whose literal is in
the pool. -/
def Sound (cx : Context) (limit : Nat) : Instruction → Prop
  | .jump t | .jumpIfZero t => t ≤ limit
  | .pushLiteral k => k < cx.literals.length
  | _ => True

theorem Sound.mono {cx : Context} {m n : Nat} {i : Instruction} (h : Sound cx m i) (hmn : m ≤ n) :
    Sound cx n i := by
  cases i with
  | jump t => exact Nat.le_trans h hmn
  | jumpIfZero t => exact Nat.le_trans h hmn
  | _ => exact h

/-- The jumps that wait are those held by the compiler and those listed in an open part, the open
parts have given outlines, and at least so much code is written. -/
structure Tidy (cx : Context) (held : List Nat) (outlines : List Outline) (low : Nat) (s : State) :
    Prop where
  waiting : Open s.draft (held ++ thrown s.scopes.opened)
  outlined : s.scopes.opened.map outline = outlines
  quiet : ∀ c ∈ s.scopes.opened, c.catches = false → c.throws = []
  written : low ≤ s.draft.next
  sound : ∀ i, .filled i ∈ s.draft.slots → Sound cx s.draft.next i

/-- An exception has somewhere to go. -/
def Expected (outlines : List Outline) : Prop :=
  ∃ c ∈ outlines, c.catches = true

section Rules

variable {cx : Context} {held : List Nat} {os : List Outline} {low : Nat}

theorem Tidy.lower {s : State} (h : Tidy cx held os low s) {low' : Nat} (hl : low' ≤ low) :
    Tidy cx held os low' s :=
  ⟨h.waiting, h.outlined, h.quiet, Nat.le_trans hl h.written, h.sound⟩

/-- What is written behind an index is written behind an earlier one. -/
theorem Triple.lower {α : Type} {P : State → Prop} {m : Step α} {n : Nat}
    (h : Triple P m fun _ => Tidy cx held os n) (hl : low ≤ n) :
    Triple P m fun _ => Tidy cx held os low :=
  h.imp fun _ _ tidy => tidy.lower hl

theorem Tidy.perm {s : State} (h : Tidy cx held os low s) {held' : List Nat}
    (hp : held.Perm held') : Tidy cx held' os low s :=
  ⟨h.waiting.perm (hp.append_right _), h.outlined, h.quiet, h.written, h.sound⟩

theorem here_tidy : Triple (Tidy cx held os low) here
    fun a s => low ≤ a ∧ Tidy cx held os a s :=
  fun s h => ⟨s.draft.next, s, rfl, h.written, h.waiting, h.outlined, h.quiet, Nat.le_refl _, h.sound⟩

theorem emit_tidy {i : Instruction} (hi : Sound cx low i) :
    Triple (Tidy cx held os low) (emit i) fun _ => Tidy cx held os low := by
  intro s h
  refine ⟨(), _, rfl, h.waiting.emit i, h.outlined, h.quiet, ?_, ?_⟩
  · have := h.written
    simp only [Draft.next_emit]
    omega
  · intro j hj
    simp only [Draft.next_emit]
    rcases Array.mem_push.mp hj with old | new
    · exact (h.sound j old).mono (Nat.le_succ _)
    · cases new
      exact hi.mono (Nat.le_succ_of_le h.written)

theorem emitAll_tidy {is : List Instruction} (his : ∀ i ∈ is, Sound cx low i) :
    Triple (Tidy cx held os low) (emitAll is) fun _ => Tidy cx held os low := by
  induction is with
  | nil => exact .pure fun _ h => h
  | cons i is ih =>
    exact (emit_tidy (his i List.mem_cons_self)).bind fun _ =>
      ih fun j hj => his j (List.mem_cons_of_mem i hj)

/-- A jump without a target is held by whoever writes it. -/
theorem Tidy.reserved {s : State} (h : Tidy cx held os low s) (kind : Draft.JumpKind)
    (origin : String) (depth : Nat) :
    Tidy cx (s.draft.next :: held) os low
      { s with draft := s.draft.reserve kind origin, depth := depth } := by
  refine ⟨h.waiting.reserve kind origin, h.outlined, h.quiet, ?_, ?_⟩
  · have := h.written
    simp only [Draft.next_reserve]
    omega
  · intro j hj
    simp only [Draft.next_reserve]
    rcases Array.mem_push.mp hj with old | new
    · exact (h.sound j old).mono (Nat.le_succ _)
    · cases new

theorem reserve_tidy (origin : String) : Triple (Tidy cx held os low) (reserve origin)
    fun slot => Tidy cx (slot :: held) os low :=
  fun s h => ⟨_, _, rfl, h.reserved .always origin s.depth⟩

theorem reserveIfZero_tidy (origin : String) : Triple (Tidy cx held os low) (reserveIfZero origin)
    fun slot => Tidy cx (slot :: held) os low :=
  fun s h => ⟨_, _, rfl, h.reserved .ifZero origin (s.depth - 1)⟩

theorem resolve_tidy {slot target : Nat} (ht : target ≤ low) :
    Triple (Tidy cx (slot :: held) os low) (onDraft (Draft.resolve slot target))
      fun _ => Tidy cx held os low := by
  intro s h
  obtain ⟨kind, resolved, waiting⟩ := h.waiting.resolve target
  refine ⟨(), { s with draft := ⟨s.draft.slots.setIfInBounds slot
    (.filled (kind.instruction target))⟩ }, ?_, waiting, h.outlined, h.quiet, ?_, ?_⟩
  · simp only [onDraft, resolved]
  · simpa [Draft.next] using h.written
  · intro j hj
    have size : Draft.next ⟨s.draft.slots.setIfInBounds slot (.filled (kind.instruction target))⟩ =
        s.draft.next := by simp [Draft.next]
    rw [size]
    rcases Array.mem_or_eq_of_mem_setIfInBounds hj with old | new
    · exact h.sound j old
    · cases new
      have near : target ≤ s.draft.next := Nat.le_trans ht h.written
      cases kind <;> exact near

/-- Whoever gives a jump its target holds it no longer. -/
theorem resolveHere_tidy {slot : Nat} {before : List Nat} (hp : before.Perm (slot :: held)) :
    Triple (Tidy cx before os low) (resolveHere slot) fun _ => Tidy cx held os low := by
  refine here_tidy.bind fun target => ?_
  rintro s ⟨hl, h⟩
  exact (resolve_tidy (Nat.le_refl target)).lower hl s (h.perm hp)

theorem resolveAll_tidy {slots : List Nat} {target : Nat} (ht : target ≤ low) :
    Triple (Tidy cx (slots ++ held) os low) (resolveAll slots target)
      fun _ => Tidy cx held os low := by
  induction slots with
  | nil => exact fun s h => ⟨(), s, rfl, h⟩
  | cons slot slots ih =>
    intro s h
    obtain ⟨⟨⟩, t, ht, h'⟩ := resolve_tidy ht s h
    obtain ⟨⟨⟩, u, hu, h''⟩ := ih t h'
    refine ⟨(), u, ?_, h''⟩
    simp only [resolveAll, onDraft] at ht hu ⊢
    simp only [Draft.resolveAll, Bind.bind, EStateM.bind]
    revert ht
    cases Draft.resolve slot target s.draft with
    | error e d => intro ht; cases ht
    | ok a d =>
      intro ht
      cases ht
      exact hu

theorem openScope_tidy (kind : ScopeKind) (catches : Bool) :
    Triple (Tidy cx held os low) (openScope kind catches)
      fun id => Tidy cx held (⟨id, catches, []⟩ :: os) low := by
  intro s h
  refine ⟨_, _, rfl, h.waiting, by simp [Scopes.push, outline, h.outlined], ?_, h.written, h.sound⟩
  intro c hc
  rcases List.mem_cons.mp hc with rfl | hc
  · exact fun _ => rfl
  · exact h.quiet c hc

/-- Whoever closes a part holds the jumps that were listed in it. -/
theorem closeScope_tidy {id : Nat} {catches : Bool} {exits : List Nat} :
    Triple (Tidy cx held (⟨id, catches, exits⟩ :: os) low) (closeScope id)
      fun c s => c.exits = exits ∧ (catches = false → c.throws = []) ∧
        Tidy cx (c.throws ++ held) os low s := by
  intro s h
  obtain ⟨c, rest, opened, same, outlined⟩ := List.map_eq_cons_iff.mp h.outlined
  obtain rfl : c.id = id := congrArg Outline.id same
  obtain rfl : c.catches = catches := congrArg Outline.catches same
  obtain rfl : c.exits = exits := congrArg Outline.exits same
  refine ⟨c, { s with scopes := { s.scopes with opened := rest } }, ?_, rfl, ?_, ?_⟩
  · simp [closeScope, onScopes, Scopes.pop, opened]
  · exact h.quiet c (by simp [opened])
  · refine ⟨?_, outlined, fun c hc => h.quiet c (by simp [opened, hc]), h.written, h.sound⟩
    have waiting := h.waiting
    rw [opened, thrown, List.flatMap_cons] at waiting
    refine waiting.perm ?_
    rw [← List.append_assoc]
    exact List.perm_append_comm.append_right _

theorem throwEdge_tidy (ho : Expected os) (origin : String) :
    Triple (Tidy cx held os low) (throwEdge origin) fun _ => Tidy cx held os low := by
  refine (reserve_tidy origin).bind fun slot => ?_
  intro s h
  have somewhere : ∃ c ∈ s.scopes.opened.map outline, c.catches = true := by
    rw [h.outlined]
    exact ho
  obtain ⟨opened, changed, perm, same, quiet⟩ := change?_throws somewhere slot
  refine ⟨(), { s with scopes := { s.scopes with opened } }, ?_, ?_, same.trans h.outlined,
    quiet h.quiet, h.written, h.sound⟩
  · simp [onScopes, Scopes.addThrow, changed]
  · refine h.waiting.perm ?_
    exact List.perm_middle.symm.trans (perm.symm.append_left held)

/-- A jump from the end of a part stays held, and the part knows it. -/
theorem exitEdge_tidy {id : Nat} {catches : Bool} (origin : String) :
    Triple (Tidy cx held (⟨id, catches, []⟩ :: os) low) (exitEdge id origin)
      fun _ s => ∃ slot, Tidy cx (slot :: held) (⟨id, catches, [slot]⟩ :: os) low s := by
  refine (reserve_tidy origin).bind fun slot => ?_
  intro s h
  obtain ⟨c, rest, opened, same, outlined⟩ := List.map_eq_cons_iff.mp h.outlined
  obtain rfl : c.id = id := congrArg Outline.id same
  obtain rfl : c.catches = catches := congrArg Outline.catches same
  have none : c.exits = [] := congrArg Outline.exits same
  refine ⟨(), { s with scopes := { s.scopes with
    opened := { c with exits := c.exits ++ [slot] } :: rest } }, ?_, slot, ?_⟩
  · simp [onScopes, Scopes.addExit, Scopes.change?, opened]
  · have waiting := h.waiting
    have quiet := h.quiet
    rw [opened] at waiting quiet
    refine ⟨waiting, by simp [outline, none, ← outlined], ?_, h.written, h.sound⟩
    intro d hd
    rcases List.mem_cons.mp hd with rfl | hd
    · exact quiet c List.mem_cons_self
    · exact quiet d (List.mem_cons_of_mem _ hd)

theorem get_tidy : Triple (Tidy cx held os low) get fun _ => Tidy cx held os low :=
  fun s h => ⟨s, s, rfl, h⟩

/-- The counts of a compilation play no part. -/
theorem modify_tidy {f : State → State} (hd : ∀ s, (f s).draft = s.draft)
    (hs : ∀ s, (f s).scopes = s.scopes) :
    Triple (Tidy cx held os low) (modify f) fun _ => Tidy cx held os low := by
  intro s h
  refine ⟨(), f s, rfl, ?_, ?_, ?_, ?_, ?_⟩
  · rw [hd, hs]
    exact h.waiting
  · rw [hs]
    exact h.outlined
  · rw [hs]
    exact h.quiet
  · rw [hd]
    exact h.written
  · rw [hd]
    exact h.sound

theorem checkThrown_tidy (ho : Expected os) (origin : String) :
    Triple (Tidy cx held os low) (checkThrown origin) fun _ => Tidy cx held os low := by
  unfold checkThrown
  refine (emit_tidy ?_).bind fun _ => (reserveIfZero_tidy origin).bind fun fine =>
    (emitAll_tidy ?_).bind fun _ => get_tidy.bind fun s => (emitAll_tidy ?_).bind fun _ =>
      (throwEdge_tidy ho origin).bind fun _ =>
        (modify_tidy ?_ ?_).bind fun _ => resolveHere_tidy (.refl _)
  · trivial
  · simp [Sound]
  · intro i hi
    rw [(List.mem_replicate.mp hi).2]
    trivial
  · exact fun _ => rfl
  · exact fun _ => rfl

theorem number_tidy {x : String} (hx : x ∈ cx.exceptions) :
    Triple (Tidy cx held os low) (number cx x) fun _ => Tidy cx held os low :=
  fun s h => ⟨_, s, by simp only [number, number?_of_mem hx]; rfl, h⟩

end Rules

/-! ## Expressions and statements -/

section Compile

variable {cx : Context} {declared : List Signature}

mutual

theorem compileExpr_tidy : ∀ {e : Expr}, e.AllCalls (fun c _ => c.Known declared) →
    (∀ l ∈ e.literals, l ∈ cx.literals) → ∀ {held : List Nat} {os : List Outline} {low : Nat},
    Expected os → Triple (Tidy cx held os low) (compileExpr cx e) fun _ => Tidy cx held os low
  | .const n, _, _, held, os, low, _ => by
    rw [compileExpr]
    exact emit_tidy trivial
  | .var x, _, _, held, os, low, _ => by
    rw [compileExpr]
    exact emit_tidy trivial
  | .string s, _, hl, held, os, low, _ => by
    obtain ⟨i, hi⟩ := Option.isSome_iff_exists.mp (List.isSome_idxOf?.mpr (hl s List.mem_cons_self))
    have pooled : i < cx.literals.length := (List.idxOf?_eq_some_iff.mp hi).1
    simp only [compileExpr, hi]
    exact (emit_tidy (i := .pushLiteral i) pooled).bind fun _ => emit_tidy trivial
  | .array boxed items, hc, hl, held, os, low, ho => by
    rw [compileExpr]
    refine get_tidy.bind fun s => (modify_tidy ?_ ?_).bind fun _ => (emitAll_tidy ?_).bind fun _ =>
      (compileItems_tidy hc hl ho).bind fun _ => emit_tidy ?_
    · exact fun _ => rfl
    · exact fun _ => rfl
    · simp [Sound]
    · trivial
  | .unary op e, hc, hl, held, os, low, ho => by
    rw [compileExpr]
    exact (compileExpr_tidy (e := e) hc hl ho).bind fun _ => emit_tidy trivial
  | .binary op l r, hc, hl, held, os, low, ho => by
    simp only [Expr.literals, List.forall_mem_append] at hl
    rw [compileExpr]
    exact (compileExpr_tidy hc.1 hl.1 ho).bind fun _ =>
      (compileExpr_tidy hc.2 hl.2 ho).bind fun _ => emit_tidy trivial
  | .call callee arguments location, hc, hl, held, os, low, ho => by
    have rest : ∀ target : Bytecode.Callee, Triple (Tidy cx held os low)
        (do compileExprs cx arguments
            emit (.call target)
            if callee.canThrow cx.throwing then
              checkThrown ("call " ++ (Expr.call callee arguments location).text))
        fun _ => Tidy cx held os low := by
      intro target
      refine (compileExprs_tidy hc.2 hl ho).bind fun _ => (emit_tidy ?_).bind fun _ => ?_
      · trivial
      · split
        · exact checkThrown_tidy ho _
        · exact .pure fun _ h => h
    cases callee with
    | unbound name arity => exact hc.1.elim
    | declared g =>
      rw [compileExpr.eq_def]
      exact rest _
    | intrinsic i =>
      rw [compileExpr.eq_def]
      exact rest _

theorem compileExprs_tidy : ∀ {es : List Expr}, Expr.AllCallsIn (fun c _ => c.Known declared) es →
    (∀ l ∈ Expr.listLiterals es, l ∈ cx.literals) →
    ∀ {held : List Nat} {os : List Outline} {low : Nat}, Expected os →
    Triple (Tidy cx held os low) (compileExprs cx es) fun _ => Tidy cx held os low
  | [], _, _, held, os, low, _ => by
    rw [compileExprs]
    exact .pure fun _ h => h
  | e :: rest, hc, hl, held, os, low, ho => by
    simp only [Expr.listLiterals, List.forall_mem_append] at hl
    rw [compileExprs]
    exact (compileExpr_tidy hc.1 hl.1 ho).bind fun _ => compileExprs_tidy hc.2 hl.2 ho

theorem compileItems_tidy : ∀ {es : List Expr}, Expr.AllCallsIn (fun c _ => c.Known declared) es →
    (∀ l ∈ Expr.listLiterals es, l ∈ cx.literals) →
    ∀ {held : List Nat} {os : List Outline} {low : Nat} {array : Variable} {index : Nat},
    Expected os →
    Triple (Tidy cx held os low) (compileItems cx array index es) fun _ => Tidy cx held os low
  | [], _, _, held, os, low, array, index, _ => by
    rw [compileItems]
    exact .pure fun _ h => h
  | e :: rest, hc, hl, held, os, low, array, index, ho => by
    simp only [Expr.listLiterals, List.forall_mem_append] at hl
    rw [compileItems]
    refine (emit_tidy ?_).bind fun _ => (emit_tidy ?_).bind fun _ =>
      (compileExpr_tidy hc.1 hl.1 ho).bind fun _ => (emit_tidy ?_).bind fun _ =>
      (checkThrown_tidy ho _).bind fun _ => (emit_tidy ?_).bind fun _ =>
      compileItems_tidy hc.2 hl.2 ho
    all_goals trivial

end

theorem Expected.cons {os : List Outline} (ho : Expected os) (o : Outline) : Expected (o :: os) := by
  obtain ⟨c, hc, catches⟩ := ho
  exact ⟨c, List.mem_cons_of_mem o hc, catches⟩

/-- The compiler opens a part, fills it, leaves it by a jump and closes it, and then holds all the
jumps that leave it. -/
theorem scope_tidy {α : Type} {kind : ScopeKind} {catches : Bool} {m : Step Unit} {origin : String}
    {k : Scope → Step α} {held : List Nat} {os : List Outline} {low : Nat} {Q : α → State → Prop}
    (hm : ∀ id, Triple (Tidy cx held (⟨id, catches, []⟩ :: os) low) m
      fun _ => Tidy cx held (⟨id, catches, []⟩ :: os) low)
    (hk : ∀ c : Scope, (catches = false → c.throws = []) →
      Triple (Tidy cx (c.throws ++ (c.exits ++ held)) os low) (k c) Q) :
    Triple (Tidy cx held os low)
      (do let scope ← openScope kind catches
          m
          exitEdge scope origin
          let closed ← closeScope scope
          k closed) Q := by
  refine (openScope_tidy kind catches).bind fun id => (hm id).bind fun _ =>
    (exitEdge_tidy origin).bind fun _ => ?_
  rintro s ⟨slot, h⟩
  refine (closeScope_tidy.bind fun c => ?_) s h
  rintro t ⟨exits, quiet, h⟩
  refine hk c quiet t ?_
  rw [exits]
  exact h

mutual

theorem compileStmt_tidy : ∀ {st : Stmt}, st.AllCalls (fun c _ => c.Known declared) →
    (∀ l ∈ st.literals, l ∈ cx.literals) → (∀ x ∈ st.exceptions, x ∈ cx.exceptions) →
    ∀ {held : List Nat} {os : List Outline} {low : Nat}, Expected os →
    Triple (Tidy cx held os low) (compileStmt cx st) fun _ => Tidy cx held os low
  | .skip, _, _, _, held, os, low, _ => by
    rw [compileStmt]
    exact .pure fun _ h => h
  | .assign x e, hc, hl, _, held, os, low, ho => by
    rw [compileStmt]
    exact (compileExpr_tidy (e := e) hc hl ho).bind fun _ => emit_tidy trivial
  | .branch c yes no, hc, hl, hx, held, os, low, ho => by
    simp only [Stmt.literals, Stmt.exceptions, List.forall_mem_append] at hl hx
    rw [compileStmt]
    exact (compileExpr_tidy hc.1 hl.1.1 ho).bind fun _ => (reserveIfZero_tidy _).bind fun toNo =>
      (compileStmt_tidy hc.2.1 hl.1.2 hx.1 ho).bind fun _ => (reserve_tidy _).bind fun pastNo =>
      (resolveHere_tidy (.swap toNo pastNo held)).bind fun _ =>
      (compileStmt_tidy hc.2.2 hl.2 hx.2 ho).bind fun _ => resolveHere_tidy (.refl _)
  | .loop c body, hc, hl, hx, held, os, low, ho => by
    simp only [Stmt.literals, Stmt.exceptions, List.forall_mem_append] at hl hx
    rw [compileStmt]
    refine here_tidy.bind fun start => ?_
    rintro s ⟨before, h⟩
    refine ((compileExpr_tidy hc.1 hl.1 ho).bind fun _ => (reserveIfZero_tidy _).bind fun exit =>
      (compileStmt_tidy hc.2 hl.2 hx ho).bind fun _ => (emit_tidy ?_).bind fun _ =>
      resolveHere_tidy (.refl _)).lower before s h
    exact Nat.le_refl start
  | .chain s t, hc, hl, hx, held, os, low, ho => by
    simp only [Stmt.literals, Stmt.exceptions, List.forall_mem_append] at hl hx
    rw [compileStmt]
    exact (compileStmt_tidy hc.1 hl.1 hx.1 ho).bind fun _ => compileStmt_tidy hc.2 hl.2 hx.2 ho
  | .leave e, hc, hl, _, held, os, low, ho => by
    rw [compileStmt]
    refine (emit_tidy ?_).bind fun _ => (emit_tidy ?_).bind fun _ =>
      (compileExpr_tidy (e := e) hc hl ho).bind fun _ => (emit_tidy ?_).bind fun _ =>
      throwEdge_tidy ho _
    all_goals trivial
  | .perform c, hc, hl, _, held, os, low, ho => by
    rw [compileStmt]
    exact (compileExpr_tidy (e := c.expr) hc hl ho).bind fun _ => emit_tidy trivial
  | .throwing x e, hc, hl, hx, held, os, low, ho => by
    rw [compileStmt]
    refine (number_tidy (hx x List.mem_cons_self)).bind fun n => (emit_tidy ?_).bind fun _ =>
      (emit_tidy ?_).bind fun _ => (compileExpr_tidy (e := e) hc hl ho).bind fun _ =>
      (emit_tidy ?_).bind fun _ => throwEdge_tidy ho _
    all_goals trivial
  | .attempt body catches cleanup, hc, hl, hx, held, os, low, ho => by
    simp only [Stmt.literals, Stmt.exceptions, List.forall_mem_append] at hl hx
    by_cases plain : catches = [] ∧ cleanup = none
    · obtain ⟨rfl, rfl⟩ := plain
      rw [compileStmt]
      exact compileStmt_tidy hc.1 hl.1.1 hx.1.1 ho
    · rw [compileStmt_attempt plain]
      refine scope_tidy (fun id => ?_) fun closed _ => ?_
      · exact compileStmt_tidy hc.1 hl.1.1 hx.1.1 (ho.cons _)
      · refine here_tidy.bind fun target => ?_
        rintro s ⟨before, h⟩
        refine ((resolveAll_tidy (Nat.le_refl target)).bind fun _ =>
          (compileCatches_tidy hc.2.1 hl.1.2 hx.1.2 ho).bind fun r => ?_).lower before s h
        obtain ⟨exits, throws⟩ := r
        rintro t ⟨quiet, h⟩
        refine compileCleanup_tidy hc.2.2 hl.2 hx.2 ?_ ho t (h.perm ?_)
        · rintro rfl
          exact quiet rfl
        · refine List.perm_iff_count.mpr fun a => ?_
          simp only [List.count_append]
          omega

theorem compileCatches_tidy : ∀ {cs : List Catch},
    Catch.AllCalls (fun c _ => c.Known declared) cs → (∀ l ∈ Catch.literals cs, l ∈ cx.literals) →
    (∀ x ∈ Catch.exceptions cs, x ∈ cx.exceptions) →
    ∀ {held : List Nat} {os : List Outline} {low : Nat} {inside : Bool}, Expected os →
    Triple (Tidy cx held os low) (compileCatches cx inside cs) fun r s =>
      (inside = false → r.2 = []) ∧ Tidy cx (r.1 ++ (r.2 ++ held)) os low s
  | [], _, _, _, held, os, low, inside, _ => by
    rw [compileCatches]
    exact .pure fun _ h => ⟨fun _ => rfl, h⟩
  | .on x target body :: rest, hc, hl, hx, held, os, low, inside, ho => by
    simp only [Catch.literals, Catch.exceptions, List.forall_mem_append, List.forall_mem_cons,
      List.cons_append] at hl hx
    rw [compileCatches]
    refine (number_tidy hx.1).bind fun n => (emitAll_tidy ?_).bind fun _ =>
      (reserveIfZero_tidy _).bind fun next => (emitAll_tidy ?_).bind fun _ =>
      scope_tidy (fun id => ?_) fun closed calm => ?_
    · simp [Sound]
    · simp [Sound]
    · exact compileStmt_tidy hc.1 hl.1 hx.2.1 (ho.cons _)
    · have front : (closed.throws ++ (closed.exits ++ next :: held)).Perm
          (next :: (closed.throws ++ (closed.exits ++ held))) := by
        rw [← List.append_assoc, ← List.append_assoc]
        exact List.perm_middle
      refine (resolveHere_tidy front).bind fun _ =>
        (compileCatches_tidy hc.2 hl.2 hx.2.2 ho).bind fun r => .pure ?_
      rintro t ⟨quiet, h⟩
      refine ⟨fun no => by simp [calm no, quiet no], h.perm ?_⟩
      refine List.perm_iff_count.mpr fun a => ?_
      simp only [List.count_append]
      omega

theorem compileCleanup_tidy : ∀ {cleanup : Option Stmt},
    Stmt.CleanupAllCalls (fun c _ => c.Known declared) cleanup →
    (∀ l ∈ Stmt.cleanupLiterals cleanup, l ∈ cx.literals) →
    (∀ x ∈ Stmt.cleanupExceptions cleanup, x ∈ cx.exceptions) →
    ∀ {exits throws : List Nat}, (cleanup = none → throws = []) →
    ∀ {held : List Nat} {os : List Outline} {low : Nat}, Expected os →
    Triple (Tidy cx (exits ++ (throws ++ held)) os low) (compileCleanup cx exits throws cleanup)
      fun _ => Tidy cx held os low
  | none, _, _, _, exits, throws, calm, held, os, low, ho => by
    cases calm rfl
    rw [compileCleanup]
    refine (throwEdge_tidy ho _).bind fun _ => here_tidy.bind fun target => ?_
    rintro s ⟨before, h⟩
    exact (resolveAll_tidy (Nat.le_refl target)).lower before s h
  | some body, hc, hl, hx, exits, throws, _, held, os, low, ho => by
    rw [compileCleanup]
    refine here_tidy.bind fun start => ?_
    rintro s ⟨before, h⟩
    refine ((resolveAll_tidy (Nat.le_refl start)).bind fun _ =>
      (resolveAll_tidy (Nat.le_refl start)).bind fun _ => get_tidy.bind fun u =>
      (modify_tidy ?_ ?_).bind fun _ => (emitAll_tidy ?_).bind fun _ =>
      (openScope_tidy .cleanup false).bind fun id =>
      (compileStmt_tidy hc hl hx (ho.cons _)).bind fun _ =>
      closeScope_tidy.bind fun closed => ?_).lower before s h
    · exact fun _ => rfl
    · exact fun _ => rfl
    · simp [Sound]
    · rintro t ⟨-, calm, h⟩
      rw [calm rfl] at h
      refine ((emit_tidy ?_).bind fun _ => (reserveIfZero_tidy _).bind fun done =>
        (emitAll_tidy ?_).bind fun _ => (throwEdge_tidy ho _).bind fun _ =>
        resolveHere_tidy (.refl _)) t h
      · trivial
      · simp [Sound]

end

end Compile

/-! ## Functions -/

theorem compileBody_tidy {cx : Context} {declared : List Signature} {f : Function}
    (hc : f.body.AllCalls fun c _ => c.Known declared)
    (hl : ∀ l ∈ f.body.literals, l ∈ cx.literals)
    (hx : ∀ x ∈ f.body.exceptions, x ∈ cx.exceptions) :
    Triple (· = State.start) (compileBody cx f) fun _ u => ∃ t, Tidy cx [] [] 0 t ∧
      u.draft = (t.draft.emit .transfer).emit .returnZero ∧ u.scopes.opened = [] := by
  rintro s rfl
  have begun : Tidy cx [] [] 0 State.start :=
    ⟨⟨List.nodup_nil, fun i => by simp [State.start, Draft.empty, Waits, thrown, Scopes.empty]⟩,
      rfl, by simp [State.start, Scopes.empty], Nat.zero_le _,
      by simp [State.start, Draft.empty]⟩
  unfold compileBody
  refine ((openScope_tidy .body true).bind fun id =>
    (compileStmt_tidy hc hl hx ⟨_, List.mem_cons_self, rfl⟩).bind fun _ =>
      (emit_tidy ?_).bind fun _ => closeScope_tidy.bind fun closed => ?_) _ begun
  · trivial
  rintro t ⟨-, -, h⟩
  refine (here_tidy.bind fun target => ?_) t h
  rintro t ⟨-, h⟩
  refine ((resolveAll_tidy (Nat.le_refl target)).bind fun _ => (emitAll_tidy ?_).bind fun _ =>
    (reserveIfZero_tidy _).bind fun uncaught => (emitAll_tidy ?_).bind fun _ =>
      (resolveHere_tidy (.refl _)).bind fun _ => ?_) t h
  · simp [Sound]
  · simp [Sound]
  · intro t h
    exact ⟨(), _, rfl, t, h.lower (Nat.zero_le _), rfl, List.map_eq_nil_iff.mp h.outlined⟩

/-- The compiler finds its way through every function with bound calls, and the code is closed. -/
theorem compileFunction_closed {cx : Context} {declared : List Signature} {f : Function}
    (hc : f.body.AllCalls fun c _ => c.Known declared)
    (hl : ∀ l ∈ f.body.literals, l ∈ cx.literals)
    (hx : ∀ x ∈ f.body.exceptions, x ∈ cx.exceptions) :
    ∃ r, compileFunction cx f = .ok r ∧ r.Closed cx.literals.length := by
  obtain ⟨⟨⟩, u, hu, t, tidy, draft, opened⟩ := compileBody_tidy hc hl hx _ rfl
  have settled : Open t.draft [] := by
    have waiting := tidy.waiting
    rwa [List.map_eq_nil_iff.mp tidy.outlined] at waiting
  obtain ⟨is, filled⟩ := exists_of_open settled
  let code : List Instruction := is ++ [.transfer, .returnZero]
  have whole : u.draft.slots.toList = code.map .filled := by
    rw [draft]
    simp [Draft.emit, filled, code]
  have next : t.draft.next = is.length := by
    have := congrArg List.length filled
    simpa [Draft.next] using this
  have sound : ∀ i ∈ is, Sound cx is.length i := by
    intro i hi
    rw [← next]
    refine tidy.sound i (Array.mem_toList_iff.mp ?_)
    rw [filled]
    exact List.mem_map_of_mem hi
  have compiled : compileFunction cx f =
      .ok ⟨f.signature, f.parameters, code.toArray, decide (f.signature ∈ cx.throwing)⟩ := by
    simp only [compileFunction, hu, Scopes.isEmpty, opened, List.isEmpty_nil, if_true,
      finish_of_filled whole]
    rfl
  refine ⟨_, compiled, ?_, ?_, by simp [code]⟩
  · intro i hi v hv
    simp only [code, List.mem_toArray, List.mem_append, List.mem_cons, List.not_mem_nil, or_false] at hi
    simp only [code, List.size_toArray, List.length_append, List.length_cons, List.length_nil]
    rcases hi with hi | rfl | rfl
    · have near := sound i hi
      cases i <;> cases hv <;> exact Nat.lt_of_le_of_lt near (Nat.lt_add_of_pos_right (by decide))
    · cases hv
    · cases hv
  · intro k hk
    simp only [code, List.mem_toArray, List.mem_append, List.mem_cons, List.not_mem_nil, or_false] at hk
    rcases hk with hk | hk | hk
    · exact sound _ hk
    · cases hk
    · cases hk

end Compilation

/-! ## Runs -/

/-- Closed code goes on behind every instruction but a return. -/
theorem Routine.Closed.falls {r : Routine} {pool k : Nat} {i : Instruction} (h : r.Closed pool)
    (hi : r.code[k]? = some i) (goes : i ≠ .returnZero) : k + 1 < r.code.size := by
  obtain ⟨low, rfl⟩ := Array.getElem?_eq_some_iff.mp hi
  have last := h.last
  rw [Array.back?_eq_getElem?] at last
  have apart : k ≠ r.code.size - 1 := by
    rintro rfl
    rw [Array.getElem?_eq_getElem low] at last
    exact goes (Option.some.inj last)
  omega

/-- Closed code has a first instruction. -/
theorem Routine.Closed.size_pos {r : Routine} {pool : Nat} (h : r.Closed pool) :
    0 < r.code.size := by
  refine Nat.pos_of_ne_zero fun empty => ?_
  have last := h.last
  rw [Array.back?_eq_getElem?, Array.getElem?_eq_none (by omega)] at last
  cases last

namespace Machine

/-- An activation has an instruction to execute, in closed code. -/
structure Activation.Inside (pool : Nat) (a : Activation) : Prop where
  closed : a.routine.Closed pool
  next : a.next < a.routine.code.size

/-- Every activation of a run has an instruction to execute. -/
def Contained (pool : Nat) : Progress → Prop
  | .running _ a callers => a.Inside pool ∧ ∀ a' ∈ callers, a'.Inside pool
  | .ended .. => True
  | .fault _ => True

section Contained

variable {pool : Nat} {image : Image} {w : World} {a : Activation} {callers : List Activation}

theorem Activation.Inside.resumed (h : a.Inside pool) (t : Option Transferred) (v : Value) :
    ((a.receive t).push v).Inside pool := by
  cases t with
  | none => exact ⟨h.closed, h.next⟩
  | some t => exact ⟨h.closed, h.next⟩

theorem contained_leave (h : ∀ a' ∈ callers, a'.Inside pool) (v : Value) (t : Option Transferred) :
    Contained pool (leave w v t callers) := by
  cases callers with
  | nil => trivial
  | cons caller callers =>
    exact ⟨(h caller List.mem_cons_self).resumed t v, fun a' ha' =>
      h a' (List.mem_cons_of_mem caller ha')⟩

theorem contained_enter (closed : ∀ r ∈ image.routines, r.Closed pool) (s : Signature)
    (vs : List Value) (h : ∀ a' ∈ callers, a'.Inside pool) :
    Contained pool (enter image w s vs callers) := by
  unfold enter
  cases found : image.routine? s with
  | none => trivial
  | some r =>
    rw [Image.routine?, latest?_eq_find?_reverse] at found
    have whole := closed r (List.mem_reverse.mp (List.mem_of_find?_eq_some found))
    exact ⟨⟨whole, whole.size_pos⟩, h⟩

theorem contained_callIntrinsic (i : Intrinsic) (vs : List Value) (ha : a.Inside pool)
    (h : ∀ a' ∈ callers, a'.Inside pool) : Contained pool (callIntrinsic w i vs a callers) := by
  unfold callIntrinsic
  cases i.call vs w with
  | ok reply w' =>
    cases reply with
    | returned v => exact ⟨ha.resumed none v, h⟩
    | outOfBounds n => exact ⟨ha.resumed _ _, h⟩
  | error f w' => trivial

/-- Execute an instruction of closed code. -/
theorem contained_execute (closed : ∀ r ∈ image.routines, r.Closed pool) {i : Instruction}
    (ha : a.routine.Closed pool) (hi : a.routine.code[a.next]? = some i)
    (h : ∀ a' ∈ callers, a'.Inside pool) :
    Contained pool (execute image i w { a with next := a.next + 1 } callers) := by
  obtain ⟨r, xs, ops, next, t⟩ := a
  dsimp only at ha hi
  have jumps : ∀ target, i.target? = some target → target < r.code.size :=
    ha.jumps i (Array.mem_of_getElem? hi)
  cases i with
  | push k => exact ⟨⟨ha, ha.falls hi (by nofun)⟩, h⟩
  | pushLiteral k =>
    simp only [execute]
    split
    · exact ⟨⟨ha, ha.falls hi (by nofun)⟩, h⟩
    · trivial
  | load x => exact ⟨⟨ha, ha.falls hi (by nofun)⟩, h⟩
  | store x =>
    cases ops with
    | nil => trivial
    | cons v ops => exact ⟨⟨ha, ha.falls hi (by nofun)⟩, h⟩
  | unary op =>
    cases ops with
    | nil => trivial
    | cons v ops => exact ⟨⟨ha, ha.falls hi (by nofun)⟩, h⟩
  | binary op =>
    match ops with
    | [] => trivial
    | [v] => trivial
    | right :: left :: ops =>
      simp only [execute]
      cases op.eval? left.word right.word with
      | none => trivial
      | some k => exact ⟨⟨ha, ha.falls hi (by nofun)⟩, h⟩
  | jump target => exact ⟨⟨ha, jumps target rfl⟩, h⟩
  | jumpIfZero target =>
    cases ops with
    | nil => trivial
    | cons v ops =>
      refine ⟨⟨ha, ?_⟩, h⟩
      show (if v.word = 0 then target else next + 1) < r.code.size
      split
      · exact jumps target rfl
      · exact ha.falls hi (by nofun)
  | call callee =>
    simp only [execute]
    split
    · trivial
    · have waiting : Activation.Inside pool ⟨r, xs, ops.drop callee.arity, next + 1, t⟩ :=
        ⟨ha, ha.falls hi (by nofun)⟩
      cases callee with
      | intrinsic i => exact contained_callIntrinsic i _ waiting h
      | routine s => exact contained_enter closed s _ (List.forall_mem_cons.mpr ⟨waiting, h⟩)
  | pop =>
    cases ops with
    | nil => trivial
    | cons v ops => exact ⟨⟨ha, ha.falls hi (by nofun)⟩, h⟩
  | returnValue =>
    cases ops with
    | nil => trivial
    | cons v ops => exact contained_leave h v t
  | returnZero => exact contained_leave h _ t
  | transfer => exact ⟨⟨ha, ha.falls hi (by nofun)⟩, h⟩

/-- An instruction of closed code is followed by another, or by a return or a fault. -/
theorem Contained.step (closed : ∀ r ∈ image.routines, r.Closed pool)
    (h : Contained pool (.running w a callers)) : Contained pool (Machine.step image w a callers) := by
  unfold Machine.step
  cases hi : a.routine.code[a.next]? with
  | none => trivial
  | some i => exact contained_execute closed h.1.closed hi h.2

end Contained

end Machine

end Bytecode

namespace Program

open Bytecode.Machine

/-- Binding knows the callees of all calls, whatever arguments they get. -/
theorem binds_known (declared : List Signature) :
    Binds declared (fun _ _ => True) fun c _ => c.Known declared := by
  intro l c d n _ h
  cases c with
  | unbound name arity =>
    simp only [bindCallee] at h
    split at h
    · rename_i hs
      cases h
      exact hs
    · split at h
      · cases h
        trivial
      · cases h
  | declared s =>
    simp only [bindCallee] at h
    split at h
    · rename_i hs
      cases h
      exact hs
    · cases h
  | intrinsic i =>
    cases h
    trivial

/-- Compiling a program with bound calls succeeds. Its code is closed, and no run of it comes behind
the last instruction of a routine. -/
theorem compile_of_bind {p q : Program} (h : p.bind = .ok q) :
    ∃ b, q.compile = .ok b ∧ (∀ r ∈ b.routines, r.Closed b.literals.length) ∧
      ∀ input w a callers,
        Reached (b.load input).1 (enter (b.load input).1 (b.load input).2 b.entry [] [])
          (.running w a callers) →
        a.next < a.routine.code.size := by
  have any : ∀ f ∈ p.functions, f.body.AllCalls fun _ _ => True :=
    fun f _ => Stmt.allCalls_of_forall (fun _ _ => trivial) f.body
  obtain ⟨-, -, known⟩ := allCalls_of_bind (binds_known p.signatures) rfl any h
  have compiled : ∀ fs : List Function, (∀ f ∈ fs, f ∈ q.functions) →
      ∃ rs, fs.mapM (Bytecode.Compilation.compileFunction ⟨q.exceptions, q.literals, q.throwing⟩) =
        .ok rs ∧ ∀ r ∈ rs, r.Closed q.literals.length := by
    intro fs hfs
    induction fs with
    | nil => exact ⟨[], rfl, List.forall_mem_nil _⟩
    | cons f fs ih =>
      have hf : f ∈ q.functions := hfs f List.mem_cons_self
      have first : ∃ r, Bytecode.Compilation.compileFunction
          ⟨q.exceptions, q.literals, q.throwing⟩ f = .ok r ∧ r.Closed q.literals.length :=
        Bytecode.Compilation.compileFunction_closed (known f hf) (fun _ => mem_literals hf)
          fun _ => mem_exceptions hf
      obtain ⟨r, hr, closed⟩ := first
      obtain ⟨rs, hrs, rest⟩ := ih fun g hg => hfs g (List.mem_cons_of_mem f hg)
      refine ⟨r :: rs, ?_, List.forall_mem_cons.mpr ⟨closed, rest⟩⟩
      rw [List.mapM_cons, hr, hrs]
      rfl
  obtain ⟨rs, hrs, closed⟩ := compiled q.functions fun _ hf => hf
  refine ⟨⟨rs, q.entry, q.literals, q.exceptions⟩, ?_, closed, ?_⟩
  · rw [compile, hrs]
    rfl
  · intro input w a callers reached
    have inside : ∀ r ∈ ((⟨rs, q.entry, q.literals, q.exceptions⟩ : Bytecode).load input).1.routines,
        r.Closed q.literals.length := by
      rw [Bytecode.load_routines]
      exact closed
    have contained : Contained q.literals.length (.running w a callers) :=
      reached.invariant (contained_enter inside q.entry [] (List.forall_mem_nil _))
        fun _ _ _ h => h.step inside
    exact contained.1.next

/-- A program whose calls are bound in part. Some of them have other arguments than their callees
take, among them one in a block that runs in any case while a value is returned. -/
def ragged : Program where
  functions :=
    [⟨"f", ["n"], .attempt (.throwing "A" (.string "a")) [.on "A" "x" (.leave (.var "x"))]
        (some (.perform ⟨.declared ⟨"f", 1⟩, [], .unknown⟩)), .unknown⟩,
      ⟨"main", [], .loop (.const 1) (.attempt
        (.perform ⟨.intrinsic .write,
          [.array true [.call (.unbound "f" 1) [.const 1] .unknown], .const 2], .unknown⟩)
        [] (some .skip)), .unknown⟩]
  entry := ⟨"main", 0⟩

theorem compile_of_bind_ragged :
    ∃ q, ragged.bind = .ok q ∧
      ∃ b, q.compile = .ok b ∧ (∀ r ∈ b.routines, r.Closed b.literals.length) ∧
        ∀ input w a callers,
          Reached (b.load input).1 (enter (b.load input).1 (b.load input).2 b.entry [] [])
            (.running w a callers) →
          a.next < a.routine.code.size := by
  have accepted : ragged.bind.isOk = true := by decide +kernel
  cases h : ragged.bind with
  | error e =>
    rw [h] at accepted
    cases accepted
  | ok q => exact ⟨q, rfl, compile_of_bind h⟩

end Program

end Threefold
