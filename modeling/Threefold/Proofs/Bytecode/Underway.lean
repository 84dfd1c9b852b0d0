import Threefold.Proofs.Bytecode.Listings

/-!
# What is under way in compiled code

Control is either where nothing is under way (`Idle`) or where something is (`Raised`), and the code
of a statement leads from the one to the other: it ends where nothing is under way or goes to where
exceptions go with something under way (`continues_stmt`). Catch branches begin with something under
way. A block that runs in any case may begin either way, keeps what is under way in variables of its
own, and has nothing under way inside.

So at each place there are some such blocks around that are to go on with something or with nothing.
Their numbers are the list `K` of `Calm` and `Raised`. What the watch has kept for them is what
their variables say (`Keeps`), since a block inside of them has a larger number. A payload is left
over only inside of a block that is to go on with something. That is why it is zero outside of all
of them, and not where a block begins inside of another one.
-/

namespace Threefold.Bytecode.Underway

open Machine (Store Frame Holds Genuine Harmless Transferred moveAll? moveAll?_append moveAll?_pop
  harmless_of_bound)
open Compilation (Context Goal Mark Note code plain begins checkNotes exprNotes exprsNotes
  itemsNotes stmtNotes catchesNotes cleanupNotes bodyNotes exprCode exprsCode itemsCode stmtCode
  catchesCode cleanupCode checkCode enterCleanup leaveCleanup landingCode bodyCode codeAt_bodyCode
  stmtCode_attempt stmtNotes_attempt cleanupNotes_some numberOf ExprOk ExprsOk StmtOk CatchesOk CleanupOk
  length_exprNotes length_exprsNotes length_itemsNotes length_stmtNotes length_catchesNotes)
open Evaluation (Unwinding OwnNumber)

/-! ## What is known of an activation -/

/-- A variable of the program, or of an array literal. -/
def Plain : Variable → Prop
  | .named _ | .array _ => True
  | _ => False

/-- What was under way when a block began that runs in any case is saved. -/
def Keeps (f : Frame) (k : Nat) : Prop :=
  match f.watch.kept k with
  | none => f.store.load (.saved k) = .scalar 0
  | some u => Genuine u ∧ f.store.load (.saved k) = .scalar u.number ∧
      f.store.load (.savedData k) = u.payload

/-- Nothing is under way inside of some blocks that run in any case. There may be an old payload,
but only if one of the blocks is to go on with something. -/
structure Calm (K : List Nat) (v : Value) (depth : Nat) (f : Frame) : Prop where
  operands : f.operands.length = depth
  under : f.watch.under = none
  pending : f.store.load .pending = v
  thrown : f.store.load .thrown = .scalar 0
  data : (∀ k ∈ K, f.watch.kept k = none) → f.store.load .pendingData = .scalar 0
  kept : ∀ k ∈ K, Keeps f k

/-- Nothing is under way, and there are no operands. -/
abbrev Idle (K : List Nat) : Frame → Prop :=
  Calm K (.scalar 0) 0

/-- Something is under way inside of some blocks that run in any case. -/
structure Raised (K : List Nat) (f : Frame) : Prop where
  operands : f.operands = []
  unwinds : ∃ u, f.Unwinds u
  thrown : f.store.load .thrown = .scalar 0
  kept : ∀ k ∈ K, Keeps f k

/-- A callee may have handed over an exception. -/
def Called (K : List Nat) (v : Value) (depth : Nat) (f : Frame) : Prop :=
  ∃ f₀ t, Calm K v depth f₀ ∧ Handed t ∧ f = f₀.receive t

section Frames

variable {K : List Nat} {v : Value} {depth : Nat} {f : Frame}

theorem genuine_returning (v : Value) : Genuine (.returning v) where
  nonzero := (by decide : Exceptions.returning ≠ 0)
  returning := ⟨fun _ => ⟨v, rfl⟩, fun _ => rfl⟩

theorem genuine_thrown {k : Int32} (h : OwnNumber k) (v : Value) : Genuine (.thrown k v) where
  nonzero := h.1
  returning := iff_of_false h.2 (by rintro ⟨_, ⟨⟩⟩)

/-- Whether something is saved depends on two variables. -/
theorem Keeps.congr {f' : Frame} {k : Nat} (h : Keeps f k)
    (watch : f'.watch.kept k = f.watch.kept k)
    (saved : f'.store.load (.saved k) = f.store.load (.saved k))
    (data : f'.store.load (.savedData k) = f.store.load (.savedData k)) : Keeps f' k := by
  rw [Keeps, watch, saved, data]
  exact h

/-- A block with zero saved is to go on with nothing. -/
theorem Keeps.eq_none {k : Nat} (h : Keeps f k) (zero : (f.store.load (.saved k)).word = 0) :
    f.watch.kept k = none := by
  unfold Keeps at h
  split at h
  · assumption
  · obtain ⟨genuine, saved, -⟩ := h
    rw [saved] at zero
    exact absurd zero genuine.nonzero

/-- Any other block is to go on with what is saved. -/
theorem Keeps.eq_some {k : Nat} (h : Keeps f k) (nonzero : (f.store.load (.saved k)).word ≠ 0) :
    ∃ u, f.watch.kept k = some u ∧ Genuine u ∧ f.store.load (.saved k) = .scalar u.number ∧
      f.store.load (.savedData k) = u.payload := by
  unfold Keeps at h
  split at h
  · rw [h] at nonzero
    exact absurd rfl nonzero
  · exact ⟨_, ‹_›, h⟩

/-- What is under way is saved, be it something or nothing. -/
theorem keeps_of_saved {f' : Frame} {k : Nat} (h : Idle K f ∨ Raised K f)
    (watch : f'.watch.kept k = f.watch.under)
    (saved : f'.store.load (.saved k) = f.store.load .pending)
    (data : f'.store.load (.savedData k) = f.store.load .pendingData) : Keeps f' k := by
  rw [Keeps, watch, saved, data]
  rcases h with calm | raised
  · rw [calm.under]
    exact calm.pending
  · obtain ⟨u, unwinds⟩ := raised.unwinds
    rw [unwinds.under]
    exact ⟨unwinds.genuine, unwinds.pending, unwinds.data⟩

theorem load_assign_plain {x y : Variable} (hx : Plain x) (hy : ¬ Plain y) (w : Value) :
    (f.assign x w).store.load y = f.store.load y := by
  refine (Machine.Store.load_set _ _ _ _).trans (if_neg ?_)
  rintro rfl
  exact hy hx

namespace Calm

theorem put (h : Calm K v depth f) {ops : List Value} {d : Nat} (size : ops.length = d) :
    Calm K v d (f.put ops) :=
  ⟨size, h.under, h.pending, h.thrown, h.data, h.kept⟩

theorem push (h : Calm K v depth f) (w : Value) : Calm K v (depth + 1) (f.push w) :=
  h.put (congrArg (· + 1) h.operands)

theorem pop (h : Calm K v (depth + 1) f) {w : Value} {ws : List Value}
    (top : f.operands = w :: ws) : Calm K v depth (f.put ws) := by
  have size := h.operands
  rw [top] at size
  exact h.put (Nat.succ_inj.mp size)

theorem assign (h : Calm K v depth f) {x : Variable} (hx : Plain x) (w : Value) :
    Calm K v depth (f.assign x w) := by
  have same {y : Variable} (hy : ¬ Plain y) := load_assign_plain (f := f) hx hy w
  exact {
    operands := h.operands
    under := h.under
    pending := (same id).trans h.pending
    thrown := (same id).trans h.thrown
    data := fun none => (same id).trans (h.data none)
    kept := fun k hk => (h.kept k hk).congr rfl (same id) (same id) }

theorem nil (h : Calm K v 0 f) : f.operands = [] :=
  List.eq_nil_of_length_eq_zero h.operands

/-- A statement can begin. -/
theorem between (h : Idle K f) {covered : Bool} (inside : covered = false → K = []) :
    f.Between covered where
  operands := h.nil
  under := h.under
  pending := h.pending
  thrown := h.thrown
  data := by
    intro outside
    apply h.data
    rw [inside outside]
    nofun

end Calm

/-- An exception that was handed over is taken over, and the operands are dropped. -/
theorem Calm.takes (h : Calm K v depth f) {k : Int32} (own : OwnNumber k) (payload : Value) :
    Moves ([.load .thrown, .store .pending, .load .thrownData, .store .pendingData, .push 0,
      .store .thrown] ++ .replicate depth .pop) (Raised K)
      ((f.receive (some (.scalar k, payload))).seeAll [.takes]) := by
  let b₁ : Store := (f.store.set .thrown (.scalar k)).set .thrownData payload
  let b₂ : Store := ((b₁.set .pending (b₁.load .thrown)).set .pendingData
    (Store.load (b₁.set .pending (b₁.load .thrown)) .thrownData)).set .thrown (.scalar 0)
  have given : b₁.load .thrown = .scalar k := by simp [b₁]
  have data : b₁.load .thrownData = payload := by simp [b₁]
  refine ⟨b₂, [], ?_, rfl, ⟨.thrown k payload, ?_⟩, ?_, ?_⟩
  · rw [moveAll?_append, ← h.operands]
    have popped := moveAll?_pop f.operands [] b₂
    rw [List.append_nil] at popped
    exact popped
  · have under : some (Unwinding.thrown (b₁.load .thrown).word (b₁.load .thrownData)) =
        some (.thrown k payload) := by
      rw [given, data]
      rfl
    exact ⟨under, by simp [b₂, given, Unwinding.number], by simp [b₂, data, Unwinding.payload],
      genuine_thrown own payload⟩
  · simp [b₂]
  · intro j hj
    exact (h.kept j hj).congr rfl (by simp [b₂, b₁]) (by simp [b₂, b₁])

/-- The code that keeps what is under way when a block begins that runs in any case. -/
theorem enters {k : Nat} (h : Idle K f ∨ Raised K f) (below : ∀ j ∈ K, j < k) :
    Moves [.load .pending, .store (.saved k), .load .pendingData, .store (.savedData k), .push 0,
      .store .pending] (Idle (k :: K)) (f.seeAll [.enters k]) := by
  have operands : f.operands = [] := h.elim (·.nil) (·.operands)
  have thrown : f.store.load .thrown = .scalar 0 := h.elim (·.thrown) (·.thrown)
  have kept : ∀ j ∈ K, Keeps f j := h.elim (·.kept) (·.kept)
  let b₁ : Store := f.store.set (.saved k) (f.store.load .pending)
  let b₂ : Store := (b₁.set (.savedData k) (b₁.load .pendingData)).set .pending (.scalar 0)
  have moved : moveAll? [.load .pending, .store (.saved k), .load .pendingData,
      .store (.savedData k), .push 0, .store .pending] (f.store, f.operands) = some (b₂, []) := by
    rw [operands]
    rfl
  refine ⟨b₂, [], moved, {
    operands := rfl
    under := rfl
    pending := by simp [b₂]
    thrown := by simp [b₂, b₁, thrown]
    data := fun none => ?_
    kept := ?_ }⟩
  · have under : f.watch.under = .none := by
      simpa using none k List.mem_cons_self
    have calm : Idle K f := h.resolve_right fun raised => by
      obtain ⟨u, unwinds⟩ := raised.unwinds
      rw [unwinds.under] at under
      cases under
    have same : b₂.load .pendingData = f.store.load .pendingData := by simp [b₂, b₁]
    refine same.trans (calm.data fun j hj => ?_)
    have past := none j (List.mem_cons_of_mem k hj)
    simpa [Nat.ne_of_lt (below j hj)] using past
  · intro j hj
    rcases List.mem_cons.mp hj with rfl | hj
    · exact keeps_of_saved h (by simp) (by simp [b₂, b₁]) (by simp [b₂, b₁])
    · have other : j ≠ k := Nat.ne_of_lt (below j hj)
      refine (kept j hj).congr ?_ ?_ ?_
      · simp [other]
      · simp [b₂, b₁, Ne.symm other]
      · simp [b₂, b₁, Ne.symm other]

/-- Nothing goes on behind a block that began with nothing under way. -/
theorem Calm.leave {k : Nat} (h : Idle (k :: K) f) (zero : (f.store.load (.saved k)).word = 0) :
    Idle K f := by
  have none : f.watch.kept k = none := (h.kept k List.mem_cons_self).eq_none zero
  refine ⟨h.operands, h.under, h.pending, h.thrown, fun others => h.data ?_, fun j hj =>
    h.kept j (List.mem_cons_of_mem k hj)⟩
  intro j hj
  rcases List.mem_cons.mp hj with rfl | hj
  · exact none
  · exact others j hj

/-- What was under way when a block began goes on. -/
theorem Calm.resumes {k : Nat} (h : Idle (k :: K) f) (below : ∀ j ∈ K, j < k)
    (nonzero : (f.store.load (.saved k)).word ≠ 0) :
    Moves [.load (.saved k), .store .pending, .load (.savedData k), .store .pendingData, .push 0,
      .store (.savedData k)]
      (fun f' => Raised K f' ∧ ∃ u, f'.watch.kept k = some u ∧ f'.Unwinds u)
      (f.seeAll [.resumes k]) := by
  obtain ⟨u, under, genuine, saved, data⟩ := (h.kept k List.mem_cons_self).eq_some nonzero
  let b₁ : Store := f.store.set .pending (f.store.load (.saved k))
  let b₂ : Store := (b₁.set .pendingData (b₁.load (.savedData k))).set (.savedData k) (.scalar 0)
  have unwinds : Frame.Unwinds ⟨b₂, [], (f.seeAll [.resumes k]).watch⟩ u :=
    ⟨under, by simp [b₂, b₁, saved], by simp [b₂, b₁, data], genuine⟩
  have moved : moveAll? [.load (.saved k), .store .pending, .load (.savedData k),
      .store .pendingData, .push 0, .store (.savedData k)] (f.store, f.operands) =
        some (b₂, []) := by
    rw [h.nil]
    rfl
  refine ⟨b₂, [], moved, ⟨rfl, ⟨u, unwinds⟩, ?_, fun j hj => ?_⟩, u, under, unwinds⟩
  · simp [b₂, b₁, h.thrown]
  · have other : k ≠ j := Nat.ne_of_gt (below j hj)
    refine (h.kept j (List.mem_cons_of_mem k hj)).congr rfl ?_ ?_
    · simp [b₂, b₁]
    · simp [b₂, b₁, other]

/-- A branch catches what is under way. -/
theorem Raised.caught (h : Raised K f) (target : String) :
    Moves [.load .pendingData, .store (.named target), .push 0, .store .pending, .push 0,
      .store .pendingData] (Idle K) (f.seeAll [.catches]) := by
  let b : Store := ((f.store.set (.named target) (f.store.load .pendingData)).set .pending
    (.scalar 0)).set .pendingData (.scalar 0)
  have moved : moveAll? [.load .pendingData, .store (.named target), .push 0, .store .pending,
      .push 0, .store .pendingData] (f.store, f.operands) = some (b, []) := by
    rw [h.operands]
    rfl
  exact ⟨b, [], moved, {
    operands := rfl
    under := rfl
    pending := by simp [b]
    thrown := by simp [b, h.thrown]
    data := fun _ => by simp [b]
    kept := fun j hj => (h.kept j hj).congr rfl (by simp [b]) (by simp [b]) }⟩

/-- The number of what begins to unwind is given before its payload is known. -/
theorem Calm.number (h : Idle K f) (k : Int32) :
    Moves [.push k, .store .pending] (Calm K (.scalar k) 0) f := by
  refine ⟨f.store.set .pending (.scalar k), f.operands, rfl, {
    operands := h.operands
    under := h.under
    pending := by simp
    thrown := by simp [h.thrown]
    data := fun none => by simp [h.data none]
    kept := fun j hj => (h.kept j hj).congr rfl (by simp) (by simp) }⟩

/-- Something begins to unwind, given its number and its payload. -/
theorem Calm.raises {u : Unwinding} {vs : List Value} (h : Calm K (.scalar u.number) 1 f)
    (top : f.operands = u.payload :: vs) (genuine : Genuine u) :
    Raised K (((f.raise u).put vs).assign .pendingData u.payload) where
  operands := by
    have size := h.operands
    rw [top] at size
    exact List.eq_nil_of_length_eq_zero (Nat.succ_inj.mp size)
  unwinds := ⟨u, rfl, by simpa [Frame.assign, Frame.raise, Frame.put] using h.pending,
    by simp [Frame.assign], genuine⟩
  thrown := by simpa [Frame.assign, Frame.raise, Frame.put] using h.thrown
  kept := fun j hj => (h.kept j hj).congr rfl (by simp [Frame.assign, Frame.raise, Frame.put])
    (by simp [Frame.assign, Frame.raise, Frame.put])

/-- Fewer blocks are known of. -/
theorem Raised.mono (h : Raised K f) {K' : List Nat} (sub : K' ⊆ K) : Raised K' f :=
  ⟨h.operands, h.unwinds, h.thrown, fun k hk => h.kept k (sub hk)⟩

end Frames

/-! ## Expressions -/

section Code

variable {L : Listing} {cx : Context} {declared : List Signature} {targets : Goal → Nat}
  {front : List Note} {n pos : Nat} {K : List Nat} {v : Value}

theorem exprCode_ne_nil (e : Expr) (pos depth arrays : Nat) :
    exprCode cx pos depth arrays e ≠ [] := by
  cases e <;> simp [exprCode]

theorem target_arity {callee : Threefold.Callee} {k : Nat} (bound : callee.Bound declared k) :
    callee.target.arity = k := by
  cases callee with
  | unbound name arity => exact bound.elim
  | declared s => exact bound.2
  | intrinsic i => exact bound

/-- A call takes its operands. -/
theorem Calm.call {f : Frame} {depth : Nat} {c : Callee} (h : Calm K v (depth + c.arity) f) :
    SafeStep L.throwing (fun q f' => q = pos + 1 ∧ Called K v (depth + 1) f') pos f (.call c) := by
  intro r t delivered
  refine ⟨rfl, (f.put (f.operands.drop c.arity)).push r, t, ?_, delivered.1, ?_⟩
  · exact (h.put (by simp [h.operands])).push r
  · cases t <;> rfl

/-- A call of something that cannot throw hands nothing over. -/
theorem Calm.callHarmless {f : Frame} {depth : Nat} {c : Callee}
    (h : Calm K v (depth + c.arity) f) (harmless : Harmless L.throwing c) :
    SafeStep L.throwing (fun q f' => q = pos + 1 ∧ Calm K v (depth + 1) f') pos f (.call c) := by
  intro r t delivered
  rw [delivered.2 harmless]
  exact ⟨rfl, (h.put (by simp [h.operands])).push r⟩

/-- After a call of something that may throw, an exception that was handed over is under way. -/
theorem continues_check {depth : Nat} {origin : String}
    (placed : Placed L targets [] pos (checkCode pos depth origin) (checkNotes depth))
    (raise : Continues L n (targets .handler) (Raised K))
    (h : Continues L n (pos + depth + 9) (Calm K v depth)) :
    Continues L n pos (Called K v depth) := by
  have notes : checkNotes depth = ([[], [], [.takes]] ++ plain (depth + 5)) ++ plain 1 := by
    simp [checkNotes, plain, List.replicate_succ']
  rw [checkCode, notes] at placed
  obtain ⟨looked, raised⟩ := placed.append (by simp) (by simp)
  refine .test looked .nil (h.imp ?_) ?_
  · rintro _ ⟨⟨f, t, calm, own, rfl⟩, zero⟩
    cases t with
    | none => exact calm
    | some t =>
      obtain ⟨k, own, same⟩ := own
      have word : (Frame.store (f.receive (some t))).load .thrown = t.1 := by
        simp [Frame.receive, Frame.assign]
      rw [word, same] at zero
      exact absurd zero own.1
  · have left : Continues L n _ (Raised K) := .raise raised .nil raise
    refine .block (Q := Raised K) looked.tail.tail ?_ .nil ?_ ?_ (left.cast ?_)
    · simp
    · exact holds_singleton fun _ _ => trivial
    · rintro _ ⟨⟨f, t, calm, own, rfl⟩, nonzero⟩
      cases t with
      | none =>
        have none : (f.receive none).store.load .thrown = .scalar 0 := calm.thrown
        rw [none] at nonzero
        exact absurd rfl nonzero
      | some t =>
        obtain ⟨n, payload⟩ := t
        obtain ⟨k, own, rfl⟩ := own
        exact calm.takes own payload
    · simp
      omega

mutual

/-- The code of an expression leaves one more operand, or an exception under way. -/
theorem continues_expr (same : L.throwing = cx.throwing) :
    ∀ {e : Expr} {front : List Note} {pos depth arrays : Nat},
    ExprOk cx declared e →
    Placed L targets front pos (exprCode cx pos depth arrays e) (exprNotes cx depth e) →
    Opens (Calm K v depth) front → Continues L n (targets .handler) (Raised K) →
    Continues L n (pos + (exprCode cx pos depth arrays e).length) (Calm K v (depth + 1)) →
    Continues L n pos (Calm K v depth)
  | .const k, _, _, _, _, _, placed, opens, _, h =>
    .next placed opens (fun f calm => ⟨rfl, calm.push _⟩) h
  | .string s, _, _, depth, _, _, placed, opens, _, h => by
    refine .next placed opens (fun f calm k => ⟨rfl, calm.push _⟩)
      (.next placed.tail .nil (fun f calm => ?_) h)
    exact calm.callHarmless (rfl : Intrinsic.canThrow .strDup = false)
  | .array boxed items, _, pos, depth, arrays, ok, placed, opens, raise, h => by
    have size := length_itemsNotes cx items (pos + 4) depth (arrays + 1) (.array arrays) 0
    simp only [exprCode, exprNotes] at placed h
    obtain ⟨rest, last⟩ := placed.append (by simp [size]; omega) (by simp)
    obtain ⟨made, filled⟩ := rest.append (by simp) (by simp)
    have loaded : Continues L n _ (Calm K v depth) :=
      .next last .nil (fun f calm => ⟨rfl, calm.push _⟩) (h.cast (by simp; omega))
    have fill : Continues L n (pos + 4) (Calm K v depth) :=
      continues_items same ok filled raise (loaded.cast (by simp; omega))
    refine .next made opens (fun f calm => ⟨rfl, calm.push _⟩)
      (.next made.tail .nil (fun f calm => ⟨rfl, calm.push _⟩) ?_)
    refine .next (Q := Calm K v (depth + 1)) made.tail.tail .nil (fun f calm => ?_)
      (.next made.tail.tail.tail .nil (fun f calm w ws top => ?_) fill)
    · cases boxed <;> exact calm.callHarmless rfl
    · exact ⟨rfl, (calm.pop top).assign (x := .array arrays) trivial w⟩
  | .var x, _, _, _, _, _, placed, opens, _, h =>
    .next placed opens (fun f calm => ⟨rfl, calm.push _⟩) h
  | .unary op e, _, pos, depth, arrays, ok, placed, opens, raise, h => by
    obtain ⟨operand, operator⟩ := placed.append (length_exprNotes cx e pos depth arrays)
      (exprCode_ne_nil e _ _ _)
    refine continues_expr same (e := e) ok operand opens raise
      (.next operator .nil (fun f calm w ws top => ⟨rfl, (calm.pop top).push _⟩) ?_)
    exact h.cast (by simp [exprCode, Nat.add_assoc])
  | .binary op l r, _, pos, depth, arrays, ok, placed, opens, raise, h => by
    let left := exprCode cx pos depth arrays l
    have sizeLeft := length_exprNotes cx l pos depth arrays
    have sizeRight := length_exprNotes cx r (pos + left.length) (depth + 1) (arrays + l.arrayCount)
    simp only [exprCode, exprNotes] at placed h
    obtain ⟨first, second, operator⟩ :=
      placed.append₃ sizeLeft sizeRight (exprCode_ne_nil l _ _ _)
    refine continues_expr same (e := l) ok.1 first opens raise
      (continues_expr same (e := r) ok.2 second .nil raise
        (.next (Q := Calm K v (depth + 1)) operator .nil ?_ ?_))
    · intro f calm w₁ w₂ ws k top _
      exact ⟨rfl, ((calm.pop top).pop (f := f.put (w₂ :: ws)) rfl).push _⟩
    · exact h.cast (by simp [Nat.add_assoc])
  | .call callee arguments location, front, pos, depth, arrays, ok, placed, opens, raise, h => by
    have sizes := length_exprsNotes cx arguments pos depth arrays
    have arity : callee.target.arity = arguments.length := target_arity ok.1
    simp only [exprCode, exprNotes] at placed h
    obtain ⟨called, check⟩ := placed.append (by simp [sizes]) (by simp)
    -- The call is the first instruction if there are no arguments.
    have call (Q : Frame → Prop) (go : ∀ pos f, Calm K v (depth + callee.target.arity) f →
        SafeStep L.throwing (fun q f' => q = pos + 1 ∧ Q f') pos f (.call callee.target))
        (hQ : Continues L n (pos + (exprsCode cx pos depth arrays arguments).length + 1) Q) :
        Continues L n pos (Calm K v depth) := by
      rw [arity] at go
      cases arguments with
      | nil => exact .next called opens (go pos) hQ
      | cons e rest =>
        obtain ⟨values, last⟩ := called.append sizes (by simp [exprsCode, exprCode_ne_nil])
        exact continues_exprs same ok.2 values opens raise (.next last .nil (go _) hQ)
    cases throws : callee.canThrow cx.throwing with
    | false =>
      refine call (Calm K v (depth + 1)) (fun pos f calm => calm.callHarmless ?_) (h.cast ?_)
      · rw [same]
        exact harmless_of_bound ok.1 throws
      · simp [throws, Nat.add_assoc]
    | true =>
      simp only [throws, if_true] at check h
      refine call (Called K v (depth + 1)) (fun pos f calm => calm.call) ?_
      refine continues_check (check.cast (by simp [Nat.add_assoc])) raise (h.cast ?_)
      simp
      omega

/-- The code of expressions leaves as many operands. -/
theorem continues_exprs (same : L.throwing = cx.throwing) :
    ∀ {es : List Expr} {front : List Note} {pos depth arrays : Nat},
    ExprsOk cx declared es →
    Placed L targets front pos (exprsCode cx pos depth arrays es) (exprsNotes cx depth es) →
    Opens (Calm K v depth) front → Continues L n (targets .handler) (Raised K) →
    Continues L n (pos + (exprsCode cx pos depth arrays es).length)
      (Calm K v (depth + es.length)) →
    Continues L n pos (Calm K v depth)
  | [], _, _, _, _, _, _, _, _, h => h
  | e :: rest, _, pos, depth, arrays, ok, placed, opens, raise, h => by
    obtain ⟨first, others⟩ := placed.append (length_exprNotes cx e pos depth arrays)
      (exprCode_ne_nil e _ _ _)
    have height : depth + (e :: rest).length = depth + 1 + rest.length := by
      rw [List.length_cons]
      omega
    rw [height] at h
    refine continues_expr same ok.1 first opens raise
      (continues_exprs same ok.2 others .nil raise ?_)
    exact h.cast (by simp [exprsCode, Nat.add_assoc])

/-- The code that fills an array leaves the operands as they are. -/
theorem continues_items (same : L.throwing = cx.throwing) :
    ∀ {es : List Expr} {pos depth arrays index : Nat} {array : Variable},
    ExprsOk cx declared es →
    Placed L targets [] pos (itemsCode cx pos depth arrays array index es)
      (itemsNotes cx depth es) →
    Continues L n (targets .handler) (Raised K) →
    Continues L n (pos + (itemsCode cx pos depth arrays array index es).length)
      (Calm K v depth) →
    Continues L n pos (Calm K v depth)
  | [], _, _, _, _, _, _, _, _, h => h
  | e :: rest, pos, depth, arrays, index, array, ok, placed, raise, h => by
    let value := exprCode cx (pos + 2) (depth + 2) arrays e
    have size := length_exprNotes cx e (pos + 2) (depth + 2) arrays
    simp only [itemsCode, itemsNotes] at placed h
    obtain ⟨placed, others⟩ := placed.append (by simp [size]; omega) (by simp)
    obtain ⟨placed, popped⟩ := placed.append (by simp [size]; omega) (by simp)
    obtain ⟨placed, checked⟩ := placed.append (by simp [size]; omega) (by simp)
    obtain ⟨begun, evaluated, stored⟩ := placed.append₃ (by simp) size (by simp)
    have more : Continues L n (pos + value.length + depth + 14) (Calm K v depth) :=
      continues_items same ok.2 (others.cast (by simp [value]; omega)) raise
        (h.cast (by simp [value]; omega))
    have dropped : Continues L n (pos + value.length + depth + 13) (Calm K v (depth + 1)) :=
      .next (popped.cast (by simp [value]; omega)) .nil
        (fun f calm w ws top => ⟨rfl, calm.pop top⟩) more
    have looked : Continues L n (pos + value.length + 3) (Called K v (depth + 1)) :=
      continues_check (checked.cast (by simp [value]; omega)) raise (dropped.cast (by omega))
    refine .next begun .nil (fun f calm => ⟨rfl, calm.push _⟩)
      (.next (Q := Calm K v (depth + 2)) begun.tail .nil (fun f calm => ⟨rfl, calm.push _⟩) ?_)
    refine continues_expr same ok.1 evaluated .nil raise
      (.next (Q := Called K v (depth + 1)) (stored.cast (by simp)) .nil (fun f calm => ?_) ?_)
    · exact calm.call
    · exact looked.cast (show _ = pos + 2 + value.length + 1 by omega)

end

/-! ## Statements -/

/-- Code lies inside of some blocks that run in any case, with smaller numbers than its own. -/
structure Inside (covered : Bool) (K : List Nat) (cleanups : Nat) : Prop where
  outermost : covered = false → K = []
  below : ∀ k ∈ K, k < cleanups

theorem Inside.mono {covered : Bool} {cleanups cleanups' : Nat} (h : Inside covered K cleanups)
    (more : cleanups ≤ cleanups') : Inside covered K cleanups' :=
  ⟨h.outermost, fun k hk => Nat.lt_of_lt_of_le (h.below k hk) more⟩

/-- Code lies inside of one more block. -/
theorem Inside.enter {covered : Bool} {cleanups : Nat} (h : Inside covered K cleanups) :
    Inside true (cleanups :: K) (cleanups + 1) := by
  refine ⟨Bool.noConfusion, fun k hk => ?_⟩
  rcases List.mem_cons.mp hk with rfl | hk
  · exact Nat.lt_succ_self k
  · exact Nat.lt_succ_of_lt (h.below k hk)

/-- Where one statement begins another can begin. -/
theorem Placed.opened {covered : Bool} {ms : List Mark} {ns : List (List Note)}
    (placed : Placed L targets front pos ms (begins covered ns)) (opens : Opens (Idle K) front)
    (outermost : covered = false → K = []) :
    ∃ front', Opens (Idle K) front' ∧ Placed L targets front' pos ms ns := by
  obtain ⟨front', only, placed⟩ := placed.begun
  refine ⟨front', fun m hm => ?_, placed⟩
  rcases only m hm with old | rfl
  · exact opens m old
  · exact ⟨covered, rfl, fun f calm => calm.between outermost⟩

/-- A condition is tested. -/
theorem continues_condition (same : L.throwing = cx.throwing) {c : Expr} {arrays t : Nat}
    (ok : ExprOk cx declared c)
    (placed : Placed L targets front pos (exprCode cx pos 0 arrays c ++ code [.jumpIfZero t])
      (exprNotes cx 0 c ++ plain 1))
    (opens : Opens (Idle K) front) (raise : Continues L n (targets .handler) (Raised K))
    (zero : Continues L n t (Idle K))
    (other : Continues L n (pos + (exprCode cx pos 0 arrays c).length + 1) (Idle K)) :
    Continues L n pos (Idle K) := by
  obtain ⟨evaluated, test⟩ := placed.append (length_exprNotes cx c pos 0 arrays)
    (exprCode_ne_nil c _ _ _)
  refine continues_expr same ok evaluated opens raise
    (.branch (Q := Idle K) (R := Idle K) test .nil (fun f v vs calm top => ?_) zero other)
  have popped : Idle K (f.put vs) := calm.pop top
  split <;> exact popped

/-- Code that gives something its number and its payload, and lets it unwind. -/
theorem continues_unwind (same : L.throwing = cx.throwing) {k : Int32} {e : Expr}
    {arrays : Nat} {origin : String} (note : Note) (u : Value → Unwinding)
    (number : ∀ v, (u v).number = k) (payload : ∀ v, (u v).payload = v)
    (genuine : ∀ v, Genuine (u v)) (holds : ∀ f, Holds f note)
    (sees : ∀ (f : Frame) (v vs), f.operands = v :: vs → f.see note = f.raise (u v))
    (ok : ExprOk cx declared e)
    (placed : Placed L targets front pos
      (code [.push k, .store .pending] ++ exprCode cx (pos + 2) 0 arrays e ++
        code [.store .pendingData] ++ [.raise origin])
      (plain 2 ++ exprNotes cx 0 e ++ [[note]] ++ plain 1))
    (opens : Opens (Idle K) front) (raise : Continues L n (targets .handler) (Raised K)) :
    Continues L n pos (Idle K) := by
  have size := length_exprNotes cx e (pos + 2) 0 arrays
  obtain ⟨rest, raised⟩ := placed.append (by simp [size]; omega) (by simp)
  obtain ⟨begun, value, stored⟩ := rest.append₃ (by simp) size (by simp)
  refine .block (Q := Calm K (.scalar k) 0) begun rfl opens
    holds_nil (fun f calm => calm.number k) ?_
  refine continues_expr same ok value .nil raise
    (.noted (Q := Raised K) stored .nil (holds_singleton fun f _ => holds f)
      (fun f calm v vs top => ?_) ?_)
  · have seen : f.seeAll [note] = f.raise (u v) := by
      obtain ⟨w, ws, operands⟩ := List.exists_cons_of_length_eq_add_one calm.operands
      have see := sees f w ws operands
      rw [Frame.seeAll_singleton, see] at top ⊢
      obtain ⟨rfl, rfl⟩ := List.cons.inj (operands.symm.trans top)
      rfl
    rw [seen] at top ⊢
    have raises := Calm.raises (number v ▸ calm) (payload v ▸ top) (genuine v)
    rw [payload] at raises
    exact ⟨rfl, raises⟩
  · exact .raise (raised.cast (by simp; omega)) .nil raise

/-- A branch catches what is under way, or leaves it to what is behind. -/
theorem continues_catch {c : Int32} {target : String} {next : Nat}
    (placed : Placed L targets [] pos
      (code [.load .pending, .push c, .binary .eq, .jumpIfZero next, .load .pendingData,
        .store (.named target), .push 0, .store .pending, .push 0, .store .pendingData])
      ([[.test]] ++ plain 3 ++ [[.catches]] ++ plain 5))
    (caught : Continues L n (pos + 10) (Idle K)) (behind : Continues L n next (Raised K)) :
    Continues L n pos (Raised K) := by
  refine .compare (P := Raised K) placed .nil
    (holds_singleton (m := .test) fun f raised => raised.unwinds) (fun _ => rfl) ?_
    (behind.imp fun f raised => raised.1)
  exact .block (Q := Idle K) placed.tail.tail.tail.tail rfl .nil
    (holds_singleton fun _ _ => trivial) (fun f raised => raised.1.caught target) caught

/-- A block that runs in any case begins, be something under way or not. -/
theorem continues_enter {cleanups : Nat} (below : ∀ k ∈ K, k < cleanups)
    (placed : Placed L targets [] pos (enterCleanup cleanups) ([[.enters cleanups]] ++ plain 5))
    (h : Continues L n (pos + 6) (Idle (cleanups :: K))) :
    Continues L n pos fun f => Idle K f ∨ Raised K f :=
  .block placed rfl .nil (holds_singleton fun _ _ => trivial)
    (fun _ either => enters either below) h

/-- Such a block ends, and what was under way when it began goes on. -/
theorem continues_leave {cleanups : Nat} (below : ∀ k ∈ K, k < cleanups)
    (placed : Placed L targets [] pos (leaveCleanup pos cleanups)
      (plain 2 ++ [[.resumes cleanups]] ++ plain 5 ++ [[.rethrow cleanups]]))
    (raise : Continues L n (targets .handler) (Raised K))
    (h : Continues L n (pos + 9) (Idle K)) : Continues L n pos (Idle (cleanups :: K)) := by
  obtain ⟨tested, rethrown⟩ := placed.append (by simp) (by simp)
  have rethrow : Continues L n (pos + 8) fun f =>
      Raised K f ∧ ∃ u, f.watch.kept cleanups = some u ∧ f.Unwinds u :=
    (Continues.goto rethrown rfl .nil
      (holds_singleton (m := .rethrow cleanups) fun f raised => raised.2) (fun _ => rfl)
      (raise.imp fun f raised => raised.1)).mono (Nat.le_succ n)
  exact .test tested .nil (h.imp fun f calm => calm.1.leave calm.2)
    (.block tested.tail.tail rfl .nil (holds_singleton fun _ _ => trivial)
      (fun f calm => calm.1.resumes below calm.2) rethrow)

/-- The end of a statement that catches: behind its body nothing is under way, and in front of its
catch branches something is. -/
structure Caught (L : Listing) (n start : Nat) (K : List Nat) : Prop where
  done : Continues L n start (Idle K)
  raised : Continues L n (start + 1) (Raised K)

mutual

/-- Control comes to the end of a statement with nothing under way, or to where exceptions go with
something under way. -/
theorem continues_stmt (same : L.throwing = cx.throwing)
    (own : ∀ x ∈ cx.exceptions, OwnNumber (numberOf cx x)) :
    ∀ {s : Stmt} {covered : Bool} {K : List Nat} {n pos cleanups arrays : Nat}
      {targets : Goal → Nat} {front : List Note},
    StmtOk cx declared s → Inside covered K cleanups →
    Placed L targets front pos (stmtCode cx pos cleanups arrays s)
      (stmtNotes cx covered cleanups s) →
    Opens (Idle K) front → Continues L n (targets .handler) (Raised K) →
    Continues L n (pos + (stmtCode cx pos cleanups arrays s).length) (Idle K) →
    Continues L n pos (Idle K)
  | .skip, _, _, _, _, _, _, _, _, _, _, _, _, _, h => h.cast (by simp [stmtCode])
  | .assign x e, covered, K, n, pos, _, arrays, _, _, ok, inside, placed, opens, raise, h => by
    obtain ⟨front', opens, placed⟩ := placed.opened opens inside.outermost
    simp only [stmtCode] at placed h
    obtain ⟨value, stored⟩ := placed.append (length_exprNotes cx e pos 0 arrays)
      (exprCode_ne_nil e _ _ _)
    refine continues_expr same (e := e) ok value opens raise
      (.next (Q := Idle K) stored .nil (fun f calm v vs top => ?_) (h.cast ?_))
    · exact ⟨rfl, (calm.pop top).assign (x := .named x) trivial v⟩
    · simp [Nat.add_assoc]
  | .branch c yes other, covered, K, n, pos, cleanups, arrays, targets, _, ok, inside, placed,
      opens, raise, h => by
    obtain ⟨front', opens, placed⟩ := placed.opened opens inside.outermost
    simp only [stmtCode] at placed h
    let condition := exprCode cx pos 0 arrays c
    let first := stmtCode cx (pos + condition.length + 1) cleanups (arrays + c.arrayCount) yes
    have size := length_exprNotes cx c pos 0 arrays
    have sizeYes := length_stmtNotes cx covered yes (pos + condition.length + 1) cleanups
      (arrays + c.arrayCount)
    obtain ⟨rest, last⟩ := placed.append (by simp [size, sizeYes, condition]; omega) (by simp)
    obtain ⟨rest, past⟩ := rest.append (by simp [size, sizeYes, condition]; omega) (by simp)
    obtain ⟨test, taken⟩ := rest.append (by simp [size]) (by simp)
    have second : Continues L n (pos + condition.length + first.length + 2) (Idle K) :=
      continues_stmt same own ok.2.2 (inside.mono (by omega))
        (last.cast (by simp [condition, first]; omega)) .nil raise
        (h.cast (by simp [condition, first]; omega))
    refine continues_condition same ok.1 test opens raise second ?_
    refine continues_stmt same own ok.2.1 inside (taken.cast (by simp [Nat.add_assoc])) .nil raise
      ?_
    have left : Continues L n _ (Idle K) :=
      (Continues.jump past .nil (h.cast (by simp; omega))).mono (Nat.le_succ n)
    exact left.cast (by simp; omega)
  | .loop c body, covered, K, n, pos, cleanups, arrays, targets, _, ok, inside, placed, opens,
      raise, h => by
    obtain ⟨front', opens, placed⟩ := placed.opened opens inside.outermost
    simp only [stmtCode] at placed h
    let condition := exprCode cx pos 0 arrays c
    let inner := stmtCode cx (pos + condition.length + 1) cleanups (arrays + c.arrayCount) body
    have size := length_exprNotes cx c pos 0 arrays
    have sizeBody := length_stmtNotes cx covered body (pos + condition.length + 1) cleanups
      (arrays + c.arrayCount)
    obtain ⟨rest, back⟩ := placed.append (by simp [size, sizeBody, condition]; omega) (by simp)
    obtain ⟨test, run⟩ := rest.append (by simp [size]) (by simp)
    have behind : Continues L n (pos + condition.length + inner.length + 2) (Idle K) :=
      h.cast (by simp [condition, inner]; omega)
    refine .rounds fun k hk around => ?_
    have again : Continues L (k + 1) _ (Idle K) := .jump back .nil around
    refine continues_condition same ok.1 test opens (raise.mono hk) (behind.mono hk) ?_
    refine continues_stmt same own ok.2 inside (run.cast (by simp [Nat.add_assoc])) .nil
      (raise.mono hk) (again.cast ?_)
    simp
    omega
  | .chain s t, covered, K, n, pos, cleanups, arrays, _, _, ok, inside, placed, opens, raise,
      h => by
    obtain ⟨front', opens, placed⟩ := placed.opened opens inside.outermost
    simp only [stmtCode] at placed h
    obtain ⟨first, front'', fewer, second⟩ :=
      placed.append_front (length_stmtNotes cx covered s pos cleanups arrays)
    refine continues_stmt same own ok.1 inside first opens raise
      (continues_stmt same own ok.2 (inside.mono (by omega)) second (opens.mono fewer) raise ?_)
    exact h.cast (by simp [Nat.add_assoc])
  | .leave e, covered, K, n, pos, cleanups, arrays, _, _, ok, inside, placed, opens, raise, _ => by
    obtain ⟨front', opens, placed⟩ := placed.opened opens inside.outermost
    exact continues_unwind same .returns .returning (fun _ => rfl) (fun _ => rfl) genuine_returning
      (fun _ => trivial) (fun f v vs => Frame.see_returns) ok placed opens raise
  | .perform c, covered, K, n, pos, cleanups, arrays, _, _, ok, inside, placed, opens, raise,
      h => by
    obtain ⟨front', opens, placed⟩ := placed.opened opens inside.outermost
    simp only [stmtCode] at placed h
    obtain ⟨value, popped⟩ := placed.append (length_exprNotes cx c.expr pos 0 arrays)
      (exprCode_ne_nil c.expr _ _ _)
    refine continues_expr same (e := c.expr) ok value opens raise
      (.next (Q := Idle K) popped .nil (fun f calm v vs top => ⟨rfl, calm.pop top⟩) (h.cast ?_))
    simp [Nat.add_assoc]
  | .throwing x e, covered, K, n, pos, cleanups, arrays, _, _, ok, inside, placed, opens, raise,
      _ => by
    obtain ⟨front', opens, placed⟩ := placed.opened opens inside.outermost
    exact continues_unwind same (.throws (numberOf cx x)) (.thrown (numberOf cx x)) (fun _ => rfl)
      (fun _ => rfl) (genuine_thrown (own x ok.1)) (fun _ => trivial)
      (fun f v vs => Frame.see_throws) ok.2 placed opens raise
  | .attempt body catches cleanup, covered, K, n, pos, cleanups, arrays, targets, front, ok, inside,
      placed, opens, raise, h => by
    by_cases bare : catches = [] ∧ cleanup = none
    · obtain ⟨rfl, rfl⟩ := bare
      rw [stmtCode] at placed h
      rw [stmtNotes] at placed
      obtain ⟨front', opens, placed⟩ := placed.opened opens inside.outermost
      exact continues_stmt same own ok.1 inside placed opens raise h
    · rw [stmtCode_attempt bare, stmtNotes_attempt bare] at placed
      rw [stmtCode_attempt bare] at h
      obtain ⟨front', opens, placed⟩ := placed.opened opens inside.outermost
      have size := length_stmtNotes cx covered body pos cleanups arrays
      obtain ⟨inner, front'', fewer, behind⟩ := placed.append_front (by simp [size])
      rw [List.length_map] at behind
      have caught : Caught L n (pos + (stmtCode cx pos cleanups arrays body).length) K :=
        continues_cleanup same own ok.2.2 (inside.mono (by omega)) rfl
          (length_catchesNotes cx covered catches _ _ _)
          (fun targets' placed' handler exit last =>
            continues_catches same own ok.2.1 (inside.mono (by omega)) placed' handler exit last)
          behind (opens.mono fewer) raise (h.cast (by simp [Nat.add_assoc]))
      exact continues_stmt same own ok.1 inside inner.settled opens caught.raised caught.done

/-- The code of catch branches begins with something under way. -/
theorem continues_catches (same : L.throwing = cx.throwing)
    (own : ∀ x ∈ cx.exceptions, OwnNumber (numberOf cx x)) :
    ∀ {cs : List Catch} {covered : Bool} {K : List Nat} {n pos cleanups arrays : Nat}
      {targets : Goal → Nat},
    CatchesOk cx declared cs → Inside covered K cleanups →
    Placed L targets [] pos (catchesCode cx pos cleanups arrays cs)
      (catchesNotes cx covered cleanups cs) →
    Continues L n (targets .handler) (Raised K) → Continues L n (targets .exit) (Idle K) →
    Continues L n (pos + (catchesCode cx pos cleanups arrays cs).length) (Raised K) →
    Continues L n pos (Raised K)
  | [], _, _, _, _, _, _, _, _, _, _, _, _, h => h.cast (by simp [catchesCode])
  | .on x target body :: rest, covered, K, n, pos, cleanups, arrays, targets, ok, inside, placed,
      raise, exit, h => by
    have size := length_stmtNotes cx covered body (pos + 10) cleanups arrays
    simp only [catchesCode, catchesNotes] at placed h
    obtain ⟨front, others⟩ := placed.append (by simp [size]; omega) (by simp)
    obtain ⟨front, leave⟩ := front.append (by simp [size]; omega) (by simp)
    obtain ⟨begun, inner⟩ := front.append (by simp) (by simp)
    have next : Continues L n _ (Raised K) :=
      continues_catches same own ok.2.2 (inside.mono (by omega)) (others.cast (by simp; omega))
        raise exit (h.cast (by simp; omega))
    have left : Continues L n _ (Idle K) := .exit leave .nil exit
    have caught := continues_stmt same own ok.2.1 inside (inner.cast (by simp)) .nil raise
      (left.cast (by simp; omega))
    exact continues_catch begun caught next

/-- The end of a statement that catches, given its catch branches. -/
theorem continues_cleanup (same : L.throwing = cx.throwing)
    (own : ∀ x ∈ cx.exceptions, OwnNumber (numberOf cx x)) :
    ∀ {cleanup : Option Stmt} {covered : Bool} {K : List Nat} {n start last cleanups arrays : Nat}
      {targets : Goal → Nat} {front : List Note} {branches : List Mark} {ns : List (List Note)},
    CleanupOk cx declared cleanup → Inside covered K cleanups →
    last = start + 1 + branches.length → ns.length = branches.length →
    (∀ targets', Placed L targets' [] (start + 1) branches ns →
      Continues L n (targets' .handler) (Raised K) → Continues L n (targets' .exit) (Idle K) →
      Continues L n (start + 1 + branches.length) (Raised K) →
      Continues L n (start + 1) (Raised K)) →
    Placed L targets front start (cleanupCode cx last cleanups arrays branches cleanup)
      (cleanupNotes cx cleanups ns cleanup) →
    Opens (Idle K) front → Continues L n (targets .handler) (Raised K) →
    Continues L n (start + (cleanupCode cx last cleanups arrays branches cleanup).length)
      (Idle K) →
    Caught L n start K
  | none, covered, K, n, start, _, cleanups, arrays, targets, front, branches, ns, _, _, hlast,
      size, catching, placed, opens, raise, h => by
    subst hlast
    simp only [cleanupCode, cleanupNotes] at placed h
    obtain ⟨jump, settled, unmatched⟩ := placed.append₃ (by simp) (by simp [size]) (by simp)
    rw [List.length_map] at unmatched
    have behind : Continues L n (start + 1 + branches.length + 1) (Idle K) :=
      h.cast (by simp; omega)
    exact ⟨(Continues.jump jump opens behind).mono (Nat.le_succ n),
      catching _ settled.settled raise behind (.raise unmatched .nil raise)⟩
  | some s, covered, K, n, start, _, cleanups, arrays, targets, front, branches, ns, ok, inside,
      hlast, size, catching, placed, opens, raise, h => by
    subst hlast
    let inner := stmtCode cx (start + 1 + branches.length + 6) (cleanups + 1) arrays s
    have sizeInner := length_stmtNotes cx true s (start + 1 + branches.length + 6) (cleanups + 1)
      arrays
    rw [cleanupNotes_some] at placed
    simp only [cleanupCode] at placed h
    obtain ⟨rest, leave⟩ := placed.append (by simp [size, sizeInner]; omega) (by simp)
    obtain ⟨rest, run⟩ := rest.append (by simp [size]; omega) (by simp)
    obtain ⟨rest, enter⟩ := rest.append (by simp [size]; omega) (by simp)
    obtain ⟨jump, settled⟩ := rest.append (by simp) (by simp)
    have behind : Continues L n (start + 1 + branches.length + 6 + inner.length + 9) (Idle K) :=
      h.cast (by simp [inner]; omega)
    have left : Continues L n (start + 1 + branches.length + 6 + inner.length)
        (Idle (cleanups :: K)) := by
      have place : start + 1 + branches.length + inner.length + 6 =
          start + 1 + branches.length + 6 + inner.length := by omega
      rw [place] at leave
      exact continues_leave inside.below (leave.cast (by simp [inner]; omega)) raise behind
    have begun : Continues L n (start + 1 + branches.length + 6) (Idle (cleanups :: K)) :=
      continues_stmt same own ok inside.enter (run.cast (by simp; omega)) .nil
        (raise.imp fun f raised => raised.mono (List.subset_cons_self _ _)) left
    have entered : Continues L n (start + 1 + branches.length) fun f => Idle K f ∨ Raised K f :=
      continues_enter inside.below (enter.cast (by simp; omega)) begun
    exact ⟨(Continues.jump jump opens (entered.imp fun f calm => .inl calm)).mono (Nat.le_succ n),
      catching _ settled.settled.settled (entered.imp fun f raised => .inr raised)
        (entered.imp fun f calm => .inl calm) (entered.imp fun f raised => .inr raised)⟩

end

/-- The code of a function goes on as its notes say. -/
theorem continues_body (own : ∀ x ∈ cx.exceptions, OwnNumber (numberOf cx x)) {s : Stmt}
    (ok : StmtOk cx declared s) (n : Nat) :
    Continues (.ofBody cx s) n 0 (Idle []) := by
  have size := length_stmtNotes cx false s 0 0 0
  have placed : Placed (.ofBody cx s) (fun _ => (stmtCode cx 0 0 0 s).length + 1) [] 0
      (stmtCode cx 0 0 0 s ++
        .done .returnZero :: code (landingCode ((stmtCode cx 0 0 0 s).length + 1)))
      (stmtNotes cx false 0 s ++ ([[.done], [.landing]] ++ plain 7)) := by
    refine ⟨codeAt_bodyCode cx s, ?_⟩
    rw [← List.append_assoc]
    exact notedAt_getElem? [] _
  obtain ⟨inner, front, fewer, ends⟩ := placed.append_front size
  obtain rfl := List.subset_nil.mp fewer
  rw [Nat.zero_add] at ends
  have landing := ends.tail
  have returned : Continues (.ofBody cx s) n ((stmtCode cx 0 0 0 s).length + 1 + 4) fun f : Frame =>
      Raised [] f ∧ (f.store.load .pending).word = Exceptions.returning :=
    .next (Q := fun _ => True) landing.tail.tail.tail.tail .nil (fun _ _ => ⟨rfl, trivial⟩)
      (.ends landing.tail.tail.tail.tail.tail .nil holds_nil (.inl rfl))
  have thrown : Continues (.ofBody cx s) n ((stmtCode cx 0 0 0 s).length + 1 + 6) fun f : Frame =>
      Raised [] f ∧ (f.store.load .pending).word ≠ Exceptions.returning := by
    refine .next (Q := fun _ => True) landing.tail.tail.tail.tail.tail.tail .nil ?_
      (.ends landing.tail.tail.tail.tail.tail.tail.tail .nil holds_nil (.inr rfl))
    rintro f ⟨raised, differs⟩
    obtain ⟨u, unwinds⟩ := raised.unwinds
    rw [unwinds.pending] at differs
    exact ⟨⟨u.number, ⟨unwinds.genuine.nonzero, differs⟩, unwinds.pending⟩, rfl, trivial⟩
  have landed : Continues (.ofBody cx s) n ((stmtCode cx 0 0 0 s).length + 1) (Raised []) :=
    .compare (P := Raised []) landing .nil (holds_singleton fun f raised => raised.unwinds)
      (fun _ => rfl) returned thrown
  refine continues_stmt rfl own ok ⟨fun _ => rfl, List.forall_mem_nil _⟩ inner .nil landed ?_
  rw [Nat.zero_add]
  exact .ends ends .nil (holds_singleton fun f calm => calm.between fun _ => rfl) (.inr rfl)

end Code

end Threefold.Bytecode.Underway
