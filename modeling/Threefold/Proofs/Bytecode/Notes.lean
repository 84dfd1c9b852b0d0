import Mathlib.Data.List.Forall2
import Threefold.Proofs.Bytecode.Following
import Threefold.Proofs.Bytecode.Reached

/-!
# Notes on the code of a function

The layout says which instruction stands at a place of the code of a function, and here is what
there is to note about the place: a statement begins there, a return or an exception begins to
unwind, a catch branch is tested, a block that runs in any case begins or goes on with what was
under way. The notes (`stmtNotes`) follow the code (`stmtCode`) part by part, one list for each
instruction, and fit the instructions (`bodyNotes_fit`).

A `Watch` on an activation goes by these notes only. It remembers what is under way in the function,
and what was under way when each block began that runs in any case; the code is not asked what its
variables say, but for the number and the payload with which something begins to unwind. `Watched`
is a run with a watch on each activation. `Holds` compares: it says of an activation at a place what
its variables are to be, given what the watch has seen.
-/

namespace Threefold.Bytecode

open Evaluation (Unwinding)

namespace Compilation

/-! ## Notes -/

/-- What there is to note about a place in the code of a function. -/
inductive Note
  /-- A statement begins, be it inside of a block that runs in any case (covered) or not. -/
  | start (covered : Bool)
  /-- A return begins to unwind. -/
  | returns
  /-- An exception with this number begins to unwind. -/
  | throws (n : Int32)
  /-- An exception that a callee has handed over begins to unwind. -/
  | takes
  /-- A catch branch is tested. -/
  | test
  /-- The branch catches what is under way. -/
  | catches
  /-- A block that runs in any case begins. -/
  | enters (n : Nat)
  /-- What was under way when the block began goes on. -/
  | resumes (n : Nat)
  /-- The jump with which it goes on. -/
  | rethrow (n : Nat)
  /-- The body is done. -/
  | done
  /-- The place where exceptions and returns of a function end. -/
  | landing
  deriving DecidableEq

/-- The notes on code at which there is nothing to note. -/
def plain (size : Nat) : List (List Note) :=
  .replicate size []

/-- The notes on the code of a statement, given those on the code of its parts: it begins at the
first instruction, if it has one. -/
def begins (covered : Bool) : List (List Note) → List (List Note)
  | [] => []
  | ns :: rest => (.start covered :: ns) :: rest

/-- The notes on the code that looks for an exception a callee has handed over. -/
def checkNotes (depth : Nat) : List (List Note) :=
  [[], [], [.takes]] ++ plain (depth + 6)

mutual

/-- The notes on the code of an expression. -/
def exprNotes (cx : Context) (depth : Nat) : Expr → List (List Note)
  | .const _ => plain 1
  | .string _ => plain 2
  | .array _ items => plain 4 ++ itemsNotes cx depth items ++ plain 1
  | .var _ => plain 1
  | .unary _ e => exprNotes cx depth e ++ plain 1
  | .binary _ l r => exprNotes cx depth l ++ exprNotes cx (depth + 1) r ++ plain 1
  | .call callee arguments _ =>
    exprsNotes cx depth arguments ++ plain 1 ++
      if callee.canThrow cx.throwing then checkNotes (depth + 1) else []

/-- The notes on the code of expressions whose values are left on the stack. -/
def exprsNotes (cx : Context) (depth : Nat) : List Expr → List (List Note)
  | [] => []
  | e :: rest => exprNotes cx depth e ++ exprsNotes cx (depth + 1) rest

/-- The notes on the code that stores the values of expressions in an array. -/
def itemsNotes (cx : Context) (depth : Nat) : List Expr → List (List Note)
  | [] => []
  | e :: rest =>
    plain 2 ++ exprNotes cx (depth + 2) e ++ plain 1 ++ checkNotes (depth + 1) ++ plain 1 ++
      itemsNotes cx depth rest

end

mutual

/-- The notes on the code of a statement, where a number of blocks that run in any case come
before. -/
def stmtNotes (cx : Context) (covered : Bool) (cleanups : Nat) : Stmt → List (List Note)
  | .skip => begins covered []
  | .assign _ e => begins covered (exprNotes cx 0 e ++ plain 1)
  | .branch c yes no =>
    begins covered (exprNotes cx 0 c ++ plain 1 ++ stmtNotes cx covered cleanups yes ++ plain 1 ++
      stmtNotes cx covered (cleanups + yes.cleanupCount) no)
  | .loop c body =>
    begins covered (exprNotes cx 0 c ++ plain 1 ++ stmtNotes cx covered cleanups body ++ plain 1)
  | .chain s t =>
    begins covered (stmtNotes cx covered cleanups s ++
      stmtNotes cx covered (cleanups + s.cleanupCount) t)
  | .leave e => begins covered (plain 2 ++ exprNotes cx 0 e ++ [[.returns]] ++ plain 1)
  | .perform c => begins covered (exprNotes cx 0 c.expr ++ plain 1)
  | .throwing x e =>
    begins covered (plain 2 ++ exprNotes cx 0 e ++ [[.throws (numberOf cx x)]] ++ plain 1)
  | .attempt body [] none => begins covered (stmtNotes cx covered cleanups body)
  | .attempt body catches cleanup =>
    begins covered (stmtNotes cx covered cleanups body ++
      cleanupNotes cx (cleanups + body.cleanupCount + Catch.cleanupCount catches)
        (catchesNotes cx covered (cleanups + body.cleanupCount) catches) cleanup)

/-- The notes on the code of catch branches. -/
def catchesNotes (cx : Context) (covered : Bool) (cleanups : Nat) : List Catch → List (List Note)
  | [] => []
  | .on _ _ body :: rest =>
    [[.test]] ++ plain 3 ++ [[.catches]] ++ plain 5 ++ stmtNotes cx covered cleanups body ++
      plain 1 ++ catchesNotes cx covered (cleanups + body.cleanupCount) rest

/-- The notes on the code behind the body of a statement that catches. -/
def cleanupNotes (cx : Context) (cleanups : Nat) (branches : List (List Note)) :
    Option Stmt → List (List Note)
  | none => plain 1 ++ branches ++ plain 1
  | some s =>
    plain 1 ++ branches ++ [[.enters cleanups]] ++ plain 5 ++
      stmtNotes cx true (cleanups + 1) s ++ plain 2 ++ [[.resumes cleanups]] ++ plain 5 ++
      [[.rethrow cleanups]]

end

/-- The notes on the code of a function. -/
def bodyNotes (cx : Context) (s : Stmt) : List (List Note) :=
  stmtNotes cx false 0 s ++ [[.done], [.landing]] ++ plain 7

@[simp]
theorem length_plain (size : Nat) : (plain size).length = size :=
  List.length_replicate

@[simp]
theorem length_checkNotes (depth : Nat) : (checkNotes depth).length = depth + 9 := by
  simp [checkNotes]

/-! ### Every instruction has its notes -/

/-- What there is to note fits the instruction at the place. -/
def Note.Fits : Note → Instruction → Prop
  | .start _, _ => True
  | .returns, i => i = .store .pendingData
  | .throws _, i => i = .store .pendingData
  | .takes, i => i = .load .thrown
  | .test, i => i = .load .pending
  | .catches, i => i = .load .pendingData
  | .enters _, i => i = .load .pending
  | .resumes n, i => i = .load (.saved n)
  | .rethrow _, i => ∃ target, i = .jump target
  | .done, i => i = .returnZero
  | .landing, i => i = .load .pending

/-- Some code has as many notes as places, and they fit, whatever its jumps go to. -/
def Noted (ms : List Mark) (nss : List (List Note)) : Prop :=
  List.Forall₂ (fun m ns => ∀ n ∈ ns, ∀ targets, n.Fits (m.instruction targets)) ms nss

namespace Noted

variable {ms ms' : List Mark} {nss nss' : List (List Note)}

theorem append (h : Noted ms nss) (h' : Noted ms' nss') : Noted (ms ++ ms') (nss ++ nss') :=
  List.rel_append h h'

/-- An instruction with one note. -/
theorem one {m : Mark} (n : Note) (fits : ∀ targets, n.Fits (m.instruction targets))
    (h : Noted ms nss) : Noted (m :: ms) ([n] :: nss) := by
  refine List.Forall₂.cons (fun n' hn => ?_) h
  obtain rfl := List.mem_singleton.mp hn
  exact fits

theorem plain (size : Nat) (h : ms.length = size) : Noted ms (plain size) := by
  subst h
  induction ms with
  | nil => exact .nil
  | cons m ms ih => exact List.Forall₂.cons (fun _ hn => absurd hn List.not_mem_nil) ih

theorem begins (h : Noted ms nss) (covered : Bool) : Noted ms (begins covered nss) := by
  cases h with
  | nil => exact .nil
  | cons fits rest =>
    refine List.Forall₂.cons (fun n hn => ?_) rest
    rcases List.mem_cons.mp hn with rfl | hn
    · exact fun _ => trivial
    · exact fits n hn

theorem settle (h : Noted ms nss) (goal : Goal) (target : Nat) :
    Noted (ms.map (.settle goal target)) nss := by
  refine List.forall₂_map_left_iff.mpr (h.imp fun m ns fits n hn targets => ?_)
  rw [Mark.instruction_settle]
  exact fits n hn _

end Noted

/-- What is noted where a callee may have handed over an exception. -/
theorem noted_checkCode (pos depth : Nat) (origin : String) :
    Noted (checkCode pos depth origin) (checkNotes depth) := by
  have behind : Noted (code ([.store .pending, .load .thrownData, .store .pendingData, .push 0,
      .store .thrown] ++ List.replicate depth .pop) ++ [.raise origin]) (plain (depth + 6)) :=
    .plain _ (by simp)
  have taken : Noted (.done (.load .thrown) :: _) ([.takes] :: _) :=
    .one .takes (fun _ => rfl) behind
  have looked : Noted (code [.load .thrown, .jumpIfZero (pos + depth + 9)]) (plain 2) :=
    .plain 2 rfl
  exact looked.append taken

mutual

theorem noted_exprCode (cx : Context) : ∀ (e : Expr) (pos depth arrays : Nat),
    Noted (exprCode cx pos depth arrays e) (exprNotes cx depth e)
  | .const _, _, _, _ => .plain _ rfl
  | .string _, _, _, _ => .plain _ rfl
  | .array _ items, pos, depth, arrays =>
    .append (.append (.plain _ rfl) (noted_itemsCode cx items _ depth _ _ _)) (.plain _ rfl)
  | .var _, _, _, _ => .plain _ rfl
  | .unary _ e, pos, depth, arrays => .append (noted_exprCode cx e pos depth arrays) (.plain _ rfl)
  | .binary _ l r, pos, depth, arrays =>
    .append (.append (noted_exprCode cx l pos depth arrays) (noted_exprCode cx r _ (depth + 1) _))
      (.plain _ rfl)
  | .call callee arguments _, pos, depth, arrays => by
    refine .append (.append (noted_exprsCode cx arguments pos depth arrays) (.plain _ rfl)) ?_
    split
    · exact noted_checkCode _ _ _
    · exact .plain _ rfl

theorem noted_exprsCode (cx : Context) : ∀ (es : List Expr) (pos depth arrays : Nat),
    Noted (exprsCode cx pos depth arrays es) (exprsNotes cx depth es)
  | [], _, _, _ => .plain _ rfl
  | e :: rest, pos, depth, arrays =>
    .append (noted_exprCode cx e pos depth arrays) (noted_exprsCode cx rest _ (depth + 1) _)

theorem noted_itemsCode (cx : Context) : ∀ (es : List Expr) (pos depth arrays : Nat)
    (array : Variable) (index : Nat),
    Noted (itemsCode cx pos depth arrays array index es) (itemsNotes cx depth es)
  | [], _, _, _, _, _ => .plain _ rfl
  | e :: rest, pos, depth, arrays, array, index =>
    .append (.append (.append (.append (.append (.plain _ rfl)
      (noted_exprCode cx e (pos + 2) (depth + 2) arrays)) (.plain _ rfl)) (noted_checkCode _ _ _))
        (.plain _ rfl)) (noted_itemsCode cx rest _ depth _ array (index + 1))

end

/-- The notes on the code of a statement that catches or cleans up. -/
theorem stmtNotes_attempt {cx : Context} {covered : Bool} {cleanups : Nat} {body : Stmt}
    {catches : List Catch} {cleanup : Option Stmt} (h : ¬ (catches = [] ∧ cleanup = none)) :
    stmtNotes cx covered cleanups (.attempt body catches cleanup) =
      begins covered (stmtNotes cx covered cleanups body ++
        cleanupNotes cx (cleanups + body.cleanupCount + Catch.cleanupCount catches)
          (catchesNotes cx covered (cleanups + body.cleanupCount) catches) cleanup) := by
  match catches, cleanup with
  | [], none => exact absurd ⟨rfl, rfl⟩ h
  | [], some s => rw [stmtNotes]; simp
  | c :: cs, cleanup => rw [stmtNotes]; simp

/-- The notes on a block that runs in any case, on its beginning and on its end. -/
theorem cleanupNotes_some {cx : Context} {cleanups : Nat} {branches : List (List Note)} {s : Stmt} :
    cleanupNotes cx cleanups branches (some s) =
      plain 1 ++ branches ++ ([[.enters cleanups]] ++ plain 5) ++
        stmtNotes cx true (cleanups + 1) s ++
          (plain 2 ++ [[.resumes cleanups]] ++ plain 5 ++ [[.rethrow cleanups]]) := by
  simp only [cleanupNotes, List.append_assoc]

theorem noted_leaveCleanup (pos n : Nat) : Noted (leaveCleanup pos n)
    (plain 2 ++ [[.resumes n]] ++ plain 5 ++ [[.rethrow n]]) := by
  have rethrown : Noted [.raise "rethrow after finally"] [[.rethrow n]] :=
    .one _ (fun targets => ⟨targets .handler, rfl⟩) .nil
  have moved : Noted (code [.store .pending, .load (.savedData n), .store .pendingData, .push 0,
      .store (.savedData n)]) (plain 5) := .plain 5 rfl
  have resumed : Noted (.done (.load (.saved n)) :: _) ([.resumes n] :: _) :=
    .one _ (fun _ => rfl) (moved.append rethrown)
  have tested : Noted (code [.load (.saved n), .jumpIfZero (pos + 9)]) (plain 2) := .plain 2 rfl
  exact tested.append resumed

/-- What is noted where a return or an exception begins to unwind. -/
theorem noted_unwind {cx : Context} {e : Expr} {pos arrays : Nat} {k : Int32} {origin : String}
    (note : Note) (fits : note.Fits (.store .pendingData)) :
    Noted (code [.push k, .store .pending] ++ exprCode cx pos 0 arrays e ++
        code [.store .pendingData] ++ [.raise origin])
      (plain 2 ++ exprNotes cx 0 e ++ [[note]] ++ plain 1) :=
  .append (.append (.append (.plain _ rfl) (noted_exprCode cx e pos 0 arrays))
    (.one note (fun _ => fits) .nil)) (.plain _ rfl)

mutual

theorem noted_stmtCode (cx : Context) (covered : Bool) : ∀ (s : Stmt) (pos cleanups arrays : Nat),
    Noted (stmtCode cx pos cleanups arrays s) (stmtNotes cx covered cleanups s)
  | .skip, _, _, _ => .begins .nil covered
  | .assign _ e, pos, _, arrays =>
    .begins (.append (noted_exprCode cx e pos 0 arrays) (.plain _ rfl)) covered
  | .branch c yes no, pos, cleanups, arrays =>
    .begins (.append (.append (.append (.append (noted_exprCode cx c pos 0 arrays) (.plain _ rfl))
      (noted_stmtCode cx covered yes _ cleanups _)) (.plain _ rfl))
        (noted_stmtCode cx covered no _ (cleanups + yes.cleanupCount) _)) covered
  | .loop c body, pos, cleanups, arrays =>
    .begins (.append (.append (.append (noted_exprCode cx c pos 0 arrays) (.plain _ rfl))
      (noted_stmtCode cx covered body _ cleanups _)) (.plain _ rfl)) covered
  | .chain s t, pos, cleanups, arrays =>
    .begins (.append (noted_stmtCode cx covered s pos cleanups arrays)
      (noted_stmtCode cx covered t _ (cleanups + s.cleanupCount) _)) covered
  | .leave e, pos, _, arrays => .begins (noted_unwind .returns rfl) covered
  | .perform c, pos, _, arrays =>
    .begins (.append (noted_exprCode cx c.expr pos 0 arrays) (.plain _ rfl)) covered
  | .throwing x e, pos, _, arrays => .begins (noted_unwind (.throws (numberOf cx x)) rfl) covered
  | .attempt body catches cleanup, pos, cleanups, arrays => by
    by_cases bare : catches = [] ∧ cleanup = none
    · obtain ⟨rfl, rfl⟩ := bare
      rw [stmtNotes, stmtCode]
      exact .begins (noted_stmtCode cx covered body pos cleanups arrays) covered
    · rw [stmtNotes_attempt bare, stmtCode_attempt bare]
      exact .begins (.append ((noted_stmtCode cx covered body pos cleanups arrays).settle _ _)
        (noted_cleanupCode cx cleanup _ _ _ (noted_catchesCode cx covered catches _ _ _))) covered

theorem noted_catchesCode (cx : Context) (covered : Bool) :
    ∀ (cs : List Catch) (pos cleanups arrays : Nat),
      Noted (catchesCode cx pos cleanups arrays cs) (catchesNotes cx covered cleanups cs)
  | [], _, _, _ => .nil
  | .on x target body :: rest, pos, cleanups, arrays => by
    let next := pos + (stmtCode cx (pos + 10) cleanups arrays body).length + 11
    have caught : Noted (.done (.load .pendingData) :: code [.store (.named target), .push 0,
        .store .pending, .push 0, .store .pendingData]) ([.catches] :: plain 5) :=
      .one _ (fun _ => rfl) (.plain 5 rfl)
    have compared : Noted (code [.push (numberOf cx x), .binary .eq, .jumpIfZero next]) (plain 3) :=
      .plain 3 rfl
    have tested : Noted (.done (.load .pending) :: _) ([.test] :: _) :=
      .one _ (fun _ => rfl) (compared.append caught)
    exact .append (.append (.append tested (noted_stmtCode cx covered body _ cleanups arrays))
      (.plain _ rfl)) (noted_catchesCode cx covered rest _ _ _)

theorem noted_cleanupCode (cx : Context) : ∀ (cleanup : Option Stmt)
    (last cleanups arrays : Nat) {branches : List Mark} {ns : List (List Note)},
    Noted branches ns → Noted (cleanupCode cx last cleanups arrays branches cleanup)
      (cleanupNotes cx cleanups ns cleanup)
  | none, last, _, _, _, _, h => .append (.append (.plain _ rfl) (h.settle _ _)) (.plain _ rfl)
  | some s, last, cleanups, arrays, _, _, h => by
    rw [cleanupNotes_some]
    exact .append (.append (.append (.append (.plain _ rfl) ((h.settle _ _).settle _ _))
      (.one (.enters _) (fun _ => rfl) (.plain 5 rfl))) (noted_stmtCode cx true s _ _ _))
        (noted_leaveCleanup _ _)

end

theorem length_exprNotes (cx : Context) (e : Expr) (pos depth arrays : Nat) :
    (exprNotes cx depth e).length = (exprCode cx pos depth arrays e).length :=
  (noted_exprCode cx e pos depth arrays).length_eq.symm

theorem length_exprsNotes (cx : Context) (es : List Expr) (pos depth arrays : Nat) :
    (exprsNotes cx depth es).length = (exprsCode cx pos depth arrays es).length :=
  (noted_exprsCode cx es pos depth arrays).length_eq.symm

theorem length_itemsNotes (cx : Context) (es : List Expr) (pos depth arrays : Nat)
    (array : Variable) (index : Nat) :
    (itemsNotes cx depth es).length = (itemsCode cx pos depth arrays array index es).length :=
  (noted_itemsCode cx es pos depth arrays array index).length_eq.symm

theorem length_stmtNotes (cx : Context) (covered : Bool) (s : Stmt) (pos cleanups arrays : Nat) :
    (stmtNotes cx covered cleanups s).length = (stmtCode cx pos cleanups arrays s).length :=
  (noted_stmtCode cx covered s pos cleanups arrays).length_eq.symm

theorem length_catchesNotes (cx : Context) (covered : Bool) (cs : List Catch)
    (pos cleanups arrays : Nat) :
    (catchesNotes cx covered cleanups cs).length = (catchesCode cx pos cleanups arrays cs).length :=
  (noted_catchesCode cx covered cs pos cleanups arrays).length_eq.symm

/-- Every instruction of a function has its notes, and they fit. -/
theorem bodyNotes_fit (cx : Context) (s : Stmt) :
    List.Forall₂ (fun i ns => ∀ n ∈ ns, n.Fits i) (bodyCode cx s) (bodyNotes cx s) := by
  let start := (stmtCode cx 0 0 0 s).length + 1
  have noted : Noted (stmtCode cx 0 0 0 s ++ code (.returnZero :: landingCode start))
      (bodyNotes cx s) := by
    rw [bodyNotes, List.append_assoc]
    exact (noted_stmtCode cx false s 0 0 0).append
      (.one .done (fun _ => rfl) (.one .landing (fun _ => rfl) (.plain 7 rfl)))
  have marks : bodyCode cx s = (stmtCode cx 0 0 0 s ++ code (.returnZero :: landingCode start)).map
      (Mark.instruction fun _ => start) := by
    simp [bodyCode, code, Mark.instruction, Function.comp_def, start]
  rw [marks, List.forall₂_map_left_iff]
  exact noted.imp fun m ns fits n hn => fits n hn _

theorem fits_of_mem {cx : Context} {s : Stmt} {i : Nat} {n : Note}
    (h : n ∈ (bodyNotes cx s)[i]?.getD []) :
    ∃ instruction, (bodyCode cx s)[i]? = some instruction ∧ n.Fits instruction := by
  obtain ⟨size, fits⟩ := List.forall₂_iff_get.mp (bodyNotes_fit cx s)
  by_cases hi : i < (bodyNotes cx s).length
  · rw [List.getElem?_eq_getElem hi] at h
    exact ⟨_, List.getElem?_eq_getElem (size ▸ hi), fits i (size ▸ hi) hi n h⟩
  · rw [List.getElem?_eq_none (Nat.not_lt.mp hi)] at h
    exact absurd h List.not_mem_nil

/-- The notes on `try return 7 finally x := 1 yrt`. -/
example : bodyNotes ⟨[], [], []⟩
    (.attempt (.leave (.const 7)) [] (some (.assign "x" (.const 1)))) =
      [[.start false, .start false], [], [], [.returns], [], []] ++
        [[.enters 0], [], [], [], [], [], [.start true], []] ++
          [[], [], [.resumes 0], [], [], [], [], [], [.rethrow 0]] ++
            [[.done], [.landing], [], [], [], [], [], [], []] := by
  decide

end Compilation

namespace Machine

open Compilation (Note bodyNotes)

/-! ## Watches -/

/-- What is under way in an activation, and what was when each block began that runs in any case. -/
structure Watch where
  under : Option Unwinding
  kept : Nat → Option Unwinding

/-- Nothing has happened so far. -/
def Watch.fresh : Watch :=
  ⟨none, fun _ => none⟩

/-- The number of what is under way says that something is, and if it is a return. -/
structure Genuine (u : Unwinding) : Prop where
  nonzero : u.number ≠ 0
  returning : u.number = Exceptions.returning ↔ ∃ v, u = .returning v

/-- The variables and operands of an activation, and the watch on it. -/
structure Frame where
  store : Store
  operands : List Value
  watch : Watch

namespace Frame

/-- Something begins to unwind. -/
def raise (f : Frame) (u : Unwinding) : Frame :=
  { f with watch := { f.watch with under := some u } }

/-- The watch goes by what there is to note about a place. -/
def see (f : Frame) : Note → Frame
  | .returns =>
    match f.operands with
    | v :: _ => f.raise (.returning v)
    | [] => f
  | .throws n =>
    match f.operands with
    | v :: _ => f.raise (.thrown n v)
    | [] => f
  | .takes => f.raise (.thrown (f.store.load .thrown).word (f.store.load .thrownData))
  | .catches => { f with watch := { f.watch with under := none } }
  | .enters n =>
    { f with watch := ⟨none, fun k => if k = n then f.watch.under else f.watch.kept k⟩ }
  | .resumes n => { f with watch := { f.watch with under := f.watch.kept n } }
  | _ => f

/-- The watch goes by all that there is to note about a place. -/
def seeAll (f : Frame) (ns : List Note) : Frame :=
  ns.foldl see f

/-- Nothing is under way where a statement begins, nor is an exception handed over. -/
structure Between (f : Frame) (covered : Bool) : Prop where
  operands : f.operands = []
  under : f.watch.under = none
  pending : f.store.load .pending = .scalar 0
  thrown : f.store.load .thrown = .scalar 0
  data : covered = false → f.store.load .pendingData = .scalar 0

/-- Something is under way, and the variables say what it is. -/
structure Unwinds (f : Frame) (u : Unwinding) : Prop where
  under : f.watch.under = some u
  pending : f.store.load .pending = .scalar u.number
  data : f.store.load .pendingData = u.payload
  genuine : Genuine u

end Frame

/-- What is to be the case at a place. -/
def Holds (f : Frame) : Note → Prop
  | .start covered => f.Between covered
  | .done => f.Between false
  | .test | .landing => ∃ u, f.Unwinds u
  | .rethrow n => ∃ u, f.watch.kept n = some u ∧ f.Unwinds u
  | _ => True

/-! ## Runs with watches -/

/-- An activation with the watch on it. -/
def Activation.frame (a : Activation) (g : Watch) : Frame :=
  ⟨a.bindings, a.operands, g⟩

/-- The watches after an instruction, given the watch on the activation that has executed it, those
on its callers, and how many callers there were. -/
def watches (g : Watch) (gs : List Watch) (callers : Nat) : Progress → List Watch
  | .running _ _ now =>
    if callers < now.length then .fresh :: g :: gs
    else if now.length < callers then gs
    else g :: gs
  | _ => []

/-- A run comes to something, with watches on the activations, the topmost in front. -/
inductive Watched (image : Image) (notes : Routine → Nat → List Note) (p : Progress) :
    Progress → List Watch → Prop
  | start : Watched image notes p p [.fresh]
  | step {w : World} {a : Activation} {callers : List Activation} {g : Watch} {gs : List Watch} :
    Watched image notes p (.running w a callers) (g :: gs) →
      Watched image notes p (Machine.step image w a callers)
        (watches ((a.frame g).seeAll (notes a.routine a.next)).watch gs callers.length
          (Machine.step image w a callers))

end Machine

end Threefold.Bytecode
