import Threefold.Proofs.Bytecode.Layout
import Threefold.Proofs.Bytecode.Reached
import Threefold.Proofs.Bytecode.Tags
import Threefold.Proofs.Heap.Moments

/-!
# Literals in bytecode

The compiler puts a call of `strDup` behind every instruction for a string literal
(`copies_bodyCode`), so what the code computes with are copies. Which built-in functions a run calls
is `Machine.Takes`: as in an evaluation, the calls are a chain from the world in which the run begins
to that of everything it comes to (`Machine.Takes.chain`).
-/

namespace Threefold.Bytecode

namespace Compilation

open Draft (JumpKind)

/-! ## Literals in code -/

/-- Every instruction for a string literal names one in the pool, and is followed by a call that
copies it. -/
def Copies (cx : Context) (ms : List Mark) : Prop :=
  ∀ k j, ms[k]? = some (.done (.pushLiteral j)) → j < cx.literals.length ∧
    ms[k + 1]? = some (.done (.call (.intrinsic .strDup)))

namespace Copies

variable {cx : Context} {ms ns : List Mark}

theorem nil : Copies cx [] := by
  intro k j h
  cases h

theorem append (hm : Copies cx ms) (hn : Copies cx ns) : Copies cx (ms ++ ns) := by
  intro k j h
  rw [List.getElem?_append] at h
  split at h
  case isTrue inside =>
    obtain ⟨pooled, next⟩ := hm k j h
    have inside' := (List.getElem?_eq_some_iff.mp next).1
    exact ⟨pooled, by rw [List.getElem?_append_left inside', next]⟩
  case isFalse outside =>
    obtain ⟨pooled, next⟩ := hn _ j h
    refine ⟨pooled, ?_⟩
    rw [List.getElem?_append_right (by omega), ← next]
    congr 1
    omega

/-- Code without instructions for string literals. -/
theorem of_not_mem (h : ∀ j, Mark.done (.pushLiteral j) ∉ ms) : Copies cx ms :=
  fun _ j there => absurd (List.mem_of_getElem? there) (h j)

theorem settle (h : Copies cx ms) (goal : Goal) (target : Nat) :
    Copies cx (ms.map (.settle goal target)) := by
  have same (m : Mark) (i : Instruction) (plain : ∀ kind : JumpKind, kind.instruction target ≠ i) :
      m.settle goal target = .done i → m = .done i := by
    intro settled
    cases m with
    | done i' => exact settled
    | jump g kind origin =>
      simp only [Mark.settle] at settled
      split at settled
      · cases settled
        exact absurd rfl (plain kind)
      · cases settled
  intro k j there
  rw [List.getElem?_map] at there ⊢
  obtain ⟨m, found, settled⟩ := Option.map_eq_some_iff.mp there
  rw [same m _ (by rintro (_ | _) ⟨⟩) settled] at found
  obtain ⟨pooled, next⟩ := h k j found
  rw [next]
  exact ⟨pooled, rfl⟩

theorem code {is : List Instruction} (h : ∀ j, Instruction.pushLiteral j ∉ is) :
    Copies cx (Compilation.code is) :=
  of_not_mem fun j there => by
    obtain ⟨i, mem, same⟩ := List.mem_map.mp there
    cases same
    exact h j mem

theorem jump (goal : Goal) (kind : JumpKind) (origin : String) : Copies cx [.jump goal kind origin] := by
  refine .of_not_mem fun j there => ?_
  cases List.mem_singleton.mp there

theorem check (pos depth : Nat) (origin : String) : Copies cx (checkCode pos depth origin) := by
  refine .of_not_mem fun j => ?_
  simp [checkCode, Compilation.code, Mark.raise]

end Copies

section Parts

variable {cx : Context}

mutual

theorem copies_exprCode : ∀ (e : Expr), (∀ text ∈ e.literals, text ∈ cx.literals) →
    ∀ pos depth arrays, Copies cx (exprCode cx pos depth arrays e)
  | .const _, _, _, _, _ => .of_not_mem (by simp [exprCode, code])
  | .string s, pooled, _, _, _ => by
    obtain ⟨n, found⟩ := Option.isSome_iff_exists.mp
      (List.isSome_idxOf?.mpr (pooled s (by simp [Expr.literals])))
    have inside := List.findIdx?_eq_some_iff_getElem.mp found |>.1
    intro k j h
    match k with
    | 0 =>
      simp only [exprCode, found] at h
      cases h
      exact ⟨inside, rfl⟩
    | 1 => cases h
    | k + 2 => cases h
  | .array boxed items, pooled, pos, depth, arrays => by
    have front : Copies cx (code [.push (.ofNat items.length), .push 0,
        .call (.intrinsic (if boxed then .arrMakeBoxed else .arrMake)), .store (.array arrays)]) :=
      .of_not_mem (by simp [code])
    exact (front.append (copies_itemsCode items pooled _ _ _ _ _)).append
      (.of_not_mem (by simp [code]))
  | .var _, _, _, _, _ => .of_not_mem (by simp [exprCode, code])
  | .unary _ e, pooled, pos, depth, arrays =>
    (copies_exprCode e pooled pos depth arrays).append (.of_not_mem (by simp [code]))
  | .binary _ l r, pooled, _, _, _ => by
    simp only [Expr.literals, List.mem_append, or_imp, forall_and] at pooled
    exact ((copies_exprCode l pooled.1 _ _ _).append (copies_exprCode r pooled.2 _ _ _)).append
      (.of_not_mem (by simp [code]))
  | .call callee arguments _, pooled, pos, depth, arrays => by
    refine ((copies_exprsCode arguments pooled pos depth arrays).append (.code (by simp))).append ?_
    split
    · exact .check _ _ _
    · exact .nil

theorem copies_exprsCode : ∀ (es : List Expr), (∀ text ∈ Expr.listLiterals es, text ∈ cx.literals) →
    ∀ pos depth arrays, Copies cx (exprsCode cx pos depth arrays es)
  | [], _, _, _, _ => .nil
  | e :: rest, pooled, _, _, _ => by
    simp only [Expr.listLiterals, List.mem_append, or_imp, forall_and] at pooled
    exact (copies_exprCode e pooled.1 _ _ _).append (copies_exprsCode rest pooled.2 _ _ _)

theorem copies_itemsCode : ∀ (es : List Expr), (∀ text ∈ Expr.listLiterals es, text ∈ cx.literals) →
    ∀ pos depth arrays array index, Copies cx (itemsCode cx pos depth arrays array index es)
  | [], _, _, _, _, _, _ => .nil
  | e :: rest, pooled, _, _, _, array, index => by
    simp only [Expr.listLiterals, List.mem_append, or_imp, forall_and] at pooled
    refine .append (.append (.append (.append (.append ?_ (copies_exprCode e pooled.1 _ _ _)) ?_)
      (.check _ _ _)) ?_) (copies_itemsCode rest pooled.2 _ _ _ _ _)
    all_goals exact .code (by simp)

end

mutual

theorem copies_stmtCode : ∀ (s : Stmt), (∀ text ∈ s.literals, text ∈ cx.literals) →
    ∀ pos cleanups arrays, Copies cx (stmtCode cx pos cleanups arrays s)
  | .skip, _, _, _, _ => .nil
  | .assign _ e, pooled, _, _, _ => (copies_exprCode e pooled _ _ _).append (.code (by simp))
  | .branch c yes no, pooled, _, _, _ => by
    simp only [Stmt.literals, List.mem_append, or_imp, forall_and] at pooled
    refine .append (.append (.append (.append (copies_exprCode c pooled.1.1 _ _ _) ?_)
      (copies_stmtCode yes pooled.1.2 _ _ _)) ?_) (copies_stmtCode no pooled.2 _ _ _)
    all_goals exact .code (by simp)
  | .loop c body, pooled, _, _, _ => by
    simp only [Stmt.literals, List.mem_append, or_imp, forall_and] at pooled
    refine .append (.append (.append (copies_exprCode c pooled.1 _ _ _) ?_)
      (copies_stmtCode body pooled.2 _ _ _)) ?_
    all_goals exact .code (by simp)
  | .chain s t, pooled, _, _, _ => by
    simp only [Stmt.literals, List.mem_append, or_imp, forall_and] at pooled
    exact (copies_stmtCode s pooled.1 _ _ _).append (copies_stmtCode t pooled.2 _ _ _)
  | .leave e, pooled, _, _, _ =>
    .append (.append (.append (.code (by simp)) (copies_exprCode e pooled _ _ _)) (.code (by simp)))
      (.jump _ _ _)
  | .perform c, pooled, _, _, _ => (copies_exprCode c.expr pooled _ _ _).append (.code (by simp))
  | .throwing _ e, pooled, _, _, _ =>
    .append (.append (.append (.code (by simp)) (copies_exprCode e pooled _ _ _)) (.code (by simp)))
      (.jump _ _ _)
  | .attempt body catches cleanup, pooled, pos, cleanups, arrays => by
    simp only [Stmt.literals, List.mem_append, or_imp, forall_and] at pooled
    by_cases plain : catches = [] ∧ cleanup = none
    · obtain ⟨rfl, rfl⟩ := plain
      rw [stmtCode]
      exact copies_stmtCode body pooled.1.1 pos cleanups arrays
    · rw [stmtCode_attempt plain]
      exact ((copies_stmtCode body pooled.1.1 _ _ _).settle _ _).append
        (copies_cleanupCode cleanup pooled.2 _ _ _ (copies_catchesCode catches pooled.1.2 _ _ _))

theorem copies_catchesCode : ∀ (cs : List Catch), (∀ text ∈ Catch.literals cs, text ∈ cx.literals) →
    ∀ pos cleanups arrays, Copies cx (catchesCode cx pos cleanups arrays cs)
  | [], _, _, _, _ => .nil
  | .on _ _ body :: rest, pooled, _, _, _ => by
    simp only [Catch.literals, List.mem_append, or_imp, forall_and] at pooled
    exact .append (.append (.append (.code (by simp)) (copies_stmtCode body pooled.1 _ _ _))
      (.jump _ _ _)) (copies_catchesCode rest pooled.2 _ _ _)

theorem copies_cleanupCode : ∀ (cleanup : Option Stmt),
    (∀ text ∈ Stmt.cleanupLiterals cleanup, text ∈ cx.literals) →
    ∀ (last cleanups arrays : Nat) {branches : List Mark}, Copies cx branches →
    Copies cx (cleanupCode cx last cleanups arrays branches cleanup)
  | none, _, _, _, _, _, h =>
    .append (.append (.code (by simp)) (h.settle _ _)) (.jump _ _ _)
  | some s, pooled, _, _, _, _, h =>
    .append (.append (.append (.append (.code (by simp)) ((h.settle _ _).settle _ _))
      (.code (by simp))) (copies_stmtCode s pooled _ _ _)) (.append (.code (by simp)) (.jump _ _ _))

end

end Parts

/-- Every instruction for a string literal names one in the pool, and a call that copies it comes
next. -/
theorem copies_bodyCode {cx : Context} {st : Stmt} (pooled : ∀ text ∈ st.literals, text ∈ cx.literals)
    {k j : Nat} (h : (bodyCode cx st)[k]? = some (.pushLiteral j)) :
    j < cx.literals.length ∧ (bodyCode cx st)[k + 1]? = some (.call (.intrinsic .strDup)) := by
  have whole : Copies cx (stmtCode cx 0 0 0 st ++
      code (.returnZero :: landingCode ((stmtCode cx 0 0 0 st).length + 1))) :=
    (copies_stmtCode st pooled 0 0 0).append (.code (by simp [landingCode]))
  have same : bodyCode cx st = (stmtCode cx 0 0 0 st ++
      code (.returnZero :: landingCode ((stmtCode cx 0 0 0 st).length + 1))).map
        (Mark.instruction fun _ => (stmtCode cx 0 0 0 st).length + 1) := by
    simp [bodyCode, code, Function.comp_def, Mark.instruction]
  rw [same, List.getElem?_map] at h ⊢
  obtain ⟨m, found, filled⟩ := Option.map_eq_some_iff.mp h
  obtain rfl : m = .done (.pushLiteral j) := by
    cases m with
    | done i =>
      cases filled
      rfl
    | jump goal kind origin => cases kind <;> cases filled
  obtain ⟨inside, next⟩ := whole k j found
  exact ⟨inside, by rw [next]; rfl⟩

end Compilation

namespace Machine

/-! ## The moments of a run -/

/-- The call of a built-in function that an activation makes next, if it makes one. -/
def Activation.calls (a : Activation) (w : World) : List Moment :=
  match a.routine.code[a.next]? with
  | some (.call (.intrinsic i)) =>
    if a.operands.length < i.arity then []
    else [⟨w, .call i (a.operands.take i.arity).reverse⟩]
  | _ => []

/-- A run that begins with one thing comes to another, and calls built-in functions on the way. -/
inductive Takes (image : Image) (p : Progress) : List Moment → Progress → Prop
  | start : Takes image p [] p
  | step {ms : List Moment} {w : World} {a : Activation} {callers : List Activation} :
    Takes image p ms (.running w a callers) →
    Takes image p (ms ++ a.calls w) (Machine.step image w a callers)

section Takes

variable {image : Image} {p q : Progress} {ms : List Moment} {w w' : World} {a : Activation}
  {callers : List Activation}

theorem Takes.reached (h : Takes image p ms q) : Reached image p q := by
  induction h with
  | start => exact .start
  | step _ ih => exact ih.step

/-- Whatever a run comes to, some calls are made on the way. -/
theorem Reached.takes (h : Reached image p q) : ∃ ms, Takes image p ms q := by
  induction h with
  | start => exact ⟨[], .start⟩
  | step _ ih =>
    obtain ⟨ms, taken⟩ := ih
    exact ⟨_, taken.step⟩

theorem callIntrinsic_world {i : Intrinsic} {arguments : List Value} :
    (callIntrinsic w i arguments a callers).world? = Moment.next? ⟨w, .call i arguments⟩ := by
  simp only [callIntrinsic, Moment.next?]
  cases i.call arguments w with
  | ok reply w' => cases reply <;> rfl
  | error f w' => rfl

/-- The world after an instruction is the one that the call leaves, if the instruction calls a built-in
function, and else the world before it. -/
theorem step_chain : Chain w (a.calls w) (step image w a callers).world? := by
  simp only [Activation.calls, step]
  cases found : a.routine.code[a.next]? with
  | none => exact .none
  | some i =>
    dsimp only
    split
    case h_1 j same =>
      cases same
      simp only [execute]
      by_cases few : a.operands.length < j.arity
      · rw [if_pos few, if_pos (show a.operands.length < (Callee.intrinsic j).arity from few)]
        exact .none
      · rw [if_neg few, if_neg (show ¬a.operands.length < (Callee.intrinsic j).arity from few)]
        rw [callIntrinsic_world]
        exact .single _
    case h_2 plain =>
      exact fun w' hw => execute_world (fun j same => plain j (congrArg some same)) hw

/-- The calls of a run lead from the world in which it begins to that of whatever it comes to. -/
theorem Takes.chain (h : Takes image p ms q) (start : Chain w [] p.world?) : Chain w ms q.world? := by
  induction h with
  | start => exact start
  | step _ ih => exact Chain.append ih step_chain

/-- The two instructions for a literal: its entry in the pool, and a copy of that. -/
theorem Takes.literal (h : Takes image p ms (.running w a callers)) {j : Nat} {entry n : Int32}
    (here : a.routine.code[a.next]? = some (.pushLiteral j))
    (next : a.routine.code[a.next + 1]? = some (.call (.intrinsic .strDup)))
    (pooled : image.pool[j]? = some entry)
    (called : Intrinsic.call .strDup [.scalar entry] w = .ok (.scalar n) w') :
    Takes image p (ms ++ [⟨w, .call .strDup [.scalar entry]⟩])
      (.running w' (Activation.push { a with next := a.next + 2 } (.scalar n)) callers) := by
  have first := h.step
  have pushed : Machine.step image w a callers =
      .running w (Activation.push { a with next := a.next + 1 } (.scalar entry)) callers := by
    simp only [Machine.step, here, execute, pooled]
  rw [pushed, show a.calls w = [] by simp only [Activation.calls, here], List.append_nil] at first
  have second := first.step
  have calls : (Activation.push { a with next := a.next + 1 } (.scalar entry)).calls w =
      [⟨w, .call .strDup [.scalar entry]⟩] := by
    simp only [Activation.calls, Activation.push, next]
    rfl
  have copied : Machine.step image w (Activation.push { a with next := a.next + 1 } (.scalar entry)) callers =
      .running w' (Activation.push { a with next := a.next + 2 } (.scalar n)) callers := by
    simp only [Machine.step, Activation.push, next]
    show callIntrinsic w .strDup [.scalar entry] _ callers = _
    simp only [callIntrinsic, called]
    rfl
  rwa [calls, copied] at second

end Takes

end Machine

end Threefold.Bytecode
