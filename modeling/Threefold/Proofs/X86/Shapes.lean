import Threefold.Proofs.Bytecode.Writing
import Threefold.Proofs.X86.Fitting

/-!
# Compiled programs are lowered

Lowering accepts whatever the compiler writes. The compiler counts the operands that an expression
has below it, since the code that looks for an exception takes them off; lowering knows their shape
from the instructions. Both agree at every place. The shapes are written down next to the code
(`exprShapes`, `stmtShapes`): a statement begins and ends without operands, an expression leaves one
on top of those below it, and an exception is raised only once they are gone.

* `enters_expr` and `enters_stmt` say that code fits with its shapes, if what comes behind it does.
* `lower_total` is about whole programs.
-/

namespace Threefold

namespace X86.Operands

/-- Operands on top of others, the last one topmost. -/
def pushAll (s : Operands) (owned : List Bool) : Operands :=
  ⟨owned.reverse ++ s.owned⟩

theorem pushAll_push (s : Operands) (o : Bool) (os : List Bool) :
    (s.push o).pushAll os = s.pushAll (o :: os) := by
  simp [pushAll, push]

theorem depth_pushAll (s : Operands) (os : List Bool) :
    (s.pushAll os).depth = s.depth + os.length := by
  simp [pushAll, depth, Nat.add_comm]

theorem drop_pushAll (s : Operands) (os : List Bool) :
    (s.pushAll os).owned.drop os.length = s.owned := by
  simp [pushAll, List.drop_left']

end X86.Operands

namespace Bytecode.Compilation

open X86 (Operands)
open X86.Lowering (effect isOwned Finds Leads Entered)

/-! ## The shapes of compiled code -/

/-- Whether the value of an expression owns a reference. -/
def owns : Expr → Bool
  | .string _ => isOwned (.intrinsic .strDup)
  | .call callee _ _ => isOwned callee.target
  | .const _ => false
  | .array _ _ => false
  | .var _ => false
  | .unary _ _ => false
  | .binary _ _ _ => false

/-- The shapes while operands are taken one by one, and when none is left. -/
def takenShapes : List Bool → List Operands
  | [] => [.empty]
  | o :: below => ⟨o :: below⟩ :: takenShapes below

/-- The shapes where the code looks for an exception that a callee has handed over. -/
def checkShapes (s : Operands) : List Operands :=
  [s, s.push false, s, s.push false, s, s.push true, s, s.push false] ++ takenShapes s.owned

mutual

/-- The shapes at the instructions of an expression that begins with given operands. -/
def exprShapes (throwing : List Signature) (s : Operands) : Expr → List Operands
  | .const _ => [s]
  | .string _ => [s, s.push false]
  | .array _ items =>
    [s, s.push false, (s.push false).push false, s.push true] ++ itemsShapes throwing s items ++ [s]
  | .var _ => [s]
  | .unary _ e => exprShapes throwing s e ++ [s.push (owns e)]
  | .binary _ l r =>
    exprShapes throwing s l ++ exprShapes throwing (s.push (owns l)) r ++
      [(s.push (owns l)).push (owns r)]
  | .call callee arguments _ =>
    exprsShapes throwing s arguments ++ [s.pushAll (arguments.map owns)] ++
      if callee.canThrow throwing then checkShapes (s.push (isOwned callee.target)) else []

/-- The shapes at the instructions of expressions whose values are left on the stack. -/
def exprsShapes (throwing : List Signature) (s : Operands) : List Expr → List Operands
  | [] => []
  | e :: rest => exprShapes throwing s e ++ exprsShapes throwing (s.push (owns e)) rest

/-- The shapes at the instructions that store the values of expressions in an array. -/
def itemsShapes (throwing : List Signature) (s : Operands) : List Expr → List Operands
  | [] => []
  | e :: rest =>
    [s, s.push false] ++ exprShapes throwing ((s.push false).push false) e ++
      [((s.push false).push false).push (owns e)] ++
      checkShapes (s.push (isOwned (.intrinsic .arrSet))) ++
      [s.push (isOwned (.intrinsic .arrSet))] ++ itemsShapes throwing s rest

end

/-- The shapes at the instructions of an expression, and at one that takes its value. -/
def valueShapes (throwing : List Signature) (e : Expr) : List Operands :=
  exprShapes throwing .empty e ++ [Operands.empty.push (owns e)]

/-- The shapes where values are loaded and stored by turns. -/
def movingShapes : Nat → List Operands
  | 0 => []
  | n + 1 => .empty :: Operands.empty.push false :: movingShapes n

mutual

/-- The shapes at the instructions of a statement. -/
def stmtShapes (throwing : List Signature) : Stmt → List Operands
  | .skip => []
  | .assign _ e => valueShapes throwing e
  | .branch c yes no =>
    valueShapes throwing c ++ stmtShapes throwing yes ++ [.empty] ++ stmtShapes throwing no
  | .loop c body => valueShapes throwing c ++ stmtShapes throwing body ++ [.empty]
  | .chain s t => stmtShapes throwing s ++ stmtShapes throwing t
  | .leave e => movingShapes 1 ++ valueShapes throwing e ++ [.empty]
  | .perform c => valueShapes throwing c.expr
  | .throwing _ e => movingShapes 1 ++ valueShapes throwing e ++ [.empty]
  | .attempt body [] none => stmtShapes throwing body
  | .attempt body catches cleanup =>
    stmtShapes throwing body ++ [.empty] ++ catchesShapes throwing catches ++
      cleanupShapes throwing cleanup

/-- The shapes at the instructions of catch branches. -/
def catchesShapes (throwing : List Signature) : List Catch → List Operands
  | [] => []
  | .on _ _ body :: rest =>
    [.empty, Operands.empty.push false, (Operands.empty.push false).push false,
      Operands.empty.push false] ++ movingShapes 3 ++ stmtShapes throwing body ++ [.empty] ++
      catchesShapes throwing rest

/-- The shapes at the instructions behind the catch branches. -/
def cleanupShapes (throwing : List Signature) : Option Stmt → List Operands
  | none => [.empty]
  | some s => movingShapes 3 ++ stmtShapes throwing s ++ movingShapes 4 ++ [.empty]

end

/-- The shapes at the instructions of a function. -/
def bodyShapes (throwing : List Signature) (s : Stmt) : List Operands :=
  stmtShapes throwing s ++ [.empty, .empty, Operands.empty.push false,
    (Operands.empty.push false).push false, Operands.empty.push false, .empty,
    Operands.empty.push false, .empty, .empty]

/-- The shapes of a statement that catches or cleans up. -/
theorem stmtShapes_attempt {throwing : List Signature} {body : Stmt} {catches : List Catch}
    {cleanup : Option Stmt} (h : ¬ (catches = [] ∧ cleanup = none)) :
    stmtShapes throwing (.attempt body catches cleanup) =
      stmtShapes throwing body ++ [.empty] ++ catchesShapes throwing catches ++
        cleanupShapes throwing cleanup := by
  match catches, cleanup with
  | [], none => exact absurd ⟨rfl, rfl⟩ h
  | [], some s => simp [stmtShapes]
  | c :: cs, cleanup => simp [stmtShapes]

/-! ### As many as there are instructions -/

@[simp]
theorem length_takenShapes (os : List Bool) : (takenShapes os).length = os.length + 1 := by
  induction os with
  | nil => rfl
  | cons o os ih => simp [takenShapes, ih]

@[simp]
theorem length_checkShapes (s : Operands) : (checkShapes s).length = s.depth + 9 := by
  simp [checkShapes, Operands.depth]

@[simp]
theorem length_movingShapes (n : Nat) : (movingShapes n).length = 2 * n := by
  induction n with
  | zero => rfl
  | succ n ih =>
    simp only [movingShapes, List.length_cons, ih]
    omega

section Length

variable (cx : Context)

mutual

theorem length_exprShapes : ∀ (e : Expr) (s : Operands) (pos arrays : Nat),
    (exprShapes cx.throwing s e).length = (exprCode cx pos s.depth arrays e).length
  | .const _, _, _, _ => rfl
  | .string _, _, _, _ => rfl
  | .array boxed items, s, pos, arrays => by
    have inner := length_itemsShapes items s (pos + 4) (arrays + 1) (.array arrays) 0
    simp [exprShapes, exprCode, inner]
  | .var _, _, _, _ => rfl
  | .unary _ e, s, pos, arrays => by
    simp [exprShapes, exprCode, length_exprShapes e s pos arrays]
  | .binary _ l r, s, pos, arrays => by
    have right := length_exprShapes r (s.push (owns l))
      (pos + (exprCode cx pos s.depth arrays l).length) (arrays + l.arrayCount)
    rw [Operands.depth_push] at right
    simp [exprShapes, exprCode, length_exprShapes l s pos arrays, right]
  | .call callee arguments _, s, pos, arrays => by
    simp only [exprShapes, exprCode, List.length_append,
      length_exprsShapes arguments s pos arrays]
    split <;> simp

theorem length_exprsShapes : ∀ (es : List Expr) (s : Operands) (pos arrays : Nat),
    (exprsShapes cx.throwing s es).length = (exprsCode cx pos s.depth arrays es).length
  | [], _, _, _ => rfl
  | e :: rest, s, pos, arrays => by
    have others := length_exprsShapes rest (s.push (owns e))
      (pos + (exprCode cx pos s.depth arrays e).length) (arrays + e.arrayCount)
    rw [Operands.depth_push] at others
    simp [exprsShapes, exprsCode, length_exprShapes e s pos arrays, others]

theorem length_itemsShapes : ∀ (es : List Expr) (s : Operands) (pos arrays : Nat)
    (array : Variable) (index : Nat), (itemsShapes cx.throwing s es).length =
      (itemsCode cx pos s.depth arrays array index es).length
  | [], _, _, _, _, _ => rfl
  | e :: rest, s, pos, arrays, array, index => by
    have value := length_exprShapes e ((s.push false).push false) (pos + 2) arrays
    rw [Operands.depth_push, Operands.depth_push] at value
    simp [itemsShapes, itemsCode, value,
      length_itemsShapes rest s
        (pos + (exprCode cx (pos + 2) (s.depth + 2) arrays e).length + s.depth + 14)
        (arrays + e.arrayCount) array (index + 1)]

end

theorem length_valueShapes (e : Expr) (pos arrays : Nat) :
    (valueShapes cx.throwing e).length = (exprCode cx pos 0 arrays e).length + 1 := by
  simp [valueShapes, length_exprShapes cx e .empty pos arrays]

mutual

theorem length_stmtShapes : ∀ (st : Stmt) (pos cleanups arrays : Nat),
    (stmtShapes cx.throwing st).length = (stmtCode cx pos cleanups arrays st).length
  | .skip, _, _, _ => by simp [stmtShapes, stmtCode]
  | .assign _ e, pos, cleanups, arrays => by
    simp [stmtShapes, stmtCode, length_valueShapes cx e pos arrays]
  | .branch c yes no, pos, cleanups, arrays => by
    simp only [stmtShapes, stmtCode, List.length_append, List.length_singleton, length_code,
      length_valueShapes cx c pos arrays]
    rw [length_stmtShapes yes (pos + (exprCode cx pos 0 arrays c).length + 1) cleanups
      (arrays + c.arrayCount), length_stmtShapes no _ (cleanups + yes.cleanupCount)
      (arrays + c.arrayCount + yes.arrayCount)]
  | .loop c body, pos, cleanups, arrays => by
    simp only [stmtShapes, stmtCode, List.length_append, List.length_singleton, length_code,
      length_valueShapes cx c pos arrays]
    rw [length_stmtShapes body _ cleanups (arrays + c.arrayCount)]
  | .chain s t, pos, cleanups, arrays => by
    simp only [stmtShapes, stmtCode, List.length_append]
    rw [length_stmtShapes s pos cleanups arrays,
      length_stmtShapes t _ (cleanups + s.cleanupCount) (arrays + s.arrayCount)]
  | .leave e, pos, cleanups, arrays => by
    simp [stmtShapes, stmtCode, length_valueShapes cx e (pos + 2) arrays]
    omega
  | .perform c, pos, cleanups, arrays => by
    simp [stmtShapes, stmtCode, length_valueShapes cx c.expr pos arrays]
  | .throwing _ e, pos, cleanups, arrays => by
    simp [stmtShapes, stmtCode, length_valueShapes cx e (pos + 2) arrays]
    omega
  | .attempt body catches cleanup, pos, cleanups, arrays => by
    by_cases plain : catches = [] ∧ cleanup = none
    · obtain ⟨rfl, rfl⟩ := plain
      simp only [stmtShapes, stmtCode]
      exact length_stmtShapes body pos cleanups arrays
    · rw [stmtCode_attempt plain, stmtShapes_attempt plain]
      simp only [List.length_append, List.length_map, List.length_singleton]
      rw [length_stmtShapes body pos cleanups arrays,
        length_catchesShapes catches (pos + (stmtCode cx pos cleanups arrays body).length + 1)
          (cleanups + body.cleanupCount) (arrays + body.arrayCount),
        ← length_cleanupShapes cleanup]
      omega

theorem length_catchesShapes : ∀ (cs : List Catch) (pos cleanups arrays : Nat),
    (catchesShapes cx.throwing cs).length = (catchesCode cx pos cleanups arrays cs).length
  | [], _, _, _ => by simp [catchesShapes, catchesCode]
  | .on x target body :: rest, pos, cleanups, arrays => by
    simp only [catchesShapes, catchesCode, List.length_append, List.length_singleton, length_code,
      length_movingShapes]
    rw [length_stmtShapes body (pos + 10) cleanups arrays,
      length_catchesShapes rest _ (cleanups + body.cleanupCount) (arrays + body.arrayCount)]
    rfl

theorem length_cleanupShapes : ∀ (cleanup : Option Stmt) (last cleanups arrays : Nat)
    (branches : List Mark), 1 + branches.length + (cleanupShapes cx.throwing cleanup).length =
      (cleanupCode cx last cleanups arrays branches cleanup).length
  | none, _, _, _, _ => by
    simp [cleanupShapes, cleanupCode]
    omega
  | some s, last, cleanups, arrays, _ => by
    simp [cleanupShapes, cleanupCode, length_stmtShapes s (last + 6) (cleanups + 1) arrays]
    omega

end

theorem length_bodyShapes (st : Stmt) :
    (bodyShapes cx.throwing st).length = (bodyCode cx st).length := by
  simp [bodyShapes, bodyCode, landingCode, length_stmtShapes cx st 0 0 0]

end Length

/-! ## Finished code with its shapes -/

/-- The shapes of a routine are given ones from an index on. -/
def ShapesAt (shapes : List Operands) : Nat → List Operands → Prop
  | _, [] => True
  | pos, s :: rest => shapes[pos]? = some s ∧ ShapesAt shapes (pos + 1) rest

section ShapesAt

variable {shapes : List Operands} {pos : Nat}

theorem ShapesAt.split {ss ts : List Operands} (h : ShapesAt shapes pos (ss ++ ts)) {n : Nat}
    (hn : ss.length = n) : ShapesAt shapes pos ss ∧ ShapesAt shapes (pos + n) ts := by
  subst hn
  induction ss generalizing pos with
  | nil => exact ⟨trivial, h⟩
  | cons s ss ih =>
    obtain ⟨first, others⟩ := ih h.2
    have shift : pos + 1 + ss.length = pos + (s :: ss).length := by
      rw [List.length_cons]
      omega
    exact ⟨⟨h.1, first⟩, shift ▸ others⟩

theorem ShapesAt.split₃ {ss ts us : List Operands} (h : ShapesAt shapes pos (ss ++ ts ++ us))
    {m n : Nat} (hm : ss.length = m) (hn : ts.length = n) :
    ShapesAt shapes pos ss ∧ ShapesAt shapes (pos + m) ts ∧ ShapesAt shapes (pos + m + n) us := by
  rw [List.append_assoc] at h
  obtain ⟨first, rest⟩ := h.split hm
  exact ⟨first, rest.split hn⟩

theorem ShapesAt.cast {ss : List Operands} (h : ShapesAt shapes pos ss) (pos' : Nat)
    (hp : pos = pos') : ShapesAt shapes pos' ss :=
  hp ▸ h

theorem shapesAt_append (before ss : List Operands) :
    ShapesAt (before ++ ss) before.length ss := by
  induction ss generalizing before with
  | nil => trivial
  | cons s ss ih =>
    refine ⟨by simp, ?_⟩
    have rest := ih (before ++ [s])
    simpa using rest

mutual

/-- The first shape of an expression is that of the operands below it. -/
theorem start_of_exprShapes {throwing : List Signature} : ∀ {e : Expr} {s : Operands} {pos : Nat},
    ShapesAt shapes pos (exprShapes throwing s e) → shapes[pos]? = some s
  | .const _, _, _, h => h.1
  | .string _, _, _, h => h.1
  | .array _ _, _, _, h => h.1
  | .var _, _, _, h => h.1
  | .unary _ e, _, _, h => start_of_exprShapes (e := e) (h.split rfl).1
  | .binary _ l _, _, _, h => start_of_exprShapes (e := l) (h.split₃ rfl rfl).1
  | .call _ _ _, _, _, h => start_of_exprsShapes (h.split rfl).1

theorem start_of_exprsShapes {throwing : List Signature} : ∀ {es : List Expr} {s : Operands}
    {pos : Nat}, ShapesAt shapes pos (exprsShapes throwing s es ++ [s.pushAll (es.map owns)]) →
    shapes[pos]? = some s
  | [], _, _, h => h.1
  | _ :: _, _, _, h => start_of_exprShapes ((h.split rfl).1.split rfl).1

end

end ShapesAt

/-! ## Code that fits with its shapes -/

/-- What an instruction refers to is part of the program. -/
def Available (b : Bytecode) : Instruction → Prop
  | .pushLiteral n => n < b.literals.length
  | .call (.routine f) => (b.routine? f).isSome
  | _ => True

/-- Instructions in a row find what they need, and control goes from each to the next. -/
def Passes (b : Bytecode) : Operands → List Instruction → Prop
  | _, [] => True
  | s, i :: is =>
    (i.pops ≤ s.depth ∧ Available b i ∧ i.target? = none ∧ i.endsFlow = false ∧ i ≠ .transfer) ∧
      Passes b (effect s i) is

section Passes

variable {b : Bytecode} {s : Operands} {o o' : Bool} {is : List Instruction}

@[simp]
theorem passes_nil : Passes b s [] := trivial

/-- An instruction that is only about operands. -/
theorem passes_cons {i : Instruction} (enough : i.pops ≤ s.depth) (available : Available b i)
    (plain : i.target? = none) (flows : i.endsFlow = false) (ne : i ≠ .transfer) :
    Passes b s (i :: is) ↔ Passes b (effect s i) is :=
  ⟨fun h => h.2, fun h => ⟨⟨enough, available, plain, flows, ne⟩, h⟩⟩

@[simp]
theorem passes_push (n : Int32) : Passes b s (.push n :: is) ↔ Passes b (s.push false) is :=
  passes_cons (Nat.zero_le _) trivial rfl rfl (by nofun)

@[simp]
theorem passes_load (x : Variable) :
    Passes b s (.load x :: is) ↔ Passes b (s.push (x = .thrownData)) is :=
  passes_cons (Nat.zero_le _) trivial rfl rfl (by nofun)

@[simp]
theorem passes_store (x : Variable) : Passes b (s.push o) (.store x :: is) ↔ Passes b s is :=
  passes_cons (Nat.le_add_left 1 _) trivial rfl rfl (by nofun)

@[simp]
theorem passes_pop : Passes b (s.push o) (.pop :: is) ↔ Passes b s is :=
  passes_cons (Nat.le_add_left 1 _) trivial rfl rfl (by nofun)

@[simp]
theorem passes_unary (op : UnaryOp) :
    Passes b (s.push o) (.unary op :: is) ↔ Passes b (s.push false) is :=
  passes_cons (Nat.le_add_left 1 _) trivial rfl rfl (by nofun)

@[simp]
theorem passes_binary (op : BinaryOp) :
    Passes b ((s.push o).push o') (.binary op :: is) ↔ Passes b (s.push false) is :=
  passes_cons (Nat.le_add_left 2 _) trivial rfl rfl (by nofun)

@[simp]
theorem passes_arrMake :
    Passes b ((s.push o).push o') (.call (.intrinsic .arrMake) :: is) ↔
      Passes b (s.push true) is :=
  passes_cons (Nat.le_add_left 2 _) trivial rfl rfl (by nofun)

@[simp]
theorem passes_arrMakeBoxed :
    Passes b ((s.push o).push o') (.call (.intrinsic .arrMakeBoxed) :: is) ↔
      Passes b (s.push true) is :=
  passes_cons (Nat.le_add_left 2 _) trivial rfl rfl (by nofun)

@[simp]
theorem passes_arrSet {o'' : Bool} :
    Passes b (((s.push o).push o').push o'') (.call (.intrinsic .arrSet) :: is) ↔
      Passes b (s.push (isOwned (.intrinsic .arrSet))) is :=
  passes_cons (Nat.le_add_left 3 _) trivial rfl rfl (by nofun)

end Passes

/-- The shapes at instructions in a row. -/
def along : Operands → List Instruction → List Operands
  | _, [] => []
  | s, i :: is => s :: along (effect s i) is

/-- What the code of a routine mentions has a place. -/
def Homed (c : X86.Context) : Prop :=
  ∀ i ∈ c.routine.code.toList, ∀ x, X86.Frame.mentioned? c.bytecode i = some x →
    (c.frame.home? x).isSome

/-- From an index on, where there are given operands, the shapes fit. -/
structure Enters (c : X86.Context) (shapes : List Operands) (pos : Nat) (s : Operands) : Prop where
  start : shapes[pos]? = some s
  leads : ∀ index i s', pos ≤ index → c.routine.code[index]? = some i →
    shapes[index]? = some s' → Leads c shapes index s' i

section Enters

variable {c : X86.Context} {shapes : List Operands} {pos : Nat} {s s' : Operands}
  {targets : Goal → Nat} {i : Instruction}

theorem finds_of_homed (homed : Homed c) (hi : c.routine.code[pos]? = some i)
    (enough : i.pops ≤ s.depth) (available : Available c.bytecode i) (ne : i ≠ .transfer) :
    Finds c s i := by
  refine ⟨enough, ?_, ?_, fun x hx => homed i ?_ x ?_⟩
  · rintro n rfl
    exact available
  · rintro f rfl
    exact available
  · rw [← Array.getElem?_toList] at hi
    exact List.mem_of_getElem? hi
  · have mentioned : X86.Lowering.needed c.bytecode i = (X86.Frame.mentioned? c.bytecode i).toList := by
      cases i <;> first | rfl | exact absurd rfl ne
    rw [mentioned] at hx
    exact Option.mem_toList.mp hx

namespace Enters

theorem cast (h : Enters c shapes pos s) {pos' : Nat} (hp : pos = pos') :
    Enters c shapes pos' s :=
  hp ▸ h

theorem cons (hi : c.routine.code[pos]? = some i) (hs : shapes[pos]? = some s)
    (first : Leads c shapes pos s i) (h : Enters c shapes (pos + 1) s') :
    Enters c shapes pos s := by
  refine ⟨hs, fun index j t low hj ht => ?_⟩
  rcases Nat.eq_or_lt_of_le low with rfl | low
  · rw [hi] at hj
    rw [hs] at ht
    cases hj
    cases ht
    exact first
  · exact h.leads index j t low hj ht

/-- An instruction that control gets past. -/
theorem next (homed : Homed c) (hi : c.routine.code[pos]? = some i) (hs : shapes[pos]? = some s)
    (passes : Passes c.bytecode s [i]) (h : Enters c shapes (pos + 1) (effect s i)) :
    Enters c shapes pos s := by
  obtain ⟨⟨enough, available, plain, flows, ne⟩, -⟩ := passes
  refine .cons hi hs ⟨finds_of_homed homed hi enough available ne, ?_, fun _ => h.start, ?_⟩ h
  · rw [plain]
    nofun
  · rw [flows]
    nofun

theorem jump (homed : Homed c) {t : Nat} (hi : c.routine.code[pos]? = some (.jump t))
    (hs : shapes[pos]? = some s) (ht : shapes[t]? = some s) (h : Enters c shapes (pos + 1) s')
    (rests : s' = .empty ∨ Entered c (pos + 1)) : Enters c shapes pos s := by
  have finds := finds_of_homed homed hi (s := s) (Nat.zero_le _) trivial (by nofun)
  refine .cons hi hs ⟨finds, ?_, by nofun, ?_⟩ h
  · rintro u ⟨⟩
    exact ht
  · intro _ x hx
    obtain rfl : x = s' := Option.some.inj (hx.symm.trans h.start)
    exact rests

theorem jumpIfZero (homed : Homed c) {t : Nat} {o : Bool}
    (hi : c.routine.code[pos]? = some (.jumpIfZero t)) (hs : shapes[pos]? = some (s.push o))
    (ht : shapes[t]? = some s) (h : Enters c shapes (pos + 1) s) :
    Enters c shapes pos (s.push o) := by
  have finds := finds_of_homed homed hi (s := s.push o) (Nat.succ_pos _) trivial (by nofun)
  refine .cons hi hs ⟨finds, ?_, fun _ => h.start, by nofun⟩ h
  rintro u ⟨⟩
  exact ht

/-- An instruction that control does not get past, with no operands behind it. -/
theorem stop (homed : Homed c) (hi : c.routine.code[pos]? = some i) (hs : shapes[pos]? = some s)
    (enough : i.pops ≤ s.depth) (hr : i = .returnValue ∨ i = .returnZero)
    (h : Enters c shapes (pos + 1) .empty) : Enters c shapes pos s := by
  rcases hr with rfl | rfl <;>
  · refine .cons hi hs ⟨finds_of_homed homed hi enough trivial (by nofun), by nofun, by nofun, ?_⟩ h
    exact fun _ x hx => .inl (Option.some.inj (hx.symm.trans h.start))

/-- The last instruction. -/
theorem last (homed : Homed c) (hi : c.routine.code[pos]? = some .returnZero)
    (hs : shapes[pos]? = some s) (size : c.routine.code.size = pos + 1)
    (length : shapes.length = pos + 1) : Enters c shapes pos s := by
  refine ⟨hs, fun index j t low hj ht => ?_⟩
  obtain ⟨bound, -⟩ := Array.getElem?_eq_some_iff.mp hj
  obtain rfl : index = pos := by omega
  rw [hi] at hj
  cases hj
  have finds := finds_of_homed homed hi (s := t) (Nat.zero_le _) trivial (by nofun)
  refine ⟨finds, by nofun, by nofun, fun _ x hx => ?_⟩
  rw [List.getElem?_eq_none (Nat.le_of_eq length)] at hx
  cases hx

/-- Instructions in a row. -/
theorem block (homed : Homed c) (is : List Instruction)
    (hc : CodeAt c.routine.code targets pos (code is)) (hs : ShapesAt shapes pos (along s is))
    (passes : Passes c.bytecode s is)
    (h : Enters c shapes (pos + is.length) (is.foldl effect s)) : Enters c shapes pos s := by
  induction is generalizing pos s with
  | nil => exact h
  | cons i is ih =>
    have shift : pos + (i :: is).length = pos + 1 + is.length := by
      rw [List.length_cons]
      omega
    exact .next homed hc.1 hs.1 ⟨passes.1, trivial⟩ (ih hc.2 hs.2 passes.2 (h.cast shift))

/-- The operands are taken one by one, and an exception is raised. -/
theorem taken (homed : Homed c) {origin : String} (raise : shapes[targets .handler]? = some .empty) :
    ∀ {os : List Bool} {pos : Nat},
    CodeAt c.routine.code targets pos (code (List.replicate os.length .pop) ++ [.raise origin]) →
    ShapesAt shapes pos (takenShapes os) → Entered c (pos + os.length + 1) →
    Enters c shapes (pos + os.length + 1) s → Enters c shapes pos ⟨os⟩
  | [], _, hc, hs, entered, h => .jump homed hc.1 hs.1 raise h (.inr entered)
  | o :: os, pos, hc, hs, entered, h => by
    have shift : pos + (o :: os).length + 1 = pos + 1 + os.length + 1 := by
      rw [List.length_cons]
      omega
    have passes : Passes c.bytecode (Operands.push ⟨os⟩ o) [.pop] := by simp
    exact .next homed hc.1 hs.1 passes
      (Enters.taken homed raise hc.2 hs.2 (shift ▸ entered) (h.cast shift))

/-- The code that looks for an exception. -/
theorem check (homed : Homed c) {origin : String}
    (hc : CodeAt c.routine.code targets pos (checkCode pos s.depth origin))
    (hs : ShapesAt shapes pos (checkShapes s)) (raise : shapes[targets .handler]? = some .empty)
    (h : Enters c shapes (pos + s.depth + 9) s) : Enters c shapes pos s := by
  let moves : List Instruction := [.load .thrown, .store .pending, .load .thrownData,
    .store .pendingData, .push 0, .store .thrown]
  have parts : checkCode pos s.depth origin =
      code [.load .thrown, .jumpIfZero (pos + s.depth + 9)] ++ code moves ++
        (code (List.replicate s.depth .pop) ++ [.raise origin]) := by
    simp [checkCode, moves]
  rw [parts] at hc
  obtain ⟨tested, moved, popped⟩ := codeAt_append₃.mp hc
  obtain ⟨start, taken⟩ := hs.split (n := 8) rfl
  have entered : Entered c (pos + 8 + s.depth + 1) := by
    refine ⟨pos + 1, _, by omega, tested.2.1, ?_⟩
    show some (pos + s.depth + 9) = some (pos + 8 + s.depth + 1)
    congr 1
    omega
  have behind : Enters c shapes (pos + 8 + s.depth + 1) s := h.cast (by omega)
  have raised : Enters c shapes (pos + 8) s := .taken homed raise popped taken entered behind
  have passes : Passes c.bytecode s moves := by simp [moves]
  have kept : Enters c shapes (pos + 2) s := .block homed moves moved start.2.2 passes raised
  refine .block homed [.load .thrown] ⟨tested.1, trivial⟩ ⟨start.1, trivial⟩ (by simp) ?_
  exact .jumpIfZero homed tested.2.1 start.2.1 h.start kept

end Enters

/-! ### Expressions -/

/-- The program of a routine is what the compiler knew of it. -/
structure Serves (c : X86.Context) (cx : Context) (declared : List Signature) : Prop where
  literals : c.bytecode.literals = cx.literals
  compiled : ∀ f ∈ declared, (c.bytecode.routine? f).isSome
  homed : Homed c

variable {cx : Context} {declared : List Signature}

/-- A call takes as many operands as it has arguments. -/
theorem arity_of_bound {callee : Threefold.Callee} {k : Nat} (bound : callee.Bound declared k) :
    callee.target.arity = k := by
  cases callee with
  | unbound name arity => exact bound.elim
  | declared f => exact bound.2
  | intrinsic i => exact bound

theorem passes_call (serves : Serves c cx declared) {callee : Threefold.Callee} {os : List Bool}
    (bound : callee.Bound declared os.length) :
    Passes c.bytecode (s.pushAll os) [.call callee.target] := by
  have enough : callee.target.arity ≤ (s.pushAll os).depth := by
    rw [arity_of_bound bound, Operands.depth_pushAll]
    omega
  refine ⟨⟨enough, ?_, rfl, rfl, by nofun⟩, trivial⟩
  cases callee with
  | unbound name arity => exact bound.elim
  | declared f => exact serves.compiled f bound.1
  | intrinsic i => trivial

theorem effect_call {callee : Threefold.Callee} {os : List Bool}
    (bound : callee.Bound declared os.length) :
    effect (s.pushAll os) (.call callee.target) = s.push (isOwned callee.target) := by
  simp only [effect, Instruction.pops, arity_of_bound bound, Operands.drop_pushAll]

mutual

theorem enters_expr (serves : Serves c cx declared) : ∀ {e : Expr} {s : Operands}
    {pos arrays : Nat}, ExprOk cx declared e →
    CodeAt c.routine.code targets pos (exprCode cx pos s.depth arrays e) →
    ShapesAt shapes pos (exprShapes cx.throwing s e) →
    shapes[targets .handler]? = some .empty →
    Enters c shapes (pos + (exprCode cx pos s.depth arrays e).length) (s.push (owns e)) →
    Enters c shapes pos s
  | .const n, _, _, _, _, hc, hs, _, h => .block serves.homed [.push n] hc hs (by simp) h
  | .string text, s, _, _, ok, hc, hs, _, h => by
    have pooled : (cx.literals.idxOf? text).getD 0 < c.bytecode.literals.length := by
      rw [serves.literals]
      obtain ⟨n, hn⟩ := Option.isSome_iff_exists.mp (List.isSome_idxOf?.mpr ok)
      rw [hn]
      exact (List.idxOf?_eq_some_iff.mp hn).choose
    refine .block serves.homed [.pushLiteral _, .call (.intrinsic .strDup)] hc hs ?_ h
    exact ⟨⟨Nat.zero_le _, pooled, rfl, rfl, by nofun⟩,
      ⟨Nat.succ_pos _, trivial, rfl, rfl, by nofun⟩, trivial⟩
  | .array boxed items, s, pos, arrays, ok, hc, hs, raise, h => by
    obtain ⟨first, inner, last⟩ := codeAt_append₃.mp hc
    obtain ⟨made, filled, top⟩ := hs.split₃ (m := 4) rfl
      (length_itemsShapes cx items s (pos + 4) (arrays + 1) (.array arrays) 0)
    have loaded : Enters c shapes (pos + 4 + _) s :=
      .block serves.homed [.load (.array arrays)] last top (by simp)
        (h.cast (by simp [exprCode]; omega))
    have stored := enters_items serves ok inner filled raise loaded
    cases boxed <;>
      exact .block serves.homed [.push _, .push 0, .call (.intrinsic _), .store (.array arrays)]
        first made (by simp) stored
  | .var x, _, _, _, _, hc, hs, _, h => .block serves.homed [.load (.named x)] hc hs (by simp) h
  | .unary op e, s, pos, arrays, ok, hc, hs, raise, h => by
    obtain ⟨operand, operator⟩ := codeAt_append.mp hc
    obtain ⟨below, top⟩ := hs.split (length_exprShapes cx e s pos arrays)
    refine enters_expr serves (e := e) ok operand below raise ?_
    exact .block serves.homed [.unary op] operator top (by simp)
      (h.cast (by simp [exprCode, Nat.add_assoc]))
  | .binary op l r, s, pos, arrays, ok, hc, hs, raise, h => by
    obtain ⟨left, right, operator⟩ := codeAt_append₃.mp hc
    obtain ⟨first, second, top⟩ := hs.split₃ (length_exprShapes cx l s pos arrays)
      (length_exprShapes cx r (s.push (owns l)) _ (arrays + l.arrayCount))
    refine enters_expr serves ok.1 left first raise
      (enters_expr serves ok.2 right second raise ?_)
    exact .block serves.homed [.binary op] operator top (by simp)
      (h.cast (by simp [exprCode, Nat.add_assoc]))
  | .call callee arguments location, s, pos, arrays, ok, hc, hs, raise, h => by
    obtain ⟨bound, argumentsOk⟩ := ok
    obtain ⟨values, call, checked⟩ := codeAt_append₃.mp hc
    obtain ⟨first, called, found⟩ := hs.split₃ (length_exprsShapes cx arguments s pos arrays)
      (n := 1) rfl
    have bound' : callee.Bound declared (arguments.map owns).length := by rwa [List.length_map]
    refine enters_exprs serves argumentsOk values first raise ?_
    refine .block serves.homed [.call callee.target] call called (passes_call serves bound') ?_
    show Enters c shapes _ (effect (s.pushAll _) (.call callee.target))
    rw [effect_call bound']
    by_cases can : callee.canThrow cx.throwing = true
    · rw [if_pos can] at checked found
      exact .check serves.homed checked found raise
        (h.cast (by simp [exprCode, can]; omega))
    · exact h.cast (by simp [exprCode, can, Nat.add_assoc])

theorem enters_exprs (serves : Serves c cx declared) : ∀ {es : List Expr} {s : Operands}
    {pos arrays : Nat}, ExprsOk cx declared es →
    CodeAt c.routine.code targets pos (exprsCode cx pos s.depth arrays es) →
    ShapesAt shapes pos (exprsShapes cx.throwing s es) →
    shapes[targets .handler]? = some .empty →
    Enters c shapes (pos + (exprsCode cx pos s.depth arrays es).length)
      (s.pushAll (es.map owns)) →
    Enters c shapes pos s
  | [], s, pos, _, _, _, _, _, h => h
  | e :: rest, s, pos, arrays, ok, hc, hs, raise, h => by
    obtain ⟨first, others⟩ := codeAt_append.mp hc
    obtain ⟨below, top⟩ := hs.split (length_exprShapes cx e s pos arrays)
    refine enters_expr serves ok.1 first below raise
      (enters_exprs serves ok.2 others top raise ?_)
    rw [Operands.pushAll_push]
    exact h.cast (by simp [exprsCode, Nat.add_assoc])

theorem enters_items (serves : Serves c cx declared) : ∀ {es : List Expr} {s : Operands}
    {pos arrays index k : Nat}, ExprsOk cx declared es →
    CodeAt c.routine.code targets pos (itemsCode cx pos s.depth arrays (.array k) index es) →
    ShapesAt shapes pos (itemsShapes cx.throwing s es) →
    shapes[targets .handler]? = some .empty →
    Enters c shapes (pos + (itemsCode cx pos s.depth arrays (.array k) index es).length) s →
    Enters c shapes pos s
  | [], s, pos, _, _, _, _, _, _, _, h => h
  | e :: rest, s, pos, arrays, index, k, ok, hc, hs, raise, h => by
    simp only [itemsCode] at hc h
    obtain ⟨hc, others⟩ := codeAt_append.mp hc
    obtain ⟨hc, popped⟩ := codeAt_append.mp hc
    obtain ⟨hc, checked⟩ := codeAt_append.mp hc
    obtain ⟨addressed, value, set⟩ := codeAt_append₃.mp hc
    simp only [itemsShapes, List.append_assoc] at hs
    let size := (exprCode cx (pos + 2) (s.depth + 2) arrays e).length
    have length : (exprShapes cx.throwing ((s.push false).push false) e).length = size :=
      length_exprShapes cx e _ (pos + 2) arrays
    obtain ⟨hs₁, hs⟩ := hs.split (n := 2) rfl
    obtain ⟨hs₂, hs⟩ := hs.split length
    obtain ⟨hs₃, hs⟩ := hs.split (n := 1) rfl
    obtain ⟨hs₄, hs⟩ := hs.split (length_checkShapes _)
    obtain ⟨hs₅, hs⟩ := hs.split (n := 1) rfl
    have filled : Enters c shapes (pos + size + s.depth + 14) s :=
      enters_items serves ok.2 (others.cast _ (by simp [size]; omega))
        (hs.cast _ (by simp [size]; omega)) raise (h.cast (by simp [size]; omega))
    have dropped : Enters c shapes (pos + size + s.depth + 13)
        (s.push (isOwned (.intrinsic .arrSet))) :=
      .block serves.homed [.pop] (popped.cast _ (by simp [size]; omega))
        (hs₅.cast _ (by simp [size]; omega)) (by simp) filled
    have found : Enters c shapes (pos + size + 3) (s.push (isOwned (.intrinsic .arrSet))) :=
      .check serves.homed (checked.cast _ (by simp [size]; omega))
        (hs₄.cast _ (by simp [size]; omega)) raise (dropped.cast (by simp; omega))
    have stored : Enters c shapes (pos + 2 + size) (((s.push false).push false).push (owns e)) :=
      .block serves.homed [.call (.intrinsic .arrSet)] set hs₃ (by simp)
        (found.cast (by simp; omega))
    exact .block serves.homed [.load (.array k), .push _] addressed hs₁ (by simp)
      (enters_expr serves ok.1 value hs₂ raise stored)

end

/-- An expression whose value an instruction takes. -/
theorem enters_value (serves : Serves c cx declared) {e : Expr} {arrays : Nat}
    (ok : ExprOk cx declared e) (hc : CodeAt c.routine.code targets pos (exprCode cx pos 0 arrays e))
    (hs : ShapesAt shapes pos (valueShapes cx.throwing e))
    (raise : shapes[targets .handler]? = some .empty)
    (h : shapes[pos + (exprCode cx pos 0 arrays e).length]? = some (Operands.empty.push (owns e)) →
      Enters c shapes (pos + (exprCode cx pos 0 arrays e).length) (Operands.empty.push (owns e))) :
    Enters c shapes pos .empty := by
  obtain ⟨below, top⟩ := hs.split (length_exprShapes cx e .empty pos arrays)
  exact enters_expr serves ok hc below raise (h top.1)

/-- A number and a payload are put under way. -/
theorem enters_raising (serves : Serves c cx declared) {e : Expr} {arrays : Nat} {n : Int32}
    {origin : String} (ok : ExprOk cx declared e)
    (hc : CodeAt c.routine.code targets pos (code [.push n, .store .pending] ++
      exprCode cx (pos + 2) 0 arrays e ++ code [.store .pendingData] ++ [.raise origin]))
    (hs : ShapesAt shapes pos (movingShapes 1 ++ valueShapes cx.throwing e ++ [.empty]))
    (raise : shapes[targets .handler]? = some .empty)
    (h : Enters c shapes (pos + (code [.push n, .store .pending] ++
      exprCode cx (pos + 2) 0 arrays e ++ code [.store .pendingData] ++
        [Mark.raise origin]).length) .empty) : Enters c shapes pos .empty := by
  obtain ⟨hc, raised⟩ := codeAt_append.mp hc
  obtain ⟨number, value, kept⟩ := codeAt_append₃.mp hc
  obtain ⟨hs₁, hs₂, hs₃⟩ := hs.split₃ (m := 2) rfl (length_valueShapes cx e (pos + 2) arrays)
  refine .block serves.homed [.push n, .store .pending] number hs₁ (by simp) ?_
  refine enters_value serves ok value hs₂ raise fun top => ?_
  refine .block serves.homed [.store .pendingData] kept ⟨top, trivial⟩ (by simp) ?_
  exact .jump serves.homed (raised.cast _ (by simp; omega)).1 (hs₃.cast _ (by simp; omega)).1 raise
    (h.cast (by simp; omega)) (.inl rfl)

/-! ### Statements -/

mutual

theorem enters_stmt (serves : Serves c cx declared) : ∀ {st : Stmt} {targets : Goal → Nat}
    {pos cleanups arrays : Nat}, StmtOk cx declared st →
    CodeAt c.routine.code targets pos (stmtCode cx pos cleanups arrays st) →
    ShapesAt shapes pos (stmtShapes cx.throwing st) →
    shapes[targets .handler]? = some .empty →
    Enters c shapes (pos + (stmtCode cx pos cleanups arrays st).length) .empty →
    Enters c shapes pos .empty
  | .skip, _, pos, _, _, _, _, _, _, h => h.cast (by simp [stmtCode])
  | .assign x e, _, pos, cleanups, arrays, ok, hc, hs, raise, h => by
    simp only [stmtCode] at hc h
    obtain ⟨value, store⟩ := codeAt_append.mp hc
    refine enters_value serves (e := e) ok value hs raise fun top => ?_
    exact .block serves.homed [.store (.named x)] store ⟨top, trivial⟩ (by simp)
      (h.cast (by simp [Nat.add_assoc]))
  | .perform call, _, pos, cleanups, arrays, ok, hc, hs, raise, h => by
    simp only [stmtCode] at hc h
    obtain ⟨value, pop⟩ := codeAt_append.mp hc
    refine enters_value serves (e := call.expr) ok value hs raise fun top => ?_
    exact .block serves.homed [.pop] pop ⟨top, trivial⟩ (by simp)
      (h.cast (by simp [Nat.add_assoc]))
  | .branch cond yes no, _, pos, cleanups, arrays, ok, hc, hs, raise, h => by
    simp only [stmtCode] at hc h
    obtain ⟨hc, second⟩ := codeAt_append.mp hc
    obtain ⟨hc, past⟩ := codeAt_append.mp hc
    obtain ⟨value, test, first⟩ := codeAt_append₃.mp hc
    let m := (exprCode cx pos 0 arrays cond).length
    let n := (stmtCode cx (pos + m + 1) cleanups (arrays + cond.arrayCount) yes).length
    simp only [stmtShapes, List.append_assoc] at hs
    obtain ⟨hs₁, hs⟩ := hs.split (length_valueShapes cx cond pos arrays)
    obtain ⟨hs₂, hs⟩ := hs.split
      (length_stmtShapes cx yes (pos + m + 1) cleanups (arrays + cond.arrayCount))
    obtain ⟨hs₃, hs₄⟩ := hs.split (n := 1) rfl
    have other : Enters c shapes (pos + m + n + 2) .empty :=
      enters_stmt serves ok.2.2 (second.cast _ (by simp [m, n]; omega)) (hs₄.cast _ (by omega)) raise
        (h.cast (by simp [m, n]; omega))
    have past' := (past.cast (pos + m + n + 1) (by simp [m, n]; omega)).1
    have left : Enters c shapes (pos + m + n + 1) .empty :=
      .jump serves.homed past' (hs₃.cast _ (by omega)).1
        (h.cast (by simp; omega)).start other (.inl rfl)
    refine enters_value serves (e := cond) ok.1 value hs₁ raise fun top =>
      .jumpIfZero serves.homed test.1 top other.start
        (enters_stmt serves ok.2.1 (first.cast _ (by simp)) (hs₂.cast _ (by omega)) raise
          (left.cast (by simp [m, n]; omega)))
  | .loop cond body, _, pos, cleanups, arrays, ok, hc, hs, raise, h => by
    simp only [stmtCode] at hc h
    obtain ⟨hc, back⟩ := codeAt_append.mp hc
    obtain ⟨value, test, inner⟩ := codeAt_append₃.mp hc
    let m := (exprCode cx pos 0 arrays cond).length
    let n := (stmtCode cx (pos + m + 1) cleanups (arrays + cond.arrayCount) body).length
    obtain ⟨hs₁, hs₂, hs₃⟩ := hs.split₃ (length_valueShapes cx cond pos arrays)
      (length_stmtShapes cx body (pos + m + 1) cleanups (arrays + cond.arrayCount))
    have behind : Enters c shapes (pos + m + n + 2) .empty := h.cast (by simp [m, n]; omega)
    have again : Enters c shapes (pos + m + n + 1) .empty :=
      .jump serves.homed (back.cast _ (by simp [m, n]; omega)).1 (hs₃.cast _ (by omega)).1
        (start_of_exprShapes (hs₁.split rfl).1) behind (.inl rfl)
    refine enters_value serves (e := cond) ok.1 value hs₁ raise fun top =>
      .jumpIfZero serves.homed test.1 top behind.start
        (enters_stmt serves ok.2 (inner.cast _ (by simp)) (hs₂.cast _ (by omega)) raise
          (again.cast (by simp [m, n]; omega)))
  | .chain s t, _, pos, cleanups, arrays, ok, hc, hs, raise, h => by
    simp only [stmtCode] at hc h
    obtain ⟨first, second⟩ := codeAt_append.mp hc
    obtain ⟨hs₁, hs₂⟩ := hs.split (length_stmtShapes cx s pos cleanups arrays)
    refine enters_stmt serves ok.1 first hs₁ raise (enters_stmt serves ok.2 second hs₂ raise ?_)
    exact h.cast (by simp [Nat.add_assoc])
  | .leave e, _, pos, cleanups, arrays, ok, hc, hs, raise, h => by
    simp only [stmtCode] at hc h
    exact enters_raising serves ok hc hs raise h
  | .throwing _ e, _, pos, cleanups, arrays, ok, hc, hs, raise, h => by
    simp only [stmtCode] at hc h
    exact enters_raising serves ok.2 hc hs raise h
  | .attempt body catches cleanup, targets, pos, cleanups, arrays, ok, hc, hs, raise, h => by
    by_cases plain : catches = [] ∧ cleanup = none
    · obtain ⟨rfl, rfl⟩ := plain
      simp only [stmtCode] at hc h
      simp only [stmtShapes] at hs
      exact enters_stmt serves ok.1 hc hs raise h
    rw [stmtCode_attempt plain] at hc h
    rw [stmtShapes_attempt plain, List.append_assoc] at hs
    obtain ⟨settled, behind⟩ := codeAt_append.mp hc
    rw [List.length_map] at behind
    let m := (stmtCode cx pos cleanups arrays body).length
    obtain ⟨hs, tail⟩ := hs.split (n := m + 1)
      (by simp [m, length_stmtShapes cx body pos cleanups arrays])
    obtain ⟨hs₁, hs₂⟩ := hs.split (length_stmtShapes cx body pos cleanups arrays)
    obtain ⟨hs₃, hs₄⟩ := (tail.cast (pos + m + 1) rfl).split (length_catchesShapes cx catches (pos + m + 1)
      (cleanups + body.cleanupCount) (arrays + body.arrayCount))
    obtain ⟨landed, left⟩ := enters_cleanup serves ok.2.2 rfl
      (fun _ branches raise' exit' next =>
        enters_catches serves ok.2.1 branches hs₃ raise' exit' next)
      behind hs₂.1 hs₄ raise
      (h.cast (by rw [List.length_append, List.length_map, ← Nat.add_assoc]))
    exact enters_stmt serves ok.1 (codeAt_settle.mp settled) hs₁ landed.start left

theorem enters_catches (serves : Serves c cx declared) : ∀ {cs : List Catch}
    {targets : Goal → Nat} {pos cleanups arrays : Nat}, CatchesOk cx declared cs →
    CodeAt c.routine.code targets pos (catchesCode cx pos cleanups arrays cs) →
    ShapesAt shapes pos (catchesShapes cx.throwing cs) →
    shapes[targets .handler]? = some .empty → shapes[targets .exit]? = some .empty →
    Enters c shapes (pos + (catchesCode cx pos cleanups arrays cs).length) .empty →
    Enters c shapes pos .empty
  | [], _, _, _, _, _, _, _, _, _, h => h.cast (by simp [catchesCode])
  | .on x target body :: rest, targets, pos, cleanups, arrays, ok, hc, hs, raise, exit, h => by
    obtain ⟨-, bodyOk, restOk⟩ := ok
    simp only [catchesCode] at hc h
    obtain ⟨hc, others⟩ := codeAt_append.mp hc
    obtain ⟨head, inner, left⟩ := codeAt_append₃.mp hc
    let m := (stmtCode cx (pos + 10) cleanups arrays body).length
    simp only [catchesShapes, List.append_assoc] at hs
    obtain ⟨hs₁, hs⟩ := hs.split (n := 4) rfl
    obtain ⟨hs₂, hs⟩ := hs.split (n := 6) rfl
    obtain ⟨hs₃, hs⟩ := hs.split (length_stmtShapes cx body (pos + 10) cleanups arrays)
    obtain ⟨hs₄, hs₅⟩ := hs.split (n := 1) rfl
    have next : Enters c shapes (pos + m + 11) .empty :=
      enters_catches serves restOk (others.cast _ (by simp [m]; omega))
        (hs₅.cast _ (by simp [m]; omega)) raise exit (h.cast (by simp [m]; omega))
    have leaving : Enters c shapes (pos + 10 + m) .empty :=
      .jump serves.homed (left.cast _ (by simp [m])).1 hs₄.1 exit (next.cast (by omega)) (.inl rfl)
    have run := enters_stmt serves bodyOk inner hs₃ raise leaving
    let moves : List Instruction := [.load .pendingData, .store (.named target), .push 0,
      .store .pending, .push 0, .store .pendingData]
    have moved : CodeAt c.routine.code targets (pos + 4) (code moves) := head.2.2.2.2
    have begun : Enters c shapes (pos + 4) .empty :=
      .block serves.homed moves moved hs₂ (by simp [moves]) run
    let test : List Instruction := [.load .pending, .push (numberOf cx x), .binary .eq]
    refine .block serves.homed test ⟨head.1, head.2.1, head.2.2.1, trivial⟩
      ⟨hs₁.1, hs₁.2.1, hs₁.2.2.1, trivial⟩ (by simp [test]) ?_
    exact .jumpIfZero serves.homed head.2.2.2.1 hs₁.2.2.2.1 next.start begun

/-- The end of a statement that catches, given its catch branches. -/
theorem enters_cleanup (serves : Serves c cx declared) : ∀ {cleanup : Option Stmt}
    {targets : Goal → Nat} {start last cleanups arrays : Nat} {branches : List Mark},
    CleanupOk cx declared cleanup → last = start + 1 + branches.length →
    (∀ targets', CodeAt c.routine.code targets' (start + 1) branches →
      shapes[targets' .handler]? = some .empty → shapes[targets' .exit]? = some .empty →
      Enters c shapes (start + 1 + branches.length) .empty →
      Enters c shapes (start + 1) .empty) →
    CodeAt c.routine.code targets start (cleanupCode cx last cleanups arrays branches cleanup) →
    shapes[start]? = some .empty → ShapesAt shapes last (cleanupShapes cx.throwing cleanup) →
    shapes[targets .handler]? = some .empty →
    Enters c shapes (start + (cleanupCode cx last cleanups arrays branches cleanup).length) .empty →
    Enters c shapes (start + 1) .empty ∧ Enters c shapes start .empty
  | none, targets, start, last, _, _, branches, _, hlast, catching, hc, hs, tail, raise, h => by
    subst hlast
    simp only [cleanupCode] at hc h
    obtain ⟨jump, settled, unmatched⟩ := codeAt_append₃.mp hc
    rw [List.length_map] at unmatched
    have behind : Enters c shapes (start + 1 + branches.length + 1) .empty :=
      h.cast (by simp; omega)
    have rethrown : Enters c shapes (start + 1 + branches.length) .empty :=
      .jump serves.homed unmatched.1 tail.1 raise behind (.inl rfl)
    have caught := catching _ (codeAt_settle.mp settled) raise behind.start rethrown
    exact ⟨caught, .jump serves.homed jump.1 hs behind.start caught (.inl rfl)⟩
  | some s, targets, start, last, cleanups, arrays, branches, ok, hlast, catching, hc, hs, tail,
      raise, h => by
    subst hlast
    let n := start + 1 + branches.length
    let m := (stmtCode cx (n + 6) (cleanups + 1) arrays s).length
    simp only [cleanupCode] at hc h
    obtain ⟨hc, leave⟩ := codeAt_append.mp hc
    obtain ⟨hc, inner⟩ := codeAt_append.mp hc
    obtain ⟨jump, settled, enter⟩ := codeAt_append₃.mp hc
    simp only [cleanupShapes, List.append_assoc] at tail
    obtain ⟨hs₁, tail⟩ := tail.split (n := 6) rfl
    obtain ⟨hs₂, tail⟩ := tail.split (length_stmtShapes cx s (n + 6) (cleanups + 1) arrays)
    obtain ⟨⟨loads, tests, restores⟩, hs₃⟩ := tail.split (n := 8) rfl
    obtain ⟨⟨loading, testing, restoring⟩, rethrowing⟩ :=
      codeAt_append.mp (leave.cast (n + 6 + m) (by simp [n, m]; omega))
    have behind : Enters c shapes (n + 6 + m + 9) .empty := h.cast (by simp [n, m]; omega)
    have rethrown : Enters c shapes (n + 6 + m + 8) .empty :=
      .jump serves.homed rethrowing.1 hs₃.1 raise behind (.inl rfl)
    let restore : List Instruction := [.load (.saved cleanups), .store .pending,
      .load (.savedData cleanups), .store .pendingData, .push 0, .store (.savedData cleanups)]
    have restored : Enters c shapes (n + 6 + m + 2) .empty :=
      .block serves.homed restore restoring restores (by simp [restore]) rethrown
    have tested : Enters c shapes (n + 6 + m) .empty := by
      refine .block serves.homed [.load (.saved cleanups)] ⟨loading, trivial⟩ ⟨loads, trivial⟩
        (by simp) ?_
      exact .jumpIfZero serves.homed testing tests
        (behind.cast (by simp [n, m]; omega)).start restored
    have run := enters_stmt serves ok (inner.cast (n + 6) (by simp [n]; omega)) hs₂ raise tested
    let keep : List Instruction := [.load .pending, .store (.saved cleanups), .load .pendingData,
      .store (.savedData cleanups), .push 0, .store .pending]
    have begun : Enters c shapes n .empty :=
      .block serves.homed keep (enter.cast n (by simp [n])) hs₁ (by simp [keep]) run
    have caught := catching _ (codeAt_settle.mp (codeAt_settle.mp settled)) begun.start begun.start
      begun
    exact ⟨caught, .jump serves.homed jump.1 hs begun.start caught (.inl rfl)⟩

end

/-! ### Functions -/

/-- The code of a function fits with its shapes. -/
theorem enters_body (serves : Serves c cx declared) {st : Stmt} (ok : StmtOk cx declared st)
    (hcode : c.routine.code = (bodyCode cx st).toArray) :
    Enters c (bodyShapes cx.throwing st) 0 .empty := by
  let n := (stmtCode cx 0 0 0 st).length
  have placed := codeAt_bodyCode cx st
  rw [← hcode] at placed
  obtain ⟨inner, behind⟩ := codeAt_append.mp placed
  obtain ⟨hs, tail⟩ :=
    (shapesAt_append [] (bodyShapes cx.throwing st)).split (length_stmtShapes cx st 0 0 0)
  obtain ⟨zero, landing, number, compare, test, payload, value, transfer, finish⟩ :=
    behind.cast n (Nat.zero_add n)
  obtain ⟨zero', landing', number', compare', test', payload', value', transfer', finish', -⟩ :=
    tail.cast n (Nat.zero_add n)
  have length : (bodyShapes cx.throwing st).length = n + 8 + 1 := by
    simp [bodyShapes, n, length_stmtShapes cx st 0 0 0]
  have size : c.routine.code.size = n + 8 + 1 := by
    rw [hcode, List.size_toArray, ← length_bodyShapes, length]
  have homed : ∀ {pos : Nat} {x}, c.routine.code[pos]? = some (Instruction.load x) → (c.frame.home? x).isSome := by
    intro pos x hx
    rw [← Array.getElem?_toList] at hx
    exact serves.homed _ (List.mem_of_getElem? hx) x rfl
  have finished : Enters c (bodyShapes cx.throwing st) (n + 8) .empty :=
    .last serves.homed finish.1 finish' size length
  have handed : Enters c (bodyShapes cx.throwing st) (n + 7) .empty := by
    have finds : Finds c .empty .transfer := by
      refine ⟨Nat.zero_le _, by nofun, by nofun, fun x hx => ?_⟩
      rcases List.mem_cons.mp hx with rfl | hx
      · exact homed landing
      · rw [List.mem_singleton.mp hx]
        exact homed payload
    exact .cons transfer transfer' ⟨finds, by nofun, fun _ => finished.start, by nofun⟩ finished
  have returned : Enters c (bodyShapes cx.throwing st) (n + 6) (Operands.empty.push false) :=
    .stop serves.homed value value' (Nat.succ_pos _) (.inl rfl) handed
  have loaded : Enters c (bodyShapes cx.throwing st) (n + 5) .empty :=
    .block serves.homed [.load .pendingData] ⟨payload, trivial⟩ ⟨payload', trivial⟩ (by simp)
      returned
  have tested : Enters c (bodyShapes cx.throwing st) (n + 4) (Operands.empty.push false) :=
    .jumpIfZero serves.homed test test' (handed.cast (by simp [n])).start loaded
  let compares : List Instruction := [.load .pending, .push Exceptions.returning, .binary .eq]
  have landed : Enters c (bodyShapes cx.throwing st) (n + 1) .empty :=
    .block serves.homed compares ⟨landing, number, compare, trivial⟩
      ⟨landing', number', compare', trivial⟩ (by simp [compares]) tested
  have ended : Enters c (bodyShapes cx.throwing st) n .empty :=
    .stop serves.homed zero zero' (Nat.zero_le _) (.inr rfl) landed
  exact enters_stmt serves ok inner hs landed.start (ended.cast (Nat.zero_add n).symm)

end Enters

end Bytecode.Compilation

namespace Program

open Bytecode.Compilation (Serves bodyShapes enters_body routineOf)
open X86.Lowering (Fitting lower_of_fitting)

variable {p : Program}

theorem Linked.isSome_routine? {s : Signature} (hs : s ∈ p.signatures) :
    (p.bytecode.routine? s).isSome := by
  obtain ⟨f, hf, rfl⟩ := List.mem_map.mp hs
  rw [Bytecode.routine?, List.find?_isSome]
  exact ⟨_, List.mem_map.mpr ⟨f, hf, rfl⟩, decide_eq_true rfl⟩

/-- The operands in the routine of a function fit together. -/
theorem Linked.fitting (h : p.Linked) {f : Function} (hf : f ∈ p.functions) :
    Fitting (.ofRoutine p.bytecode (routineOf p.compilation f)) (bodyShapes p.throwing f.body) := by
  have serves : Serves (.ofRoutine p.bytecode (routineOf p.compilation f)) p.compilation
      p.signatures :=
    ⟨rfl, fun s hs => Linked.isSome_routine? hs, fun _ hi _ hx => X86.Frame.home?_ofRoutine hi hx⟩
  have enters := enters_body serves (h.stmtOk hf) rfl
  refine ⟨?_, enters.start, fun index i s => enters.leads index i s (Nat.zero_le index)⟩
  exact Bytecode.Compilation.length_bodyShapes p.compilation f.body

/-- The bytecode of an accepted program is lowered. -/
theorem lowered_of_load {file source entry : String} (h : load file source entry = .ok p) :
    ∃ a, p.compile = .ok p.bytecode ∧ p.bytecode.lower = .ok a := by
  have linked := linked_of_load h
  have entered : (p.bytecode.routine? p.bytecode.entry).isSome :=
    Linked.isSome_routine? linked.entry_mem
  obtain ⟨a, ha⟩ := lower_of_fitting entered fun r hr => by
    obtain ⟨f, hf, rfl⟩ := List.mem_map.mp hr
    exact ⟨_, linked.fitting hf⟩
  exact ⟨a, linked.compile_eq, ha⟩

/-- Whatever program is accepted, its bytecode is lowered to machine code: the operands agree
wherever ways meet, and nothing that the code needs is missing. -/
theorem lower_total {file source entry : String} (h : load file source entry = .ok p) :
    ∃ b a, p.compile = .ok b ∧ b.lower = .ok a := by
  obtain ⟨a, compiled, lowered⟩ := lowered_of_load h
  exact ⟨p.bytecode, a, compiled, lowered⟩

/-- A program in which exceptions can arrive while operands wait, in a loop. -/
def waiting : String :=
  "fun f(n) begin throw (A n) end
while f(1) do try x := 2 * f([f(3)]) finally skip yrt od"

set_option maxRecDepth 2000 in
theorem lower_total_waiting :
    ∃ p, load "waiting" waiting entryName = .ok p ∧
      ∃ b a, p.compile = .ok b ∧ b.lower = .ok a := by
  have names : (load "waiting" waiting entryName).toOption.map signatures =
      some [⟨"f", 1⟩, ⟨"main", 0⟩] := by decide +kernel
  cases h : load "waiting" waiting entryName with
  | error e =>
    rw [h] at names
    cases names
  | ok p => exact ⟨p, rfl, lower_total h⟩

end Program

end Threefold
