import Threefold.Bytecode.Compilation

/-!
# The code of a function, place by place

The compiler writes code in one pass and gives its jumps their targets later. Here the same code is
a function of where it begins: `exprCode` and `stmtCode` are lists of marks, one for each place. A
mark is an instruction, or a jump that leaves the part of the program it belongs to. The only such
jumps of a whole statement go to where exceptions go (`stmtCode_inside`), so the code of a statement
depends on a single target that is not known yet.

* `Mark.settle` gives a target to the jumps with one goal.
* `CodeAt F t p ms` says that the finished code `F` has the marks `ms` from the index `p` on, where
  the jumps with a goal `g` go to `t g`.
* `getElem?_bodyCode_transfer` says that a function that hands over an exception returns at once.
-/

namespace Threefold

mutual

/-- The number of array literals in an expression. -/
def Expr.arrayCount : Expr → Nat
  | .const _ | .string _ | .var _ => 0
  | .array _ items => 1 + Expr.listArrayCount items
  | .unary _ e => e.arrayCount
  | .binary _ l r => l.arrayCount + r.arrayCount
  | .call _ arguments _ => Expr.listArrayCount arguments

/-- The number of array literals in some expressions. -/
def Expr.listArrayCount : List Expr → Nat
  | [] => 0
  | e :: rest => e.arrayCount + Expr.listArrayCount rest

end

mutual

/-- The number of array literals in a statement. -/
def Stmt.arrayCount : Stmt → Nat
  | .skip => 0
  | .assign _ e | .leave e | .throwing _ e => e.arrayCount
  | .branch c yes no => c.arrayCount + yes.arrayCount + no.arrayCount
  | .loop c body => c.arrayCount + body.arrayCount
  | .chain s t => s.arrayCount + t.arrayCount
  | .perform c => c.expr.arrayCount
  | .attempt body catches cleanup =>
    body.arrayCount + Catch.arrayCount catches + Stmt.cleanupArrayCount cleanup

/-- The number of array literals in catch branches. -/
def Catch.arrayCount : List Catch → Nat
  | [] => 0
  | .on _ _ s :: rest => s.arrayCount + Catch.arrayCount rest

/-- The number of array literals in what runs in any case. -/
def Stmt.cleanupArrayCount : Option Stmt → Nat
  | none => 0
  | some s => s.arrayCount

end

mutual

/-- The number of blocks in a statement that run in any case. -/
def Stmt.cleanupCount : Stmt → Nat
  | .skip | .assign _ _ | .leave _ | .throwing _ _ | .perform _ => 0
  | .branch _ yes no => yes.cleanupCount + no.cleanupCount
  | .loop _ body => body.cleanupCount
  | .chain s t => s.cleanupCount + t.cleanupCount
  | .attempt body catches cleanup =>
    body.cleanupCount + Catch.cleanupCount catches + Stmt.cleanupCleanupCount cleanup

/-- The number of blocks in catch branches that run in any case. -/
def Catch.cleanupCount : List Catch → Nat
  | [] => 0
  | .on _ _ s :: rest => s.cleanupCount + Catch.cleanupCount rest

/-- The number of such blocks in one of them, itself included. -/
def Stmt.cleanupCleanupCount : Option Stmt → Nat
  | none => 0
  | some s => 1 + s.cleanupCount

end

/-- What a call of a bound callee calls. -/
def Callee.target : Callee → Bytecode.Callee
  | .unbound name arity => .routine ⟨name, arity⟩
  | .declared s => .routine s
  | .intrinsic i => .intrinsic i

namespace Bytecode.Compilation

open Draft (JumpKind Slot)

/-! ## Marks -/

/-- Where a jump goes that has no target yet: to where exceptions go, to where a statement ends, or
to a place of the same statement. -/
inductive Goal
  | handler
  | exit
  | inside
  deriving DecidableEq

/-- A place in the code of a part of a function. -/
inductive Mark
  | done (i : Instruction)
  | jump (goal : Goal) (kind : JumpKind) (origin : String)
  deriving DecidableEq

namespace Mark

/-- The place in a draft that a mark describes. -/
def slot : Mark → Slot
  | done i => .filled i
  | jump _ kind origin => .reserved kind origin

/-- The mark once the jumps with a goal have their target. -/
def settle (goal : Goal) (target : Nat) : Mark → Mark
  | done i => done i
  | jump g kind origin => if g = goal then done (kind.instruction target) else jump g kind origin

/-- The instruction at a place, when every goal has a target. -/
def instruction (targets : Goal → Nat) : Mark → Instruction
  | done i => i
  | jump g kind _ => kind.instruction (targets g)

/-- A mark that is no jump, or a jump to where exceptions go. -/
def Inside : Mark → Prop
  | done _ => True
  | jump g kind _ => g = .handler ∧ kind = .always

/-- A mark that is no jump, or a jump to where exceptions go or where a statement ends. -/
def Leaving : Mark → Prop
  | done _ => True
  | jump g kind _ => g ≠ .inside ∧ kind = .always

/-- A jump to where exceptions go. -/
def raise (origin : String) : Mark :=
  jump .handler .always origin

/-- A jump to where a statement ends. -/
def exit (origin : String) : Mark :=
  jump .exit .always origin

end Mark

/-- Instructions as marks. -/
def code (is : List Instruction) : List Mark :=
  is.map .done

/-- The indices of the jumps with a goal, in marks that begin at an index. -/
def waiting (goal : Goal) : Nat → List Mark → List Nat
  | _, [] => []
  | index, .done _ :: rest => waiting goal (index + 1) rest
  | index, .jump g _ _ :: rest =>
    if g = goal then index :: waiting goal (index + 1) rest else waiting goal (index + 1) rest

/-! ## The code of expressions and statements -/

/-- The code that looks for an exception a callee has handed over. -/
def checkCode (pos depth : Nat) (origin : String) : List Mark :=
  code ([.load .thrown, .jumpIfZero (pos + depth + 9), .load .thrown, .store .pending,
    .load .thrownData, .store .pendingData, .push 0, .store .thrown] ++
      List.replicate depth .pop) ++ [.raise origin]

mutual

/-- The code of an expression that begins at an index with a number of operands below, where a
number of array literals come before. -/
def exprCode (cx : Context) (pos depth arrays : Nat) : Expr → List Mark
  | .const n => code [.push n]
  | .string s =>
    code [.pushLiteral ((cx.literals.idxOf? s).getD 0), .call (.intrinsic .strDup)]
  | .array boxed items =>
    code [.push (.ofNat items.length), .push 0,
      .call (.intrinsic (if boxed then .arrMakeBoxed else .arrMake)), .store (.array arrays)] ++
      itemsCode cx (pos + 4) depth (arrays + 1) (.array arrays) 0 items ++
      code [.load (.array arrays)]
  | .var x => code [.load (.named x)]
  | .unary op e => exprCode cx pos depth arrays e ++ code [.unary op]
  | .binary op l r =>
    let left := exprCode cx pos depth arrays l
    left ++ exprCode cx (pos + left.length) (depth + 1) (arrays + l.arrayCount) r ++
      code [.binary op]
  | .call callee arguments location =>
    let values := exprsCode cx pos depth arrays arguments
    values ++ code [.call callee.target] ++
      if callee.canThrow cx.throwing then
        checkCode (pos + values.length + 1) (depth + 1)
          ("call " ++ (Expr.call callee arguments location).text)
      else []

/-- The code of expressions whose values are left on the stack. -/
def exprsCode (cx : Context) (pos depth arrays : Nat) : List Expr → List Mark
  | [] => []
  | e :: rest =>
    let first := exprCode cx pos depth arrays e
    first ++ exprsCode cx (pos + first.length) (depth + 1) (arrays + e.arrayCount) rest

/-- The code that stores the values of expressions in an array, from an index on. -/
def itemsCode (cx : Context) (pos depth arrays : Nat) (array : Variable) (index : Nat) :
    List Expr → List Mark
  | [] => []
  | e :: rest =>
    let value := exprCode cx (pos + 2) (depth + 2) arrays e
    code [.load array, .push (.ofNat index)] ++ value ++ code [.call (.intrinsic .arrSet)] ++
      checkCode (pos + value.length + 3) (depth + 1)
        ("element " ++ toString index ++ " of array literal") ++ code [.pop] ++
      itemsCode cx (pos + value.length + depth + 14) depth (arrays + e.arrayCount) array (index + 1)
        rest

end

/-- The word for the number of a type of exception. -/
def numberOf (cx : Context) (x : String) : Int32 :=
  (Exceptions.number? cx.exceptions x).getD 0

/-- The code that keeps what is under way when a block that runs in any case begins. -/
def enterCleanup (n : Nat) : List Mark :=
  code [.load .pending, .store (.saved n), .load .pendingData, .store (.savedData n), .push 0,
    .store .pending]

/-- The code that goes on with it afterwards. -/
def leaveCleanup (pos n : Nat) : List Mark :=
  code [.load (.saved n), .jumpIfZero (pos + 9), .load (.saved n), .store .pending,
    .load (.savedData n), .store .pendingData, .push 0, .store (.savedData n)] ++
    [.raise "rethrow after finally"]

mutual

/-- The code of a statement that begins at an index, where a number of blocks that run in any case
and a number of array literals come before. -/
def stmtCode (cx : Context) (pos cleanups arrays : Nat) : Stmt → List Mark
  | .skip => []
  | .assign x e => exprCode cx pos 0 arrays e ++ code [.store (.named x)]
  | .branch c yes no =>
    let condition := exprCode cx pos 0 arrays c
    let first := stmtCode cx (pos + condition.length + 1) cleanups (arrays + c.arrayCount) yes
    let other := pos + condition.length + first.length + 2
    let second := stmtCode cx other (cleanups + yes.cleanupCount)
      (arrays + c.arrayCount + yes.arrayCount) no
    condition ++ code [.jumpIfZero other] ++ first ++ code [.jump (other + second.length)] ++ second
  | .loop c body =>
    let condition := exprCode cx pos 0 arrays c
    let inner := stmtCode cx (pos + condition.length + 1) cleanups (arrays + c.arrayCount) body
    condition ++ code [.jumpIfZero (pos + condition.length + inner.length + 2)] ++ inner ++
      code [.jump pos]
  | .chain s t =>
    let first := stmtCode cx pos cleanups arrays s
    first ++ stmtCode cx (pos + first.length) (cleanups + s.cleanupCount) (arrays + s.arrayCount) t
  | .leave e =>
    code [.push Exceptions.returning, .store .pending] ++ exprCode cx (pos + 2) 0 arrays e ++
      code [.store .pendingData] ++ [.raise ("return " ++ e.text)]
  | .perform c => exprCode cx pos 0 arrays c.expr ++ code [.pop]
  | .throwing x e =>
    code [.push (numberOf cx x), .store .pending] ++ exprCode cx (pos + 2) 0 arrays e ++
      code [.store .pendingData] ++ [.raise ("throw (" ++ x ++ " " ++ e.text ++ ")")]
  | .attempt body [] none => stmtCode cx pos cleanups arrays body
  | .attempt body catches cleanup =>
    let inner := stmtCode cx pos cleanups arrays body
    let landing := pos + inner.length + 1
    let branches := catchesCode cx landing (cleanups + body.cleanupCount)
      (arrays + body.arrayCount) catches
    let last := landing + branches.length
    inner.map (.settle .handler landing) ++
      cleanupCode cx last (cleanups + body.cleanupCount + Catch.cleanupCount catches)
        (arrays + body.arrayCount + Catch.arrayCount catches) branches cleanup

/-- The code of catch branches. -/
def catchesCode (cx : Context) (pos cleanups arrays : Nat) : List Catch → List Mark
  | [] => []
  | .on x target body :: rest =>
    let inner := stmtCode cx (pos + 10) cleanups arrays body
    let next := pos + inner.length + 11
    code [.load .pending, .push (numberOf cx x), .binary .eq, .jumpIfZero next, .load .pendingData,
      .store (.named target), .push 0, .store .pending, .push 0, .store .pendingData] ++ inner ++
      [.exit ("catch (" ++ x ++ " " ++ target ++ ")")] ++
      catchesCode cx next (cleanups + body.cleanupCount) (arrays + body.arrayCount) rest

/-- The code behind the body of a statement that catches: a jump for when the body is done, the
catch branches, and from an index on the end of the statement, be it what runs in any case or a jump
to where exceptions go. -/
def cleanupCode (cx : Context) (last cleanups arrays : Nat) (branches : List Mark) :
    Option Stmt → List Mark
  | none =>
    code [.jump (last + 1)] ++ branches.map (.settle .exit (last + 1)) ++
      [.raise "unmatched exception"]
  | some s =>
    let inner := stmtCode cx (last + 6) (cleanups + 1) arrays s
    code [.jump last] ++ (branches.map (.settle .exit last)).map (.settle .handler last) ++
      enterCleanup cleanups ++ inner ++ leaveCleanup (last + inner.length + 6) cleanups

end

/-- The code behind the body of a function, from an index on: where its exceptions and returns
end. -/
def landingCode (pos : Nat) : List Instruction :=
  [.load .pending, .push Exceptions.returning, .binary .eq, .jumpIfZero (pos + 6),
    .load .pendingData, .returnValue, .transfer, .returnZero]

/-- The code of a function. -/
def bodyCode (cx : Context) (s : Stmt) : List Instruction :=
  let inner := stmtCode cx 0 0 0 s
  inner.map (Mark.instruction fun _ => inner.length + 1) ++
    .returnZero :: landingCode (inner.length + 1)

/-! ## Lengths and goals -/

@[simp]
theorem code_nil : code [] = [] := rfl

@[simp]
theorem code_cons (i : Instruction) (is : List Instruction) : code (i :: is) = .done i :: code is :=
  rfl

@[simp]
theorem length_code (is : List Instruction) : (code is).length = is.length := by
  simp [code]

@[simp]
theorem length_checkCode (pos depth : Nat) (origin : String) :
    (checkCode pos depth origin).length = depth + 9 := by
  simp [checkCode]

@[simp]
theorem length_enterCleanup (n : Nat) : (enterCleanup n).length = 6 := rfl

@[simp]
theorem length_leaveCleanup (pos n : Nat) : (leaveCleanup pos n).length = 9 := rfl

@[simp]
theorem Mark.settle_done (goal : Goal) (target : Nat) (i : Instruction) :
    (Mark.done i).settle goal target = .done i := rfl

@[simp]
theorem Mark.settle_exit (target : Nat) (origin : String) :
    (Mark.exit origin).settle .exit target = .done (.jump target) := rfl

theorem inside_of_mem_code {is : List Instruction} {m : Mark} (h : m ∈ code is) : m.Inside := by
  obtain ⟨i, -, rfl⟩ := List.mem_map.mp h
  trivial

theorem inside_raise (origin : String) : (Mark.raise origin).Inside := ⟨rfl, rfl⟩

theorem Mark.Inside.leaving {m : Mark} (h : m.Inside) : m.Leaving := by
  cases m with
  | done i => trivial
  | jump g kind origin =>
    obtain ⟨rfl, rfl⟩ := h
    exact ⟨by decide, rfl⟩

theorem inside_settle_handler {m : Mark} (h : m.Inside) (t : Nat) :
    (m.settle .handler t).Inside := by
  cases m with
  | done i => trivial
  | jump g kind origin =>
    obtain ⟨rfl, rfl⟩ := h
    trivial

theorem inside_settle_exit {m : Mark} (h : m.Leaving) (t : Nat) : (m.settle .exit t).Inside := by
  cases m with
  | done i => trivial
  | jump g kind origin =>
    obtain ⟨hg, rfl⟩ := h
    cases g with
    | handler => exact ⟨rfl, rfl⟩
    | exit => trivial
    | inside => exact absurd rfl hg

theorem inside_of_mem_checkCode {pos depth : Nat} {origin : String} {m : Mark}
    (h : m ∈ checkCode pos depth origin) : m.Inside := by
  rcases List.mem_append.mp h with h | h
  · exact inside_of_mem_code h
  · rw [List.mem_singleton.mp h]
    exact inside_raise origin

mutual

theorem exprCode_inside {cx : Context} : ∀ {e : Expr} {pos depth arrays : Nat},
    ∀ m ∈ exprCode cx pos depth arrays e, m.Inside
  | .const _, _, _, _ => fun m h => inside_of_mem_code h
  | .string _, _, _, _ => fun m h => inside_of_mem_code h
  | .var _, _, _, _ => fun m h => inside_of_mem_code h
  | .array boxed items, _, _, _ => by
    intro m h
    simp only [exprCode, List.mem_append] at h
    rcases h with (h | h) | h
    · exact inside_of_mem_code h
    · exact itemsCode_inside m h
    · exact inside_of_mem_code h
  | .unary op e, _, _, _ => by
    intro m h
    simp only [exprCode, List.mem_append] at h
    rcases h with h | h
    · exact exprCode_inside m h
    · exact inside_of_mem_code h
  | .binary op l r, _, _, _ => by
    intro m h
    simp only [exprCode, List.mem_append] at h
    rcases h with (h | h) | h
    · exact exprCode_inside m h
    · exact exprCode_inside m h
    · exact inside_of_mem_code h
  | .call callee arguments location, _, _, _ => by
    intro m h
    simp only [exprCode, List.mem_append] at h
    rcases h with (h | h) | h
    · exact exprsCode_inside m h
    · exact inside_of_mem_code h
    · split at h
      · exact inside_of_mem_checkCode h
      · cases h

theorem exprsCode_inside {cx : Context} : ∀ {es : List Expr} {pos depth arrays : Nat},
    ∀ m ∈ exprsCode cx pos depth arrays es, m.Inside
  | [], _, _, _ => fun m h => by cases h
  | e :: rest, _, _, _ => by
    intro m h
    simp only [exprsCode, List.mem_append] at h
    rcases h with h | h
    · exact exprCode_inside m h
    · exact exprsCode_inside m h

theorem itemsCode_inside {cx : Context} : ∀ {es : List Expr} {pos depth arrays : Nat}
    {array : Variable} {index : Nat}, ∀ m ∈ itemsCode cx pos depth arrays array index es, m.Inside
  | [], _, _, _, _, _ => fun m h => by cases h
  | e :: rest, _, _, _, _, _ => by
    intro m h
    simp only [itemsCode, List.mem_append] at h
    rcases h with ((((h | h) | h) | h) | h) | h
    · exact inside_of_mem_code h
    · exact exprCode_inside m h
    · exact inside_of_mem_code h
    · exact inside_of_mem_checkCode h
    · exact inside_of_mem_code h
    · exact itemsCode_inside m h

end

/-- The code of a statement that catches or cleans up. -/
theorem stmtCode_attempt {cx : Context} {pos cleanups arrays : Nat} {body : Stmt}
    {catches : List Catch} {cleanup : Option Stmt} (h : ¬ (catches = [] ∧ cleanup = none)) :
    stmtCode cx pos cleanups arrays (.attempt body catches cleanup) =
      (stmtCode cx pos cleanups arrays body).map
          (.settle .handler (pos + (stmtCode cx pos cleanups arrays body).length + 1)) ++
        cleanupCode cx
          (pos + (stmtCode cx pos cleanups arrays body).length + 1 +
            (catchesCode cx (pos + (stmtCode cx pos cleanups arrays body).length + 1)
              (cleanups + body.cleanupCount) (arrays + body.arrayCount) catches).length)
          (cleanups + body.cleanupCount + Catch.cleanupCount catches)
          (arrays + body.arrayCount + Catch.arrayCount catches)
          (catchesCode cx (pos + (stmtCode cx pos cleanups arrays body).length + 1)
            (cleanups + body.cleanupCount) (arrays + body.arrayCount) catches) cleanup := by
  match catches, cleanup with
  | [], none => exact absurd ⟨rfl, rfl⟩ h
  | [], some s => rw [stmtCode]; simp
  | c :: cs, cleanup => rw [stmtCode]; simp

mutual

theorem stmtCode_inside {cx : Context} : ∀ {s : Stmt} {pos cleanups arrays : Nat},
    ∀ m ∈ stmtCode cx pos cleanups arrays s, m.Inside
  | .skip, _, _, _ => fun m h => by simp [stmtCode] at h
  | .assign x e, _, _, _ => by
    intro m h
    simp only [stmtCode, List.mem_append] at h
    rcases h with h | h
    · exact exprCode_inside m h
    · exact inside_of_mem_code h
  | .branch c yes no, _, _, _ => by
    intro m h
    simp only [stmtCode, List.mem_append] at h
    rcases h with (((h | h) | h) | h) | h
    · exact exprCode_inside m h
    · exact inside_of_mem_code h
    · exact stmtCode_inside m h
    · exact inside_of_mem_code h
    · exact stmtCode_inside m h
  | .loop c body, _, _, _ => by
    intro m h
    simp only [stmtCode, List.mem_append] at h
    rcases h with ((h | h) | h) | h
    · exact exprCode_inside m h
    · exact inside_of_mem_code h
    · exact stmtCode_inside m h
    · exact inside_of_mem_code h
  | .chain s t, _, _, _ => by
    intro m h
    simp only [stmtCode, List.mem_append] at h
    rcases h with h | h
    · exact stmtCode_inside m h
    · exact stmtCode_inside m h
  | .leave e, _, _, _ => by
    intro m h
    simp only [stmtCode, List.mem_append, List.mem_singleton] at h
    rcases h with ((h | h) | h) | rfl
    · exact inside_of_mem_code h
    · exact exprCode_inside m h
    · exact inside_of_mem_code h
    · exact inside_raise _
  | .perform c, _, _, _ => by
    intro m h
    simp only [stmtCode, List.mem_append] at h
    rcases h with h | h
    · exact exprCode_inside m h
    · exact inside_of_mem_code h
  | .throwing x e, _, _, _ => by
    intro m h
    simp only [stmtCode, List.mem_append, List.mem_singleton] at h
    rcases h with ((h | h) | h) | rfl
    · exact inside_of_mem_code h
    · exact exprCode_inside m h
    · exact inside_of_mem_code h
    · exact inside_raise _
  | .attempt body catches cleanup, pos, cleanups, arrays => by
    intro m h
    by_cases hc : catches = [] ∧ cleanup = none
    · obtain ⟨rfl, rfl⟩ := hc
      rw [stmtCode] at h
      exact stmtCode_inside m h
    · rw [stmtCode_attempt hc] at h
      rcases List.mem_append.mp h with h | h
      · obtain ⟨n, hn, rfl⟩ := List.mem_map.mp h
        exact inside_settle_handler (stmtCode_inside n hn) _
      · exact cleanupCode_inside (fun n hn => catchesCode_leaving n hn) m h

theorem catchesCode_leaving {cx : Context} : ∀ {cs : List Catch} {pos cleanups arrays : Nat},
    ∀ m ∈ catchesCode cx pos cleanups arrays cs, m.Leaving
  | [], _, _, _ => fun m h => by simp [catchesCode] at h
  | .on x target body :: rest, _, _, _ => by
    intro m h
    simp only [catchesCode, List.mem_append, List.mem_singleton] at h
    rcases h with ((h | h) | rfl) | h
    · exact (inside_of_mem_code h).leaving
    · exact (stmtCode_inside m h).leaving
    · exact ⟨by decide, rfl⟩
    · exact catchesCode_leaving m h

theorem cleanupCode_inside {cx : Context} : ∀ {cleanup : Option Stmt} {last cleanups arrays : Nat}
    {branches : List Mark}, (∀ m ∈ branches, m.Leaving) →
    ∀ m ∈ cleanupCode cx last cleanups arrays branches cleanup, m.Inside
  | none, _, _, _, _ => by
    intro hb m h
    simp only [cleanupCode, List.mem_append, List.mem_singleton] at h
    rcases h with (h | h) | rfl
    · exact inside_of_mem_code h
    · obtain ⟨n, hn, rfl⟩ := List.mem_map.mp h
      exact inside_settle_exit (hb n hn) _
    · exact inside_raise _
  | some s, _, _, _, _ => by
    intro hb m h
    simp only [cleanupCode, List.mem_append] at h
    rcases h with (((h | h) | h) | h) | h
    · exact inside_of_mem_code h
    · obtain ⟨n, hn, rfl⟩ := List.mem_map.mp h
      obtain ⟨k, hk, rfl⟩ := List.mem_map.mp hn
      exact inside_settle_handler (inside_settle_exit (hb k hk) _) _
    · exact inside_of_mem_code h
    · exact stmtCode_inside m h
    · rcases List.mem_append.mp h with h | h
      · exact inside_of_mem_code h
      · rw [List.mem_singleton.mp h]
        exact inside_raise _

end

/-! ## Finished code -/

/-- The finished code has marks from an index on, and every goal has a target. -/
def CodeAt (F : Array Instruction) (targets : Goal → Nat) : Nat → List Mark → Prop
  | _, [] => True
  | pos, m :: rest => F[pos]? = some (m.instruction targets) ∧ CodeAt F targets (pos + 1) rest

/-- Another target for one goal. -/
def redirect (goal : Goal) (target : Nat) (targets : Goal → Nat) : Goal → Nat := fun g =>
  if g = goal then target else targets g

section CodeAt

variable {F : Array Instruction} {targets : Goal → Nat} {pos : Nat}

theorem CodeAt.cast {ms : List Mark} (h : CodeAt F targets pos ms) (pos' : Nat)
    (hp : pos = pos') : CodeAt F targets pos' ms :=
  hp ▸ h

theorem codeAt_append {ms ns : List Mark} :
    CodeAt F targets pos (ms ++ ns) ↔
      CodeAt F targets pos ms ∧ CodeAt F targets (pos + ms.length) ns := by
  induction ms generalizing pos with
  | nil => simp [CodeAt]
  | cons m ms ih =>
    have shift : pos + 1 + ms.length = pos + (ms.length + 1) := by omega
    simp only [List.cons_append, CodeAt, ih, List.length_cons, shift, and_assoc]

theorem codeAt_append₃ {ms ns os : List Mark} :
    CodeAt F targets pos (ms ++ ns ++ os) ↔
      CodeAt F targets pos ms ∧ CodeAt F targets (pos + ms.length) ns ∧
        CodeAt F targets (pos + ms.length + ns.length) os := by
  rw [List.append_assoc, codeAt_append, codeAt_append]

theorem Mark.instruction_settle (m : Mark) (goal : Goal) (target : Nat) :
    (m.settle goal target).instruction targets = m.instruction (redirect goal target targets) := by
  cases m with
  | done i => rfl
  | jump g kind origin =>
    by_cases hg : g = goal <;> simp [Mark.settle, Mark.instruction, redirect, hg]

/-- Giving a target to the jumps with a goal is giving it to the goal. -/
theorem codeAt_settle {goal : Goal} {target : Nat} {ms : List Mark} :
    CodeAt F targets pos (ms.map (.settle goal target)) ↔
      CodeAt F (redirect goal target targets) pos ms := by
  induction ms generalizing pos with
  | nil => simp [CodeAt]
  | cons m ms ih => simp only [List.map_cons, CodeAt, Mark.instruction_settle, ih]

theorem codeAt_map_instruction (targets : Goal → Nat) (ms : List Mark) (is js : List Instruction) :
    CodeAt (is ++ ms.map (Mark.instruction targets) ++ js).toArray targets is.length ms := by
  induction ms generalizing is with
  | nil => trivial
  | cons m ms ih =>
    refine ⟨by simp, ?_⟩
    have := ih (is ++ [m.instruction targets])
    simpa using this

end CodeAt

/-- The code of a function, in marks. -/
theorem codeAt_bodyCode (cx : Context) (st : Stmt) :
    CodeAt (bodyCode cx st).toArray (fun _ => (stmtCode cx 0 0 0 st).length + 1) 0
      (stmtCode cx 0 0 0 st ++
        code (.returnZero :: landingCode ((stmtCode cx 0 0 0 st).length + 1))) := by
  have whole := codeAt_map_instruction (fun _ => (stmtCode cx 0 0 0 st).length + 1)
    (stmtCode cx 0 0 0 st ++
      code (.returnZero :: landingCode ((stmtCode cx 0 0 0 st).length + 1))) [] []
  simpa [bodyCode, code, Mark.instruction, Function.comp_def] using whole

/-! ## Where exceptions are handed over -/

/-- No mark of some code hands an exception over to the caller. -/
def HandsNothing (ms : List Mark) : Prop :=
  Mark.done .transfer ∉ ms

@[simp]
theorem handsNothing_nil : HandsNothing [] :=
  List.not_mem_nil

@[simp]
theorem handsNothing_cons {m : Mark} {ms : List Mark} :
    HandsNothing (m :: ms) ↔ m ≠ .done .transfer ∧ HandsNothing ms := by
  simp [HandsNothing, eq_comm]

@[simp]
theorem handsNothing_append {ms ns : List Mark} :
    HandsNothing (ms ++ ns) ↔ HandsNothing ms ∧ HandsNothing ns := by
  simp [HandsNothing]

@[simp]
theorem handsNothing_settle {goal : Goal} {target : Nat} {ms : List Mark} :
    HandsNothing (ms.map (.settle goal target)) ↔ HandsNothing ms := by
  have same (m : Mark) : m.settle goal target = .done .transfer ↔ m = .done .transfer := by
    cases m with
    | done i => rfl
    | jump g kind origin =>
      cases kind <;> simp only [Mark.settle, JumpKind.instruction] <;> split <;> simp
  simp [HandsNothing, same]

@[simp]
theorem Mark.raise_ne_done (origin : String) (i : Instruction) : Mark.raise origin ≠ .done i :=
  nofun

@[simp]
theorem Mark.exit_ne_done (origin : String) (i : Instruction) : Mark.exit origin ≠ .done i :=
  nofun

@[simp]
theorem handsNothing_checkCode (pos depth : Nat) (origin : String) :
    HandsNothing (checkCode pos depth origin) := by
  have pops : HandsNothing (code (List.replicate depth .pop)) := by simp [HandsNothing, code]
  simp [checkCode, pops]

mutual

theorem handsNothing_exprCode (cx : Context) : ∀ (e : Expr) (pos depth arrays : Nat),
    HandsNothing (exprCode cx pos depth arrays e)
  | .const _, _, _, _ => by simp [exprCode]
  | .string _, _, _, _ => by simp [exprCode]
  | .array _ items, _, _, _ => by simp [exprCode, handsNothing_itemsCode cx items]
  | .var _, _, _, _ => by simp [exprCode]
  | .unary _ e, _, _, _ => by simp [exprCode, handsNothing_exprCode cx e]
  | .binary _ l r, _, _, _ => by
    simp [exprCode, handsNothing_exprCode cx l, handsNothing_exprCode cx r]
  | .call callee arguments _, _, _, _ => by
    simp only [exprCode]
    split <;> simp [handsNothing_exprsCode cx arguments]

theorem handsNothing_exprsCode (cx : Context) : ∀ (es : List Expr) (pos depth arrays : Nat),
    HandsNothing (exprsCode cx pos depth arrays es)
  | [], _, _, _ => by simp [exprsCode]
  | e :: rest, _, _, _ => by
    simp [exprsCode, handsNothing_exprCode cx e, handsNothing_exprsCode cx rest]

theorem handsNothing_itemsCode (cx : Context) : ∀ (es : List Expr) (pos depth arrays : Nat)
    (array : Variable) (index : Nat), HandsNothing (itemsCode cx pos depth arrays array index es)
  | [], _, _, _, _, _ => by simp [itemsCode]
  | e :: rest, _, _, _, _, _ => by
    simp [itemsCode, handsNothing_exprCode cx e, handsNothing_itemsCode cx rest]

end

mutual

theorem handsNothing_stmtCode (cx : Context) : ∀ (s : Stmt) (pos cleanups arrays : Nat),
    HandsNothing (stmtCode cx pos cleanups arrays s)
  | .skip, _, _, _ => by simp [stmtCode]
  | .assign _ e, _, _, _ => by simp [stmtCode, handsNothing_exprCode cx e]
  | .branch c yes no, _, _, _ => by
    simp [stmtCode, handsNothing_exprCode cx c, handsNothing_stmtCode cx yes,
      handsNothing_stmtCode cx no]
  | .loop c body, _, _, _ => by
    simp [stmtCode, handsNothing_exprCode cx c, handsNothing_stmtCode cx body]
  | .chain s t, _, _, _ => by
    simp [stmtCode, handsNothing_stmtCode cx s, handsNothing_stmtCode cx t]
  | .leave e, _, _, _ => by simp [stmtCode, handsNothing_exprCode cx e]
  | .perform c, _, _, _ => by simp [stmtCode, handsNothing_exprCode cx c.expr]
  | .throwing _ e, _, _, _ => by simp [stmtCode, handsNothing_exprCode cx e]
  | .attempt body catches cleanup, pos, cleanups, arrays => by
    by_cases plain : catches = [] ∧ cleanup = none
    · obtain ⟨rfl, rfl⟩ := plain
      rw [stmtCode]
      exact handsNothing_stmtCode cx body pos cleanups arrays
    · rw [stmtCode_attempt plain]
      simp [handsNothing_stmtCode cx body,
        handsNothing_cleanupCode cx cleanup _ _ _ (handsNothing_catchesCode cx catches _ _ _)]

theorem handsNothing_catchesCode (cx : Context) : ∀ (cs : List Catch) (pos cleanups arrays : Nat),
    HandsNothing (catchesCode cx pos cleanups arrays cs)
  | [], _, _, _ => by simp [catchesCode]
  | .on _ _ body :: rest, _, _, _ => by
    simp [catchesCode, handsNothing_stmtCode cx body, handsNothing_catchesCode cx rest]

theorem handsNothing_cleanupCode (cx : Context) : ∀ (cleanup : Option Stmt)
    (last cleanups arrays : Nat) {branches : List Mark}, HandsNothing branches →
    HandsNothing (cleanupCode cx last cleanups arrays branches cleanup)
  | none, _, _, _, _, h => by simp [cleanupCode, h]
  | some s, _, _, _, _, h => by
    simp [cleanupCode, enterCleanup, leaveCleanup, h, handsNothing_stmtCode cx s, -List.map_map]

end

/-- Behind the instruction that hands an exception over, a function returns zero. -/
theorem getElem?_bodyCode_transfer {cx : Context} {st : Stmt} {k : Nat}
    (h : (bodyCode cx st)[k]? = some .transfer) : (bodyCode cx st)[k + 1]? = some .returnZero := by
  have quiet (targets : Goal → Nat) :
      Instruction.transfer ∉ (stmtCode cx 0 0 0 st).map (Mark.instruction targets) := by
    intro mem
    obtain ⟨m, hm, same⟩ := List.mem_map.mp mem
    cases m with
    | done i =>
      cases same
      exact handsNothing_stmtCode cx st 0 0 0 hm
    | jump g kind origin => cases kind <;> cases same
  simp only [bodyCode] at h ⊢
  generalize (stmtCode cx 0 0 0 st).length + 1 = n at h ⊢
  have behind := quiet fun _ => n
  generalize (stmtCode cx 0 0 0 st).map (Mark.instruction fun _ => n) = front at h behind ⊢
  rw [List.getElem?_append] at h
  split at h
  · exact absurd (List.mem_of_getElem? h) behind
  · obtain ⟨j, rfl⟩ : ∃ j, k = front.length + j := ⟨k - front.length, by omega⟩
    rw [Nat.add_sub_cancel_left] at h
    rw [Nat.add_assoc, List.getElem?_append_right (Nat.le_add_right _ _), Nat.add_sub_cancel_left]
    match j, h with
    | 7, _ => rfl
    | j + 8, h => cases j <;> cases h

end Bytecode.Compilation

end Threefold
