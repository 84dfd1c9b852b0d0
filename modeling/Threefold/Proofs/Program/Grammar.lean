import Mathlib.Algebra.Group.Int.Defs
import Mathlib.Algebra.Group.Nat.Defs
import Threefold.Program.Parser

/-!
# The grammar of programs

The language as a set of derivations: which tokens make up an expression, a statement or a program,
and the tree that they stand for. It says nothing about how a text is read. A derivation has as many
rules as the language has forms.

* Binary operators come in five levels. The operators of a level group to the left, except that
  comparisons do not group (`Chain`).
* A negation takes the indices behind its operand, so `Term` has no indices behind a negation.
* A sign belongs to an integer. With it the integer must be the value of a word.
* Loops with a counter, loops with their condition at the end, indices and repeated conditions stand
  for other forms; their rules give the tree of those.

The trees of derivations have no places in the text (`Stmt.unplaced`).
-/

namespace Threefold

/-! ## Trees without places -/

mutual

/-- An expression whose calls have other callees and places. A callee is chosen by the former one and
the number of arguments. -/
def Expr.recast (callee : Callee → Nat → Callee) (place : Location → Location) : Expr → Expr
  | .const n => .const n
  | .string s => .string s
  | .array boxed items => .array boxed (Expr.recastAll callee place items)
  | .var x => .var x
  | .unary op e => .unary op (e.recast callee place)
  | .binary op l r => .binary op (l.recast callee place) (r.recast callee place)
  | .call c arguments location =>
    .call (callee c arguments.length) (Expr.recastAll callee place arguments) (place location)

/-- Expressions whose calls have other callees and places. -/
def Expr.recastAll (callee : Callee → Nat → Callee) (place : Location → Location) :
    List Expr → List Expr
  | [] => []
  | e :: rest => e.recast callee place :: Expr.recastAll callee place rest

end

/-- A call with another callee and place, and so the calls in its arguments. -/
def Call.recast (callee : Callee → Nat → Callee) (place : Location → Location) (c : Call) : Call :=
  ⟨callee c.callee c.arguments.length, Expr.recastAll callee place c.arguments, place c.location⟩

mutual

/-- A statement whose calls have other callees and places. -/
def Stmt.recast (callee : Callee → Nat → Callee) (place : Location → Location) : Stmt → Stmt
  | .skip => .skip
  | .assign x e => .assign x (e.recast callee place)
  | .branch c yes no =>
    .branch (c.recast callee place) (yes.recast callee place) (no.recast callee place)
  | .loop c body => .loop (c.recast callee place) (body.recast callee place)
  | .chain s t => .chain (s.recast callee place) (t.recast callee place)
  | .leave e => .leave (e.recast callee place)
  | .perform c => .perform (c.recast callee place)
  | .attempt body catches cleanup =>
    .attempt (body.recast callee place) (Catch.recastAll callee place catches)
      (Stmt.recastCleanup callee place cleanup)
  | .throwing x e => .throwing x (e.recast callee place)

/-- Catch branches whose calls have other callees and places. -/
def Catch.recastAll (callee : Callee → Nat → Callee) (place : Location → Location) :
    List Catch → List Catch
  | [] => []
  | .on e x s :: rest => .on e x (s.recast callee place) :: Catch.recastAll callee place rest

/-- What runs in any case, where calls have other callees and places. -/
def Stmt.recastCleanup (callee : Callee → Nat → Callee) (place : Location → Location) :
    Option Stmt → Option Stmt
  | none => none
  | some s => some (s.recast callee place)

end

/-- An expression without the places of its calls. -/
def Expr.unplaced (e : Expr) : Expr :=
  e.recast (fun c _ => c) fun _ => .unknown

/-- Expressions without the places of their calls. -/
def Expr.allUnplaced (es : List Expr) : List Expr :=
  Expr.recastAll (fun c _ => c) (fun _ => .unknown) es

/-- A call without its place. -/
def Call.unplaced (c : Call) : Call :=
  c.recast (fun c _ => c) fun _ => .unknown

/-- A statement without the places of its calls. -/
def Stmt.unplaced (s : Stmt) : Stmt :=
  s.recast (fun c _ => c) fun _ => .unknown

/-- Catch branches without the places of their calls. -/
def Catch.allUnplaced (cs : List Catch) : List Catch :=
  Catch.recastAll (fun c _ => c) (fun _ => .unknown) cs

/-- What runs in any case, without the places of its calls. -/
def Stmt.cleanupUnplaced (s : Option Stmt) : Option Stmt :=
  Stmt.recastCleanup (fun c _ => c) (fun _ => .unknown) s

/-- A function without its place and those of its calls. -/
def Function.unplaced (f : Function) : Function :=
  ⟨f.name, f.parameters, f.body.unplaced, .unknown⟩

/-- A program without the places of its functions and calls. -/
def Program.unplaced (p : Program) : Program :=
  ⟨p.functions.map Function.unplaced, p.entry⟩

section Recast

variable (callee : Callee → Nat → Callee) (place : Location → Location)

theorem Expr.recastAll_eq_map (es : List Expr) :
    Expr.recastAll callee place es = es.map (Expr.recast callee place) := by
  induction es with
  | nil => rfl
  | cons e rest ih => rw [Expr.recastAll, ih, List.map_cons]

theorem Expr.length_recastAll (es : List Expr) :
    (Expr.recastAll callee place es).length = es.length := by
  rw [Expr.recastAll_eq_map, List.length_map]

theorem Stmt.recast_ofList (ss : List Stmt) :
    (Stmt.ofList ss).recast callee place = Stmt.ofList (ss.map (Stmt.recast callee place)) := by
  match ss with
  | [] => rfl
  | [s] => rfl
  | s :: t :: rest => exact congrArg _ (Stmt.recast_ofList (t :: rest))

end Recast

theorem Expr.allUnplaced_cons (e : Expr) (rest : List Expr) :
    Expr.allUnplaced (e :: rest) = e.unplaced :: Expr.allUnplaced rest :=
  rfl

theorem Call.unplaced_expr (c : Call) : c.expr.unplaced = c.unplaced.expr :=
  rfl

theorem Expr.unplaced_named (x : String) (es : List Expr) (l : Location) :
    (Call.named x es l).unplaced = Call.named x (Expr.allUnplaced es) .unknown := by
  have length : (Expr.allUnplaced es).length = es.length := Expr.length_recastAll _ _ es
  simp only [Call.named, length]
  rfl

theorem Expr.allUnplaced_eq_nil {es : List Expr} (h : Expr.allUnplaced es = []) : es = [] := by
  cases es with
  | nil => rfl
  | cons e rest => cases h

/-- The program of some functions and of some statements outside of them. -/
theorem Program.unplaced_mk (fs : List Function) (ss : List Stmt) (entry : String) :
    Program.unplaced ⟨fs ++ [Program.entryFunction entry ss], ⟨entry, 0⟩⟩ =
      ⟨fs.map Function.unplaced ++ [⟨entry, [], .ofList (ss.map Stmt.unplaced), .unknown⟩],
        ⟨entry, 0⟩⟩ := by
  simp only [Program.unplaced, List.map_append, List.map_cons, List.map_nil, Function.unplaced,
    Program.entryFunction, Stmt.unplaced, Stmt.recast_ofList]
  rfl

/-- The kinds of some tokens. -/
def Tokens.kinds (ts : Tokens) : List Token.Kind :=
  ts.list.map Token.kind

namespace Program.Grammar

open Token (Kind)
open Threefold.Program.Parser (Level applyIndices)

/-! ## Expressions -/

/-- The operators of the levels, and how they are written. -/
inductive Infix : Level → Token.Symbol → BinaryOp → Prop
  | or : Infix .disjunction .or .or
  | and : Infix .conjunction .and .and
  | eq : Infix .comparison .equal .eq
  | ne : Infix .comparison .notEqual .ne
  | lt : Infix .comparison .less .lt
  | le : Infix .comparison .lessEqual .le
  | gt : Infix .comparison .greater .gt
  | ge : Infix .comparison .greaterEqual .ge
  | plus : Infix .sum .plus .plus
  | minus : Infix .sum .minus .minus
  | times : Infix .product .times .times
  | div : Infix .product .divide .div
  | rem : Infix .product .remainder .rem

mutual

/-- Operands with operators of a level between them, or one operand alone. -/
inductive Operation : Level → List Kind → Expr → Prop
  | of {ℓ : Level} {v w : List Kind} {l e : Expr} :
    Operand ℓ v l → Chain ℓ l w e → Operation ℓ (v ++ w) e

/-- What follows a first operand: operators of a level with their right operands, and the tree that
they make of it. -/
inductive Chain : Level → Expr → List Kind → Expr → Prop
  | nil {ℓ : Level} {e : Expr} : Chain ℓ e [] e
  | cons {ℓ : Level} {s : Token.Symbol} {op : BinaryOp} {v w : List Kind} {l r e : Expr} :
    ℓ ≠ .comparison → Infix ℓ s op → Operand ℓ v r → Chain ℓ (.binary op l r) w e →
      Chain ℓ l (.symbol s :: (v ++ w)) e
  | compared {s : Token.Symbol} {op : BinaryOp} {v : List Kind} {l r : Expr} :
    Infix .comparison s op → Operand .comparison v r →
      Chain .comparison l (.symbol s :: v) (.binary op l r)

/-- The operands of the operators of a level. -/
inductive Operand : Level → List Kind → Expr → Prop
  | conjunction {w : List Kind} {e : Expr} :
    Operation .conjunction w e → Operand .disjunction w e
  | comparison {w : List Kind} {e : Expr} :
    Operation .comparison w e → Operand .conjunction w e
  | sum {w : List Kind} {e : Expr} : Operation .sum w e → Operand .comparison w e
  | product {w : List Kind} {e : Expr} : Operation .product w e → Operand .sum w e
  | term {w : List Kind} {e : Expr} : Term w e → Operand .product w e

/-- Negations, and atoms with indices behind them. -/
inductive Term : List Kind → Expr → Prop
  | not {w : List Kind} {e : Expr} : Term w e → Term (.symbol .not :: w) (.unary .not e)
  | indexed {v w : List Kind} {a : Expr} {is : List Expr} :
    Atom v a → Indices w is → Term (v ++ w) (applyIndices a is .unknown)

/-- Terms that are neither negations nor indexed. -/
inductive Atom : List Kind → Expr → Prop
  | integer {n : Nat} : n < 2 ^ 31 → Atom [.integer n] (.const (.ofInt n))
  | negative {n : Nat} : n ≤ 2 ^ 31 → Atom [.symbol .minus, .integer n] (.const (.ofInt (-n)))
  | character {c : Char} : Atom [.character c] (.const (.ofNat c.toNat))
  | yes : Atom [.keyword .true_] (.const 1)
  | no : Atom [.keyword .false_] (.const 0)
  | string {s : String} : Atom [.string s] (.string s)
  | var {x : String} : Atom [.name x] (.var x)
  | call {x : String} {w : List Kind} {es : List Expr} :
    Items w es →
      Atom (.name x :: .symbol .openParen :: (w ++ [.symbol .closeParen]))
        (Call.named x es .unknown).expr
  | parentheses {w : List Kind} {e : Expr} :
    Operation .disjunction w e →
      Atom (.symbol .openParen :: (w ++ [.symbol .closeParen])) e
  | array {w : List Kind} {es : List Expr} :
    Items w es →
      Atom (.symbol .openSquare :: (w ++ [.symbol .closeSquare])) (.array false es)
  | boxed {w : List Kind} {es : List Expr} :
    Items w es →
      Atom (.symbol .openCurly :: (w ++ [.symbol .closeCurly])) (.array true es)

/-- Expressions with commas between them, or none. -/
inductive Items : List Kind → List Expr → Prop
  | none : Items [] []
  | some {w : List Kind} {es : List Expr} : ItemList w es → Items w es

/-- One or more expressions with commas between them. -/
inductive ItemList : List Kind → List Expr → Prop
  | one {w : List Kind} {e : Expr} : Operation .disjunction w e → ItemList w [e]
  | more {v w : List Kind} {e : Expr} {es : List Expr} :
    Operation .disjunction v e → ItemList w es →
      ItemList (v ++ .symbol .comma :: w) (e :: es)

/-- Indices, each in its brackets. -/
inductive Indices : List Kind → List Expr → Prop
  | none : Indices [] []
  | more {v w : List Kind} {e : Expr} {es : List Expr} :
    Operation .disjunction v e → Indices w es →
      Indices (.symbol .openSquare :: (v ++ .symbol .closeSquare :: w)) (e :: es)

end

/-- Expressions: disjunctions, if there is nothing looser in them. -/
abbrev Expression : List Kind → Expr → Prop :=
  Operation .disjunction

/-! ## Statements -/

/-- What may stand behind a statement. -/
inductive Separator : List Kind → Prop
  | none : Separator []
  | semicolon : Separator [.symbol .semicolon]

mutual

/-- Statements. -/
inductive Statement : List Kind → Stmt → Prop
  | skip : Statement [.keyword .skip] .skip
  | assign {x : String} {w : List Kind} {e : Expr} :
    Expression w e → Statement (.name x :: .symbol .assign :: w) (.assign x e)
  | element {x : String} {v w : List Kind} {is : List Expr} {i e : Expr} :
    Indices v (is ++ [i]) → Expression w e →
      Statement (.name x :: (v ++ .symbol .assign :: w))
        (.perform (.named "arrset" [applyIndices (.var x) is .unknown, i, e] .unknown))
  | perform {x : String} {w : List Kind} {es : List Expr} :
    Items w es →
      Statement (.name x :: .symbol .openParen :: (w ++ [.symbol .closeParen]))
        (.perform (.named x es .unknown))
  | branch {w : List Kind} {s : Stmt} :
    Branches w s → Statement (.keyword .if_ :: (w ++ [.keyword .fi])) s
  | loop {v w : List Kind} {c : Expr} {s : Stmt} :
    Expression v c → Block w s →
      Statement (.keyword .while_ :: (v ++ .keyword .do_ :: (w ++ [.keyword .od]))) (.loop c s)
  | counted {t u v w : List Kind} {c : Expr} {start step s : Stmt} :
    Statement t start → Expression u c → Statement v step → Block w s →
      Statement
        (.keyword .for_ :: (t ++ .symbol .comma :: (u ++ .symbol .comma ::
          (v ++ .keyword .do_ :: (w ++ [.keyword .od])))))
        (.chain start (.loop c (.chain s step)))
  | repeated {v w : List Kind} {c : Expr} {s : Stmt} :
    Block v s → Expression w c →
      Statement (.keyword .repeat_ :: (v ++ .keyword .until_ :: w))
        (.chain s (.loop (.unary .not c) s))
  | leave {w : List Kind} {e : Expr} :
    Expression w e → Statement (.keyword .return_ :: w) (.leave e)
  | attempt {u v w : List Kind} {s : Stmt} {cs : List Catch} {last : Option Stmt} :
    Block u s → Catches v cs → Cleanup w last →
      Statement (.keyword .try_ :: (u ++ (v ++ (w ++ [.keyword .yrt])))) (.attempt s cs last)
  | throwing {x : String} {w : List Kind} {e : Expr} :
    Expression w e →
      Statement (.keyword .throw_ :: .symbol .openParen :: .name x ::
        (w ++ [.symbol .closeParen])) (.throwing x e)

/-- What stands between a condition and the end of the statement. -/
inductive Branches : List Kind → Stmt → Prop
  | last {v w : List Kind} {c : Expr} {s : Stmt} :
    Expression v c → Block w s → Branches (v ++ .keyword .then_ :: w) (.branch c s .skip)
  | otherwise {u v w : List Kind} {c : Expr} {s t : Stmt} :
    Expression u c → Block v s → Block w t →
      Branches (u ++ .keyword .then_ :: (v ++ .keyword .else_ :: w)) (.branch c s t)
  | elif {u v w : List Kind} {c : Expr} {s t : Stmt} :
    Expression u c → Block v s → Branches w t →
      Branches (u ++ .keyword .then_ :: (v ++ .keyword .elif :: w)) (.branch c s t)

/-- One or more statements. -/
inductive Block : List Kind → Stmt → Prop
  | of {w : List Kind} {s : Stmt} {ss : List Stmt} :
    Statements w (s :: ss) → Block w (.ofList (s :: ss))

/-- Statements, each with a semicolon behind it or none. -/
inductive Statements : List Kind → List Stmt → Prop
  | none : Statements [] []
  | more {u v w : List Kind} {s : Stmt} {ss : List Stmt} :
    Statement u s → Separator v → Statements w ss → Statements (u ++ (v ++ w)) (s :: ss)

/-- Catch branches. -/
inductive Catches : List Kind → List Catch → Prop
  | none : Catches [] []
  | more {e x : String} {v w : List Kind} {s : Stmt} {cs : List Catch} :
    Block v s → Catches w cs →
      Catches (.keyword .catch_ :: .symbol .openParen :: .name e :: .name x ::
        .symbol .closeParen :: (v ++ w)) (.on e x s :: cs)

/-- What runs in any case, or nothing. -/
inductive Cleanup : List Kind → Option Stmt → Prop
  | none : Cleanup [] none
  | some {w : List Kind} {s : Stmt} :
    Block w s → Cleanup (.keyword .finally_ :: w) (some s)

end

/-! ## Programs -/

/-- One or more names with commas between them. -/
inductive NameList : List Kind → List String → Prop
  | one {x : String} : NameList [.name x] [x]
  | more {x : String} {w : List Kind} {xs : List String} :
    NameList w xs → NameList (.name x :: .symbol .comma :: w) (x :: xs)

/-- Names with commas between them, or none. -/
inductive Names : List Kind → List String → Prop
  | none : Names [] []
  | some {w : List Kind} {xs : List String} : NameList w xs → Names w xs

/-- Declarations of functions. -/
inductive Declaration : List Kind → Function → Prop
  | of {f : String} {v w : List Kind} {xs : List String} {s : Stmt} :
    Names v xs → Block w s →
      Declaration (.keyword .fun_ :: .name f :: .symbol .openParen ::
        (v ++ .symbol .closeParen :: .keyword .begin_ :: (w ++ [.keyword .end_])))
        ⟨f, xs, s, .unknown⟩

/-- Functions and statements in any order. -/
inductive Declarations : List Kind → List Function → List Stmt → Prop
  | none : Declarations [] [] []
  | function {v w : List Kind} {f : Function} {fs : List Function}
    {ss : List Stmt} :
    Declaration v f → Declarations w fs ss → Declarations (v ++ w) (f :: fs) ss
  | statement {u v w : List Kind} {s : Stmt} {fs : List Function} {ss : List Stmt} :
    Statement u s → Separator v → Declarations w fs ss →
      Declarations (u ++ (v ++ w)) fs (s :: ss)

/-- Programs: the functions in their order, and last the entry, which has the statements outside of
functions. -/
inductive Denotes (entry : String) : List Kind → Program → Prop
  | of {w : List Kind} {fs : List Function} {ss : List Stmt} :
    Declarations w fs ss →
      Denotes entry w ⟨fs ++ [⟨entry, [], .ofList ss, .unknown⟩], ⟨entry, 0⟩⟩

end Program.Grammar

end Threefold
