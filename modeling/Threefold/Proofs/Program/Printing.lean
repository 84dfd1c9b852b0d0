import Threefold.Program.Display
import Threefold.Proofs.Program.Acceptance
import Threefold.Proofs.Program.Spelling

/-!
# Programs are read as they are shown

The text of a function of a program that was read and bound is itself a text of a program. Its one
function, the entry, has the statements of the function that is shown: its calls are by name again,
they stand elsewhere, and the lines of a chain of statements do not say how the chain was grouped
(`parse_text`).

The text of a tree is compared with the grammar piece by piece. A piece of a line is `Written` as
some tokens if it is read as these wherever it stands, unless a word goes on behind it; lines always
end (`WrittenLines`). So an expression is a term (`Expr.written`), since every operation stands in
parentheses, and a statement is as many statements as it chains (`Stmt.written`).
-/

namespace Threefold

open Token (Kind Lexed isWordChar)

/-! ## Chains of statements -/

mutual

/-- The statements that a statement chains, whichever way they are grouped. -/
def Stmt.parts : Stmt → List Stmt
  | .chain s t => s.parts ++ t.parts
  | .branch c yes no => [.branch c (.ofList yes.parts) (.ofList no.parts)]
  | .loop c body => [.loop c (.ofList body.parts)]
  | .attempt body catches cleanup =>
    [.attempt (.ofList body.parts) (Catch.allReassociated catches)
      (Stmt.cleanupReassociated cleanup)]
  | .skip => [.skip]
  | .assign x e => [.assign x e]
  | .leave e => [.leave e]
  | .perform c => [.perform c]
  | .throwing x e => [.throwing x e]

/-- Catch branches with the chains in them grouped to the right. -/
def Catch.allReassociated : List Catch → List Catch
  | [] => []
  | .on e x s :: rest => .on e x (.ofList s.parts) :: Catch.allReassociated rest

/-- What runs in any case, with the chains in it grouped to the right. -/
def Stmt.cleanupReassociated : Option Stmt → Option Stmt
  | none => none
  | some s => some (.ofList s.parts)

end

/-- A statement with all chains in it grouped to the right. -/
def Stmt.reassociated (s : Stmt) : Stmt :=
  .ofList s.parts

theorem Stmt.parts_ne_nil : ∀ s : Stmt, s.parts ≠ []
  | .chain s _ => List.append_ne_nil_of_left_ne_nil s.parts_ne_nil _
  | .branch _ _ _ | .loop _ _ | .attempt _ _ _ | .skip | .assign _ _ | .leave _ | .perform _
  | .throwing _ _ => List.cons_ne_nil _ _

/-! ## Pieces of lines -/

/-- A text that begins with a character that no word has. -/
def Apart (b : String) : Prop :=
  ∃ c cs, b.toList = c :: cs ∧ isWordChar c = false

theorem Apart.append {b : String} (h : Apart b) (d : String) : Apart (b ++ d) := by
  obtain ⟨c, cs, hb, hc⟩ := h
  exact ⟨c, cs ++ d.toList, by rw [String.toList_append, hb, List.cons_append], hc⟩

/-- A text is read as some tokens, whatever stands behind it that is not the rest of a word. -/
def Written (a : String) (ks : List Kind) : Prop :=
  ∀ rest ks', (∀ c ∈ rest.head?, isWordChar c = false) → Lexed rest ks' →
    Lexed (a.toList ++ rest) (ks ++ ks')

/-- Symbols that are not the first half of another one. -/
def aloneSymbols : List Token.Symbol :=
  [.openParen, .closeParen, .openSquare, .closeSquare, .openCurly, .closeCurly, .comma, .minus]

theorem endsAt_of_mem_aloneSymbols {s : Token.Symbol} (h : s ∈ aloneSymbols)
    (next : Option Char) : (Kind.symbol s).EndsAt next := by
  simp only [aloneSymbols, List.mem_cons, List.not_mem_nil, or_false] at h
  rintro a text c -
  rcases h with rfl | rfl | rfl | rfl | rfl | rfl | rfl | rfl <;>
    · cases text
      rfl

namespace Written

variable {a b : String} {k : Kind} {ks ls : List Kind}

theorem nil : Written "" [] :=
  fun _ _ _ h => h

theorem seq (ha : Written a ks) (hb : Written b ls) (apart : Apart b) :
    Written (a ++ b) (ks ++ ls) := by
  intro rest ks' hrest h
  obtain ⟨c, cs, text, hc⟩ := apart
  rw [String.toList_append, List.append_assoc, List.append_assoc]
  refine ha _ _ ?_ (hb rest ks' hrest h)
  rw [text]
  rintro d ⟨⟩
  exact hc

theorem space (hb : Written b ls) : Written (" " ++ b) ls := by
  intro rest ks' hrest h
  rw [String.toList_append, List.append_assoc]
  exact .blank (by decide) (hb rest ks' hrest h)

/-- A token with a text behind it that does not go on with it. -/
theorem cons (hk : k.WellSpelled) (hb : Written b ls)
    (ends : ∀ rest : List Char, k.EndsAt (b.toList ++ rest).head?) :
    Written (k.text ++ b) (k :: ls) := by
  intro rest ks' hrest h
  rw [String.toList_append, List.append_assoc]
  exact Token.lexed_text hk (ends rest) (hb rest ks' hrest h)

theorem spaced (hk : k.WellSpelled) (hb : Written b ls) :
    Written (k.text ++ " " ++ b) (k :: ls) := by
  rw [String.append_assoc]
  refine cons hk hb.space fun rest => ?_
  rw [String.toList_append]
  exact k.endsAt_of_isBlank (by decide)

theorem symbol {s : Token.Symbol} (alone : s ∈ aloneSymbols) (hb : Written b ls) :
    Written (s.text ++ b) (.symbol s :: ls) :=
  cons (k := .symbol s) trivial hb fun _ => endsAt_of_mem_aloneSymbols alone _

/-- A token other than a symbol is written as it is. -/
theorem kind (hk : k.WellSpelled) (plain : ∀ s, k ≠ .symbol s) : Written k.text [k] := by
  intro rest ks' hrest h
  refine Token.lexed_text hk ?_ h
  cases k with
  | integer n =>
    exact fun c hc => Token.isDigit_of_isWordChar (hrest c hc)
  | name x => exact hrest
  | keyword x => exact hrest
  | symbol s => exact absurd rfl (plain s)
  | character c => trivial
  | string s => trivial

theorem name {x : String} (hx : Token.IsName x) : Written x [.name x] :=
  kind (k := .name x) hx (by nofun)

theorem keyword (k : Token.Keyword) : Written k.text [.keyword k] :=
  kind (k := .keyword k) trivial (by nofun)

theorem integer {n : Nat} (hn : n ≤ 2 ^ 31) : Written n.repr [.integer n] := by
  refine kind (k := .integer n) ?_ (by nofun)
  show n ≤ 0xFFFFFFFF
  omega

/-- A text in brackets. -/
theorem enclosed {s t : Token.Symbol} (opening : s ∈ aloneSymbols) (closing : t ∈ aloneSymbols)
    (apart : Apart t.text) (h : Written a ks) :
    Written (s.text ++ (a ++ t.text)) (.symbol s :: (ks ++ [.symbol t])) := by
  have last : Written t.text [.symbol t] := by
    have empty := nil.symbol closing
    rwa [String.append_empty] at empty
  exact (h.seq last apart).symbol opening

theorem parentheses (h : Written a ks) :
    Written ("(" ++ (a ++ ")")) (.symbol .openParen :: (ks ++ [.symbol .closeParen])) :=
  h.enclosed (s := .openParen) (t := .closeParen) (by decide) (by decide) ⟨_, _, rfl, rfl⟩

end Written

theorem apart_space (b : String) : Apart (" " ++ b) :=
  Apart.append ⟨_, _, rfl, rfl⟩ b

/-! ## Expressions -/

namespace Program.Grammar

open Threefold.Program.Parser (Level)

theorem term_of_atom {w : List Kind} {e : Expr} (h : Atom w e) : Term w e := by
  rw [← List.append_nil w]
  exact .indexed h .none

theorem operation_of_operand {ℓ : Level} {w : List Kind} {e : Expr} (h : Operand ℓ w e) :
    Operation ℓ w e := by
  rw [← List.append_nil w]
  exact .of h .nil

/-- A term is an operand of every level. -/
theorem operand_of_term {w : List Kind} {e : Expr} (h : Term w e) (ℓ : Level) : Operand ℓ w e := by
  have product := operation_of_operand (.term h)
  have sum := operation_of_operand (.product product)
  have comparison := operation_of_operand (.sum sum)
  have conjunction := operation_of_operand (.comparison comparison)
  cases ℓ with
  | disjunction => exact .conjunction conjunction
  | conjunction => exact .comparison comparison
  | comparison => exact .sum sum
  | sum => exact .product product
  | product => exact .term h

/-- What is an operation of some level is an expression. -/
theorem expression_of_operation {ℓ : Level} {w : List Kind} {e : Expr} (h : Operation ℓ w e) :
    Expression w e := by
  have conjunction (h : Operation .conjunction w e) := operation_of_operand (.conjunction h)
  have comparison (h : Operation .comparison w e) :=
    conjunction (operation_of_operand (.comparison h))
  have sum (h : Operation .sum w e) := comparison (operation_of_operand (.sum h))
  cases ℓ with
  | disjunction => exact h
  | conjunction => exact conjunction h
  | comparison => exact comparison h
  | sum => exact sum h
  | product => exact sum (operation_of_operand (.product h))

theorem expression_of_term {w : List Kind} {e : Expr} (h : Term w e) : Expression w e :=
  operation_of_operand (operand_of_term h _)

/-- Two terms with an operator between them are an expression. -/
theorem expression_of_operator {ℓ : Level} {s : Token.Symbol} {op : BinaryOp} {v w : List Kind}
    {l r : Expr} (hs : Infix ℓ s op) (hl : Term v l) (hr : Term w r) :
    Expression (v ++ .symbol s :: w) (.binary op l r) := by
  have left := operand_of_term hl ℓ
  have right := operand_of_term hr ℓ
  by_cases compares : ℓ = .comparison
  · subst compares
    exact expression_of_operation (.of left (.compared hs right))
  · have chain := Chain.cons (l := l) compares hs right .nil
    rw [List.append_nil] at chain
    exact expression_of_operation (.of left chain)

theorem exists_operator (op : BinaryOp) : ∃ ℓ s, Infix ℓ s op ∧ s.text = op.symbol := by
  cases op <;> exact ⟨_, _, by constructor, rfl⟩

theorem itemList_of_items {w : List Kind} {es : List Expr} (h : Items w es) (he : es ≠ []) :
    ItemList w es := by
  cases h with
  | none => exact absurd rfl he
  | some h => exact h

end Program.Grammar

/-! ## The text of an expression -/

section Expressions

open Program.Grammar

variable {declared : List Signature}

theorem Callee.text_eq_name {c : Callee} {n : Nat} (h : c.Bound declared n) : c.text = c.name := by
  cases c with
  | unbound x arity => cases h
  | declared s => rfl
  | intrinsic i => rfl

/-- The text of a number is an integer with a sign or without. -/
theorem written_const (n : Int32) :
    ∃ ks, Term ks (.const n) ∧ Written (Expr.const n).text ks := by
  have low := n.le_toInt
  have high := n.toInt_lt
  have text : (Expr.const n).text = n.toInt.repr := rfl
  rw [text, Int.repr_eq_if]
  by_cases sign : 0 ≤ n.toInt
  · rw [if_pos sign]
    have value : Int32.ofInt (n.toInt.toNat : Int) = n := by
      rw [Int.toNat_of_nonneg sign, Int32.ofInt_toInt]
    have atom : Atom [.integer n.toInt.toNat] (.const (.ofInt (n.toInt.toNat : Int))) :=
      .integer (by omega)
    rw [value] at atom
    exact ⟨_, term_of_atom atom, .integer (by omega)⟩
  · rw [if_neg sign]
    have value : Int32.ofInt (-((-n.toInt).toNat : Int)) = n := by
      rw [Int.toNat_of_nonneg (by omega), Int.neg_neg, Int32.ofInt_toInt]
    have atom : Atom [.symbol .minus, .integer (-n.toInt).toNat]
        (.const (.ofInt (-((-n.toInt).toNat : Int)))) := .negative (by omega)
    rw [value] at atom
    have digits : Written (-n.toInt).toNat.repr [.integer (-n.toInt).toNat] := .integer (by omega)
    exact ⟨_, term_of_atom atom, digits.symbol (s := .minus) (by decide)⟩

theorem Call.unplaced_unbound (c : Call) : c.unbound.unplaced =
    Call.named c.callee.name (Expr.allUnplaced (Expr.allUnbound c.arguments)) .unknown := by
  have length : (Expr.allUnplaced (Expr.allUnbound c.arguments)).length = c.arguments.length := by
    rw [Expr.allUnplaced, Expr.length_recastAll, Expr.allUnbound, Expr.length_recastAll]
  rw [Call.named, length]
  rfl

/-- The text of a bound call. -/
theorem Written.call {c : Callee} {arguments : List Expr} {l : Location} {ks : List Kind}
    (h : Written (", ".intercalate (Expr.texts arguments)) ks) (hc : Token.IsName c.name)
    (hb : c.Bound declared arguments.length) :
    Written (Expr.call c arguments l).text
      (.name c.name :: .symbol .openParen :: (ks ++ [.symbol .closeParen])) := by
  rw [Expr.text, Callee.text_eq_name hb, String.append_assoc, String.append_assoc]
  exact (Written.name hc).seq h.parentheses (Apart.append ⟨_, _, rfl, rfl⟩ _)

mutual

/-- The text of an expression is that of a term. -/
theorem Expr.written : ∀ e : Expr, e.Spelled → e.AllCalls (Callee.Bound declared) →
    ∃ ks, Term ks e.unbound.unplaced ∧ Written e.text ks
  | .const n, _, _ => written_const n
  | .string s, hs, _ => ⟨_, term_of_atom .string, .kind (k := .string s) hs (by nofun)⟩
  | .var x, hx, _ => ⟨_, term_of_atom .var, .name hx⟩
  | .array false items, hs, hb => by
    obtain ⟨ks, derived, written⟩ := Expr.allWritten items hs hb
    refine ⟨_, term_of_atom (.array derived), ?_⟩
    rw [Expr.text, String.append_assoc]
    exact written.enclosed (s := .openSquare) (t := .closeSquare) (by decide) (by decide)
      ⟨_, _, rfl, rfl⟩
  | .array true items, hs, hb => by
    obtain ⟨ks, derived, written⟩ := Expr.allWritten items hs hb
    refine ⟨_, term_of_atom (.boxed derived), ?_⟩
    rw [Expr.text, String.append_assoc]
    exact written.enclosed (s := .openCurly) (t := .closeCurly) (by decide) (by decide)
      ⟨_, _, rfl, rfl⟩
  | .unary .not e, hs, hb => by
    obtain ⟨ks, derived, written⟩ := Expr.written e hs hb
    refine ⟨_, .not (term_of_atom (.parentheses (expression_of_term derived))), ?_⟩
    rw [Expr.text, String.append_assoc, String.append_assoc]
    refine written.parentheses.cons (k := .symbol .not) trivial fun rest => ?_
    rw [String.toList_append]
    rintro a text c ⟨⟩
    cases text
    rfl
  | .binary op l r, hs, hb => by
    obtain ⟨v, hl, left⟩ := Expr.written l hs.1 hb.1
    obtain ⟨w, hr, right⟩ := Expr.written r hs.2 hb.2
    obtain ⟨ℓ, s, hop, symbol⟩ := exists_operator op
    refine ⟨_, term_of_atom (.parentheses (expression_of_operator hop hl hr)), ?_⟩
    have inner := left.seq (right.spaced (k := .symbol s) trivial).space (apart_space _)
    have whole := inner.parentheses
    rw [Expr.text, ← symbol]
    simp only [String.append_assoc] at whole ⊢
    exact whole
  | .call c arguments l, hs, hb => by
    obtain ⟨ks, derived, written⟩ := Expr.allWritten arguments hs.2 hb.2
    have atom := Atom.call (x := c.name) derived
    rw [← Call.unplaced_unbound ⟨c, arguments, l⟩] at atom
    exact ⟨_, term_of_atom atom, written.call hs.1 hb.1⟩

/-- The texts of expressions with commas between them are those of items. -/
theorem Expr.allWritten : ∀ es : List Expr, Expr.AllSpelled es →
    Expr.AllCallsIn (Callee.Bound declared) es →
    ∃ ks, Items ks (Expr.allUnplaced (Expr.allUnbound es)) ∧
      Written (", ".intercalate (Expr.texts es)) ks
  | [], _, _ => ⟨[], .none, .nil⟩
  | [e], hs, hb => by
    obtain ⟨ks, derived, written⟩ := Expr.written e hs.1 hb.1
    refine ⟨ks, .some (.one (expression_of_term derived)), ?_⟩
    rwa [Expr.texts, Expr.texts, String.intercalate_singleton]
  | e :: f :: rest, hs, hb => by
    obtain ⟨v, first, written⟩ := Expr.written e hs.1 hb.1
    obtain ⟨w, items, others⟩ := Expr.allWritten (f :: rest) hs.2 hb.2
    have more := itemList_of_items items (List.cons_ne_nil _ _)
    refine ⟨_, .some (.more (expression_of_term first) more), ?_⟩
    have comma := others.spaced (k := .symbol .comma) trivial
    rw [Expr.texts, Expr.texts, String.intercalate_cons_cons, String.append_assoc]
    exact written.seq comma (Apart.append ⟨_, _, rfl, rfl⟩ _)

end

end Expressions

/-! ## Lines -/

theorem toList_pushn (c : Char) (n : Nat) : ("".pushn c n).toList = List.replicate n c := by
  rw [String.pushn_eq_repeat_push]
  induction n with
  | zero => rfl
  | succ n ih => rw [Nat.repeat, String.toList_push, ih, List.replicate_succ']

theorem unlines_append (l m : List String) : unlines (l ++ m) = unlines l ++ unlines m := by
  rw [← String.toList_inj]
  simp only [unlines, String.toList_append, String.toList_join, List.map_append,
    List.flatMap_append]

/-- Lines are read as some tokens, whatever stands behind them. -/
def WrittenLines (l : List String) (ks : List Kind) : Prop :=
  ∀ rest ks', Lexed rest ks' → Lexed ((unlines l).toList ++ rest) (ks ++ ks')

namespace WrittenLines

variable {a : String} {l m : List String} {ks ls : List Kind} {d : Nat}

theorem nil : WrittenLines [] [] :=
  fun _ _ h => h

theorem append (hl : WrittenLines l ks) (hm : WrittenLines m ls) :
    WrittenLines (l ++ m) (ks ++ ls) := by
  intro rest ks' h
  rw [unlines_append, String.toList_append, List.append_assoc, List.append_assoc]
  exact hl _ _ (hm rest ks' h)

/-- The blanks in front of a line are of no account, and its end is the end of a word. -/
theorem line (h : Written a ks) : WrittenLines [indented d a] ks := by
  intro rest ks' hrest
  have ended : Lexed (a.toList ++ '\n' :: rest) (ks ++ ks') := by
    refine h _ _ ?_ (.blank (by decide) hrest)
    rintro c ⟨⟩
    rfl
  have blanks : ∀ n, Lexed (List.replicate n ' ' ++ (a.toList ++ '\n' :: rest)) (ks ++ ks') := by
    intro n
    induction n with
    | zero => exact ended
    | succ n ih => exact .blank (by decide) ih
  have text : (unlines [indented d a]).toList =
      List.replicate (4 * d) ' ' ++ (a.toList ++ ['\n']) := by
    simp only [unlines, indented, List.map_cons, List.map_nil, String.toList_join,
      String.toList_append, toList_pushn, List.flatMap_cons, List.flatMap_nil, List.append_nil,
      List.append_assoc]
    rfl
  rw [text, List.append_assoc, List.append_assoc]
  exact blanks _

theorem cons (h : Written a ks) (hl : WrittenLines l ls) :
    WrittenLines (indented d a :: l) (ks ++ ls) :=
  (line h).append hl

end WrittenLines

/-! ## Statements -/

namespace Program.Grammar

theorem statements_of_statement {w : List Kind} {s : Stmt} (h : Statement w s) :
    Statements w [s] := by
  rw [← List.append_nil w]
  exact .more h .none .none

theorem statements_append : ∀ {v w : List Kind} {ss ts : List Stmt},
    Statements v ss → Statements w ts → Statements (v ++ w) (ss ++ ts)
  | _, _, _, _, .none, ht => ht
  | _, _, _, _, .more hs hv hss, ht => by
    rw [List.append_assoc, List.append_assoc]
    exact .more hs hv (statements_append hss ht)

theorem block_of_statements {w : List Kind} {ss : List Stmt} (h : Statements w ss)
    (hss : ss ≠ []) : Block w (.ofList ss) := by
  cases ss with
  | nil => exact absurd rfl hss
  | cons s rest => exact .of h

/-- Statements alone are a program. -/
theorem declarations_of_statements : ∀ {w : List Kind} {ss : List Stmt},
    Statements w ss → Declarations w [] ss
  | _, _, .none => .none
  | _, _, .more hs hv hss => .statement hs hv (declarations_of_statements hss)

end Program.Grammar

section Statements

open Program.Grammar

variable {declared : List Signature} {a : String} {ks : List Kind}

/-- A text between two keywords. -/
theorem Written.headed (k l : Token.Keyword) (h : Written a ks) :
    Written (k.text ++ " " ++ a ++ (" " ++ l.text)) (.keyword k :: (ks ++ [.keyword l])) := by
  have spaced := (h.seq (keyword l).space (apart_space _)).spaced (k := .keyword k) trivial
  rwa [← String.append_assoc] at spaced

/-- A name and a text in parentheses behind a keyword. -/
theorem Written.parenthesised (k : Token.Keyword) {x : String} (hx : Token.IsName x)
    (h : Written a ks) :
    Written (k.text ++ " (" ++ x ++ " " ++ a ++ ")")
      (.keyword k :: .symbol .openParen :: .name x :: (ks ++ [.symbol .closeParen])) := by
  have inner := h.spaced (k := .name x) hx
  have spaced := inner.parentheses.spaced (k := .keyword k) trivial
  have opening : " (" = " " ++ "(" := rfl
  simp only [String.append_assoc, opening] at spaced ⊢
  exact spaced

theorem Stmt.eq_skip_of_isSkip {s : Stmt} (h : s.isSkip = true) : s = .skip := by
  cases s with
  | skip => rfl
  | _ => cases h

theorem written_branch {c : Expr} {yes no : Stmt} {u v w : List Kind} {depth : Nat}
    (hc : Term u c.unbound.unplaced) (text : Written c.text u)
    (first : Statements v yes.unbound.unplaced.parts)
    (firstLines : WrittenLines (yes.lines (depth + 1)) v)
    (second : Statements w no.unbound.unplaced.parts)
    (secondLines : WrittenLines (no.lines (depth + 1)) w) :
    ∃ ks, Statements ks (Stmt.branch c yes no).unbound.unplaced.parts ∧
      WrittenLines ((Stmt.branch c yes no).lines depth) ks := by
  have condition := expression_of_term hc
  have yesBlock := block_of_statements first (Stmt.parts_ne_nil _)
  have noBlock := block_of_statements second (Stmt.parts_ne_nil _)
  have begun := WrittenLines.cons (d := depth) (text.headed .if_ .then_) firstLines
  have otherwise := WrittenLines.cons (d := depth) (.keyword .else_) secondLines
  have ended := WrittenLines.line (d := depth) (.keyword .fi)
  cases nothing : no.isSkip with
  | true =>
    -- a branch that does nothing is not shown
    obtain rfl := Stmt.eq_skip_of_isSkip nothing
    refine ⟨_, statements_of_statement (.branch (.last condition yesBlock)), ?_⟩
    have whole := begun.append ended
    rw [Stmt.lines, nothing, if_pos rfl]
    simp only [List.append_assoc, List.cons_append, List.nil_append] at whole ⊢
    exact whole
  | false =>
    refine ⟨_, statements_of_statement (.branch (.otherwise condition yesBlock noBlock)), ?_⟩
    have whole := (begun.append otherwise).append ended
    rw [Stmt.lines, nothing, if_neg Bool.false_ne_true]
    simp only [List.append_assoc, List.cons_append, List.nil_append] at whole ⊢
    exact whole

mutual

/-- The lines of a statement are those of the statements that it chains. -/
theorem Stmt.written (depth : Nat) : ∀ s : Stmt, s.Spelled → s.AllCalls (Callee.Bound declared) →
    ∃ ks, Statements ks s.unbound.unplaced.parts ∧ WrittenLines (s.lines depth) ks
  | .skip, _, _ => ⟨_, statements_of_statement .skip, .line (.keyword .skip)⟩
  | .assign x e, hs, hb => by
    obtain ⟨w, he, text⟩ := e.written hs.2 hb
    refine ⟨_, statements_of_statement (.assign (x := x) (expression_of_term he)), .line ?_⟩
    have value := (text.spaced (k := .symbol .assign) trivial).space
    have whole := (Written.name hs.1).seq value (apart_space _)
    have sign : " := " = " " ++ (":=" ++ " ") := rfl
    simp only [String.append_assoc, sign] at whole ⊢
    exact whole
  | .branch c yes no, hs, hb => by
    obtain ⟨u, hc, text⟩ := c.written hs.1 hb.1
    obtain ⟨v, first, firstLines⟩ := Stmt.written (depth + 1) yes hs.2.1 hb.2.1
    obtain ⟨w, second, secondLines⟩ := Stmt.written (depth + 1) no hs.2.2 hb.2.2
    exact written_branch hc text first firstLines second secondLines
  | .loop c body, hs, hb => by
    obtain ⟨v, hc, text⟩ := c.written hs.1 hb.1
    obtain ⟨w, inner, lines⟩ := Stmt.written (depth + 1) body hs.2 hb.2
    have block := block_of_statements inner (Stmt.parts_ne_nil _)
    refine ⟨_, statements_of_statement (.loop (expression_of_term hc) block), ?_⟩
    have begun := WrittenLines.cons (d := depth) (text.headed .while_ .do_) lines
    have whole := begun.append (.line (d := depth) (.keyword .od))
    rw [Stmt.lines]
    simp only [List.append_assoc, List.cons_append, List.nil_append] at whole ⊢
    exact whole
  | .chain s t, hs, hb => by
    obtain ⟨v, first, firstLines⟩ := Stmt.written depth s hs.1 hb.1
    obtain ⟨w, second, secondLines⟩ := Stmt.written depth t hs.2 hb.2
    exact ⟨v ++ w, statements_append first second, firstLines.append secondLines⟩
  | .leave e, hs, hb => by
    obtain ⟨w, he, text⟩ := e.written hs hb
    refine ⟨_, statements_of_statement (.leave (expression_of_term he)), .line ?_⟩
    exact text.spaced (k := .keyword .return_) trivial
  | .perform c, hs, hb => by
    obtain ⟨w, items, text⟩ := Expr.allWritten c.arguments hs.2 hb.2
    have performed := Statement.perform (x := c.callee.name) items
    rw [← Call.unplaced_unbound] at performed
    exact ⟨_, statements_of_statement performed, .line (text.call hs.1 hb.1)⟩
  | .attempt body catches cleanup, hs, hb => by
    obtain ⟨u, inner, lines⟩ := Stmt.written (depth + 1) body hs.1 hb.1
    obtain ⟨v, handlers, catchLines⟩ := Catch.allWritten depth catches hs.2.1 hb.2.1
    obtain ⟨w, last, lastLines⟩ := Stmt.cleanupWritten depth cleanup hs.2.2 hb.2.2
    have block := block_of_statements inner (Stmt.parts_ne_nil _)
    refine ⟨_, statements_of_statement (.attempt block handlers last), ?_⟩
    have begun := WrittenLines.cons (d := depth) (.keyword .try_) lines
    have ended := WrittenLines.line (d := depth) (.keyword .yrt)
    have whole := ((begun.append catchLines).append lastLines).append ended
    rw [Stmt.lines]
    simp only [List.append_assoc, List.cons_append, List.nil_append] at whole ⊢
    exact whole
  | .throwing x e, hs, hb => by
    obtain ⟨w, he, text⟩ := e.written hs.2 hb
    refine ⟨_, statements_of_statement (.throwing (x := x) (expression_of_term he)), .line ?_⟩
    exact text.parenthesised .throw_ hs.1

/-- The lines of catch branches. -/
theorem Catch.allWritten (depth : Nat) : ∀ cs : List Catch, Catch.AllSpelled cs →
    Catch.AllCalls (Callee.Bound declared) cs →
    ∃ ks, Catches ks (Catch.allReassociated (Catch.allUnplaced (Catch.allUnbound cs))) ∧
      WrittenLines (Catch.lines depth cs) ks
  | [], _, _ => ⟨[], .none, .nil⟩
  | .on e x s :: rest, hs, hb => by
    obtain ⟨v, inner, lines⟩ := Stmt.written (depth + 1) s hs.2.2.1 hb.1
    obtain ⟨w, handlers, others⟩ := Catch.allWritten depth rest hs.2.2.2 hb.2
    have block := block_of_statements inner (Stmt.parts_ne_nil _)
    have target := Written.name hs.2.1
    refine ⟨_, .more (e := e) (x := x) block handlers, ?_⟩
    have begun := WrittenLines.cons (d := depth) (target.parenthesised .catch_ hs.1) lines
    have whole := begun.append others
    rw [Catch.lines]
    simp only [List.cons_append, List.nil_append] at whole ⊢
    exact whole

/-- The lines of what runs in any case. -/
theorem Stmt.cleanupWritten (depth : Nat) : ∀ s : Option Stmt, Stmt.CleanupSpelled s →
    Stmt.CleanupAllCalls (Callee.Bound declared) s →
    ∃ ks, Cleanup ks (Stmt.cleanupReassociated (Stmt.cleanupUnplaced (Stmt.cleanupUnbound s))) ∧
      WrittenLines (Stmt.cleanupLines depth s) ks
  | none, _, _ => ⟨[], .none, .nil⟩
  | some s, hs, hb => by
    obtain ⟨w, inner, lines⟩ := Stmt.written (depth + 1) s hs hb
    have block := block_of_statements inner (Stmt.parts_ne_nil _)
    exact ⟨_, .some block, .cons (.keyword .finally_) lines⟩

end

end Statements

/-! ## Programs -/

namespace Program

/-- The text of a function of a bound program is read as a program again. It has the entry only,
with the statements of the function: their calls are by name, and the chains of them are grouped to
the right. -/
theorem parse_text {file source entry : String} {p : Program} (h : load file source entry = .ok p)
    {f : Function} (hf : f ∈ p.functions) (file' entry' : String) :
    ∃ q, parse file' f.body.text entry' = .ok q ∧
      q.unplaced =
        ⟨[⟨entry', [], f.body.unbound.unplaced.reassociated, .unknown⟩], ⟨entry', 0⟩⟩ := by
  obtain ⟨ks, statements, lines⟩ :=
    f.body.written 0 (spelled_of_load h f hf) ((linked_of_load h).bound f hf)
  have shown : Lexed f.body.text.toList ks := by
    have whole := lines [] [] .nil
    rw [List.append_nil, List.append_nil] at whole
    rw [Stmt.text, String.toList_ofList]
    exact whole.trimEnd
  obtain ⟨ts, hts, rfl⟩ :
      ∃ ts, Tokens.ofSource file' f.body.text = .ok ts ∧ ts.kinds = ks := Token.lexed_iff.mp shown
  have derived : Grammar.Denotes entry' ts.kinds
      ⟨[] ++ [⟨entry', [], f.body.unbound.unplaced.reassociated, .unknown⟩], ⟨entry', 0⟩⟩ :=
    .of (Grammar.declarations_of_statements statements)
  obtain ⟨q, hq, tree⟩ := ofTokens_of_denotes derived
  refine ⟨q, ?_, tree⟩
  rw [parse, Tokens.load, hts]
  change (ofTokens ts entry').mapError _ = _
  rw [hq]
  rfl

/-- A program with a loop and assignments that are shown as what they stand for. -/
def counting : String :=
  "fun f(a) begin for i := 0, i < 2, i := i + 1 do a[i] := -1; skip od end f([1, 2])"

theorem parse_text_counting :
    ∃ p f, load "counting" counting entryName = .ok p ∧ f ∈ p.functions ∧ f.name = "f" ∧
      ∃ q, parse "shown" f.body.text entryName = .ok q ∧
        q.unplaced = ⟨[⟨entryName, [], f.body.unbound.unplaced.reassociated, .unknown⟩],
          ⟨entryName, 0⟩⟩ := by
  have names : (load "counting" counting entryName).toOption.map signatures =
      some [⟨"f", 1⟩, ⟨"main", 0⟩] := by decide +kernel
  cases h : load "counting" counting entryName with
  | error e =>
    rw [h] at names
    cases names
  | ok p =>
    rw [h] at names
    have found : (⟨"f", 1⟩ : Signature) ∈ p.signatures := by
      rw [Option.some.inj names]
      exact List.mem_cons_self
    obtain ⟨f, hf, signature⟩ := List.mem_map.mp found
    exact ⟨p, f, rfl, hf, congrArg Signature.name signature, parse_text h hf "shown" entryName⟩

end Program

end Threefold
