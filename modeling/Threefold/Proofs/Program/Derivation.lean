import Threefold.Proofs.Program.Calls
import Threefold.Proofs.Program.Grammar

/-!
# What the parser reads is derived

Whenever a step of the descent yields a result, the tokens that it took from the front derive from
the grammar, with the result as their tree (`exprReads`, `stmtReads`). So every program that tokens
are read as is one that they denote (`denotes_of_ofTokens`).
-/

namespace Threefold.Program

theorem Parser.unplaced_applyIndices (a : Expr) (is : List Expr) (l : Location) :
    (applyIndices a is l).unplaced = applyIndices a.unplaced (Expr.allUnplaced is) .unknown := by
  induction is generalizing a with
  | nil => rfl
  | cons i rest ih => exact ih (Call.named "arrget" [a, i] l).expr

namespace Parser

open Token (Kind)
open Grammar

/-- Whatever a step yields in front of tokens of given kinds, it has taken some of them from the
front, and these, the ones behind them and the result are related. -/
def Reads {α : Type} (ks : List Kind) (m : Parser α) (R : List Kind → List Kind → α → Prop) :
    Prop :=
  ∀ ts a ts', ts.kinds = ks → m ts = .ok (a, ts') →
    ∃ w, ks = w ++ ts'.kinds ∧ R w ts'.kinds a

theorem current?_eq (ts : Tokens) : ts.current? = ts.kinds.head? := by
  rw [Tokens.current?, Tokens.kinds, List.head?_map]

theorem kinds_advance (ts : Tokens) : ts.advance.kinds = ts.kinds.tail := by
  rw [Tokens.kinds, Tokens.advance, Tokens.kinds, List.map_tail]

namespace Reads

variable {α β : Type} {ks : List Kind} {R : List Kind → List Kind → β → Prop}

theorem pure {b : β} (h : R [] ks b) : Reads ks (pure b) R := by
  intro ts c ts' hks hc
  cases hc
  exact ⟨[], hks.symm, hks ▸ h⟩

theorem refuse {why : Option Kind → Refusal} : Reads ks (refuse why) R := by
  intro ts b ts' hks hb
  cases hb

theorem bind {P : List Kind → List Kind → α → Prop} {m : Parser α} {k : α → Parser β}
    (hm : Reads ks m P)
    (hk : ∀ w rest a, P w rest a → Reads rest (k a) fun u => R (w ++ u)) :
    Reads ks (m >>= k) R := by
  intro ts b ts' hks hb
  change (m ts >>= fun r => k r.1 r.2) = _ at hb
  match hr : m ts with
  | .error e => rw [hr] at hb; cases hb
  | .ok (a, ts₁) =>
    rw [hr] at hb
    obtain ⟨w, hw, ha⟩ := hm ts a ts₁ hks hr
    obtain ⟨u, hu, hb⟩ := hk w ts₁.kinds a ha ts₁ b ts' rfl hb
    exact ⟨w ++ u, by rw [hw, hu, List.append_assoc], hb⟩

theorem imp {P : List Kind → List Kind → β → Prop} {m : Parser β} (hm : Reads ks m P)
    (h : ∀ w rest b, P w rest b → R w rest b) : Reads ks m R := by
  intro ts b ts' hks hb
  obtain ⟨w, hw, hp⟩ := hm ts b ts' hks hb
  exact ⟨w, hw, h w _ b hp⟩

/-- The tokens in front are the ones taken and the ones behind them. -/
theorem whole {P : List Kind → List Kind → β → Prop} {m : Parser β} (hm : Reads ks m P) :
    Reads ks m fun w rest b => P w rest b ∧ ks = w ++ rest := by
  intro ts b ts' hks hb
  obtain ⟨w, hw, hp⟩ := hm ts b ts' hks hb
  exact ⟨w, hw, hp, hw⟩

theorem ite {c : Prop} [Decidable c] {m n : Parser β} (hm : c → Reads ks m R)
    (hn : ¬ c → Reads ks n R) : Reads ks (if c then m else n) R := by
  split
  · exact hm ‹_›
  · exact hn ‹_›

/-- A result that is only put into a form. -/
theorem map {P : List Kind → List Kind → α → Prop} {m : Parser α} {f : α → β} (hm : Reads ks m P)
    (hf : ∀ w rest a, P w rest a → R w rest (f a)) :
    Reads ks (m >>= fun a => Pure.pure (f a)) R :=
  bind hm fun w rest a ha => pure (by rw [List.append_nil]; exact hf w rest a ha)

theorem current {k : Option Kind → Parser β} (h : Reads ks (k ks.head?) R) :
    Reads ks (current? >>= k) R := by
  intro ts b ts' hks hb
  refine h ts b ts' hks ?_
  rw [← hks, ← current?_eq]
  exact hb

theorem next {k : Option Kind → Parser β} (h : Reads ks (k ks.tail.head?) R) :
    Reads ks (next? >>= k) R := by
  intro ts b ts' hks hb
  refine h ts b ts' hks ?_
  rw [← hks, ← kinds_advance, ← current?_eq]
  exact hb

theorem here {k : Location → Parser β} (h : ∀ l, Reads ks (k l) R) : Reads ks (here >>= k) R :=
  fun ts b ts' hks hb => h ts.location ts b ts' hks hb

/-- The token in front is taken. -/
theorem taken {first : Kind} : Reads (first :: ks) Parser.advance fun w rest _ =>
    w = [first] ∧ rest = ks := by
  intro ts b ts' hks hb
  cases hb
  have rest : ts.advance.kinds = ks := by rw [kinds_advance, hks, List.tail_cons]
  exact ⟨[first], by rw [rest, List.singleton_append], rfl, rest⟩

theorem advance {first : Kind} {k : Unit → Parser β} (h : Reads ks (k ()) fun u => R (first :: u)) :
    Reads (first :: ks) (advance >>= k) R := by
  refine taken.bind ?_
  rintro w rest ⟨⟩ ⟨rfl, rfl⟩
  exact h

/-- A token that must be in front is there. -/
theorem expect {kind : Kind} {c : Construct} {k : Unit → Parser β}
    (h : ∀ rest, Reads rest (k ()) fun u => R (kind :: u)) :
    Reads ks (expect kind c >>= k) R := by
  have first : Reads ks (Parser.expect kind c) fun w _ _ => w = [kind] := by
    refine .current ?_
    split
    · rename_i there
      obtain ⟨rest, rfl⟩ := List.head?_eq_some_iff.mp there
      exact taken.imp fun _ _ _ h => h.1
    · exact .refuse
  refine first.bind ?_
  rintro w rest ⟨⟩ rfl
  exact h rest

theorem expectName {role : NameRole} {k : String → Parser β}
    (h : ∀ x rest, Reads rest (k x) fun u => R (.name x :: u)) :
    Reads ks (expectName role >>= k) R := by
  have first : Reads ks (Parser.expectName role) fun w _ x => w = [.name x] := by
    refine .current ?_
    split
    · rename_i x there
      obtain ⟨rest, rfl⟩ := List.head?_eq_some_iff.mp there
      exact .advance (.pure rfl)
    · exact .refuse
  refine first.bind ?_
  rintro w rest x rfl
  exact h x rest

/-- A token is looked for in front. -/
theorem ifFront {kind : Kind} {m n : Parser β}
    (yes : ∀ rest, ks = kind :: rest → Reads (kind :: rest) m R)
    (no : ks.head? ≠ some kind → Reads ks n R) :
    Reads ks (current? >>= fun k => if decide (k = some kind) = true then m else n) R := by
  refine .current ?_
  split
  · rename_i there
    obtain ⟨rest, rfl⟩ := List.head?_eq_some_iff.mp (of_decide_eq_true there)
    exact yes rest rfl
  · rename_i other
    exact no fun there => other (decide_eq_true there)

theorem ifSymbol {s : Token.Symbol} {m n : Parser β}
    (yes : ∀ rest, ks = .symbol s :: rest → Reads (.symbol s :: rest) m R)
    (no : ks.head? ≠ some (.symbol s) → Reads ks n R) :
    Reads ks (atSymbol s >>= fun b => if b = true then m else n) R :=
  ifFront yes no

theorem ifKeyword {s : Token.Keyword} {m n : Parser β}
    (yes : ∀ rest, ks = .keyword s :: rest → Reads (.keyword s :: rest) m R)
    (no : ks.head? ≠ some (.keyword s) → Reads ks n R) :
    Reads ks (atKeyword s >>= fun b => if b = true then m else n) R :=
  ifFront yes no

end Reads

theorem infix_of_operator? {ℓ : Level} {s : Token.Symbol} {op : BinaryOp}
    (h : ℓ.operator? s = some op) : Infix ℓ s op := by
  cases ℓ <;> cases s <;> cases h <;> constructor

/-- An operator of a level is looked for in front. -/
theorem Reads.operator {β : Type} {ks : List Kind} {R : List Kind → List Kind → β → Prop}
    {ℓ : Level} {k : Option BinaryOp → Parser β} (none : Reads ks (k none) R)
    (some : ∀ s op rest, Infix ℓ s op → Reads (.symbol s :: rest) (k (some op)) R) :
    Reads ks (operator? ℓ >>= k) R := by
  have found : Reads ks (operator? ℓ) fun w rest op? =>
      w = [] ∧ rest = ks ∧ ∀ op ∈ op?, ∃ s, ks.head? = Option.some (.symbol s) ∧ Infix ℓ s op := by
    refine .current ?_
    split
    · rename_i s there
      exact .pure ⟨rfl, rfl, fun op hop => ⟨s, there, infix_of_operator? hop⟩⟩
    · exact .pure ⟨rfl, rfl, by nofun⟩
  refine found.bind ?_
  rintro w rest op? ⟨rfl, rfl, h⟩
  cases op? with
  | none => exact none
  | some op =>
    obtain ⟨s, there, hop⟩ := h op rfl
    obtain ⟨rest', rfl⟩ := List.head?_eq_some_iff.mp there
    exact some s op rest' hop

/-- Without an opening bracket in front there are no indices. -/
theorem indices_nil {w rest : List Kind} {is : List Expr} (h : Indices w is)
    (apart : (w ++ rest).head? ≠ some (.symbol .openSquare)) : w = [] ∧ is = [] := by
  cases h with
  | none => exact ⟨rfl, rfl⟩
  | more _ _ => exact absurd rfl apart

theorem constant_reads (v : Int) (l : Location) (ks : List Kind) :
    Reads ks (constant v l) fun w _ e =>
      w = [] ∧ e = .const (.ofInt v) ∧ -2 ^ 31 ≤ v ∧ v < 2 ^ 31 := by
  unfold constant
  refine .ite (fun h => .pure ⟨rfl, rfl, h.1, ?_⟩) fun _ => ?_
  · exact Int.lt_of_le_of_lt h.2 (by decide)
  · intro ts e ts' _ he
    cases he

/-- What the descent into expressions reads, within a bound. An index never stands behind what it
took for a term, nor behind a negation. -/
structure ExprReads (fuel : Nat) : Prop where
  operation : ∀ ℓ ks, Reads ks (operation fuel ℓ) fun w _ e => Operation ℓ w e.unplaced
  operand : ∀ ℓ ks, Reads ks (operand fuel ℓ) fun w _ e => Operand ℓ w e.unplaced
  operationTail : ∀ ℓ ks l, Reads ks (operationTail fuel ℓ l)
    fun w _ e => Chain ℓ l.unplaced w e.unplaced
  term : ∀ ks, Reads ks (term fuel)
    fun w rest e => Term w e.unplaced ∧ rest.head? ≠ some (.symbol .openSquare)
  atom : ∀ ks, Reads ks (atom fuel) fun w rest e =>
    Atom w e.unplaced ∨ Term w e.unplaced ∧ rest.head? ≠ some (.symbol .openSquare)
  call : ∀ x ks, Reads (.name x :: .symbol .openParen :: ks) (call fuel x)
    fun w _ c => ∃ u es, Items u es ∧
      w = .name x :: .symbol .openParen :: (u ++ [.symbol .closeParen]) ∧
        c.unplaced = Call.named x es .unknown
  items : ∀ s ks, Reads ks (items fuel s) fun w _ es => Items w (Expr.allUnplaced es)
  itemList : ∀ ks, Reads ks (itemList fuel) fun w _ es => ItemList w (Expr.allUnplaced es)
  indices : ∀ ks, Reads ks (indices fuel) fun w rest is =>
    Indices w (Expr.allUnplaced is) ∧ rest.head? ≠ some (.symbol .openSquare)

section Descent

variable {fuel : Nat} (ih : ExprReads fuel) (ks : List Kind)
include ih

theorem operationTail_reads (ℓ : Level) (l : Expr) : Reads ks (operationTail (fuel + 1) ℓ l)
    fun w _ e => Chain ℓ l.unplaced w e.unplaced := by
  rw [operationTail]
  refine .operator (.pure .nil) fun s op rest hop => .advance (.bind (ih.operand ℓ rest) ?_)
  intro v rest r hr
  cases ℓ with
  | comparison =>
    refine .pure ?_
    rw [List.append_nil]
    exact .compared hop hr
  | _ => exact (ih.operationTail _ rest _).imp fun w _ e he => .cons (by rintro ⟨⟩) hop hr he

theorem term_reads : Reads ks (term (fuel + 1))
    fun w rest e => Term w e.unplaced ∧ rest.head? ≠ some (.symbol .openSquare) := by
  rw [term]
  refine .here fun l => .bind (ih.atom ks) fun v rest a ha => ?_
  rcases ha with ha | ⟨ha, apart⟩
  · refine .map (ih.indices rest) fun w rest' is his => ⟨?_, his.2⟩
    rw [unplaced_applyIndices]
    exact .indexed ha his.1
  · -- behind a negation there are no indices left
    refine .map (ih.indices rest).whole ?_
    rintro w rest' is ⟨his, rfl⟩
    obtain ⟨rfl, none⟩ := indices_nil his.1 apart
    rw [Expr.allUnplaced_eq_nil none, List.append_nil]
    exact ⟨ha, his.2⟩

theorem atom_reads : Reads ks (atom (fuel + 1)) fun w rest e =>
    Atom w e.unplaced ∨ Term w e.unplaced ∧ rest.head? ≠ some (.symbol .openSquare) := by
  rw [atom]
  refine .here fun l => .current ?_
  split
  · exact .refuse
  · rename_i n there
    obtain ⟨rest, rfl⟩ := List.head?_eq_some_iff.mp there
    refine .advance ((constant_reads n l rest).imp ?_)
    rintro w rest e ⟨rfl, rfl, -, high⟩
    exact .inl (.integer (by omega))
  · rename_i c there
    obtain ⟨rest, rfl⟩ := List.head?_eq_some_iff.mp there
    exact .advance (.pure (.inl .character))
  · rename_i s there
    obtain ⟨rest, rfl⟩ := List.head?_eq_some_iff.mp there
    exact .advance (.pure (.inl .string))
  · rename_i x there
    obtain ⟨rest, rfl⟩ := List.head?_eq_some_iff.mp there
    refine .next (.ite (fun open_ => ?_) fun _ => .advance (.pure (.inl .var)))
    obtain ⟨rest, rfl⟩ := List.head?_eq_some_iff.mp open_
    refine .map (ih.call x rest) ?_
    rintro w rest c ⟨u, es, hes, rfl, named⟩
    refine .inl ?_
    rw [Call.unplaced_expr, named]
    exact .call hes
  · -- keywords
    rename_i there
    obtain ⟨rest, rfl⟩ := List.head?_eq_some_iff.mp there
    split
    · exact .advance (.pure (.inl .yes))
    · exact .advance (.pure (.inl .no))
    · exact .refuse
  · -- symbols
    rename_i there
    obtain ⟨rest, rfl⟩ := List.head?_eq_some_iff.mp there
    split
    · refine .advance (.current ?_)
      split
      · rename_i n there
        obtain ⟨rest, rfl⟩ := List.head?_eq_some_iff.mp there
        refine .advance ((constant_reads (-n) l rest).imp ?_)
        rintro w rest e ⟨rfl, rfl, low, -⟩
        exact .inl (.negative (by omega))
      · exact .refuse
    · exact .advance (.map (ih.term rest) fun w rest e he => .inr ⟨.not he.1, he.2⟩)
    · refine .advance (.bind (ih.operation _ rest) fun w rest e he => .expect fun rest => ?_)
      exact .pure (.inl (.parentheses he))
    · refine .advance (.bind (ih.items _ rest) fun w rest es hes => .expect fun rest => ?_)
      exact .pure (.inl (.array hes))
    · refine .advance (.bind (ih.items _ rest) fun w rest es hes => .expect fun rest => ?_)
      exact .pure (.inl (.boxed hes))
    · exact .refuse

end Descent

theorem exprReads (fuel : Nat) : ExprReads fuel := by
  induction fuel with
  | zero =>
    constructor <;> intros <;> simp only [operation, operand, operationTail, term, atom, call,
      items, itemList, indices] <;> exact .refuse
  | succ fuel ih =>
    constructor
    case operation =>
      intro ℓ ks
      rw [operation]
      refine .bind (ih.operand ℓ ks) fun v rest l hl => ?_
      exact (ih.operationTail ℓ rest l).imp fun w _ e he => .of hl he
    case operand =>
      intro ℓ ks
      rw [operand]
      cases ℓ with
      | disjunction => exact (ih.operation .conjunction ks).imp fun _ _ _ h => .conjunction h
      | conjunction => exact (ih.operation .comparison ks).imp fun _ _ _ h => .comparison h
      | comparison => exact (ih.operation .sum ks).imp fun _ _ _ h => .sum h
      | sum => exact (ih.operation .product ks).imp fun _ _ _ h => .product h
      | product => exact (ih.term ks).imp fun _ _ _ h => .term h.1
    case operationTail => exact fun ℓ ks l => operationTail_reads ih ks ℓ l
    case term => exact term_reads ih
    case atom => exact atom_reads ih
    case call =>
      intro x ks
      rw [call]
      refine .here fun l => .advance (.advance (.bind (ih.items _ _) fun w rest es hes => ?_))
      exact .expect fun rest => .pure ⟨w, _, hes, rfl, Expr.unplaced_named x es l⟩
    case items =>
      intro s ks
      rw [items]
      exact .ifSymbol (fun _ _ => .pure .none) fun _ => (ih.itemList ks).imp fun _ _ _ h => .some h
    case itemList =>
      intro ks
      rw [itemList]
      refine .bind (ih.operation _ ks) fun v rest e he => .ifSymbol (fun rest' _ => ?_) fun _ => ?_
      · exact .advance (.map (ih.itemList _) fun w _ es hes => .more he hes)
      · refine .pure ?_
        rw [List.append_nil]
        exact .one he
    case indices =>
      intro ks
      rw [indices]
      refine .ifSymbol (fun rest _ => ?_) fun no => .pure ⟨.none, no⟩
      refine .advance (.bind (ih.operation _ _) fun v rest e he => .expect fun rest' => ?_)
      exact .map (ih.indices _) fun w rest es hes => ⟨.more he hes.1, hes.2⟩

/-! ## Statements -/

theorem expression_reads (fuel : Nat) (ks : List Kind) :
    Reads ks (expression fuel) fun w _ e => Expression w e.unplaced :=
  (exprReads fuel).operation .disjunction ks

theorem nameStatement_reads (fuel : Nat) (x : String) (ks : List Kind) :
    Reads (.name x :: ks) (nameStatement fuel x) fun w _ s => Statement w s.unplaced := by
  unfold nameStatement
  refine .here fun l => .next ?_
  split
  · rename_i there
    obtain ⟨rest, rfl⟩ := List.head?_eq_some_iff.mp there
    refine .map ((exprReads fuel).call x rest) ?_
    rintro w rest c ⟨u, es, hes, rfl, named⟩
    show Statement _ (.perform c.unplaced)
    rw [named]
    exact .perform hes
  · rename_i there
    obtain ⟨rest, rfl⟩ := List.head?_eq_some_iff.mp there
    exact .advance (.advance (.map (expression_reads fuel rest) fun w _ e he => .assign he))
  · rename_i there
    obtain ⟨rest, rfl⟩ := List.head?_eq_some_iff.mp there
    refine .advance (.advance (.bind (expression_reads fuel rest) fun v rest first hf => ?_))
    refine .expect fun rest => .bind ((exprReads fuel).indices rest) fun w rest is his => ?_
    refine .ifSymbol (fun rest _ => ?_) fun _ => .bind (P := fun _ _ _ => False) .refuse ?_
    · refine .advance (.map (expression_reads fuel rest) fun u _ e he => ?_)
      -- the last index is the one that is written to
      have parts : Expr.allUnplaced (first :: is) =
          Expr.allUnplaced (first :: is).dropLast ++
            [((first :: is).getLast (List.cons_ne_nil first is)).unplaced] := by
        simp only [Expr.allUnplaced, Expr.recastAll_eq_map, Expr.unplaced]
        rw [← List.map_singleton, ← List.map_append, List.dropLast_concat_getLast]
      have indices := Indices.more hf his.1
      rw [show first.unplaced :: Expr.allUnplaced is = Expr.allUnplaced (first :: is) from rfl,
        parts] at indices
      have element := Statement.element (x := x) indices he
      simp only [List.cons_append, List.append_assoc] at element
      show Statement _ (.perform (Call.named "arrset" _ l).unplaced)
      rw [Expr.unplaced_named]
      simp only [Expr.allUnplaced_cons, unplaced_applyIndices]
      exact element
    · rintro _ _ _ ⟨⟩
  · exact .advance .refuse

theorem throwing_reads (fuel : Nat) (ks : List Kind) :
    Reads (.keyword .throw_ :: ks) (throwing fuel) fun w _ s => Statement w s.unplaced := by
  unfold throwing
  refine .advance (.expect fun rest => .expectName fun x rest => ?_)
  refine .bind (expression_reads fuel rest) fun w rest e he => .expect fun rest => ?_
  exact .pure (.throwing he)

theorem skipSemicolon_reads (ks : List Kind) :
    Reads ks skipSemicolon fun w _ _ => Separator w := by
  unfold skipSemicolon
  refine .ifSymbol (fun rest _ => Reads.taken.imp ?_) fun _ => .pure .none
  rintro w rest _ ⟨rfl, -⟩
  exact .semicolon

/-- What the descent into statements reads, within a bound. -/
structure StmtReads (fuel : Nat) : Prop where
  statement : ∀ ks, Reads ks (statement fuel) fun w _ s => Statement w s.unplaced
  block : ∀ ks, Reads ks (block fuel) fun w _ s => Block w s.unplaced
  statements : ∀ ks, Reads ks (statements fuel) fun w rest ss =>
    Statements w (ss.map Stmt.unplaced) ∧ startsStatement rest.head? = false
  branches : ∀ construct ks, Reads ks (branches fuel construct)
    fun w _ s => Branches w s.unplaced
  catches : ∀ ks, Reads ks (catches fuel) fun w _ cs => Catches w (Catch.allUnplaced cs)
  cleanup : ∀ ks, Reads ks (cleanup fuel) fun w _ s => Cleanup w (Stmt.cleanupUnplaced s)

theorem stmtReads (fuel : Nat) : StmtReads fuel := by
  induction fuel with
  | zero =>
    constructor <;> intros <;> simp only [statement, block, statements, branches, catches,
      cleanup] <;> exact .refuse
  | succ fuel ih =>
    constructor
    case statement =>
      intro ks
      rw [statement]
      refine .current ?_
      split
      all_goals rename_i there
      any_goals obtain ⟨rest, rfl⟩ := List.head?_eq_some_iff.mp there
      · exact nameStatement_reads fuel _ rest
      · exact .advance (.pure .skip)
      · refine .advance (.bind (ih.branches _ rest) fun w rest s hs => .expect fun rest => ?_)
        exact .pure (.branch hs)
      · refine .advance (.bind (expression_reads fuel rest) fun v rest c hc => ?_)
        refine .expect fun rest => .bind (ih.block rest) fun w rest s hs => .expect fun rest => ?_
        exact .pure (.loop hc hs)
      · refine .advance (.bind (ih.statement rest) fun t rest start hstart => ?_)
        refine .expect fun rest => .bind (expression_reads fuel rest) fun u rest c hc => ?_
        refine .expect fun rest => .bind (ih.statement rest) fun v rest step hstep => ?_
        refine .expect fun rest => .bind (ih.block rest) fun w rest s hs => .expect fun rest => ?_
        exact .pure (.counted hstart hc hstep hs)
      · refine .advance (.bind (ih.block rest) fun v rest s hs => .expect fun rest => ?_)
        exact .map (expression_reads fuel rest) fun w _ c hc => .repeated hs hc
      · exact .advance (.map (expression_reads fuel rest) fun w _ e he => .leave he)
      · refine .advance (.bind (ih.block rest) fun u rest s hs => ?_)
        refine .bind (ih.catches rest) fun v rest cs hcs => ?_
        refine .bind (ih.cleanup rest) fun w rest last hlast => .expect fun rest => ?_
        exact .pure (.attempt hs hcs hlast)
      · exact throwing_reads fuel rest
      · exact .refuse
    case block =>
      intro ks
      rw [block]
      refine .current (.ite (fun starts => ?_) fun _ => .refuse)
      refine .map (ih.statements ks).whole ?_
      rintro w rest ss ⟨⟨hss, stops⟩, rfl⟩
      cases ss with
      | nil =>
        cases hss
        rw [List.nil_append, stops] at starts
        cases starts
      | cons s ss =>
        rw [Stmt.unplaced, Stmt.recast_ofList]
        exact .of hss
    case statements =>
      intro ks
      rw [statements]
      refine .current (.ite (fun _ => ?_) fun no => .pure ⟨.none, Bool.eq_false_iff.mpr no⟩)
      refine .bind (ih.statement ks) fun u rest s hs => ?_
      refine .bind (skipSemicolon_reads rest) fun v rest _ hv => ?_
      exact .map (ih.statements rest) fun w _ ss hss => ⟨.more hs hv hss.1, hss.2⟩
    case branches =>
      intro construct ks
      rw [branches]
      refine .bind (expression_reads fuel ks) fun u rest c hc => .expect fun rest => ?_
      refine .bind (ih.block rest) fun v rest s hs => ?_
      refine .ifKeyword (fun rest _ => ?_) fun _ => .ifKeyword (fun rest _ => ?_) fun _ => .pure ?_
      · exact .advance (.map (ih.branches _ rest) fun w _ t ht => .elif hc hs ht)
      · exact .advance (.map (ih.block rest) fun w _ t ht => .otherwise hc hs ht)
      · rw [List.append_nil]
        exact .last hc hs
    case catches =>
      intro ks
      rw [catches]
      refine .ifKeyword (fun rest _ => ?_) fun _ => .pure .none
      refine .advance (.expect fun rest => .expectName fun e rest => .expectName fun x rest => ?_)
      refine .expect fun rest => .bind (ih.block rest) fun v rest s hs => ?_
      exact .map (ih.catches rest) fun w _ cs hcs => .more hs hcs
    case cleanup =>
      intro ks
      rw [cleanup]
      refine .ifKeyword (fun rest _ => ?_) fun _ => .pure .none
      exact .advance (.map (ih.block rest) fun w _ s hs => .some hs)

/-! ## Programs -/

theorem parameterList_reads (fuel : Nat) (ks : List Kind) :
    Reads ks (parameterList fuel) fun w _ xs => NameList w xs := by
  induction fuel generalizing ks with
  | zero => exact .refuse
  | succ fuel ih =>
    rw [parameterList]
    refine .expectName fun x rest => .ifSymbol (fun rest _ => ?_) fun _ => .pure .one
    exact .advance (.map (ih rest) fun w _ xs hxs => .more hxs)

theorem function_reads (fuel : Nat) (ks : List Kind) :
    Reads (.keyword .fun_ :: ks) (function fuel) fun w _ f => Declaration w f.unplaced := by
  unfold function
  refine .here fun l => .advance (.expectName fun f rest => .expect fun rest => ?_)
  refine .ifSymbol (fun rest _ => ?_) fun _ => ?_
  · rw [pure_bind]
    refine .expect fun rest => .expect fun rest => ?_
    refine .bind ((stmtReads fuel).block rest) fun w rest s hs => .expect fun rest => ?_
    exact .pure (.of .none hs)
  · refine .bind (parameterList_reads fuel _) fun v rest xs hxs => ?_
    refine .expect fun rest => .expect fun rest => ?_
    refine .bind ((stmtReads fuel).block rest) fun w rest s hs => .expect fun rest => ?_
    exact .pure (.of (.some hxs) hs)

theorem declarations_reads (fuel : Nat) (ks : List Kind) :
    Reads ks (declarations fuel) fun w rest r =>
      Declarations w (r.1.map Function.unplaced) (r.2.map Stmt.unplaced) ∧ rest = [] := by
  induction fuel generalizing ks with
  | zero => exact .refuse
  | succ fuel ih =>
    rw [declarations]
    refine .current ?_
    split
    · rename_i there
      exact .pure ⟨.none, List.head?_eq_none_iff.mp there⟩
    · rename_i there
      obtain ⟨rest, rfl⟩ := List.head?_eq_some_iff.mp there
      refine .bind (function_reads fuel rest) fun v rest f hf => ?_
      exact .map (ih rest) fun w rest r hr => ⟨.function hf hr.1, hr.2⟩
    · refine .ite (fun _ => ?_) fun _ => .refuse
      refine .bind ((stmtReads fuel).statement ks) fun u rest s hs => ?_
      refine .bind (skipSemicolon_reads rest) fun v rest _ hv => ?_
      exact .map (ih rest) fun w rest r hr => ⟨.statement hs hv hr.1, hr.2⟩

end Parser

/-- A program that is read is one that the tokens denote. -/
theorem denotes_of_ofTokens {ts : Tokens} {entry : String} {p : Program}
    (h : ofTokens ts entry = .ok p) : Grammar.Denotes entry ts.kinds p.unplaced := by
  obtain ⟨⟨⟨fs, ss⟩, ts'⟩, hr, h⟩ := ok_of_bind (by rwa [ofTokens] at h)
  cases h
  obtain ⟨w, hw, derived, rest⟩ := Parser.declarations_reads _ _ ts _ ts' rfl hr
  rw [hw, rest, List.append_nil]
  show Grammar.Denotes entry w (Program.unplaced ⟨fs ++ [entryFunction entry ss], ⟨entry, 0⟩⟩)
  rw [Program.unplaced_mk]
  exact .of derived

end Threefold.Program
