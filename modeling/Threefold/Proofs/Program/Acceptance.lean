import Threefold.Proofs.Program.Derivation

/-!
# What is derived is read

Tokens that derive from the grammar are read, to the tree of the derivation, wherever something
stands behind them that cannot go on with it. For an expression that is anything but an operator of
its level or of a tighter one, an index or an opening parenthesis (`Ends`); for statements it is a
keyword that begins none. Sixteen steps of the descent for every token are enough: twelve lead from
the loosest operators to an atom.

Since reading is a function, what derives from the grammar has one tree only, and so tokens are read
if they denote a program, as that program (`ofTokens_exact`).
-/

namespace Threefold.Program

open Token (Kind)

namespace Parser

open Grammar

/-! ## Steps that succeed -/

/-- In front of tokens of given kinds a step succeeds, and leaves tokens of given kinds. -/
def Accepts {α : Type} (ks rest : List Kind) (m : Parser α) (Q : α → Prop) : Prop :=
  ∀ ts, ts.kinds = ks → ∃ a ts', m ts = .ok (a, ts') ∧ ts'.kinds = rest ∧ Q a

namespace Accepts

variable {α β : Type} {ks mid rest : List Kind} {P : α → Prop} {Q : β → Prop}

theorem pure {b : β} (h : Q b) : Accepts ks ks (pure b) Q :=
  fun ts hks => ⟨b, ts, rfl, hks, h⟩

theorem bind {m : Parser α} {k : α → Parser β} (hm : Accepts ks mid m P)
    (hk : ∀ a, P a → Accepts mid rest (k a) Q) : Accepts ks rest (m >>= k) Q := by
  intro ts hks
  obtain ⟨a, ts₁, ha, hmid, pa⟩ := hm ts hks
  obtain ⟨b, ts₂, hb, hrest, qb⟩ := hk a pa ts₁ hmid
  refine ⟨b, ts₂, ?_, hrest, qb⟩
  change (m ts >>= fun r => k r.1 r.2) = _
  rw [ha]
  exact hb

theorem map {m : Parser α} {f : α → β} (hm : Accepts ks rest m P) (hf : ∀ a, P a → Q (f a)) :
    Accepts ks rest (m >>= fun a => Pure.pure (f a)) Q :=
  bind hm fun a ha => pure (hf a ha)

theorem current {k : Option Kind → Parser β} (h : Accepts ks rest (k ks.head?) Q) :
    Accepts ks rest (current? >>= k) Q := by
  intro ts hks
  obtain ⟨b, ts', hb, hrest⟩ := h ts hks
  rw [← hks, ← current?_eq] at hb
  exact ⟨b, ts', hb, hrest⟩

theorem next {k : Option Kind → Parser β} (h : Accepts ks rest (k ks.tail.head?) Q) :
    Accepts ks rest (next? >>= k) Q := by
  intro ts hks
  obtain ⟨b, ts', hb, hrest⟩ := h ts hks
  rw [← hks, ← kinds_advance, ← current?_eq] at hb
  exact ⟨b, ts', hb, hrest⟩

theorem here {k : Location → Parser β} (h : ∀ l, Accepts ks rest (k l) Q) :
    Accepts ks rest (here >>= k) Q :=
  fun ts hks => h ts.location ts hks

theorem taken {first : Kind} : Accepts (first :: ks) ks Parser.advance fun _ => True :=
  fun ts hks => ⟨(), ts.advance, rfl, by rw [kinds_advance, hks, List.tail_cons], trivial⟩

theorem advance {first : Kind} {k : Unit → Parser β} (h : Accepts ks rest (k ()) Q) :
    Accepts (first :: ks) rest (advance >>= k) Q :=
  bind taken fun _ _ => h

theorem expect {kind : Kind} {c : Construct} {k : Unit → Parser β}
    (h : Accepts ks rest (k ()) Q) : Accepts (kind :: ks) rest (expect kind c >>= k) Q := by
  have first : Accepts (kind :: ks) ks (Parser.expect kind c) fun _ => True := by
    refine .current ?_
    rw [if_pos (by rfl)]
    exact taken
  exact bind first fun _ _ => h

theorem expectName {x : String} {role : NameRole} {k : String → Parser β}
    (h : Accepts ks rest (k x) Q) :
    Accepts (.name x :: ks) rest (expectName role >>= k) Q := by
  have first : Accepts (.name x :: ks) ks (Parser.expectName role) fun y => y = x :=
    .current (.advance (.pure rfl))
  refine bind first ?_
  rintro _ rfl
  exact h

theorem ifThere {kind : Kind} {m n : Parser β} (there : ks.head? = some kind)
    (h : Accepts ks rest m Q) :
    Accepts ks rest (current? >>= fun k => if decide (k = some kind) = true then m else n) Q := by
  refine .current ?_
  rw [if_pos (decide_eq_true there)]
  exact h

theorem ifOther {kind : Kind} {m n : Parser β} (other : ks.head? ≠ some kind)
    (h : Accepts ks rest n Q) :
    Accepts ks rest (current? >>= fun k => if decide (k = some kind) = true then m else n) Q := by
  refine .current ?_
  rw [if_neg (by simpa using other)]
  exact h

theorem symbolThere {s : Token.Symbol} {m n : Parser β} (h : Accepts (.symbol s :: ks) rest m Q) :
    Accepts (.symbol s :: ks) rest (atSymbol s >>= fun b => if b = true then m else n) Q :=
  ifThere rfl h

theorem symbolOther {s : Token.Symbol} {m n : Parser β} (other : ks.head? ≠ some (.symbol s))
    (h : Accepts ks rest n Q) :
    Accepts ks rest (atSymbol s >>= fun b => if b = true then m else n) Q :=
  ifOther other h

theorem keywordThere {k : Token.Keyword} {m n : Parser β}
    (h : Accepts (.keyword k :: ks) rest m Q) :
    Accepts (.keyword k :: ks) rest (atKeyword k >>= fun b => if b = true then m else n) Q :=
  ifThere rfl h

theorem keywordOther {k : Token.Keyword} {m n : Parser β} (other : ks.head? ≠ some (.keyword k))
    (h : Accepts ks rest n Q) :
    Accepts ks rest (atKeyword k >>= fun b => if b = true then m else n) Q :=
  ifOther other h

end Accepts

/-! ## What ends an expression -/

/-- The rank of a level, from the loosest. -/
def Level.rank : Level → Nat
  | disjunction => 0
  | conjunction => 1
  | comparison => 2
  | sum => 3
  | product => 4

/-- How tightly a symbol goes on with what stands before it: as an operator of a level, or as the
opening of indices or arguments. -/
def strength? : Token.Symbol → Option Nat
  | .or => some 0
  | .and => some 1
  | .equal | .notEqual | .less | .lessEqual | .greater | .greaterEqual => some 2
  | .plus | .minus => some 3
  | .times | .divide | .remainder => some 4
  | .openSquare | .openParen => some 5
  | _ => none

/-- A token, or the end of the text, that does not go on as tightly as a given rank. -/
def Ends (rank : Nat) (k : Option Kind) : Prop :=
  ∀ s r, k = some (.symbol s) → strength? s = some r → r < rank

theorem Ends.mono {m n : Nat} {k : Option Kind} (h : Ends m k) (hmn : m ≤ n) : Ends n k :=
  fun s r hs hr => Nat.lt_of_lt_of_le (h s r hs hr) hmn

theorem strength?_eq {ℓ : Level} {s : Token.Symbol} {op : BinaryOp} (h : Infix ℓ s op) :
    strength? s = some ℓ.rank := by
  cases h <;> rfl

theorem operator?_eq {ℓ : Level} {s : Token.Symbol} {op : BinaryOp} (h : Infix ℓ s op) :
    ℓ.operator? s = some op := by
  cases h <;> rfl

theorem ends_of_operator {ℓ : Level} {s : Token.Symbol} {op : BinaryOp} (h : Infix ℓ s op) :
    Ends (ℓ.rank + 1) (some (.symbol s)) := by
  intro t r ht hr
  cases ht
  rw [strength?_eq h] at hr
  cases hr
  exact Nat.lt_succ_self _

/-- A symbol that goes on with nothing. -/
theorem ends_of_none {s : Token.Symbol} (h : strength? s = none) (n : Nat) :
    Ends n (some (.symbol s)) := by
  intro t r ht hr
  cases ht
  rw [h] at hr
  cases hr

theorem Ends.ne {k : Option Kind} {s : Token.Symbol} {n r : Nat} (h : Ends n k)
    (hs : strength? s = some r) (low : n ≤ r) : k ≠ some (.symbol s) := by
  rintro rfl
  have := h s r rfl hs
  omega

/-- Behind a first operand comes an operator of the level, or what comes behind the whole. -/
theorem chain_ends {ℓ : Level} {l e : Expr} {w rest : List Kind} (h : Chain ℓ l w e)
    (hr : Ends ℓ.rank rest.head?) : Ends (ℓ.rank + 1) (w ++ rest).head? := by
  cases h with
  | nil => exact hr.mono (Nat.le_succ _)
  | cons _ hop _ _ => exact ends_of_operator hop
  | compared hop _ => exact ends_of_operator hop

theorem Accepts.operator {β : Type} {ℓ : Level} {s : Token.Symbol} {op : BinaryOp}
    {ks rest : List Kind} {k : Option BinaryOp → Parser β} {Q : β → Prop} (hop : Infix ℓ s op)
    (h : Accepts (.symbol s :: ks) rest (k (some op)) Q) :
    Accepts (.symbol s :: ks) rest (operator? ℓ >>= k) Q := by
  have first : Accepts (.symbol s :: ks) (.symbol s :: ks) (operator? ℓ) fun o => o = some op :=
    .current (.pure (operator?_eq hop))
  refine .bind first ?_
  rintro _ rfl
  exact h

theorem Accepts.noOperator {β : Type} {ℓ : Level} {ks rest : List Kind}
    {k : Option BinaryOp → Parser β} {Q : β → Prop} (ends : Ends ℓ.rank ks.head?)
    (h : Accepts ks rest (k none) Q) : Accepts ks rest (operator? ℓ >>= k) Q := by
  have first : Accepts ks ks (operator? ℓ) fun o => o = none := by
    refine .current ?_
    split
    · rename_i s there
      refine .pure ?_
      cases hop : ℓ.operator? s with
      | none => rfl
      | some op =>
        have strength := strength?_eq (infix_of_operator? hop)
        exact absurd there (ends.ne strength (Nat.le_refl _))
    · exact .pure rfl
  refine .bind first ?_
  rintro _ rfl
  exact h

/-! ## The first token of an expression -/

/-- A token that an expression can begin with. -/
def opensExpr : Kind → Bool
  | .symbol s => s ∈ [.minus, .not, .openParen, .openSquare, .openCurly]
  | .keyword k => k ∈ [.true_, .false_]
  | _ => true

/-- Some tokens begin as an expression does. -/
def Begins (w : List Kind) : Prop :=
  ∃ k u, w = k :: u ∧ opensExpr k = true

theorem Begins.append {w : List Kind} (h : Begins w) (v : List Kind) : Begins (w ++ v) := by
  obtain ⟨k, u, rfl, hk⟩ := h
  exact ⟨k, u ++ v, rfl, hk⟩

theorem Begins.length_pos {w : List Kind} (h : Begins w) : 0 < w.length := by
  obtain ⟨k, u, rfl, -⟩ := h
  exact Nat.succ_pos _

/-- A bound on the steps that every token pays into is not exhausted in front of one. -/
theorem Begins.exists_succ {w : List Kind} (h : Begins w) {n k : Nat}
    (hn : 16 * w.length ≤ n + k) (hk : k < 16) : ∃ m, n = m + 1 := by
  have := h.length_pos
  exact Nat.exists_eq_add_one.mpr (by omega)

theorem atom_begins {w : List Kind} {e : Expr} (h : Atom w e) : Begins w := by
  cases h <;> exact ⟨_, _, rfl, rfl⟩

theorem term_begins {w : List Kind} {e : Expr} (h : Term w e) : Begins w := by
  cases h with
  | not _ => exact ⟨_, _, rfl, rfl⟩
  | indexed ha _ => exact (atom_begins ha).append _

mutual

theorem operation_begins : ∀ {ℓ : Level} {w : List Kind} {e : Expr}, Operation ℓ w e → Begins w
  | _, _, _, .of hl _ => (operand_begins hl).append _

theorem operand_begins : ∀ {ℓ : Level} {w : List Kind} {e : Expr}, Operand ℓ w e → Begins w
  | _, _, _, .conjunction h => operation_begins h
  | _, _, _, .comparison h => operation_begins h
  | _, _, _, .sum h => operation_begins h
  | _, _, _, .product h => operation_begins h
  | _, _, _, .term h => term_begins h

end

theorem itemList_begins {w : List Kind} {es : List Expr} (h : ItemList w es) : Begins w := by
  cases h with
  | one he => exact operation_begins he
  | more he _ => exact (operation_begins he).append _

/-! ## Expressions -/

theorem call_of_items {x : String} {w rest : List Kind} {es : List Expr} {n : Nat}
    (hn : 16 * w.length + 2 < n)
    (h : ∀ m, 16 * w.length + 1 < m → Accepts (w ++ .symbol .closeParen :: rest)
      (.symbol .closeParen :: rest) (items m .closeParen) fun ts => Expr.allUnplaced ts = es) :
    Accepts (.name x :: .symbol .openParen :: (w ++ .symbol .closeParen :: rest)) rest (call n x)
      fun c => c.unplaced = Call.named x es .unknown := by
  obtain ⟨n, rfl⟩ := Nat.exists_eq_add_one.mpr (show 0 < n by omega)
  rw [call]
  refine .here fun l => .advance (.advance (.bind (h n (by omega)) ?_))
  rintro ts rfl
  exact .expect (.pure (Expr.unplaced_named x ts l))

theorem indices_accepts_nil {n : Nat} {rest : List Kind} (hn : 0 < n)
    (apart : rest.head? ≠ some (.symbol .openSquare)) :
    Accepts rest rest (indices n) fun ts => Expr.allUnplaced ts = [] := by
  obtain ⟨n, rfl⟩ := Nat.exists_eq_add_one.mpr hn
  rw [indices]
  exact .symbolOther apart (.pure rfl)

theorem constant_accepts {v : Int} {l : Location} {ks : List Kind} (low : -2 ^ 31 ≤ v)
    (high : v < 2 ^ 31) : Accepts ks ks (constant v l) fun t => t.unplaced = .const (.ofInt v) := by
  unfold constant
  rw [if_pos ⟨low, Int.le_of_lt_add_one high⟩]
  exact .pure rfl

theorem operand_of_tighter {ℓ t : Level} {w rest : List Kind} {n : Nat} {Q : Expr → Prop}
    (ht : ℓ.tighter? = some t) (hw : Begins w) (hn : 16 * w.length ≤ n + 2 * ℓ.rank + 1)
    (h : ∀ m, 16 * w.length ≤ m + 2 * t.rank → Accepts (w ++ rest) rest (operation m t) Q) :
    Accepts (w ++ rest) rest (operand n ℓ) Q := by
  have := hw.length_pos
  have ranks : t.rank = ℓ.rank + 1 ∧ ℓ.rank ≤ 3 := by cases ℓ <;> cases ht <;> decide
  obtain ⟨n, rfl⟩ := Nat.exists_eq_add_one.mpr (show 0 < n by omega)
  rw [operand, ht]
  exact h n (by omega)

mutual

theorem operation_accepts : ∀ {ℓ : Level} {w : List Kind} {e : Expr}, Operation ℓ w e →
    ∀ {n : Nat} {rest : List Kind}, 16 * w.length ≤ n + 2 * ℓ.rank → Ends ℓ.rank rest.head? →
    Accepts (w ++ rest) rest (operation n ℓ) fun t => t.unplaced = e
  | ℓ, _, _, .of (v := v) (w := w) hl hc, n, rest, hn, ends => by
    have := (operand_begins hl).length_pos
    have : ℓ.rank ≤ 4 := by cases ℓ <;> decide
    rw [List.length_append] at hn
    obtain ⟨n, rfl⟩ := Nat.exists_eq_add_one.mpr (show 0 < n by omega)
    rw [operation, List.append_assoc]
    refine .bind (operand_accepts hl (by omega) (chain_ends hc ends)) fun l' hl' => ?_
    exact chain_accepts hc hl' (by omega) ends

theorem chain_accepts : ∀ {ℓ : Level} {l : Expr} {w : List Kind} {e : Expr}, Chain ℓ l w e →
    ∀ {l' : Expr} {n : Nat} {rest : List Kind}, l'.unplaced = l → 16 * w.length < n →
    Ends ℓ.rank rest.head? →
    Accepts (w ++ rest) rest (operationTail n ℓ l') fun t => t.unplaced = e
  | _, _, _, _, .nil, l', n, rest, hl, hn, ends => by
    obtain ⟨n, rfl⟩ := Nat.exists_eq_add_one.mpr (show 0 < n by omega)
    rw [operationTail]
    exact .noOperator ends (.pure hl)
  | ℓ, _, _, _, .cons (v := v) (w := w) no hop hr hc, l', n, rest, hl, hn, ends => by
    have := (operand_begins hr).length_pos
    simp only [List.length_cons, List.length_append] at hn
    obtain ⟨n, rfl⟩ := Nat.exists_eq_add_one.mpr (show 0 < n by omega)
    rw [operationTail, List.cons_append, List.append_assoc]
    refine .operator hop (.advance (.bind (operand_accepts hr (by omega) (chain_ends hc ends)) ?_))
    intro r' hr'
    have groups : ℓ.groups = true := by cases ℓ <;> first | rfl | exact absurd rfl no
    rw [if_pos groups]
    refine chain_accepts hc ?_ (by omega) ends
    rw [← hl, ← hr']
    rfl
  | _, _, _, _, .compared hop hr, l', n, rest, hl, hn, ends => by
    simp only [List.length_cons] at hn
    obtain ⟨n, rfl⟩ := Nat.exists_eq_add_one.mpr (show 0 < n by omega)
    rw [operationTail, List.cons_append]
    refine .operator hop (.advance (.map (operand_accepts hr (by omega) ?_) ?_))
    · exact ends.mono (by decide)
    · rintro r' rfl
      rw [← hl]
      rfl

theorem operand_accepts : ∀ {ℓ : Level} {w : List Kind} {e : Expr}, Operand ℓ w e →
    ∀ {n : Nat} {rest : List Kind}, 16 * w.length ≤ n + 2 * ℓ.rank + 1 →
    Ends (ℓ.rank + 1) rest.head? →
    Accepts (w ++ rest) rest (operand n ℓ) fun t => t.unplaced = e
  | _, _, _, .conjunction h, n, rest, hn, ends =>
    operand_of_tighter rfl (operation_begins h) hn fun _ hm => operation_accepts h hm ends
  | _, _, _, .comparison h, n, rest, hn, ends =>
    operand_of_tighter rfl (operation_begins h) hn fun _ hm => operation_accepts h hm ends
  | _, _, _, .sum h, n, rest, hn, ends =>
    operand_of_tighter rfl (operation_begins h) hn fun _ hm => operation_accepts h hm ends
  | _, _, _, .product h, n, rest, hn, ends =>
    operand_of_tighter rfl (operation_begins h) hn fun _ hm => operation_accepts h hm ends
  | _, _, _, .term h, n, rest, hn, ends => by
    have := (term_begins h).length_pos
    simp only [Level.rank] at hn ends
    obtain ⟨n, rfl⟩ := Nat.exists_eq_add_one.mpr (show 0 < n by omega)
    rw [operand]
    exact term_accepts h (by omega) ends

theorem term_accepts : ∀ {w : List Kind} {e : Expr}, Term w e →
    ∀ {n : Nat} {rest : List Kind}, 16 * w.length ≤ n + 10 → Ends 5 rest.head? →
    Accepts (w ++ rest) rest (term n) fun t => t.unplaced = e
  | _, _, .not (w := w) (e := e) h, n, rest, hn, ends => by
    have := (term_begins h).length_pos
    simp only [List.length_cons] at hn
    obtain ⟨n, rfl⟩ := Nat.exists_eq_add_one.mpr (show 0 < n by omega)
    rw [term, List.cons_append]
    have closed : rest.head? ≠ some (.symbol .openSquare) := ends.ne rfl (Nat.le_refl 5)
    have negation : Accepts (.symbol .not :: (w ++ rest)) rest (atom n)
        fun t => t.unplaced = .unary .not e := by
      obtain ⟨n, rfl⟩ := Nat.exists_eq_add_one.mpr (show 0 < n by omega)
      rw [atom]
      refine .here fun l => .current (.advance (.map (term_accepts h (by omega) ends) ?_))
      rintro t rfl
      rfl
    refine .here fun l => .bind negation fun a ha => ?_
    refine .map (indices_accepts_nil (by omega) closed) fun is his => ?_
    rw [unplaced_applyIndices, ha, his]
    rfl
  | _, _, .indexed (v := v) (w := w) ha his, n, rest, hn, ends => by
    have := (atom_begins ha).length_pos
    rw [List.length_append] at hn
    obtain ⟨n, rfl⟩ := Nat.exists_eq_add_one.mpr (show 0 < n by omega)
    rw [term, List.append_assoc]
    have closed : rest.head? ≠ some (.symbol .openSquare) := ends.ne rfl (Nat.le_refl 5)
    have apart : (w ++ rest).head? ≠ some (.symbol .openParen) := by
      cases his with
      | none => exact ends.ne rfl (Nat.le_refl 5)
      | more _ _ => nofun
    refine .here fun l => .bind (atom_accepts ha (by omega) apart) fun a' ha' => ?_
    refine .map (indices_accepts his (by omega) closed) fun is' his' => ?_
    rw [unplaced_applyIndices, ha', his']

theorem atom_accepts : ∀ {w : List Kind} {e : Expr}, Atom w e →
    ∀ {n : Nat} {rest : List Kind}, 16 * w.length ≤ n + 11 →
    rest.head? ≠ some (.symbol .openParen) →
    Accepts (w ++ rest) rest (atom n) fun t => t.unplaced = e
  | _, _, .integer hv, n, rest, hn, apart => by
    obtain ⟨n, rfl⟩ := (atom_begins (.integer hv)).exists_succ hn (by decide)
    rw [atom]
    exact .here fun l => .current (.advance (constant_accepts (by omega) (by omega)))
  | _, _, .negative hv, n, rest, hn, apart => by
    obtain ⟨n, rfl⟩ := (atom_begins (.negative hv)).exists_succ hn (by decide)
    rw [atom]
    refine .here fun l => .current (.advance (.current (.advance ?_)))
    exact constant_accepts (by omega) (by omega)
  | _, _, .character, n, rest, hn, apart | _, _, .yes, n, rest, hn, apart
  | _, _, .no, n, rest, hn, apart | _, _, .string, n, rest, hn, apart => by
    obtain ⟨n, rfl⟩ := Begins.exists_succ ⟨_, [], rfl, rfl⟩ hn (by decide)
    rw [atom]
    exact .here fun l => .current (.advance (.pure rfl))
  | _, _, .var, n, rest, hn, apart => by
    obtain ⟨n, rfl⟩ := (atom_begins .var).exists_succ hn (by decide)
    rw [atom, List.singleton_append]
    refine .here fun l => .current (.next ?_)
    rw [List.tail_cons, if_neg apart]
    exact .advance (.pure rfl)
  | _, _, @Atom.call x w es hes, n, rest, hn, apart => by
    obtain ⟨n, rfl⟩ := (atom_begins (.call hes)).exists_succ hn (by decide)
    simp only [List.length_cons, List.length_append, List.length_nil] at hn
    simp only [List.cons_append, List.append_assoc, List.nil_append]
    rw [atom]
    have called : Accepts _ rest (call n x) fun c => c.unplaced = Call.named x es .unknown :=
      call_of_items (by omega) fun m hm => items_accepts hes hm (by decide)
    refine .here fun l => .current (.next (.map called fun c hc => ?_))
    rw [Call.unplaced_expr, hc]
  | _, _, .parentheses (w := w) he, n, rest, hn, apart => by
    obtain ⟨n, rfl⟩ := (atom_begins (.parentheses he)).exists_succ hn (by decide)
    simp only [List.length_cons, List.length_append, List.length_nil] at hn
    simp only [List.cons_append, List.append_assoc, List.nil_append]
    rw [atom]
    refine .here fun l => .current (.advance (.bind (operation_accepts he ?_ ?_) ?_))
    · omega
    · exact ends_of_none rfl _
    · exact fun e he => .expect (.pure he)
  | _, _, .array hes, n, rest, hn, apart => by
    obtain ⟨n, rfl⟩ := (atom_begins (.array hes)).exists_succ hn (by decide)
    simp only [List.length_cons, List.length_append, List.length_nil] at hn
    simp only [List.cons_append, List.append_assoc, List.nil_append]
    rw [atom]
    refine .here fun l => .current (.advance (.bind (items_accepts hes (by omega) (by decide)) ?_))
    rintro es rfl
    exact .expect (.pure rfl)
  | _, _, .boxed hes, n, rest, hn, apart => by
    obtain ⟨n, rfl⟩ := (atom_begins (.boxed hes)).exists_succ hn (by decide)
    simp only [List.length_cons, List.length_append, List.length_nil] at hn
    simp only [List.cons_append, List.append_assoc, List.nil_append]
    rw [atom]
    refine .here fun l => .current (.advance (.bind (items_accepts hes (by omega) (by decide)) ?_))
    rintro es rfl
    exact .expect (.pure rfl)

theorem items_accepts : ∀ {w : List Kind} {es : List Expr}, Items w es →
    ∀ {n : Nat} {rest : List Kind} {s : Token.Symbol}, 16 * w.length + 1 < n →
    s ∈ [.closeParen, .closeSquare, .closeCurly] →
    Accepts (w ++ .symbol s :: rest) (.symbol s :: rest) (items n s)
      fun ts => Expr.allUnplaced ts = es
  | _, _, .none, n, rest, s, hn, hs => by
    obtain ⟨n, rfl⟩ := Nat.exists_eq_add_one.mpr (show 0 < n by omega)
    rw [items, List.nil_append]
    exact .symbolThere (.pure rfl)
  | w, _, .some h, n, rest, s, hn, hs => by
    obtain ⟨n, rfl⟩ := Nat.exists_eq_add_one.mpr (show 0 < n by omega)
    rw [items]
    have closing : opensExpr (.symbol s) = false ∧ strength? s = none ∧ s ≠ .comma := by
      revert s
      decide
    have other : (w ++ .symbol s :: rest).head? ≠ some (.symbol s) := by
      obtain ⟨k, u, rfl, hk⟩ := itemList_begins h
      rintro ⟨⟩
      rw [closing.1] at hk
      cases hk
    refine .symbolOther other (itemList_accepts h (by omega) (ends_of_none closing.2.1 _) ?_)
    rintro ⟨⟩
    exact closing.2.2 rfl

theorem itemList_accepts : ∀ {w : List Kind} {es : List Expr}, ItemList w es →
    ∀ {n : Nat} {rest : List Kind}, 16 * w.length < n → Ends 0 rest.head? →
    rest.head? ≠ some (.symbol .comma) →
    Accepts (w ++ rest) rest (itemList n) fun ts => Expr.allUnplaced ts = es
  | _, _, .one h, n, rest, hn, ends, apart => by
    obtain ⟨n, rfl⟩ := Nat.exists_eq_add_one.mpr (show 0 < n by omega)
    rw [itemList]
    refine .bind (operation_accepts h (by omega) ends) fun e he => .symbolOther apart (.pure ?_)
    rw [← he]
    rfl
  | _, _, .more h hes, n, rest, hn, ends, apart => by
    simp only [List.length_append, List.length_cons] at hn
    obtain ⟨n, rfl⟩ := Nat.exists_eq_add_one.mpr (show 0 < n by omega)
    rw [itemList, List.append_assoc, List.cons_append]
    refine .bind (operation_accepts h (by omega) (ends_of_none rfl _)) fun e he => ?_
    refine .symbolThere (.advance (.map (itemList_accepts hes (by omega) ends apart) ?_))
    rintro es rfl
    rw [← he]
    rfl

theorem indices_accepts : ∀ {w : List Kind} {is : List Expr}, Indices w is →
    ∀ {n : Nat} {rest : List Kind}, 16 * w.length < n →
    rest.head? ≠ some (.symbol .openSquare) →
    Accepts (w ++ rest) rest (indices n) fun ts => Expr.allUnplaced ts = is
  | _, _, .none, n, rest, hn, apart => indices_accepts_nil (Nat.zero_lt_of_lt hn) apart
  | _, _, .more h his, n, rest, hn, apart => by
    simp only [List.length_append, List.length_cons] at hn
    obtain ⟨n, rfl⟩ := Nat.exists_eq_add_one.mpr (show 0 < n by omega)
    simp only [List.cons_append, List.append_assoc]
    rw [indices]
    refine .symbolThere (.advance (.bind (operation_accepts h (by omega) ?_) fun e he => ?_))
    · exact ends_of_none rfl _
    · refine .expect (.map (indices_accepts his (by omega) apart) ?_)
      rintro is rfl
      rw [← he]
      rfl

end

/-! ## What ends statements -/

/-- A token that begins a statement is no symbol. -/
theorem eq_of_startsStatement {k : Option Kind} (h : startsStatement k = true) :
    ∀ s, k ≠ some (.symbol s) := by
  rintro s rfl
  cases h

theorem ends_of_quiet {k : Option Kind} (h : ∀ s, k ≠ some (.symbol s)) (n : Nat) : Ends n k :=
  fun s _ hs _ => absurd hs (h s)

/-- A keyword that begins no statement. -/
def Closes (k : Option Kind) : Prop :=
  ∃ keyword, k = some (.keyword keyword) ∧ startsStatement k = false

theorem Closes.quiet {k : Option Kind} (h : Closes k) (s : Token.Symbol) :
    k ≠ some (.symbol s) := by
  obtain ⟨keyword, rfl, -⟩ := h
  nofun

theorem Closes.starts {k : Option Kind} (h : Closes k) : startsStatement k = false := by
  obtain ⟨-, -, h⟩ := h
  exact h

theorem Closes.of_keyword {k : Option Kind} {keyword : Token.Keyword}
    (h : k = some (.keyword keyword)) (no : startsStatement (some (.keyword keyword)) = false) :
    Closes k :=
  ⟨keyword, h, h ▸ no⟩

/-- Catch branches begin with a keyword that begins no statement. -/
theorem catches_close {w rest : List Kind} {cs : List Catch} (h : Catches w cs)
    (hr : Closes rest.head?) : Closes (w ++ rest).head? := by
  cases h with
  | none => exact hr
  | more _ _ => exact ⟨_, rfl, rfl⟩

/-- Some tokens begin as a statement does. -/
def BeginsStatement (w : List Kind) : Prop :=
  ∃ k u, w = k :: u ∧ startsStatement (some k) = true

theorem statement_begins {w : List Kind} {s : Stmt} (h : Statement w s) : BeginsStatement w := by
  cases h <;> exact ⟨_, _, rfl, rfl⟩

theorem BeginsStatement.length_pos {w : List Kind} (h : BeginsStatement w) : 0 < w.length := by
  obtain ⟨k, u, rfl, -⟩ := h
  exact Nat.succ_pos _

theorem BeginsStatement.starts {w : List Kind} (h : BeginsStatement w) (rest : List Kind) :
    startsStatement (w ++ rest).head? = true := by
  obtain ⟨k, u, rfl, hk⟩ := h
  exact hk

theorem statements_start {w : List Kind} {s : Stmt} {ss : List Stmt} (h : Statements w (s :: ss))
    (rest : List Kind) : startsStatement (w ++ rest).head? = true := by
  cases h with
  | more hs _ _ =>
    rw [List.append_assoc]
    exact (statement_begins hs).starts _

/-- In front of statements stands no symbol, if none stands behind them. -/
theorem statements_quiet {w rest : List Kind} {ss : List Stmt} (h : Statements w ss)
    (hr : ∀ s, rest.head? ≠ some (.symbol s)) : ∀ s, (w ++ rest).head? ≠ some (.symbol s) := by
  cases h with
  | none => exact hr
  | more hs _ _ =>
    rw [List.append_assoc]
    exact eq_of_startsStatement ((statement_begins hs).starts _)

/-- What stands behind a statement and its separator ends the statement. -/
theorem separator_ends {v rest : List Kind} (h : Separator v)
    (hr : ∀ s, rest.head? ≠ some (.symbol s)) : Ends 0 (v ++ rest).head? := by
  cases h with
  | none => exact ends_of_quiet hr 0
  | semicolon => exact ends_of_none rfl 0

theorem skipSemicolon_accepts {v rest : List Kind} (h : Separator v)
    (hr : ∀ s, rest.head? ≠ some (.symbol s)) :
    Accepts (v ++ rest) rest skipSemicolon fun _ => True := by
  unfold skipSemicolon
  cases h with
  | none => exact .symbolOther (hr _) (.pure trivial)
  | semicolon => exact .symbolThere .taken

/-! ## Statements -/

theorem expression_accepts {n : Nat} {w rest : List Kind} {e : Expr} (h : Expression w e)
    (hn : 16 * w.length ≤ n) (ends : Ends 0 rest.head?) :
    Accepts (w ++ rest) rest (expression n) fun t => t.unplaced = e :=
  operation_accepts h hn ends

/-- In front of a keyword that no expression goes on with. -/
theorem ends_keyword (k : Token.Keyword) (rest : List Kind) (n : Nat) :
    Ends n (Kind.keyword k :: rest).head? :=
  ends_of_quiet (by nofun) n

theorem assign_accepts {n : Nat} {x : String} {w rest : List Kind} {e : Expr} (he : Expression w e)
    (hn : 16 * w.length ≤ n) (ends : Ends 0 rest.head?) :
    Accepts (.name x :: .symbol .assign :: (w ++ rest)) rest (nameStatement n x)
      fun t => t.unplaced = .assign x e := by
  unfold nameStatement
  refine .here fun l => .next (.advance (.advance (.map (expression_accepts he hn ends) ?_)))
  rintro t rfl
  rfl

theorem perform_accepts {n : Nat} {x : String} {w rest : List Kind} {es : List Expr}
    (hes : Items w es) (hn : 16 * w.length + 2 < n) :
    Accepts (.name x :: .symbol .openParen :: (w ++ .symbol .closeParen :: rest)) rest
      (nameStatement n x) fun t => t.unplaced = .perform (.named x es .unknown) := by
  unfold nameStatement
  have called : Accepts _ rest (call n x) fun c => c.unplaced = Call.named x es .unknown :=
    call_of_items hn fun m hm => items_accepts hes hm (by decide)
  exact .here fun l => .next (.map called fun c hc => congrArg Stmt.perform hc)

/-- The first of some indices, and the others. -/
theorem exists_of_indices {w : List Kind} {is : List Expr} (h : Indices w is) (some : is ≠ []) :
    ∃ u v e es, w = .symbol .openSquare :: (u ++ .symbol .closeSquare :: v) ∧ Expression u e ∧
      Indices v es ∧ is = e :: es := by
  cases h with
  | none => exact absurd rfl some
  | more he hes => exact ⟨_, _, _, _, rfl, he, hes, rfl⟩

theorem element_accepts {n : Nat} {x : String} {v w rest : List Kind} {is : List Expr}
    {i e : Expr} (hi : Indices v (is ++ [i])) (he : Expression w e)
    (hn : 16 * (v.length + w.length) ≤ n) (ends : Ends 0 rest.head?) :
    Accepts (.name x :: (v ++ .symbol .assign :: (w ++ rest))) rest (nameStatement n x) fun t =>
      t.unplaced =
        .perform (.named "arrset" [applyIndices (.var x) is .unknown, i, e] .unknown) := by
  obtain ⟨u, v, first, later, rfl, hf, hl, split⟩ := exists_of_indices hi (by simp)
  simp only [List.length_cons, List.length_append] at hn
  simp only [List.cons_append, List.append_assoc]
  unfold nameStatement
  refine .here fun l => .next (.advance (.advance (.bind (expression_accepts hf ?_ ?_) ?_)))
  · omega
  · exact ends_of_none rfl 0
  rintro first rfl
  refine .expect (.bind (indices_accepts hl (by omega) (by nofun)) ?_)
  rintro later rfl
  refine .symbolThere (.advance (.map (expression_accepts he (by omega) ends) ?_))
  rintro value rfl
  -- the last index is the one that is written to
  have parts : Expr.allUnplaced (first :: later).dropLast = is ∧
      ((first :: later).getLast (List.cons_ne_nil first later)).unplaced = i := by
    have whole : (first :: later).map Expr.unplaced = is ++ [i] := by
      rw [split, List.map_cons]
      exact congrArg _ (Expr.recastAll_eq_map _ _ later).symm
    constructor
    · rw [Expr.allUnplaced, Expr.recastAll_eq_map]
      show (first :: later).dropLast.map Expr.unplaced = is
      rw [List.map_dropLast, whole, List.dropLast_concat]
    · have last : (first :: later).getLast? = some
          ((first :: later).getLast (List.cons_ne_nil first later)) :=
        List.getLast?_eq_some_getLast _
      have same := congrArg (Option.map Expr.unplaced) last
      rw [← List.getLast?_map, whole, List.getLast?_concat] at same
      exact (Option.some.inj same).symm
  show Stmt.perform (Call.named "arrset" _ l).unplaced = _
  rw [Expr.unplaced_named]
  simp only [Expr.allUnplaced_cons, unplaced_applyIndices, parts.1, parts.2]
  rfl

theorem throwing_accepts {n : Nat} {x : String} {w rest : List Kind} {e : Expr}
    (he : Expression w e) (hn : 16 * w.length ≤ n) :
    Accepts (.keyword .throw_ :: .symbol .openParen :: .name x ::
        (w ++ .symbol .closeParen :: rest)) rest (throwing n)
      fun t => t.unplaced = .throwing x e := by
  unfold throwing
  refine .advance (.expect (.expectName (.bind (expression_accepts he hn ?_) ?_)))
  · exact ends_of_none rfl 0
  · rintro e rfl
    exact .expect (.pure rfl)

mutual

theorem statement_accepts : ∀ {w : List Kind} {s : Stmt}, Statement w s →
    ∀ {n : Nat} {rest : List Kind}, 16 * w.length ≤ n → Ends 0 rest.head? →
    Accepts (w ++ rest) rest (statement n) fun t => t.unplaced = s
  | _, _, .skip, n, rest, hn, ends => by
    obtain ⟨n, rfl⟩ := Nat.exists_eq_add_one.mpr (show 0 < n by simp at hn; omega)
    rw [statement]
    exact .current (.advance (.pure rfl))
  | _, _, .assign he, n, rest, hn, ends => by
    simp only [List.length_cons] at hn
    obtain ⟨n, rfl⟩ := Nat.exists_eq_add_one.mpr (show 0 < n by omega)
    rw [statement]
    exact .current (assign_accepts he (by omega) ends)
  | _, _, .element hi he, n, rest, hn, ends => by
    simp only [List.length_cons, List.length_append] at hn
    obtain ⟨n, rfl⟩ := Nat.exists_eq_add_one.mpr (show 0 < n by omega)
    simp only [List.cons_append, List.append_assoc]
    rw [statement]
    exact .current (element_accepts hi he (by omega) ends)
  | _, _, .perform hes, n, rest, hn, ends => by
    simp only [List.length_cons, List.length_append, List.length_nil] at hn
    obtain ⟨n, rfl⟩ := Nat.exists_eq_add_one.mpr (show 0 < n by omega)
    simp only [List.cons_append, List.append_assoc, List.nil_append]
    rw [statement]
    exact .current (perform_accepts hes (by omega))
  | _, _, .branch h, n, rest, hn, ends => by
    simp only [List.length_cons, List.length_append, List.length_nil] at hn
    obtain ⟨n, rfl⟩ := Nat.exists_eq_add_one.mpr (show 0 < n by omega)
    simp only [List.cons_append, List.append_assoc, List.nil_append]
    rw [statement]
    refine .current (.advance (.bind (branches_accepts h (by omega) rfl) fun t ht => ?_))
    exact .expect (.pure ht)
  | _, _, .loop hc hs, n, rest, hn, ends => by
    simp only [List.length_cons, List.length_append, List.length_nil] at hn
    obtain ⟨n, rfl⟩ := Nat.exists_eq_add_one.mpr (show 0 < n by omega)
    simp only [List.cons_append, List.append_assoc, List.nil_append]
    rw [statement]
    refine .current (.advance (.bind (expression_accepts hc (by omega) (ends_keyword _ _ _)) ?_))
    rintro c rfl
    refine .expect (.bind (block_accepts hs (by omega) ⟨_, rfl, rfl⟩) ?_)
    rintro s rfl
    exact .expect (.pure rfl)
  | _, _, .counted hstart hc hstep hs, n, rest, hn, ends => by
    simp only [List.length_cons, List.length_append, List.length_nil] at hn
    obtain ⟨n, rfl⟩ := Nat.exists_eq_add_one.mpr (show 0 < n by omega)
    simp only [List.cons_append, List.append_assoc, List.nil_append]
    rw [statement]
    refine .current (.advance (.bind
      (statement_accepts hstart (by omega) (ends_of_none rfl 0)) ?_))
    rintro start rfl
    refine .expect (.bind (expression_accepts hc (by omega) (ends_of_none rfl 0)) ?_)
    rintro c rfl
    refine .expect (.bind (statement_accepts hstep (by omega) (ends_keyword _ _ _)) ?_)
    rintro step rfl
    refine .expect (.bind (block_accepts hs (by omega) ⟨_, rfl, rfl⟩) ?_)
    rintro s rfl
    exact .expect (.pure rfl)
  | _, _, .repeated hs hc, n, rest, hn, ends => by
    simp only [List.length_cons, List.length_append] at hn
    obtain ⟨n, rfl⟩ := Nat.exists_eq_add_one.mpr (show 0 < n by omega)
    simp only [List.cons_append, List.append_assoc]
    rw [statement]
    refine .current (.advance (.bind (block_accepts hs (by omega) ⟨_, rfl, rfl⟩) ?_))
    rintro s rfl
    refine .expect (.map (expression_accepts hc (by omega) ends) ?_)
    rintro c rfl
    rfl
  | _, _, .leave he, n, rest, hn, ends => by
    simp only [List.length_cons] at hn
    obtain ⟨n, rfl⟩ := Nat.exists_eq_add_one.mpr (show 0 < n by omega)
    rw [statement, List.cons_append]
    refine .current (.advance (.map (expression_accepts he (by omega) ends) ?_))
    rintro e rfl
    rfl
  | _, _, .attempt (v := v) (w := w) hs hcs hlast, n, rest, hn, ends => by
    simp only [List.length_cons, List.length_append, List.length_nil] at hn
    obtain ⟨n, rfl⟩ := Nat.exists_eq_add_one.mpr (show 0 < n by omega)
    simp only [List.cons_append, List.append_assoc, List.nil_append]
    rw [statement]
    have last : Closes (w ++ .keyword .yrt :: rest).head? ∧
        (w ++ .keyword .yrt :: rest).head? ≠ some (.keyword .catch_) := by
      cases hlast with
      | none => exact ⟨⟨_, rfl, rfl⟩, by nofun⟩
      | some _ => exact ⟨⟨_, rfl, rfl⟩, by nofun⟩
    refine .current (.advance (.bind (block_accepts hs (by omega) (catches_close hcs last.1)) ?_))
    rintro s rfl
    refine .bind (catches_accepts hcs (by omega) last.1 last.2) ?_
    rintro cs rfl
    refine .bind (cleanup_accepts hlast (by omega) rfl) ?_
    rintro s rfl
    exact .expect (.pure rfl)
  | _, _, .throwing he, n, rest, hn, ends => by
    simp only [List.length_cons, List.length_append, List.length_nil] at hn
    obtain ⟨n, rfl⟩ := Nat.exists_eq_add_one.mpr (show 0 < n by omega)
    simp only [List.cons_append, List.append_assoc, List.nil_append]
    rw [statement]
    exact .current (throwing_accepts he (by omega))

theorem branches_accepts : ∀ {w : List Kind} {s : Stmt}, Branches w s →
    ∀ {n : Nat} {rest : List Kind} {c : Construct}, 16 * w.length ≤ n →
    rest.head? = some (.keyword .fi) →
    Accepts (w ++ rest) rest (branches n c) fun t => t.unplaced = s
  | _, _, .last hc hs, n, rest, _, hn, fi => by
    simp only [List.length_cons, List.length_append] at hn
    obtain ⟨n, rfl⟩ := Nat.exists_eq_add_one.mpr (show 0 < n by omega)
    simp only [List.cons_append, List.append_assoc]
    rw [branches]
    refine .bind (expression_accepts hc (by omega) (ends_keyword _ _ _)) ?_
    rintro c rfl
    refine .expect (.bind (block_accepts hs (by omega) (.of_keyword fi rfl)) ?_)
    rintro s rfl
    exact .keywordOther (by rw [fi]; nofun) (.keywordOther (by rw [fi]; nofun) (.pure rfl))
  | _, _, .otherwise hc hs ht, n, rest, _, hn, fi => by
    simp only [List.length_cons, List.length_append] at hn
    obtain ⟨n, rfl⟩ := Nat.exists_eq_add_one.mpr (show 0 < n by omega)
    simp only [List.cons_append, List.append_assoc]
    rw [branches]
    refine .bind (expression_accepts hc (by omega) (ends_keyword _ _ _)) ?_
    rintro c rfl
    refine .expect (.bind (block_accepts hs (by omega) ⟨_, rfl, rfl⟩) ?_)
    rintro s rfl
    refine .keywordOther (by nofun) (.keywordThere (.advance (.map
      (block_accepts ht (by omega) (.of_keyword fi rfl)) ?_)))
    rintro t rfl
    rfl
  | _, _, .elif hc hs ht, n, rest, _, hn, fi => by
    simp only [List.length_cons, List.length_append] at hn
    obtain ⟨n, rfl⟩ := Nat.exists_eq_add_one.mpr (show 0 < n by omega)
    simp only [List.cons_append, List.append_assoc]
    rw [branches]
    refine .bind (expression_accepts hc (by omega) (ends_keyword _ _ _)) ?_
    rintro c rfl
    refine .expect (.bind (block_accepts hs (by omega) ⟨_, rfl, rfl⟩) ?_)
    rintro s rfl
    refine .keywordThere (.advance (.map (branches_accepts ht (by omega) fi) ?_))
    rintro t rfl
    rfl

theorem block_accepts : ∀ {w : List Kind} {s : Stmt}, Block w s →
    ∀ {n : Nat} {rest : List Kind}, 16 * w.length + 2 ≤ n → Closes rest.head? →
    Accepts (w ++ rest) rest (block n) fun t => t.unplaced = s
  | _, _, .of h, n, rest, hn, closes => by
    obtain ⟨n, rfl⟩ := Nat.exists_eq_add_one.mpr (show 0 < n by omega)
    rw [block]
    refine .current ?_
    rw [if_pos (statements_start h rest)]
    refine .map (statements_accepts h (by omega) closes) fun ts hts => ?_
    rw [← hts]
    exact Stmt.recast_ofList _ _ ts

theorem statements_accepts : ∀ {w : List Kind} {ss : List Stmt}, Statements w ss →
    ∀ {n : Nat} {rest : List Kind}, 16 * w.length + 1 ≤ n → Closes rest.head? →
    Accepts (w ++ rest) rest (statements n) fun ts => ts.map Stmt.unplaced = ss
  | _, _, .none, n, rest, hn, closes => by
    obtain ⟨n, rfl⟩ := Nat.exists_eq_add_one.mpr (show 0 < n by omega)
    rw [statements]
    refine .current ?_
    rw [if_neg (by rw [List.nil_append, closes.starts]; nofun)]
    exact .pure rfl
  | _, _, .more (w := w) hs hv hss, n, rest, hn, closes => by
    have begins := statement_begins hs
    have := begins.length_pos
    simp only [List.length_append] at hn
    obtain ⟨n, rfl⟩ := Nat.exists_eq_add_one.mpr (show 0 < n by omega)
    rw [statements, List.append_assoc, List.append_assoc]
    refine .current ?_
    rw [if_pos (begins.starts _)]
    have quiet : ∀ s, (w ++ rest).head? ≠ some (.symbol s) := statements_quiet hss closes.quiet
    refine .bind (statement_accepts hs (by omega) (separator_ends hv quiet)) ?_
    rintro s rfl
    refine .bind (skipSemicolon_accepts hv quiet) fun _ _ => ?_
    refine .map (statements_accepts hss (by omega) closes) ?_
    rintro ss rfl
    rfl

theorem catches_accepts : ∀ {w : List Kind} {cs : List Catch}, Catches w cs →
    ∀ {n : Nat} {rest : List Kind}, 16 * w.length + 1 ≤ n → Closes rest.head? →
    rest.head? ≠ some (.keyword .catch_) →
    Accepts (w ++ rest) rest (catches n) fun ts => Catch.allUnplaced ts = cs
  | _, _, .none, n, rest, hn, closes, other => by
    obtain ⟨n, rfl⟩ := Nat.exists_eq_add_one.mpr (show 0 < n by omega)
    rw [catches]
    exact .keywordOther other (.pure rfl)
  | _, _, .more hs hcs, n, rest, hn, closes, other => by
    simp only [List.length_cons, List.length_append] at hn
    obtain ⟨n, rfl⟩ := Nat.exists_eq_add_one.mpr (show 0 < n by omega)
    simp only [List.cons_append, List.append_assoc]
    rw [catches]
    refine .keywordThere (.advance (.expect (.expectName (.expectName (.expect (.bind
      (block_accepts hs (by omega) (catches_close hcs closes)) ?_))))))
    rintro s rfl
    refine .map (catches_accepts hcs (by omega) closes other) ?_
    rintro cs rfl
    rfl

theorem cleanup_accepts : ∀ {w : List Kind} {s : Option Stmt}, Cleanup w s →
    ∀ {n : Nat} {rest : List Kind}, 16 * w.length + 1 ≤ n →
    rest.head? = some (.keyword .yrt) →
    Accepts (w ++ rest) rest (cleanup n) fun t => Stmt.cleanupUnplaced t = s
  | _, _, .none, n, rest, hn, yrt => by
    obtain ⟨n, rfl⟩ := Nat.exists_eq_add_one.mpr (show 0 < n by omega)
    rw [cleanup]
    exact .keywordOther (by rw [List.nil_append, yrt]; nofun) (.pure rfl)
  | _, _, .some hs, n, rest, hn, yrt => by
    simp only [List.length_cons] at hn
    obtain ⟨n, rfl⟩ := Nat.exists_eq_add_one.mpr (show 0 < n by omega)
    rw [cleanup, List.cons_append]
    refine .keywordThere (.advance (.map (block_accepts hs (by omega) (.of_keyword yrt rfl)) ?_))
    rintro s rfl
    rfl

end

/-! ## Programs -/

theorem parameterList_accepts {w : List Kind} {xs : List String} (h : NameList w xs) :
    ∀ {n : Nat} {rest : List Kind}, w.length < n → rest.head? ≠ some (.symbol .comma) →
      Accepts (w ++ rest) rest (parameterList n) (· = xs) := by
  induction h with
  | one =>
    intro n rest hn other
    obtain ⟨n, rfl⟩ := Nat.exists_eq_add_one.mpr (show 0 < n by omega)
    rw [parameterList]
    exact .expectName (.symbolOther other (.pure rfl))
  | more _ ih =>
    intro n rest hn other
    simp only [List.length_cons] at hn
    obtain ⟨n, rfl⟩ := Nat.exists_eq_add_one.mpr (show 0 < n by omega)
    rw [parameterList]
    refine .expectName (.symbolThere (.advance (.map (ih (by omega) other) ?_)))
    rintro xs rfl
    rfl

theorem nameList_quiet {w : List Kind} {xs : List String} (h : NameList w xs) (rest : List Kind)
    (s : Token.Symbol) : (w ++ rest).head? ≠ some (.symbol s) := by
  cases h <;> nofun

theorem function_accepts {w : List Kind} {f : Function} (h : Declaration w f) {n : Nat}
    {rest : List Kind} (hn : 16 * w.length ≤ n) :
    Accepts (w ++ rest) rest (function n) fun g => g.unplaced = f := by
  cases h with
  | of names hs =>
    simp only [List.length_cons, List.length_append, List.length_nil] at hn
    simp only [List.cons_append, List.append_assoc]
    unfold function
    refine .here fun l => .advance (.expectName (.expect ?_))
    cases names with
    | none =>
      refine .symbolThere ?_
      rw [pure_bind]
      refine .expect (.expect (.bind (block_accepts hs (by omega) ⟨_, rfl, rfl⟩) ?_))
      rintro s rfl
      exact .expect (.pure rfl)
    | some names =>
      refine .symbolOther (nameList_quiet names _ _) ?_
      refine .bind (parameterList_accepts names (by omega) (by nofun)) ?_
      rintro xs rfl
      refine .expect (.expect (.bind (block_accepts hs (by omega) ⟨_, rfl, rfl⟩) ?_))
      rintro s rfl
      exact .expect (.pure rfl)

theorem exists_of_declaration {w : List Kind} {f : Function} (h : Declaration w f) :
    ∃ u, w = .keyword .fun_ :: u := by
  cases h
  exact ⟨_, rfl⟩

/-- In front of declarations stands no symbol. -/
theorem declarations_quiet {w : List Kind} {fs : List Function} {ss : List Stmt}
    (h : Declarations w fs ss) : ∀ s, w.head? ≠ some (.symbol s) := by
  cases h with
  | none => nofun
  | function hf _ =>
    cases hf
    nofun
  | statement hs _ _ => exact eq_of_startsStatement ((statement_begins hs).starts _)

theorem declarations_accepts {w : List Kind} {fs : List Function} {ss : List Stmt}
    (h : Declarations w fs ss) : ∀ {n : Nat}, 16 * w.length < n →
      Accepts w [] (declarations n) fun r =>
        r.1.map Function.unplaced = fs ∧ r.2.map Stmt.unplaced = ss := by
  induction h with
  | none =>
    intro n hn
    obtain ⟨n, rfl⟩ := Nat.exists_eq_add_one.mpr (show 0 < n by omega)
    rw [declarations]
    exact .current (.pure ⟨rfl, rfl⟩)
  | function hf _ ih =>
    intro n hn
    simp only [List.length_append] at hn
    obtain ⟨u, rfl⟩ := exists_of_declaration hf
    simp only [List.length_cons] at hn
    obtain ⟨n, rfl⟩ := Nat.exists_eq_add_one.mpr (show 0 < n by omega)
    rw [declarations]
    refine .current (.bind (function_accepts hf (by rw [List.length_cons]; omega)) ?_)
    rintro f rfl
    refine .map (ih (by omega)) ?_
    rintro r ⟨rfl, rfl⟩
    exact ⟨rfl, rfl⟩
  | @statement u v w s fs ss hs hv hd ih =>
    intro n hn
    have begins := statement_begins hs
    have := begins.length_pos
    have quiet := declarations_quiet hd
    simp only [List.length_append] at hn
    obtain ⟨n, rfl⟩ := Nat.exists_eq_add_one.mpr (show 0 < n by omega)
    have starts := begins.starts (v ++ w)
    rw [declarations]
    refine .current ?_
    split
    · rename_i none
      rw [none] at starts
      cases starts
    · rename_i keyword
      rw [keyword] at starts
      cases starts
    · rw [if_pos starts]
      refine .bind (statement_accepts hs (by omega) (separator_ends hv quiet)) ?_
      rintro s rfl
      refine .bind (skipSemicolon_accepts hv quiet) fun _ _ => ?_
      refine .map (ih (by omega)) ?_
      rintro r ⟨rfl, rfl⟩
      exact ⟨rfl, rfl⟩

end Parser

/-- Tokens that denote a program are read as that program. -/
theorem ofTokens_of_denotes {ts : Tokens} {entry : String} {t : Program}
    (h : Grammar.Denotes entry ts.kinds t) : ∃ p, ofTokens ts entry = .ok p ∧ p.unplaced = t := by
  cases h with
  | of derived =>
    have enough : 16 * ts.kinds.length < Parser.budget ts := by
      rw [Parser.budget, Tokens.kinds, List.length_map]
      omega
    obtain ⟨⟨fs, ss⟩, ts', hr, -, rfl, rfl⟩ := Parser.declarations_accepts derived enough ts rfl
    refine ⟨_, ?_, Program.unplaced_mk fs ss entry⟩
    rw [ofTokens]
    change (Parser.declarations (Parser.budget ts) ts >>= _) = _
    rw [hr]
    rfl

/-- The parser accepts exactly the grammar, and builds the one tree there is. -/
theorem ofTokens_exact (ts : Tokens) (entry : String) :
    ((∃ p, ofTokens ts entry = .ok p) ↔ ∃ t, Grammar.Denotes entry ts.kinds t) ∧
      ∀ p, ofTokens ts entry = .ok p →
        ∀ t, Grammar.Denotes entry ts.kinds t ↔ t = p.unplaced := by
  refine ⟨⟨?_, ?_⟩, fun p hp t => ⟨fun ht => ?_, ?_⟩⟩
  · rintro ⟨p, hp⟩
    exact ⟨p.unplaced, denotes_of_ofTokens hp⟩
  · rintro ⟨t, ht⟩
    obtain ⟨p, hp, -⟩ := ofTokens_of_denotes ht
    exact ⟨p, hp⟩
  · obtain ⟨q, hq, rfl⟩ := ofTokens_of_denotes ht
    rw [hp] at hq
    cases hq
    rfl
  · rintro rfl
    exact denotes_of_ofTokens hp

end Threefold.Program
