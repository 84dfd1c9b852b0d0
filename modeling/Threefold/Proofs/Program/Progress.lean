import Threefold.Proofs.Program.Derivation

/-!
# The parser comes to an end within its tokens

Every step of the descent goes on by some number of tokens, never beyond their end, or refuses one of
them; a statement, a block, an expression and a term take at least one. As whatever is read again
stands behind something that was taken, the steps that are needed for a text are bounded: sixteen for
each token and a few more, according to what is read.

`descent_progress` puts this together. The bound that the parser starts with is large enough, so it
never runs out of steps, and it yields a result or a refusal at one of the tokens.
-/

namespace Threefold

/-- The tokens behind a number of them. -/
def Tokens.skip (k : Nat) (ts : Tokens) : Tokens :=
  ⟨ts.list.drop k, ts.stop⟩

/-- The places of the tokens and that of their end. -/
def Tokens.locations (ts : Tokens) : List Location :=
  ts.list.map (·.location) ++ [ts.stop]

namespace Tokens

variable {ts : Tokens} {k : Token.Kind}

@[simp] theorem skip_skip (i j : Nat) (ts : Tokens) : (ts.skip i).skip j = ts.skip (i + j) := by
  simp [skip]

@[simp] theorem length_skip (i : Nat) (ts : Tokens) :
    (ts.skip i).list.length = ts.list.length - i :=
  List.length_drop

theorem advance_eq_skip (ts : Tokens) : ts.advance = ts.skip 1 := by
  rw [advance, skip, List.drop_one]

theorem location_mem (ts : Tokens) : ts.location ∈ ts.locations := by
  obtain ⟨list, stop⟩ := ts
  cases list <;> simp [location, locations]

theorem locations_skip_subset (i : Nat) (ts : Tokens) : (ts.skip i).locations ⊆ ts.locations := by
  rw [locations, locations, skip]
  have behind := List.map_subset (·.location) (List.drop_subset i ts.list)
  apply List.append_subset.mpr
  exact ⟨List.subset_append_of_subset_left _ behind, List.subset_append_right _ _⟩

theorem length_pos_of_current? (h : ts.current? = some k) : 0 < ts.list.length := by
  obtain ⟨list, stop⟩ := ts
  cases list with
  | nil => cases h
  | cons t list => exact Nat.zero_lt_succ _

theorem length_of_next? (h : ts.advance.current? = some k) : 1 < ts.list.length := by
  have := length_pos_of_current? h
  rw [advance_eq_skip, length_skip] at this
  omega

end Tokens

namespace Program.Parser

/-- How a step ends that was taken at some tokens: it has taken at least a number of them, or it has
refused something at one of the given places. It is out of steps only if it was starved of them. -/
def Outcome {α : Type} (sites : List Location) (least : Nat) (starved : Prop) (ts : Tokens) :
    Except (Located Refusal) (α × Tokens) → Prop
  | .ok (_, ts') => ∃ k, least ≤ k ∧ k ≤ ts.list.length ∧ ts' = ts.skip k
  | .error e => e.location ∈ sites ∧ ∀ found, e.value = .exhausted found → starved

/-- What ends so behind some of the tokens ends so at all of them. -/
theorem Outcome.behind {α : Type} {sites : List Location} {least i j : Nat} {starved : Prop}
    {ts : Tokens} {r : Except (Located Refusal) (α × Tokens)}
    (h : Outcome sites (least - j) starved (ts.skip i) r) (taken : j ≤ i) (bound : i ≤ ts.list.length) :
    Outcome sites least starved ts r := by
  match r, h with
  | .error _, refused => exact refused
  | .ok _, ⟨k, hk, inside, moved⟩ =>
    rw [Tokens.length_skip] at inside
    exact ⟨i + k, by omega, by omega, moved.trans (Tokens.skip_skip i k ts)⟩

/-- A step ends so at tokens that lie at the given places. -/
def Proceeds {α : Type} (sites : List Location) (least : Nat) (starved : Prop) (m : Parser α)
    (ts : Tokens) : Prop :=
  ts.locations ⊆ sites → Outcome sites least starved ts (m ts)

namespace Proceeds

variable {α β : Type} {sites : List Location} {least j : Nat} {starved p : Prop} {ts : Tokens}

theorem pure {b : β} : Proceeds sites 0 starved (pure b) ts :=
  fun _ => ⟨0, Nat.le_refl _, Nat.zero_le _, rfl⟩

theorem throw {e : Located Refusal} (site : e.location ∈ sites)
    (fed : ∀ found, e.value = .exhausted found → starved) :
    Proceeds sites least starved (throw e : Parser β) ts :=
  fun _ => ⟨site, fed⟩

theorem refuse {why : Option Token.Kind → Refusal} (ordinary : ∀ k found, why k ≠ .exhausted found) :
    Proceeds sites least starved (refuse why : Parser β) ts :=
  fun sub => ⟨sub ts.location_mem, fun found h => absurd h (ordinary _ found)⟩

/-- There are no steps left. -/
theorem exhausted (h : starved) :
    Proceeds sites least starved (Parser.refuse .exhausted : Parser β) ts :=
  fun sub => ⟨sub ts.location_mem, fun _ _ => h⟩

theorem imp {m : Parser β} (hm : Proceeds sites least p m ts) (h : p → starved) :
    Proceeds sites least starved m ts := by
  intro sub
  have ended := hm sub
  match m ts, ended with
  | .ok _, moved => exact moved
  | .error _, refused => exact ⟨refused.1, fun found he => h (refused.2 found he)⟩

theorem least_le {m : Parser β} (hm : Proceeds sites j starved m ts) (h : least ≤ j) :
    Proceeds sites least starved m ts := by
  intro sub
  have ended := hm sub
  match m ts, ended with
  | .ok _, ⟨k, hk, moved⟩ => exact ⟨k, Nat.le_trans h hk, moved⟩
  | .error _, refused => exact refused

theorem bind {m : Parser α} {f : α → Parser β} (hm : Proceeds sites j starved m ts)
    (hf : ∀ a ts', ts'.list.length + j ≤ ts.list.length →
      Proceeds sites (least - j) starved (f a) ts') : Proceeds sites least starved (m >>= f) ts := by
  intro sub
  have ended := hm sub
  change Outcome sites least starved ts (m ts >>= fun r => f r.1 r.2)
  match m ts, ended with
  | .error _, refused => exact refused
  | .ok (a, _), ⟨i, hi, bound, rfl⟩ =>
    have rest := hf a (ts.skip i) (by rw [Tokens.length_skip]; omega)
    exact (rest (List.Subset.trans (Tokens.locations_skip_subset i ts) sub)).behind hi bound

/-- A result that is only put into a form. -/
theorem map {m : Parser α} {f : α → β} (hm : Proceeds sites least starved m ts) :
    Proceeds sites least starved (m >>= fun a => Pure.pure (f a)) ts :=
  bind hm fun _ _ _ => (Nat.sub_self least).symm ▸ pure

theorem ite {c : Prop} [Decidable c] {m n : Parser β} (hm : c → Proceeds sites least starved m ts)
    (hn : ¬ c → Proceeds sites least starved n ts) :
    Proceeds sites least starved (if c then m else n) ts := by
  split
  · exact hm ‹_›
  · exact hn ‹_›

theorem current {f : Option Token.Kind → Parser β}
    (h : Proceeds sites least starved (f ts.current?) ts) :
    Proceeds sites least starved (current? >>= f) ts :=
  h

theorem next {f : Option Token.Kind → Parser β}
    (h : Proceeds sites least starved (f ts.advance.current?) ts) :
    Proceeds sites least starved (next? >>= f) ts :=
  h

theorem here {f : Location → Parser β} (h : ∀ l ∈ sites, Proceeds sites least starved (f l) ts) :
    Proceeds sites least starved (here >>= f) ts :=
  fun sub => h ts.location (sub ts.location_mem) sub

theorem taken (pos : 0 < ts.list.length) : Proceeds sites 1 starved Parser.advance ts :=
  fun _ => ⟨1, Nat.le_refl _, pos, ts.advance_eq_skip⟩

theorem advance {f : Unit → Parser β} (pos : 0 < ts.list.length)
    (h : ∀ ts', ts'.list.length + 1 = ts.list.length →
      Proceeds sites (least - 1) starved (f ()) ts') :
    Proceeds sites least starved (advance >>= f) ts := by
  intro sub
  have rest := h (ts.skip 1) (by rw [Tokens.length_skip]; omega)
  change Outcome sites least starved ts (f () ts.advance)
  rw [ts.advance_eq_skip]
  exact (rest (List.Subset.trans (Tokens.locations_skip_subset 1 ts) sub)).behind (Nat.le_refl _) pos

theorem expect {kind : Token.Kind} {c : Construct} :
    Proceeds sites 1 starved (Parser.expect kind c) ts := by
  refine .current (.ite (fun there => .taken ?_) fun _ => .refuse (by rintro _ _ ⟨⟩))
  exact Tokens.length_pos_of_current? there

theorem expectName {role : NameRole} : Proceeds sites 1 starved (Parser.expectName role) ts := by
  refine .current ?_
  split
  · rename_i there
    exact .advance (Tokens.length_pos_of_current? there) fun _ _ => .pure
  · exact .refuse (by rintro _ _ ⟨⟩)

/-- A token is looked for in front. -/
theorem ifFront {kind : Token.Kind} {m n : Parser β}
    (yes : 0 < ts.list.length → Proceeds sites least starved m ts) (no : Proceeds sites least starved n ts) :
    Proceeds sites least starved
      (current? >>= fun k => if decide (k = some kind) = true then m else n) ts := by
  refine .current (.ite (fun there => yes ?_) fun _ => no)
  exact Tokens.length_pos_of_current? (of_decide_eq_true there)

theorem ifSymbol {s : Token.Symbol} {m n : Parser β}
    (yes : 0 < ts.list.length → Proceeds sites least starved m ts) (no : Proceeds sites least starved n ts) :
    Proceeds sites least starved (atSymbol s >>= fun b => if b = true then m else n) ts :=
  ifFront yes no

theorem ifKeyword {s : Token.Keyword} {m n : Parser β}
    (yes : 0 < ts.list.length → Proceeds sites least starved m ts) (no : Proceeds sites least starved n ts) :
    Proceeds sites least starved (atKeyword s >>= fun b => if b = true then m else n) ts :=
  ifFront yes no

/-- An operator of a level is looked for in front. -/
theorem operator {ℓ : Level} {f : Option BinaryOp → Parser β}
    (none : Proceeds sites least starved (f none) ts)
    (some : ∀ op, 0 < ts.list.length → Proceeds sites least starved (f (some op)) ts) :
    Proceeds sites least starved (operator? ℓ >>= f) ts := by
  rw [operator?, bind_assoc]
  refine .current ?_
  split
  · rename_i s there
    change Proceeds sites least starved (f (ℓ.operator? s)) ts
    cases ℓ.operator? s with
    | none => exact none
    | some op => exact some op (Tokens.length_pos_of_current? there)
  · exact none

theorem constant {v : Int} {l : Location} (site : l ∈ sites) :
    Proceeds sites 0 starved (constant v l) ts :=
  .ite (fun _ => .pure) fun _ => .throw site (by rintro _ ⟨⟩)

end Proceeds

/-! ## Expressions -/

/-- The steps from an operator of a level to a term. -/
def Level.descent : Level → Nat
  | disjunction => 12
  | conjunction => 10
  | comparison => 8
  | sum => 6
  | product => 4

theorem Level.descent_ge (ℓ : Level) : 4 ≤ ℓ.descent := by
  cases ℓ <;> decide

theorem Level.descent_le (ℓ : Level) : ℓ.descent ≤ 12 := by
  cases ℓ <;> decide

theorem Level.descent_of_tighter? {ℓ ℓ' : Level} (h : ℓ.tighter? = some ℓ') : ℓ'.descent + 2 = ℓ.descent := by
  cases ℓ <;> cases h <;> rfl

/-- How the descent into expressions ends, and with how many steps it is not starved. -/
structure ExprProceeds (sites : List Location) (fuel : Nat) : Prop where
  operation : ∀ ℓ ts, Proceeds sites 1 (fuel < 16 * ts.list.length + ℓ.descent) (operation fuel ℓ) ts
  operand : ∀ ℓ ts, Proceeds sites 1 (fuel + 1 < 16 * ts.list.length + ℓ.descent) (operand fuel ℓ) ts
  operationTail : ∀ ℓ l ts,
    Proceeds sites 0 (fuel < 16 * ts.list.length + 1) (operationTail fuel ℓ l) ts
  term : ∀ ts, Proceeds sites 1 (fuel < 16 * ts.list.length + 2) (term fuel) ts
  atom : ∀ ts, Proceeds sites 1 (fuel < 16 * ts.list.length + 1) (atom fuel) ts
  call : ∀ x ts, 1 < ts.list.length → Proceeds sites 1 (fuel < 16 * ts.list.length) (call fuel x) ts
  items : ∀ s ts, Proceeds sites 0 (fuel < 16 * ts.list.length + 14) (items fuel s) ts
  itemList : ∀ ts, Proceeds sites 1 (fuel < 16 * ts.list.length + 13) (itemList fuel) ts
  indices : ∀ ts, Proceeds sites 0 (fuel < 16 * ts.list.length + 1) (indices fuel) ts

section Descent

variable {sites : List Location} {fuel : Nat} (ih : ExprProceeds sites fuel) (ts : Tokens)
include ih

theorem operationTail_proceeds (ℓ : Level) (l : Expr) :
    Proceeds sites 0 (fuel + 1 < 16 * ts.list.length + 1) (operationTail (fuel + 1) ℓ l) ts := by
  rw [operationTail]
  have := ℓ.descent_le
  refine .operator .pure fun op pos => .advance pos fun ts₁ h₁ => ?_
  refine .bind ((ih.operand ℓ ts₁).imp (by omega)) fun r ts₂ h₂ => .ite (fun _ => ?_) fun _ => .pure
  exact (ih.operationTail ℓ _ ts₂).imp (by omega)

theorem atom_proceeds :
    Proceeds sites 1 (fuel + 1 < 16 * ts.list.length + 1) (atom (fuel + 1)) ts := by
  rw [atom]
  refine .here fun l here => .current ?_
  split
  case h_1 => exact .refuse (by rintro _ _ ⟨⟩)
  all_goals
    rename_i there
    have pos := Tokens.length_pos_of_current? there
  case h_2 n => exact .advance pos fun _ _ => .constant here
  case h_3 => exact .advance pos fun _ _ => .pure
  case h_4 => exact .advance pos fun _ _ => .pure
  case h_5 x =>
    refine .next (.ite (fun open_ => ?_) fun _ => .advance pos fun _ _ => .pure)
    exact .map ((ih.call x ts (Tokens.length_of_next? open_)).imp (by omega))
  case h_6 =>
    -- keywords
    split
    · exact .advance pos fun _ _ => .pure
    · exact .advance pos fun _ _ => .pure
    · exact .refuse (by rintro _ _ ⟨⟩)
  case h_7 =>
    -- symbols
    split
    · refine .advance pos fun ts₁ h₁ => .current ?_
      split
      · rename_i n there
        exact .advance (Tokens.length_pos_of_current? there) fun _ _ => .constant here
      · exact .refuse (by rintro _ _ ⟨⟩)
    · exact .advance pos fun ts₁ h₁ => .map ((ih.term ts₁).least_le (by omega) |>.imp (by omega))
    · refine .advance pos fun ts₁ h₁ => .bind ((ih.operation _ ts₁).imp ?_) fun e ts₂ h₂ => ?_
      · rw [Level.descent]
        omega
      · exact .bind .expect fun _ _ _ => .pure
    · refine .advance pos fun ts₁ h₁ => .bind ((ih.items _ ts₁).imp (by omega)) fun es ts₂ h₂ => ?_
      exact .bind .expect fun _ _ _ => .pure
    · refine .advance pos fun ts₁ h₁ => .bind ((ih.items _ ts₁).imp (by omega)) fun es ts₂ h₂ => ?_
      exact .bind .expect fun _ _ _ => .pure
    · exact .refuse (by rintro _ _ ⟨⟩)

end Descent

theorem exprProceeds (sites : List Location) (fuel : Nat) : ExprProceeds sites fuel := by
  induction fuel with
  | zero =>
    have positive := Level.descent_ge
    constructor <;> intros <;> simp only [operation, operand, operationTail, term, atom, call,
      items, itemList, indices] <;> apply Proceeds.exhausted
    case operation ℓ ts => have := positive ℓ; omega
    case operand ℓ ts => have := positive ℓ; omega
    all_goals omega
  | succ fuel ih =>
    constructor
    case operation =>
      intro ℓ ts
      rw [operation]
      refine .bind ((ih.operand ℓ ts).imp (by omega)) fun l ts₁ h₁ => ?_
      have := ℓ.descent_ge
      exact (ih.operationTail ℓ l ts₁).imp (by omega)
    case operand =>
      intro ℓ ts
      rw [operand]
      cases tighter : ℓ.tighter? with
      | some ℓ' =>
        have := Level.descent_of_tighter? tighter
        exact (ih.operation ℓ' ts).imp (by omega)
      | none =>
        have := ℓ.descent_ge
        exact (ih.term ts).imp (by omega)
    case operationTail => exact fun ℓ l ts => operationTail_proceeds ih ts ℓ l
    case term =>
      intro ts
      rw [term]
      refine .here fun l _ => .bind ((ih.atom ts).imp (by omega)) fun e ts₁ h₁ => ?_
      exact .map ((ih.indices ts₁).imp (by omega))
    case atom => exact atom_proceeds ih
    case call =>
      intro x ts two
      rw [call]
      refine .here fun l _ => .advance (by omega) fun ts₁ h₁ => .advance (by omega) fun ts₂ h₂ => ?_
      refine .bind ((ih.items _ ts₂).imp (by omega)) fun es ts₃ h₃ => ?_
      exact .bind .expect fun _ _ _ => .pure
    case items =>
      intro s ts
      rw [items]
      exact .ifSymbol (fun _ => .pure) ((ih.itemList ts).imp (by omega) |>.least_le (by omega))
    case itemList =>
      intro ts
      rw [itemList]
      refine .bind ((ih.operation _ ts).imp (by rw [Level.descent]; omega)) fun e ts₁ h₁ => ?_
      refine .ifSymbol (fun pos => .advance pos fun ts₂ h₂ => ?_) .pure
      exact .map (((ih.itemList ts₂).imp (by omega)).least_le (by omega))
    case indices =>
      intro ts
      rw [indices]
      refine .ifSymbol (fun pos => .advance pos fun ts₁ h₁ => ?_) .pure
      refine .bind ((ih.operation _ ts₁).imp (by rw [Level.descent]; omega)) fun e ts₂ h₂ => ?_
      refine .bind .expect fun _ ts₃ h₃ => .map ((ih.indices ts₃).imp (by omega))

/-! ## Statements -/

theorem expression_proceeds (sites : List Location) (fuel : Nat) (ts : Tokens) :
    Proceeds sites 1 (fuel < 16 * ts.list.length + 12) (expression fuel) ts :=
  (exprProceeds sites fuel).operation .disjunction ts

theorem nameStatement_proceeds (sites : List Location) (fuel : Nat) (x : String) (ts : Tokens)
    (pos : 0 < ts.list.length) :
    Proceeds sites 1 (fuel < 16 * ts.list.length) (nameStatement fuel x) ts := by
  unfold nameStatement
  refine .here fun l _ => .next ?_
  split
  · rename_i open_
    exact .map ((exprProceeds sites fuel).call x ts (Tokens.length_of_next? open_))
  · rename_i assign
    have two := Tokens.length_of_next? assign
    refine .advance pos fun ts₁ h₁ => .advance (by omega) fun ts₂ h₂ => ?_
    exact .map (((expression_proceeds sites fuel ts₂).imp (by omega)).least_le (by omega))
  · rename_i open_
    have two := Tokens.length_of_next? open_
    refine .advance pos fun ts₁ h₁ => .advance (by omega) fun ts₂ h₂ => ?_
    refine .bind ((expression_proceeds sites fuel ts₂).imp (by omega)) fun e ts₃ h₃ => ?_
    refine .bind .expect fun _ ts₄ h₄ => ?_
    refine .bind (((exprProceeds sites fuel).indices ts₄).imp (by omega)) fun is ts₅ h₅ => ?_
    refine .ifSymbol (fun pos => .advance pos fun ts₆ h₆ => ?_) ?_
    · exact .map (((expression_proceeds sites fuel ts₆).imp (by omega)).least_le (by omega))
    · exact .bind (j := 0) (.refuse (by rintro _ _ ⟨⟩)) fun _ ts₆ h₆ =>
        .map (((expression_proceeds sites fuel ts₆).imp (by omega)).least_le (by omega))
  · exact .advance pos fun _ _ => .refuse (by rintro _ _ ⟨⟩)

theorem throwing_proceeds (sites : List Location) (fuel : Nat) (ts : Tokens)
    (pos : 0 < ts.list.length) :
    Proceeds sites 1 (fuel < 16 * ts.list.length) (throwing fuel) ts := by
  unfold throwing
  refine .advance pos fun ts₁ h₁ => .bind .expect fun _ ts₂ h₂ => ?_
  refine .bind .expectName fun x ts₃ h₃ => ?_
  refine .bind ((expression_proceeds sites fuel ts₃).imp (by omega)) fun e ts₄ h₄ => ?_
  exact .bind .expect fun _ _ _ => .pure

theorem skipSemicolon_proceeds {sites : List Location} {starved : Prop} {ts : Tokens} :
    Proceeds sites 0 starved skipSemicolon ts :=
  .ifSymbol (fun pos => (Proceeds.taken pos).least_le (Nat.zero_le _)) .pure

/-- How the descent into statements ends, and with how many steps it is not starved. Where a
statement can start, one is taken. -/
structure StmtProceeds (sites : List Location) (fuel : Nat) : Prop where
  statement : ∀ ts, Proceeds sites 1 (fuel < 16 * ts.list.length + 1) (statement fuel) ts
  block : ∀ ts, Proceeds sites 1 (fuel < 16 * ts.list.length + 3) (block fuel) ts
  statements : ∀ ts, Proceeds sites (startsStatement ts.current?).toNat
    (fuel < 16 * ts.list.length + 2) (statements fuel) ts
  branches : ∀ construct ts,
    Proceeds sites 1 (fuel < 16 * ts.list.length + 13) (branches fuel construct) ts
  catches : ∀ ts, Proceeds sites 0 (fuel < 16 * ts.list.length + 1) (catches fuel) ts
  cleanup : ∀ ts, Proceeds sites 0 (fuel < 16 * ts.list.length + 1) (cleanup fuel) ts

theorem statement_proceeds {sites : List Location} {fuel : Nat} (ih : StmtProceeds sites fuel)
    (ts : Tokens) :
    Proceeds sites 1 (fuel + 1 < 16 * ts.list.length + 1) (statement (fuel + 1)) ts := by
  rw [statement]
  refine .current ?_
  split
  case h_10 => exact .refuse (by rintro _ _ ⟨⟩)
  all_goals
    rename_i there
    have pos := Tokens.length_pos_of_current? there
  case h_1 x => exact (nameStatement_proceeds sites fuel x ts pos).imp (by omega)
  case h_2 => exact .advance pos fun _ _ => .pure
  case h_3 =>
    refine .advance pos fun ts₁ h₁ => .bind ((ih.branches _ ts₁).imp (by omega)) fun s ts₂ h₂ => ?_
    exact .bind .expect fun _ _ _ => .pure
  case h_4 =>
    refine .advance pos fun ts₁ h₁ => ?_
    refine .bind ((expression_proceeds sites fuel ts₁).imp (by omega)) fun c ts₂ h₂ => ?_
    refine .bind .expect fun _ ts₃ h₃ => .bind ((ih.block ts₃).imp (by omega)) fun s ts₄ h₄ => ?_
    exact .bind .expect fun _ _ _ => .pure
  case h_5 =>
    refine .advance pos fun ts₁ h₁ => .bind ((ih.statement ts₁).imp (by omega)) fun s ts₂ h₂ => ?_
    refine .bind .expect fun _ ts₃ h₃ => ?_
    refine .bind ((expression_proceeds sites fuel ts₃).imp (by omega)) fun c ts₄ h₄ => ?_
    refine .bind .expect fun _ ts₅ h₅ => .bind ((ih.statement ts₅).imp (by omega)) fun t ts₆ h₆ => ?_
    refine .bind .expect fun _ ts₇ h₇ => .bind ((ih.block ts₇).imp (by omega)) fun b ts₈ h₈ => ?_
    exact .bind .expect fun _ _ _ => .pure
  case h_6 =>
    refine .advance pos fun ts₁ h₁ => .bind ((ih.block ts₁).imp (by omega)) fun s ts₂ h₂ => ?_
    refine .bind .expect fun _ ts₃ h₃ => ?_
    exact .map (((expression_proceeds sites fuel ts₃).imp (by omega)).least_le (by omega))
  case h_7 =>
    refine .advance pos fun ts₁ h₁ => ?_
    exact .map (((expression_proceeds sites fuel ts₁).imp (by omega)).least_le (by omega))
  case h_8 =>
    refine .advance pos fun ts₁ h₁ => .bind ((ih.block ts₁).imp (by omega)) fun s ts₂ h₂ => ?_
    refine .bind ((ih.catches ts₂).imp (by omega)) fun cs ts₃ h₃ => ?_
    refine .bind ((ih.cleanup ts₃).imp (by omega)) fun l ts₄ h₄ => ?_
    exact .bind .expect fun _ _ _ => .pure
  case h_9 => exact (throwing_proceeds sites fuel ts pos).imp (by omega)

theorem stmtProceeds (sites : List Location) (fuel : Nat) : StmtProceeds sites fuel := by
  induction fuel with
  | zero =>
    constructor <;> intros <;> simp only [statement, block, statements, branches, catches,
      cleanup] <;> exact .exhausted (by omega)
  | succ fuel ih =>
    constructor
    case statement => exact statement_proceeds ih
    case block =>
      intro ts
      rw [block]
      refine .current (.ite (fun starts => ?_) fun _ => .refuse (by rintro _ _ ⟨⟩))
      have whole := ih.statements ts
      rw [starts] at whole
      exact .map (whole.imp (by omega))
    case statements =>
      intro ts
      rw [statements]
      refine .current (.ite (fun starts => ?_) fun no => ?_)
      · rw [starts]
        refine .bind ((ih.statement ts).imp (by omega)) fun s ts₁ h₁ => ?_
        refine .bind skipSemicolon_proceeds fun _ ts₂ h₂ => ?_
        exact .map (((ih.statements ts₂).imp (by omega)).least_le (Nat.zero_le _))
      · rw [Bool.eq_false_iff.mpr no]
        exact .pure
    case branches =>
      intro construct ts
      rw [branches]
      refine .bind ((expression_proceeds sites fuel ts).imp (by omega)) fun c ts₁ h₁ => ?_
      refine .bind .expect fun _ ts₂ h₂ => .bind ((ih.block ts₂).imp (by omega)) fun s ts₃ h₃ => ?_
      refine .ifKeyword (fun pos => .advance pos fun ts₄ h₄ => ?_)
        (.ifKeyword (fun pos => .advance pos fun ts₄ h₄ => ?_) .pure)
      · exact .map (((ih.branches _ ts₄).imp (by omega)).least_le (by omega))
      · exact .map (((ih.block ts₄).imp (by omega)).least_le (by omega))
    case catches =>
      intro ts
      rw [catches]
      refine .ifKeyword (fun pos => .advance pos fun ts₁ h₁ => ?_) .pure
      refine .bind .expect fun _ ts₂ h₂ => .bind .expectName fun e ts₃ h₃ => ?_
      refine .bind .expectName fun x ts₄ h₄ => .bind .expect fun _ ts₅ h₅ => ?_
      refine .bind ((ih.block ts₅).imp (by omega)) fun s ts₆ h₆ => ?_
      exact .map ((ih.catches ts₆).imp (by omega))
    case cleanup =>
      intro ts
      rw [cleanup]
      refine .ifKeyword (fun pos => .advance pos fun ts₁ h₁ => ?_) .pure
      exact .map (((ih.block ts₁).imp (by omega)).least_le (by omega))

/-! ## Programs -/

theorem parameterList_proceeds (sites : List Location) (fuel : Nat) (ts : Tokens) :
    Proceeds sites 1 (fuel < 16 * ts.list.length + 1) (parameterList fuel) ts := by
  induction fuel generalizing ts with
  | zero => exact .exhausted (by omega)
  | succ fuel ih =>
    rw [parameterList]
    refine .bind .expectName fun x ts₁ h₁ => ?_
    refine .ifSymbol (fun pos => .advance pos fun ts₂ h₂ => ?_) .pure
    exact .map (((ih ts₂).imp (by omega)).least_le (by omega))

theorem function_proceeds (sites : List Location) (fuel : Nat) (ts : Tokens)
    (pos : 0 < ts.list.length) :
    Proceeds sites 1 (fuel < 16 * ts.list.length) (function fuel) ts := by
  unfold function
  have rest (x : String) (ps : List String) (l : Location) (ts₁ : Tokens)
      (h₁ : ts₁.list.length + 1 ≤ ts.list.length) :
      Proceeds sites 0 (fuel < 16 * ts.list.length) (do
        expectSymbol .closeParen .function
        expectKeyword .begin_ .function
        let body ← block fuel
        expectKeyword .end_ .function
        return (⟨x, ps, body, l⟩ : Function)) ts₁ := by
    refine .bind .expect fun _ ts₂ h₂ => .bind .expect fun _ ts₃ h₃ => ?_
    refine .bind (((stmtProceeds sites fuel).block ts₃).imp (by omega)) fun s ts₄ h₄ => ?_
    exact .bind .expect fun _ _ _ => .pure
  refine .here fun l _ => .advance pos fun ts₁ h₁ => .bind .expectName fun x ts₂ h₂ => ?_
  refine .bind .expect fun _ ts₃ h₃ => .ifSymbol (fun _ => ?_) ?_
  · rw [pure_bind]
    exact rest x [] l ts₃ (by omega)
  · refine .bind ((parameterList_proceeds sites fuel ts₃).imp (by omega)) fun ps ts₄ h₄ => ?_
    exact rest x ps l ts₄ (by omega)

theorem declarations_proceeds (sites : List Location) (fuel : Nat) (ts : Tokens) :
    Proceeds sites 0 (fuel < 16 * ts.list.length + 2) (declarations fuel) ts := by
  induction fuel generalizing ts with
  | zero => exact .exhausted (by omega)
  | succ fuel ih =>
    rw [declarations]
    refine .current ?_
    split
    · exact .pure
    · rename_i there
      have pos := Tokens.length_pos_of_current? there
      refine .bind ((function_proceeds sites fuel ts pos).imp (by omega)) fun f ts₁ h₁ => ?_
      exact .map ((ih ts₁).imp (by omega))
    · refine .ite (fun _ => ?_) fun _ => .refuse (by rintro _ _ ⟨⟩)
      refine .bind (((stmtProceeds sites fuel).statement ts).imp (by omega)) fun s ts₁ h₁ => ?_
      refine .bind skipSemicolon_proceeds fun _ ts₂ h₂ => ?_
      exact .map ((ih ts₂).imp (by omega))

/-- A program is read up to the end of the tokens. -/
theorem declarations_end {fuel : Nat} {ts ts' : Tokens} {r : List Function × List Stmt}
    (h : declarations fuel ts = .ok (r, ts')) : ts' = ts.skip ts.list.length := by
  have ended := declarations_proceeds ts.locations fuel ts (List.Subset.refl _)
  rw [h] at ended
  obtain ⟨k, -, bound, rfl⟩ := ended
  obtain ⟨w, -, -, rest⟩ := declarations_reads fuel ts.kinds ts r _ rfl h
  have none : (ts.skip k).list.length = 0 := by
    rw [← List.length_map (Token.kind)]
    exact congrArg List.length rest
  rw [Tokens.length_skip] at none
  rw [show k = ts.list.length by omega]

/-- Whatever number of steps is left, each step of the descent stays within the tokens, and it is out
of steps only if it starts with fewer than the bound. -/
structure Progress (ts : Tokens) : Prop where
  program : ∀ entry e, ofTokens ts entry = .error e →
    e.location ∈ ts.locations ∧ ∀ found, e.value ≠ .exhausted found
  program_end : ∀ n r ts', Parser.declarations n ts = .ok (r, ts') →
    ts' = ts.skip ts.list.length
  expression : Outcome ts.locations 1 False ts (Expr.ofTokens ts)
  declarations : ∀ n, Outcome ts.locations 0 (n < budget ts) ts (declarations n ts)
  function : 0 < ts.list.length → ∀ n, Outcome ts.locations 1 (n < budget ts) ts (function n ts)
  parameterList : ∀ n, Outcome ts.locations 1 (n < budget ts) ts (parameterList n ts)
  statement : ∀ n, Outcome ts.locations 1 (n < budget ts) ts (statement n ts)
  block : ∀ n, Outcome ts.locations 1 (n < budget ts) ts (block n ts)
  statements : ∀ n, Outcome ts.locations (startsStatement ts.current?).toNat (n < budget ts) ts
    (statements n ts)
  branches : ∀ n c, Outcome ts.locations 1 (n < budget ts) ts (branches n c ts)
  catches : ∀ n, Outcome ts.locations 0 (n < budget ts) ts (catches n ts)
  cleanup : ∀ n, Outcome ts.locations 0 (n < budget ts) ts (cleanup n ts)
  operation : ∀ n ℓ, Outcome ts.locations 1 (n < budget ts) ts (operation n ℓ ts)
  operationTail : ∀ n ℓ l, Outcome ts.locations 0 (n < budget ts) ts (operationTail n ℓ l ts)
  term : ∀ n, Outcome ts.locations 1 (n < budget ts) ts (term n ts)
  call : 1 < ts.list.length → ∀ n x, Outcome ts.locations 1 (n < budget ts) ts (call n x ts)
  items : ∀ n s, Outcome ts.locations 0 (n < budget ts) ts (items n s ts)
  indices : ∀ n, Outcome ts.locations 0 (n < budget ts) ts (indices n ts)

/-- The parser comes to an end within the tokens, whatever they are. -/
theorem descent_progress (ts : Tokens) : Progress ts := by
  have all := List.Subset.refl ts.locations
  have exprs (n : Nat) := exprProceeds ts.locations n
  have stmts (n : Nat) := stmtProceeds ts.locations n
  have enough {c n : Nat} (h : c ≤ 32) : n < 16 * ts.list.length + c → n < budget ts := by
    intro less
    rw [budget]
    omega
  have few (ℓ : Level) : ℓ.descent ≤ 32 := Nat.le_trans ℓ.descent_le (by decide)
  have declared (n : Nat) := (declarations_proceeds ts.locations n ts).imp (enough (by decide)) all
  constructor
  case program =>
    intro entry e refused
    have ended := declared (budget ts)
    rw [ofTokens, StateT.run] at refused
    cases read : declarations (budget ts) ts with
    | ok r =>
      rw [read] at refused
      cases refused
    | error e' =>
      rw [read] at ended refused
      cases refused
      exact ⟨ended.1, fun found he => Nat.lt_irrefl _ (ended.2 found he)⟩
  case program_end => exact fun n r ts' => declarations_end
  case expression =>
    refine ((exprs (budget ts)).operation .disjunction ts).imp (fun less => ?_) all
    exact Nat.lt_irrefl _ (enough (few _) less)
  case declarations => exact declared
  case function => exact fun pos n => (function_proceeds _ n ts pos).imp (enough (Nat.zero_le _)) all
  case parameterList => exact fun n => (parameterList_proceeds _ n ts).imp (enough (by decide)) all
  case statement => exact fun n => ((stmts n).statement ts).imp (enough (by decide)) all
  case block => exact fun n => ((stmts n).block ts).imp (enough (by decide)) all
  case statements => exact fun n => ((stmts n).statements ts).imp (enough (by decide)) all
  case branches => exact fun n c => ((stmts n).branches c ts).imp (enough (by decide)) all
  case catches => exact fun n => ((stmts n).catches ts).imp (enough (by decide)) all
  case cleanup => exact fun n => ((stmts n).cleanup ts).imp (enough (by decide)) all
  case operation => exact fun n ℓ => ((exprs n).operation ℓ ts).imp (enough (few ℓ)) all
  case operationTail =>
    exact fun n ℓ l => ((exprs n).operationTail ℓ l ts).imp (enough (by decide)) all
  case term => exact fun n => ((exprs n).term ts).imp (enough (by decide)) all
  case call =>
    exact fun two n x => ((exprs n).call x ts two).imp (enough (Nat.zero_le _)) all
  case items => exact fun n s => ((exprs n).items s ts).imp (enough (by decide)) all
  case indices => exact fun n => ((exprs n).indices ts).imp (enough (by decide)) all

end Program.Parser

end Threefold
