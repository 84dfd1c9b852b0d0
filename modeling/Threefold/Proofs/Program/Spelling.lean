import Threefold.Proofs.Program.Derivation
import Threefold.Proofs.Token.Lexing

/-!
# Names and strings of programs

The names in a program that was read from a text are words that are no keywords, and its strings have
neither quotes nor line ends in them (`spelled_of_load`), since they come from tokens of the text. So
are the names of its functions, but for the entry (`isName_of_load`). Binding changes nothing in a
program but the callees of its calls, and keeps their names (`exists_of_mem_bind`).
-/

namespace Threefold

open Token (Kind IsName)

/-! ## Spelled trees -/

mutual

/-- The names and strings in an expression can stand in a text. -/
def Expr.Spelled : Expr → Prop
  | .const _ => True
  | .string s => (Kind.string s).WellSpelled
  | .array _ items => Expr.AllSpelled items
  | .var x => IsName x
  | .unary _ e => e.Spelled
  | .binary _ l r => l.Spelled ∧ r.Spelled
  | .call callee arguments _ => IsName callee.name ∧ Expr.AllSpelled arguments

/-- The names and strings in expressions can stand in a text. -/
def Expr.AllSpelled : List Expr → Prop
  | [] => True
  | e :: rest => e.Spelled ∧ Expr.AllSpelled rest

end

mutual

/-- The names and strings in a statement can stand in a text. -/
def Stmt.Spelled : Stmt → Prop
  | .skip => True
  | .assign x e | .throwing x e => IsName x ∧ e.Spelled
  | .branch c yes no => c.Spelled ∧ yes.Spelled ∧ no.Spelled
  | .loop c body => c.Spelled ∧ body.Spelled
  | .chain s t => s.Spelled ∧ t.Spelled
  | .leave e => e.Spelled
  | .perform c => c.expr.Spelled
  | .attempt body catches cleanup =>
    body.Spelled ∧ Catch.AllSpelled catches ∧ Stmt.CleanupSpelled cleanup

/-- The names and strings in catch branches can stand in a text. -/
def Catch.AllSpelled : List Catch → Prop
  | [] => True
  | .on e x s :: rest => IsName e ∧ IsName x ∧ s.Spelled ∧ Catch.AllSpelled rest

/-- The names and strings in what runs in any case can stand in a text. -/
def Stmt.CleanupSpelled : Option Stmt → Prop
  | none => True
  | some s => s.Spelled

end

/-! ## Other callees of the same names -/

section Recast

variable {callee : Callee → Nat → Callee} {place : Location → Location}

mutual

theorem Expr.spelled_recast (h : ∀ c n, (callee c n).name = c.name) :
    ∀ e : Expr, (e.recast callee place).Spelled ↔ e.Spelled
  | .const _ | .string _ | .var _ => .rfl
  | .array _ items => Expr.allSpelled_recast h items
  | .unary _ e => Expr.spelled_recast h e
  | .binary _ l r => and_congr (Expr.spelled_recast h l) (Expr.spelled_recast h r)
  | .call c arguments _ => by
    simp only [Expr.recast, Expr.Spelled, h]
    exact and_congr_right fun _ => Expr.allSpelled_recast h arguments

theorem Expr.allSpelled_recast (h : ∀ c n, (callee c n).name = c.name) :
    ∀ es : List Expr, Expr.AllSpelled (Expr.recastAll callee place es) ↔ Expr.AllSpelled es
  | [] => .rfl
  | e :: rest => and_congr (Expr.spelled_recast h e) (Expr.allSpelled_recast h rest)

end

mutual

theorem Stmt.spelled_recast (h : ∀ c n, (callee c n).name = c.name) :
    ∀ s : Stmt, (s.recast callee place).Spelled ↔ s.Spelled
  | .skip => .rfl
  | .assign _ e | .throwing _ e => and_congr_right fun _ => e.spelled_recast h
  | .branch c yes no =>
    and_congr (c.spelled_recast h) (and_congr (Stmt.spelled_recast h yes) (Stmt.spelled_recast h no))
  | .loop c body => and_congr (c.spelled_recast h) (Stmt.spelled_recast h body)
  | .chain s t => and_congr (Stmt.spelled_recast h s) (Stmt.spelled_recast h t)
  | .leave e => e.spelled_recast h
  | .perform c => c.expr.spelled_recast h
  | .attempt body catches cleanup =>
    and_congr (Stmt.spelled_recast h body)
      (and_congr (Catch.allSpelled_recast h catches) (Stmt.cleanupSpelled_recast h cleanup))

theorem Catch.allSpelled_recast (h : ∀ c n, (callee c n).name = c.name) :
    ∀ cs : List Catch, Catch.AllSpelled (Catch.recastAll callee place cs) ↔ Catch.AllSpelled cs
  | [] => .rfl
  | .on _ _ s :: rest =>
    and_congr_right fun _ => and_congr_right fun _ =>
      and_congr (Stmt.spelled_recast h s) (Catch.allSpelled_recast h rest)

theorem Stmt.cleanupSpelled_recast (h : ∀ c n, (callee c n).name = c.name) :
    ∀ s : Option Stmt, Stmt.CleanupSpelled (Stmt.recastCleanup callee place s) ↔
      Stmt.CleanupSpelled s
  | none => .rfl
  | some s => Stmt.spelled_recast h s

end

end Recast

namespace Program

/-! ## What is derived is spelled -/

namespace Grammar

theorem isName_arrget : IsName "arrget" :=
  ⟨'a', "rrget".toList, rfl, rfl, List.all_eq_true.mp rfl, rfl⟩

theorem isName_arrset : IsName "arrset" :=
  ⟨'a', "rrset".toList, rfl, rfl, List.all_eq_true.mp rfl, rfl⟩

theorem spelled_applyIndices {a : Expr} {is : List Expr} {l : Location} (ha : a.Spelled)
    (his : Expr.AllSpelled is) : (Parser.applyIndices a is l).Spelled := by
  induction is generalizing a with
  | nil => exact ha
  | cons i rest ih =>
    have element : (Call.named "arrget" [a, i] l).expr.Spelled :=
      ⟨isName_arrget, ha, his.1, trivial⟩
    exact ih element his.2

theorem allSpelled_append {es fs : List Expr} :
    Expr.AllSpelled (es ++ fs) ↔ Expr.AllSpelled es ∧ Expr.AllSpelled fs := by
  induction es with
  | nil => exact ⟨fun h => ⟨trivial, h⟩, And.right⟩
  | cons e rest ih =>
    rw [List.cons_append, Expr.AllSpelled, Expr.AllSpelled, ih, and_assoc]

/-- The tokens are spelled as tokens can be. -/
abbrev AllWell (w : List Kind) : Prop :=
  ∀ k ∈ w, k.WellSpelled

mutual

theorem Operation.spelled : ∀ {ℓ : Parser.Level} {w : List Kind} {e : Expr},
    Operation ℓ w e → AllWell w → e.Spelled
  | _, _, _, .of hl hc, h => by
    rw [AllWell, List.forall_mem_append] at h
    exact hc.spelled h.2 (hl.spelled h.1)

theorem Chain.spelled : ∀ {ℓ : Parser.Level} {l : Expr} {w : List Kind} {e : Expr},
    Chain ℓ l w e → AllWell w → l.Spelled → e.Spelled
  | _, _, _, _, .nil, _, hl => hl
  | _, _, _, _, .cons _ _ hr hc, h, hl => by
    rw [AllWell, List.forall_mem_cons, List.forall_mem_append] at h
    exact hc.spelled h.2.2 ⟨hl, hr.spelled h.2.1⟩
  | _, _, _, _, .compared _ hr, h, hl => by
    rw [AllWell, List.forall_mem_cons] at h
    exact ⟨hl, hr.spelled h.2⟩

theorem Operand.spelled : ∀ {ℓ : Parser.Level} {w : List Kind} {e : Expr},
    Operand ℓ w e → AllWell w → e.Spelled
  | _, _, _, .conjunction he, h | _, _, _, .comparison he, h | _, _, _, .sum he, h
  | _, _, _, .product he, h => he.spelled h
  | _, _, _, .term he, h => he.spelled h

theorem Term.spelled : ∀ {w : List Kind} {e : Expr}, Term w e → AllWell w → e.Spelled
  | _, _, .not he, h => by
    rw [AllWell, List.forall_mem_cons] at h
    exact he.spelled h.2
  | _, _, .indexed ha his, h => by
    rw [AllWell, List.forall_mem_append] at h
    exact spelled_applyIndices (ha.spelled h.1) (his.spelled h.2)

theorem Atom.spelled : ∀ {w : List Kind} {e : Expr}, Atom w e → AllWell w → e.Spelled
  | _, _, .integer _, _ | _, _, .negative _, _ | _, _, .character, _ | _, _, .yes, _
  | _, _, .no, _ => trivial
  | _, _, .string, h | _, _, .var, h => h _ List.mem_cons_self
  | _, _, .call hes, h => by
    rw [AllWell, List.forall_mem_cons, List.forall_mem_cons, List.forall_mem_append] at h
    exact ⟨h.1, hes.spelled h.2.2.1⟩
  | _, _, .parentheses he, h => by
    rw [AllWell, List.forall_mem_cons, List.forall_mem_append] at h
    exact he.spelled h.2.1
  | _, _, .array hes, h | _, _, .boxed hes, h => by
    rw [AllWell, List.forall_mem_cons, List.forall_mem_append] at h
    exact hes.spelled h.2.1

theorem Items.spelled : ∀ {w : List Kind} {es : List Expr},
    Items w es → AllWell w → Expr.AllSpelled es
  | _, _, .none, _ => trivial
  | _, _, .some hes, h => hes.spelled h

theorem ItemList.spelled : ∀ {w : List Kind} {es : List Expr},
    ItemList w es → AllWell w → Expr.AllSpelled es
  | _, _, .one he, h => ⟨he.spelled h, trivial⟩
  | _, _, .more he hes, h => by
    rw [AllWell, List.forall_mem_append, List.forall_mem_cons] at h
    exact ⟨he.spelled h.1, hes.spelled h.2.2⟩

theorem Indices.spelled : ∀ {w : List Kind} {es : List Expr},
    Indices w es → AllWell w → Expr.AllSpelled es
  | _, _, .none, _ => trivial
  | _, _, .more he hes, h => by
    rw [AllWell, List.forall_mem_cons, List.forall_mem_append, List.forall_mem_cons] at h
    exact ⟨he.spelled h.2.1, hes.spelled h.2.2.2⟩

end

theorem spelled_ofList : ∀ {ss : List Stmt}, (∀ s ∈ ss, s.Spelled) → (Stmt.ofList ss).Spelled
  | [], _ => trivial
  | [_], h => h _ List.mem_cons_self
  | _ :: _ :: _, h =>
    ⟨h _ List.mem_cons_self, spelled_ofList fun t ht => h t (List.mem_cons_of_mem _ ht)⟩

mutual

theorem Statement.spelled : ∀ {w : List Kind} {s : Stmt}, Statement w s → AllWell w → s.Spelled
  | _, _, .skip, _ => trivial
  | _, _, .assign he, h => by
    simp only [AllWell, List.forall_mem_cons] at h
    exact ⟨h.1, he.spelled h.2.2⟩
  | _, _, .element hi he, h => by
    simp only [AllWell, List.forall_mem_cons, List.forall_mem_append] at h
    obtain ⟨his, hi⟩ := allSpelled_append.mp (hi.spelled h.2.1)
    exact ⟨isName_arrset, spelled_applyIndices h.1 his, hi.1, he.spelled h.2.2.2, trivial⟩
  | _, _, .perform hes, h => by
    simp only [AllWell, List.forall_mem_cons, List.forall_mem_append] at h
    exact ⟨h.1, hes.spelled h.2.2.1⟩
  | _, _, .branch hs, h => by
    simp only [AllWell, List.forall_mem_cons, List.forall_mem_append] at h
    exact hs.spelled h.2.1
  | _, _, .loop hc hs, h => by
    simp only [AllWell, List.forall_mem_cons, List.forall_mem_append] at h
    exact ⟨hc.spelled h.2.1, hs.spelled h.2.2.2.1⟩
  | _, _, .counted hstart hc hstep hs, h => by
    simp only [AllWell, List.forall_mem_cons, List.forall_mem_append] at h
    exact ⟨hstart.spelled h.2.1, hc.spelled h.2.2.2.1, hs.spelled h.2.2.2.2.2.2.2.1,
      hstep.spelled h.2.2.2.2.2.1⟩
  | _, _, .repeated hs hc, h => by
    simp only [AllWell, List.forall_mem_cons, List.forall_mem_append] at h
    exact ⟨hs.spelled h.2.1, hc.spelled h.2.2.2, hs.spelled h.2.1⟩
  | _, _, .leave he, h => by
    simp only [AllWell, List.forall_mem_cons] at h
    exact he.spelled h.2
  | _, _, .attempt hs hcs hlast, h => by
    simp only [AllWell, List.forall_mem_cons, List.forall_mem_append] at h
    exact ⟨hs.spelled h.2.1, hcs.spelled h.2.2.1, hlast.spelled h.2.2.2.1⟩
  | _, _, .throwing he, h => by
    simp only [AllWell, List.forall_mem_cons, List.forall_mem_append] at h
    exact ⟨h.2.2.1, he.spelled h.2.2.2.1⟩

theorem Branches.spelled : ∀ {w : List Kind} {s : Stmt}, Branches w s → AllWell w → s.Spelled
  | _, _, .last hc hs, h => by
    simp only [AllWell, List.forall_mem_cons, List.forall_mem_append] at h
    exact ⟨hc.spelled h.1, hs.spelled h.2.2, trivial⟩
  | _, _, .otherwise hc hs ht, h => by
    simp only [AllWell, List.forall_mem_cons, List.forall_mem_append] at h
    exact ⟨hc.spelled h.1, hs.spelled h.2.2.1, ht.spelled h.2.2.2.2⟩
  | _, _, .elif hc hs ht, h => by
    simp only [AllWell, List.forall_mem_cons, List.forall_mem_append] at h
    exact ⟨hc.spelled h.1, hs.spelled h.2.2.1, ht.spelled h.2.2.2.2⟩

theorem Block.spelled : ∀ {w : List Kind} {s : Stmt}, Block w s → AllWell w → s.Spelled
  | _, _, .of hss, h => spelled_ofList (hss.spelled h)

theorem Statements.spelled : ∀ {w : List Kind} {ss : List Stmt},
    Statements w ss → AllWell w → ∀ s ∈ ss, s.Spelled
  | _, _, .none, _ => by nofun
  | _, _, .more hs _ hss, h => by
    simp only [AllWell, List.forall_mem_append] at h
    exact List.forall_mem_cons.mpr ⟨hs.spelled h.1, hss.spelled h.2.2⟩

theorem Catches.spelled : ∀ {w : List Kind} {cs : List Catch},
    Catches w cs → AllWell w → Catch.AllSpelled cs
  | _, _, .none, _ => trivial
  | _, _, .more hs hcs, h => by
    simp only [AllWell, List.forall_mem_cons, List.forall_mem_append] at h
    exact ⟨h.2.2.1, h.2.2.2.1, hs.spelled h.2.2.2.2.2.1, hcs.spelled h.2.2.2.2.2.2⟩

theorem Cleanup.spelled : ∀ {w : List Kind} {s : Option Stmt},
    Cleanup w s → AllWell w → Stmt.CleanupSpelled s
  | _, _, .none, _ => trivial
  | _, _, .some hs, h => by
    simp only [AllWell, List.forall_mem_cons] at h
    exact hs.spelled h.2

end

theorem Declaration.spelled {w : List Kind} {f : Function} (hf : Declaration w f)
    (h : AllWell w) : f.body.Spelled := by
  cases hf with
  | of _ hs =>
    simp only [AllWell, List.forall_mem_cons, List.forall_mem_append] at h
    exact hs.spelled h.2.2.2.2.2.2.1

theorem Declarations.spelled {w : List Kind} {fs : List Function} {ss : List Stmt}
    (hd : Declarations w fs ss) (h : AllWell w) :
    (∀ f ∈ fs, f.body.Spelled) ∧ ∀ s ∈ ss, s.Spelled := by
  induction hd with
  | none => exact ⟨by nofun, by nofun⟩
  | function hf _ ih =>
    simp only [AllWell, List.forall_mem_append] at h
    obtain ⟨hfs, hss⟩ := ih h.2
    exact ⟨List.forall_mem_cons.mpr ⟨hf.spelled h.1, hfs⟩, hss⟩
  | statement hs _ _ ih =>
    simp only [AllWell, List.forall_mem_append] at h
    obtain ⟨hfs, hss⟩ := ih h.2.2
    exact ⟨hfs, List.forall_mem_cons.mpr ⟨hs.spelled h.1, hss⟩⟩

theorem Denotes.spelled {entry : String} {w : List Kind} {p : Program} (hp : Denotes entry w p)
    (h : AllWell w) : ∀ f ∈ p.functions, f.body.Spelled := by
  cases hp with
  | of hd =>
    obtain ⟨hfs, hss⟩ := hd.spelled h
    exact List.forall_mem_append.mpr ⟨hfs, List.forall_mem_singleton.mpr (spelled_ofList hss)⟩

theorem Declarations.isName {w : List Kind} {fs : List Function} {ss : List Stmt}
    (hd : Declarations w fs ss) (h : AllWell w) : ∀ f ∈ fs, IsName f.name := by
  induction hd with
  | none => nofun
  | function hf _ ih =>
    rw [AllWell, List.forall_mem_append] at h
    refine List.forall_mem_cons.mpr ⟨?_, ih h.2⟩
    cases hf with
    | of _ _ => exact h.1 _ (List.mem_cons_of_mem _ List.mem_cons_self)
  | statement _ _ _ ih =>
    simp only [AllWell, List.forall_mem_append] at h
    exact ih h.2.2

theorem Denotes.entry_eq {entry : String} {w : List Kind} {p : Program} (hp : Denotes entry w p) :
    p.entry = ⟨entry, 0⟩ := by
  cases hp with
  | of _ => rfl

/-- The functions of a program have names, but for the entry, which the host names. -/
theorem Denotes.isName {entry : String} {w : List Kind} {p : Program} (hp : Denotes entry w p)
    (h : AllWell w) : ∀ f ∈ p.functions, f.signature = ⟨entry, 0⟩ ∨ IsName f.name := by
  cases hp with
  | of hd =>
    refine List.forall_mem_append.mpr ⟨fun f hf => .inr (hd.isName h f hf), ?_⟩
    exact List.forall_mem_singleton.mpr (.inl rfl)

end Grammar

end Program

/-! ## Callees as they are written -/

/-- An expression whose calls are by name, as they are written. -/
def Expr.unbound (e : Expr) : Expr :=
  e.recast (fun c n => .unbound c.name n) id

/-- Expressions whose calls are by name. -/
def Expr.allUnbound (es : List Expr) : List Expr :=
  Expr.recastAll (fun c n => .unbound c.name n) id es

/-- A call by name, with such calls in its arguments. -/
def Call.unbound (c : Call) : Call :=
  c.recast (fun c n => .unbound c.name n) id

/-- A statement whose calls are by name. -/
def Stmt.unbound (s : Stmt) : Stmt :=
  s.recast (fun c n => .unbound c.name n) id

theorem Stmt.spelled_unplaced (s : Stmt) : s.unplaced.Spelled ↔ s.Spelled :=
  Stmt.spelled_recast (fun _ _ => rfl) s

theorem Stmt.spelled_unbound (s : Stmt) : s.unbound.Spelled ↔ s.Spelled := by
  unfold Stmt.unbound
  exact Stmt.spelled_recast (by intros; rfl) s

/-- Catch branches whose calls are by name. -/
def Catch.allUnbound (cs : List Catch) : List Catch :=
  Catch.recastAll (fun c n => .unbound c.name n) id cs

/-- What runs in any case, with calls by name. -/
def Stmt.cleanupUnbound (s : Option Stmt) : Option Stmt :=
  Stmt.recastCleanup (fun c n => .unbound c.name n) id s

namespace Program

section Bind

variable {declared : List Signature}

/-- A bound callee has the name that was written. -/
theorem name_of_bindCallee {l : Location} {c d : Callee}
    (h : bindCallee declared l c = .ok d) : d.name = c.name := by
  cases c with
  | unbound name arity =>
    simp only [bindCallee] at h
    split at h
    · cases h
      rfl
    · split at h
      · rename_i i hi
        cases h
        exact congrArg Signature.name (Intrinsic.signature_of_ofSignature? hi)
      · cases h
  | declared s =>
    simp only [bindCallee] at h
    split at h
    · cases h
      rfl
    · cases h
  | intrinsic i =>
    cases h
    rfl

theorem length_of_allUnbound {es es' : List Expr} (h : Expr.allUnbound es' = Expr.allUnbound es) :
    es'.length = es.length := by
  have lengths := congrArg List.length h
  rwa [Expr.allUnbound, Expr.allUnbound, Expr.length_recastAll, Expr.length_recastAll] at lengths

mutual

theorem bindExpr_unbound : ∀ {e e' : Expr}, bindExpr declared e = .ok e' → e'.unbound = e.unbound
  | .const _, _, h | .string _, _, h | .var _, _, h => by
    cases h
    rfl
  | .array boxed items, _, h => by
    obtain ⟨items', hi, h⟩ := ok_of_bind (by rwa [bindExpr] at h)
    cases h
    exact congrArg (Expr.array boxed) (bindExprs_unbound hi)
  | .unary op e, _, h => by
    obtain ⟨e', he, h⟩ := ok_of_bind (by rwa [bindExpr] at h)
    cases h
    exact congrArg (Expr.unary op) (bindExpr_unbound he)
  | .binary op l r, _, h => by
    obtain ⟨l', hl, h⟩ := ok_of_bind (by rwa [bindExpr] at h)
    obtain ⟨r', hr, h⟩ := ok_of_bind h
    cases h
    show Expr.binary op l'.unbound r'.unbound = _
    rw [bindExpr_unbound hl, bindExpr_unbound hr]
    rfl
  | .call c arguments l, _, h => by
    obtain ⟨arguments', ha, h⟩ := ok_of_bind (by rwa [bindExpr] at h)
    obtain ⟨c', hc, h⟩ := ok_of_bind h
    cases h
    have same := bindExprs_unbound ha
    show Expr.call (.unbound c'.name arguments'.length) (Expr.allUnbound arguments') l = _
    rw [same, length_of_allUnbound same, name_of_bindCallee hc]
    rfl

theorem bindExprs_unbound : ∀ {es es' : List Expr}, bindExprs declared es = .ok es' →
    Expr.allUnbound es' = Expr.allUnbound es
  | [], _, h => by
    cases h
    rfl
  | e :: rest, _, h => by
    obtain ⟨e', he, h⟩ := ok_of_bind (by rwa [bindExprs] at h)
    obtain ⟨rest', hr, h⟩ := ok_of_bind h
    cases h
    show e'.unbound :: Expr.allUnbound rest' = _
    rw [bindExpr_unbound he, bindExprs_unbound hr]
    rfl

end

theorem bindCall_unbound {c c' : Call} (h : bindCall declared c = .ok c') :
    c'.unbound = c.unbound := by
  obtain ⟨arguments, ha, h⟩ := ok_of_bind (by rwa [bindCall] at h)
  obtain ⟨callee, hc, h⟩ := ok_of_bind h
  cases h
  have same := bindExprs_unbound ha
  show (⟨.unbound callee.name arguments.length, Expr.allUnbound arguments, c.location⟩ : Call) = _
  rw [same, length_of_allUnbound same, name_of_bindCallee hc]
  rfl

mutual

theorem bindStmt_unbound : ∀ {s s' : Stmt}, bindStmt declared s = .ok s' → s'.unbound = s.unbound
  | .skip, _, h => by
    cases h
    rfl
  | .assign x e, _, h => by
    obtain ⟨e', he, h⟩ := ok_of_bind (by rwa [bindStmt] at h)
    cases h
    exact congrArg (Stmt.assign x) (bindExpr_unbound he)
  | .branch c yes no, _, h => by
    obtain ⟨c', hc, h⟩ := ok_of_bind (by rwa [bindStmt] at h)
    obtain ⟨yes', hy, h⟩ := ok_of_bind h
    obtain ⟨no', hn, h⟩ := ok_of_bind h
    cases h
    show Stmt.branch c'.unbound yes'.unbound no'.unbound = _
    rw [bindExpr_unbound hc, bindStmt_unbound hy, bindStmt_unbound hn]
    rfl
  | .loop c body, _, h => by
    obtain ⟨c', hc, h⟩ := ok_of_bind (by rwa [bindStmt] at h)
    obtain ⟨body', hb, h⟩ := ok_of_bind h
    cases h
    show Stmt.loop c'.unbound body'.unbound = _
    rw [bindExpr_unbound hc, bindStmt_unbound hb]
    rfl
  | .chain s t, _, h => by
    obtain ⟨s', hs, h⟩ := ok_of_bind (by rwa [bindStmt] at h)
    obtain ⟨t', ht, h⟩ := ok_of_bind h
    cases h
    show Stmt.chain s'.unbound t'.unbound = _
    rw [bindStmt_unbound hs, bindStmt_unbound ht]
    rfl
  | .leave e, _, h => by
    obtain ⟨e', he, h⟩ := ok_of_bind (by rwa [bindStmt] at h)
    cases h
    exact congrArg Stmt.leave (bindExpr_unbound he)
  | .perform c, _, h => by
    obtain ⟨c', hc, h⟩ := ok_of_bind (by rwa [bindStmt] at h)
    cases h
    exact congrArg Stmt.perform (bindCall_unbound hc)
  | .attempt body catches cleanup, _, h => by
    obtain ⟨body', hb, h⟩ := ok_of_bind (by rwa [bindStmt] at h)
    obtain ⟨catches', hc, h⟩ := ok_of_bind h
    obtain ⟨cleanup', hl, h⟩ := ok_of_bind h
    cases h
    show Stmt.attempt body'.unbound (Catch.allUnbound catches') (Stmt.cleanupUnbound cleanup') = _
    rw [bindStmt_unbound hb, bindCatches_unbound hc, bindCleanup_unbound hl]
    rfl
  | .throwing x e, _, h => by
    obtain ⟨e', he, h⟩ := ok_of_bind (by rwa [bindStmt] at h)
    cases h
    exact congrArg (Stmt.throwing x) (bindExpr_unbound he)

theorem bindCatches_unbound : ∀ {cs cs' : List Catch}, bindCatches declared cs = .ok cs' →
    Catch.allUnbound cs' = Catch.allUnbound cs
  | [], _, h => by
    cases h
    rfl
  | .on e x s :: rest, _, h => by
    obtain ⟨s', hs, h⟩ := ok_of_bind (by rwa [bindCatches] at h)
    obtain ⟨rest', hr, h⟩ := ok_of_bind h
    cases h
    show Catch.on e x s'.unbound :: Catch.allUnbound rest' = _
    rw [bindStmt_unbound hs, bindCatches_unbound hr]
    rfl

theorem bindCleanup_unbound : ∀ {s s' : Option Stmt}, bindCleanup declared s = .ok s' →
    Stmt.cleanupUnbound s' = Stmt.cleanupUnbound s
  | none, _, h => by
    cases h
    rfl
  | some s, _, h => by
    obtain ⟨s', hs, h⟩ := ok_of_bind (by rwa [bindCleanup] at h)
    cases h
    exact congrArg some (bindStmt_unbound hs)

end

end Bind

theorem exists_of_mem_mapM {declared : List Signature} {f : Function} : ∀ {gs fs : List Function},
    gs.mapM (bindFunction declared) = .ok fs → f ∈ fs →
      ∃ g ∈ gs, f.signature = g.signature ∧ f.body.unbound = g.body.unbound
  | [], _, h, hf => by
    cases h
    cases hf
  | g :: gs, _, h, hf => by
    rw [List.mapM_cons] at h
    obtain ⟨f', hf', h⟩ := ok_of_bind h
    obtain ⟨fs', hfs', h⟩ := ok_of_bind h
    cases h
    rcases List.mem_cons.mp hf with rfl | later
    · rw [bindFunction] at hf'
      obtain ⟨body, hbody, hf'⟩ := ok_of_bind hf'
      cases hf'
      exact ⟨g, List.mem_cons_self, rfl, bindStmt_unbound hbody⟩
    · obtain ⟨g', hg', same⟩ := exists_of_mem_mapM hfs' later
      exact ⟨g', List.mem_cons_of_mem g hg', same⟩

/-- A bound program has the entry of the one it comes from. Each of its functions comes from one with
the same signature and the same calls by name. -/
theorem exists_of_mem_bind {p q : Program} (h : p.bind = .ok q) : q.entry = p.entry ∧
    ∀ f ∈ q.functions, ∃ g ∈ p.functions, f.signature = g.signature ∧
      f.body.unbound = g.body.unbound := by
  obtain ⟨⟨⟩, -, h⟩ := ok_of_bind (by rwa [bind] at h)
  split at h
  · cases h
  obtain ⟨fs, hfs, h⟩ := ok_of_bind h
  cases h
  exact ⟨rfl, fun f hf => exists_of_mem_mapM hfs hf⟩

section Load

variable {file source entry : String} {p : Program}

/-- A program that a text holds comes from one that tokens of the text denote. -/
theorem denotes_of_load (h : load file source entry = .ok p) :
    ∃ (w : List Kind) (q : Program), Grammar.AllWell w ∧ Grammar.Denotes entry w q.unplaced ∧
      q.bind = .ok p := by
  obtain ⟨q, hq, h⟩ := ok_of_bind (by rwa [load] at h)
  obtain ⟨ts, hts, hq⟩ := ok_of_bind (by rwa [parse] at hq)
  have well : Grammar.AllWell ts.kinds :=
    (Token.lexed_iff.mpr ⟨ts, ok_of_mapError hts, rfl⟩).wellSpelled
  exact ⟨ts.kinds, q, well, denotes_of_ofTokens (ok_of_mapError hq), ok_of_mapError h⟩

/-- The names and strings of a program that a text holds can stand in a text. -/
theorem spelled_of_load (h : load file source entry = .ok p) :
    ∀ f ∈ p.functions, f.body.Spelled := by
  obtain ⟨w, q, well, denoted, bound⟩ := denotes_of_load h
  intro f hf
  obtain ⟨g, hg, -, same⟩ := (exists_of_mem_bind bound).2 f hf
  have spelled := denoted.spelled well g.unplaced (List.mem_map_of_mem hg)
  have written : g.body.Spelled := (Stmt.spelled_unplaced g.body).mp spelled
  rwa [← Stmt.spelled_unbound, same, Stmt.spelled_unbound]

/-- The entry of a program that a text holds has the given name and no parameters. -/
theorem entry_of_load (h : load file source entry = .ok p) : p.entry = ⟨entry, 0⟩ := by
  obtain ⟨w, q, -, denoted, bound⟩ := denotes_of_load h
  exact (exists_of_mem_bind bound).1.trans denoted.entry_eq

/-- The functions that a text declares have names. -/
theorem isName_of_load (h : load file source entry = .ok p) :
    ∀ s ∈ p.signatures, s = p.entry ∨ Token.IsName s.name := by
  obtain ⟨w, q, well, denoted, bound⟩ := denotes_of_load h
  intro s hs
  obtain ⟨f, hf, rfl⟩ := List.mem_map.mp hs
  obtain ⟨g, hg, same, -⟩ := (exists_of_mem_bind bound).2 f hf
  rw [entry_of_load h, same]
  exact denoted.isName well g.unplaced (List.mem_map_of_mem hg)

end Load

end Program

end Threefold
