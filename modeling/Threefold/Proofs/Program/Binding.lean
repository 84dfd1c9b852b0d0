import Threefold.Proofs.Program.Calls
import Threefold.Proofs.Program.Grammar

/-!
# What binding accepts

A program can be bound if its functions can be told apart from each other and from the built-in ones,
its entry is one of them, and every call in it means something (`Program.Bindable`). Binding accepts
these programs and no others, and it exchanges callees for what they mean and changes nothing else
(`bind_exact`). A program that is bound is bound to itself.

Binding looks at the name and the number with which a call asks for its callee, and not at the
arguments. So it neither makes nor mends a call with too few or too many of them
(`takes_iff_of_bind`).
-/

namespace Threefold

/-! ## Exchanging callees -/

section Recast

variable {callee callee' : Callee → Nat → Callee} {place place' : Location → Location}
  {P : Callee → Nat → Prop}

mutual

/-- What holds of the calls of an expression with other callees. -/
theorem Expr.allCalls_recast : ∀ e : Expr, (e.recast callee place).AllCalls P ↔
    e.AllCalls fun c n => P (callee c n) n
  | .const _ | .string _ | .var _ => Iff.rfl
  | .array _ items => Expr.allCallsIn_recastAll items
  | .unary _ e => Expr.allCalls_recast e
  | .binary _ l r => and_congr (Expr.allCalls_recast l) (Expr.allCalls_recast r)
  | .call c arguments _ => by
    rw [Expr.recast, Expr.AllCalls, Expr.AllCalls, Expr.length_recastAll]
    exact and_congr_right fun _ => Expr.allCallsIn_recastAll arguments

theorem Expr.allCallsIn_recastAll : ∀ es : List Expr,
    Expr.AllCallsIn P (Expr.recastAll callee place es) ↔
      Expr.AllCallsIn (fun c n => P (callee c n) n) es
  | [] => Iff.rfl
  | e :: rest => and_congr (Expr.allCalls_recast e) (Expr.allCallsIn_recastAll rest)

end

mutual

/-- What holds of the calls of a statement with other callees. -/
theorem Stmt.allCalls_recast : ∀ s : Stmt, (s.recast callee place).AllCalls P ↔
    s.AllCalls fun c n => P (callee c n) n
  | .skip => Iff.rfl
  | .assign _ e | .leave e | .throwing _ e => e.allCalls_recast
  | .branch c yes no => and_congr c.allCalls_recast
      (and_congr (Stmt.allCalls_recast yes) (Stmt.allCalls_recast no))
  | .loop c body => and_congr c.allCalls_recast (Stmt.allCalls_recast body)
  | .chain s t => and_congr (Stmt.allCalls_recast s) (Stmt.allCalls_recast t)
  | .perform c => c.expr.allCalls_recast
  | .attempt body catches cleanup => and_congr (Stmt.allCalls_recast body)
      (and_congr (Catch.allCalls_recastAll catches) (Stmt.cleanupAllCalls_recast cleanup))

theorem Catch.allCalls_recastAll : ∀ cs : List Catch,
    Catch.AllCalls P (Catch.recastAll callee place cs) ↔
      Catch.AllCalls (fun c n => P (callee c n) n) cs
  | [] => Iff.rfl
  | .on _ _ s :: rest => and_congr (Stmt.allCalls_recast s) (Catch.allCalls_recastAll rest)

theorem Stmt.cleanupAllCalls_recast : ∀ s : Option Stmt,
    Stmt.CleanupAllCalls P (Stmt.recastCleanup callee place s) ↔
      Stmt.CleanupAllCalls (fun c n => P (callee c n) n) s
  | none => Iff.rfl
  | some s => Stmt.allCalls_recast s

end

mutual

/-- Exchanging callees twice is exchanging them once. -/
theorem Expr.recast_recast : ∀ e : Expr, (e.recast callee place).recast callee' place' =
    e.recast (fun c n => callee' (callee c n) n) (place' ∘ place)
  | .const _ | .string _ | .var _ => rfl
  | .array _ items => congrArg _ (Expr.recastAll_recastAll items)
  | .unary _ e => congrArg _ (Expr.recast_recast e)
  | .binary _ l r => congrArg₂ _ (Expr.recast_recast l) (Expr.recast_recast r)
  | .call c arguments _ => by
    rw [Expr.recast, Expr.recast, Expr.recast, Expr.length_recastAll,
      Expr.recastAll_recastAll arguments]
    rfl

theorem Expr.recastAll_recastAll : ∀ es : List Expr,
    Expr.recastAll callee' place' (Expr.recastAll callee place es) =
      Expr.recastAll (fun c n => callee' (callee c n) n) (place' ∘ place) es
  | [] => rfl
  | e :: rest => congrArg₂ _ (Expr.recast_recast e) (Expr.recastAll_recastAll rest)

end

theorem Call.recast_recast (c : Call) : (c.recast callee place).recast callee' place' =
    c.recast (fun c n => callee' (callee c n) n) (place' ∘ place) := by
  simp only [Call.recast, Expr.length_recastAll, Expr.recastAll_recastAll, Function.comp_apply]

mutual

theorem Stmt.recast_recast : ∀ s : Stmt, (s.recast callee place).recast callee' place' =
    s.recast (fun c n => callee' (callee c n) n) (place' ∘ place)
  | .skip => rfl
  | .assign x e => congrArg (Stmt.assign x) e.recast_recast
  | .leave e => congrArg Stmt.leave e.recast_recast
  | .throwing x e => congrArg (Stmt.throwing x) e.recast_recast
  | .perform c => congrArg Stmt.perform c.recast_recast
  | .branch c yes no => by
    simp only [Stmt.recast, c.recast_recast, Stmt.recast_recast yes, Stmt.recast_recast no]
  | .loop c body => by
    simp only [Stmt.recast, c.recast_recast, Stmt.recast_recast body]
  | .chain s t => by
    simp only [Stmt.recast, Stmt.recast_recast s, Stmt.recast_recast t]
  | .attempt body catches cleanup => by
    simp only [Stmt.recast, Stmt.recast_recast body, Catch.recastAll_recastAll catches,
      Stmt.recastCleanup_recastCleanup cleanup]

theorem Catch.recastAll_recastAll : ∀ cs : List Catch,
    Catch.recastAll callee' place' (Catch.recastAll callee place cs) =
      Catch.recastAll (fun c n => callee' (callee c n) n) (place' ∘ place) cs
  | [] => rfl
  | .on e x s :: rest => by
    simp only [Catch.recastAll, Stmt.recast_recast s, Catch.recastAll_recastAll rest]

theorem Stmt.recastCleanup_recastCleanup : ∀ s : Option Stmt,
    Stmt.recastCleanup callee' place' (Stmt.recastCleanup callee place s) =
      Stmt.recastCleanup (fun c n => callee' (callee c n) n) (place' ∘ place) s
  | none => rfl
  | some s => congrArg some (Stmt.recast_recast s)

end

end Recast

/-- A program whose callees are exchanged for others. -/
def Program.rebound (meaning : Callee → Callee) (p : Program) : Program :=
  { p with
    functions := p.functions.map fun f =>
      { f with body := f.body.recast (fun c _ => meaning c) id } }

/-! ## What a callee means -/

/-- All functions with a signature, as a call may have them: those of a program, and those that are
built in. -/
def Program.under (p : Program) (s : Signature) : List Callee :=
  ((p.functions.filter (·.signature = s)).map fun f => .declared f.signature) ++
    (Intrinsic.all.filter (·.signature = s)).map .intrinsic

/-- What a callee means in a program: the one function with its name and its number of arguments, if
it is known by these, and otherwise itself, if it is there. -/
def Callee.Means (p : Program) : Callee → Callee → Prop
  | .unbound name arity, d => p.under ⟨name, arity⟩ = [d]
  | .declared s, d => s ∈ p.signatures ∧ d = .declared s
  | .intrinsic i, d => d = .intrinsic i

/-- A callee that is there: a declared function, or a built-in one that is bound or written. -/
def Callee.Meaningful (declared : List Signature) : Callee → Prop
  | .unbound name arity => ⟨name, arity⟩ ∈ declared ∨ ∃ i : Intrinsic, i.signature = ⟨name, arity⟩
  | .declared s => s ∈ declared
  | .intrinsic _ => True

/-- What binding makes of a callee. -/
def Callee.bound (declared : List Signature) : Callee → Callee
  | .unbound name arity =>
    if (⟨name, arity⟩ : Signature) ∈ declared then .declared ⟨name, arity⟩
    else ((Intrinsic.ofSignature? ⟨name, arity⟩).map Callee.intrinsic).getD (.unbound name arity)
  | .declared s => .declared s
  | .intrinsic i => .intrinsic i

/-- A program that can be bound: its functions are told apart by their signatures, also from the
built-in ones, its entry is one of them, and every call in it means something. -/
structure Program.Bindable (p : Program) : Prop where
  distinct : p.signatures.Nodup
  apart : ∀ i : Intrinsic, i.signature ∉ p.signatures
  entry_mem : p.entry ∈ p.signatures
  meaningful : ∀ f ∈ p.functions, f.body.AllCalls fun c _ => c.Meaningful p.signatures

namespace Intrinsic

theorem mem_all (i : Intrinsic) : i ∈ all := by
  cases i <;> decide

theorem nodup_signatures : (all.map signature).Nodup := by decide

theorem ofSignature?_signature (i : Intrinsic) : ofSignature? i.signature = some i := by
  cases i <;> decide

theorem ofSignature?_eq_none {s : Signature} :
    ofSignature? s = none ↔ ∀ i : Intrinsic, i.signature ≠ s := by
  rw [ofSignature?, List.find?_eq_none]
  simp [mem_all]

theorem isSome_ofSignature? {s : Signature} :
    (ofSignature? s).isSome ↔ ∃ i : Intrinsic, i.signature = s := by
  rw [Option.isSome_iff_ne_none, ne_eq, ofSignature?_eq_none]
  simp

end Intrinsic

namespace Callee

variable {declared : List Signature}

/-- What becomes of a callee that is asked for by its name and the number of its arguments. -/
theorem bound_unbound (declared : List Signature) (name : String) (arity : Nat) :
    (⟨name, arity⟩ ∈ declared ∧
      bound declared (.unbound name arity) = .declared ⟨name, arity⟩) ∨
    (⟨name, arity⟩ ∉ declared ∧ ∃ i : Intrinsic, i.signature = ⟨name, arity⟩ ∧
      bound declared (.unbound name arity) = .intrinsic i) ∨
    (⟨name, arity⟩ ∉ declared ∧ (∀ i : Intrinsic, i.signature ≠ ⟨name, arity⟩) ∧
      bound declared (.unbound name arity) = .unbound name arity) := by
  by_cases there : (⟨name, arity⟩ : Signature) ∈ declared
  · exact .inl ⟨there, if_pos there⟩
  · cases known : Intrinsic.ofSignature? ⟨name, arity⟩ with
    | none =>
      refine .inr (.inr ⟨there, Intrinsic.ofSignature?_eq_none.mp known, ?_⟩)
      rw [bound, if_neg there, known]
      rfl
    | some i =>
      refine .inr (.inl ⟨there, i, Program.Intrinsic.signature_of_ofSignature? known, ?_⟩)
      rw [bound, if_neg there, known]
      rfl

/-- Binding a callee twice is binding it once. -/
theorem bound_bound (c : Callee) : (c.bound declared).bound declared = c.bound declared := by
  cases c with
  | unbound name arity =>
    rcases bound_unbound declared name arity with ⟨-, h⟩ | ⟨-, i, -, h⟩ | ⟨-, -, h⟩
    · rw [h, bound]
    · rw [h, bound]
    · rw [h, h]
  | declared s => rfl
  | intrinsic i => rfl

/-- Binding gives no callee a meaning that it did not have before. -/
theorem meaningful_bound (c : Callee) :
    (c.bound declared).Meaningful declared ↔ c.Meaningful declared := by
  cases c with
  | unbound name arity =>
    rcases bound_unbound declared name arity with ⟨there, h⟩ | ⟨-, i, built, h⟩ | ⟨-, -, h⟩
    · rw [h]
      exact iff_of_true there (.inl there)
    · rw [h]
      exact iff_of_true trivial (.inr ⟨i, built⟩)
    · rw [h]
  | declared s => rfl
  | intrinsic i => rfl

/-- Binding makes a callee known if it means something. -/
theorem known_bound (c : Callee) :
    (c.bound declared).Known declared ↔ c.Meaningful declared := by
  cases c with
  | unbound name arity =>
    rcases bound_unbound declared name arity with ⟨there, h⟩ | ⟨-, i, built, h⟩ | ⟨away, none, h⟩
    · rw [h]
      exact iff_of_true there (.inl there)
    · rw [h]
      exact iff_of_true trivial (.inr ⟨i, built⟩)
    · rw [h]
      refine iff_of_false id ?_
      rintro (there | ⟨i, built⟩)
      · exact away there
      · exact none i built
  | declared s => rfl
  | intrinsic i => rfl

/-- A bound callee takes as many arguments as it was asked for with. -/
theorem takes_bound (c : Callee) (n : Nat) : (c.bound declared).Takes n ↔ c.Takes n := by
  cases c with
  | unbound name arity =>
    rcases bound_unbound declared name arity with ⟨-, h⟩ | ⟨-, i, built, h⟩ | ⟨-, -, h⟩
    · rw [h]
      rfl
    · have same : i.arity = arity := congrArg Signature.arity built
      rw [h, Takes, Takes, same]
    · rw [h]
  | declared s => rfl
  | intrinsic i => rfl

end Callee

namespace Program

variable {p : Program}

theorem mem_under {s : Signature} {d : Callee} : d ∈ p.under s ↔
    (s ∈ p.signatures ∧ d = .declared s) ∨ ∃ i : Intrinsic, i.signature = s ∧ d = .intrinsic i := by
  simp only [under, signatures, List.mem_append, List.mem_map, List.mem_filter, Intrinsic.mem_all,
    true_and, decide_eq_true_eq]
  constructor
  · rintro (⟨f, ⟨hf, rfl⟩, rfl⟩ | ⟨i, hi, rfl⟩)
    · exact .inl ⟨⟨f, hf, rfl⟩, rfl⟩
    · exact .inr ⟨i, hi, rfl⟩
  · rintro (⟨⟨f, hf, rfl⟩, rfl⟩ | ⟨i, hi, rfl⟩)
    · exact .inl ⟨f, ⟨hf, rfl⟩, rfl⟩
    · exact .inr ⟨i, hi, rfl⟩

theorem length_under (p : Program) (s : Signature) : (p.under s).length =
    (p.signatures ++ Intrinsic.all.map Intrinsic.signature).count s := by
  rw [under, signatures, List.count_append, List.count_eq_length_filter,
    List.count_eq_length_filter, List.filter_map, List.filter_map, List.length_append,
    List.length_map, List.length_map, List.length_map, List.length_map]
  rfl

section Apart

variable (distinct : p.signatures.Nodup) (apart : ∀ i : Intrinsic, i.signature ∉ p.signatures)
include distinct apart

/-- Where functions are told apart, there is at most one with a signature. -/
theorem length_under_le (s : Signature) : (p.under s).length ≤ 1 := by
  have told : (p.signatures ++ Intrinsic.all.map Intrinsic.signature).Nodup := by
    refine List.nodup_append.mpr ⟨distinct, Intrinsic.nodup_signatures, ?_⟩
    rintro s hs t ht rfl
    obtain ⟨i, -, rfl⟩ := List.mem_map.mp ht
    exact apart i hs
  rw [length_under]
  exact List.nodup_iff_count.mp told s

theorem under_eq_singleton {s : Signature} {d : Callee} : p.under s = [d] ↔ d ∈ p.under s := by
  refine ⟨fun only => ?_, fun found => ?_⟩
  · rw [only]
    exact List.mem_singleton_self d
  · obtain ⟨e, only⟩ := List.length_eq_one_iff.mp
      (Nat.le_antisymm (length_under_le distinct apart s) (List.length_pos_of_mem found))
    rw [only] at found
    rw [only, List.mem_singleton.mp found]

/-- A callee means something if it means what binding makes of it, and nothing else. -/
theorem meaningful_iff (c : Callee) : c.Meaningful p.signatures ↔
    ∀ d, c.Means p d ↔ d = c.bound p.signatures := by
  cases c with
  | unbound name arity =>
    simp only [Callee.Means, under_eq_singleton distinct apart, mem_under]
    rcases Callee.bound_unbound p.signatures name arity with
      ⟨there, h⟩ | ⟨away, i, built, h⟩ | ⟨away, none, h⟩
    · rw [h]
      refine iff_of_true (.inl there) fun d => ?_
      simp only [there, true_and, or_iff_left_iff_imp]
      rintro ⟨i, built, -⟩
      exact absurd there (built ▸ apart i)
    · rw [h]
      refine iff_of_true (.inr ⟨i, built⟩) fun d => ?_
      simp only [away, false_and, false_or]
      refine ⟨?_, fun same => ⟨i, built, same⟩⟩
      rintro ⟨j, other, rfl⟩
      have same := (Intrinsic.ofSignature?_signature j).symm.trans
        ((congrArg Intrinsic.ofSignature? (other.trans built.symm)).trans
          (Intrinsic.ofSignature?_signature i))
      rw [Option.some.inj same]
    · rw [h]
      refine iff_of_false ?_ fun means => ?_
      · rintro (there | ⟨i, built⟩)
        · exact away there
        · exact none i built
      · rcases (means _).mpr rfl with ⟨there, -⟩ | ⟨i, built, -⟩
        · exact away there
        · exact none i built
  | declared s =>
    simp only [Callee.Meaningful, Callee.Means, Callee.bound]
    exact ⟨fun there d => and_iff_right there, fun means => ((means _).mpr rfl).1⟩
  | intrinsic i => exact iff_of_true trivial fun d => Iff.rfl

end Apart

/-! ## What binding makes of a program -/

theorem exceptBind_eq_ok {ε α β : Type} {m : Except ε α} {k : α → Except ε β} {b : β} :
    (m >>= k) = .ok b ↔ ∃ a, m = .ok a ∧ k a = .ok b := by
  refine ⟨ok_of_bind, ?_⟩
  rintro ⟨a, rfl, h⟩
  exact h

theorem exceptPure_eq_ok {ε α : Type} {a b : α} : (pure a : Except ε α) = .ok b ↔ b = a := by
  rw [eq_comm (a := b)]
  exact Except.ok.injEq a b ▸ Iff.rfl

section Bind

variable {declared : List Signature}

theorem bindCallee_eq_ok {l : Location} {c d : Callee} : bindCallee declared l c = .ok d ↔
    c.Meaningful declared ∧ d = c.bound declared := by
  cases c with
  | unbound name arity =>
    rcases Callee.bound_unbound declared name arity with
      ⟨there, h⟩ | ⟨away, i, built, h⟩ | ⟨away, none, h⟩
    · have meaningful : (Callee.unbound name arity).Meaningful declared := .inl there
      simp only [bindCallee, there, if_true, h, meaningful, true_and, Except.ok.injEq, eq_comm]
    · have known : Intrinsic.ofSignature? ⟨name, arity⟩ = some i :=
        built ▸ Intrinsic.ofSignature?_signature i
      have meaningful : (Callee.unbound name arity).Meaningful declared := .inr ⟨i, built⟩
      simp only [bindCallee, away, if_false, known, h, meaningful, true_and, Except.ok.injEq,
        eq_comm]
    · have unknown : Intrinsic.ofSignature? ⟨name, arity⟩ = Option.none :=
        Intrinsic.ofSignature?_eq_none.mpr none
      have meaningless : ¬ (Callee.unbound name arity).Meaningful declared := by
        rintro (there | ⟨i, built⟩)
        · exact away there
        · exact none i built
      simp only [bindCallee, away, if_false, unknown, meaningless, false_and, reduceCtorEq]
  | declared s =>
    by_cases there : s ∈ declared
    · simp only [bindCallee, there, if_true, Callee.Meaningful, Callee.bound, true_and,
        Except.ok.injEq, eq_comm]
    · simp only [bindCallee, there, if_false, Callee.Meaningful, false_and, reduceCtorEq]
  | intrinsic i =>
    simp only [bindCallee, Callee.Meaningful, Callee.bound, true_and, Except.ok.injEq, eq_comm]

mutual

/-- Binding an expression succeeds if all its callees mean something. -/
theorem bindExpr_eq_ok : ∀ {e e' : Expr}, bindExpr declared e = .ok e' ↔
    e.AllCalls (fun c _ => c.Meaningful declared) ∧ e' = e.recast (fun c _ => c.bound declared) id
  | .const _, _ | .string _, _ | .var _, _ => by
    simp only [bindExpr, Except.ok.injEq, Expr.AllCalls, Expr.recast, true_and, eq_comm]
  | .array _ items, _ => by
    simp only [bindExpr, exceptBind_eq_ok, bindExprs_eq_ok, exceptPure_eq_ok, Expr.AllCalls,
      Expr.recast, and_assoc, exists_and_left, exists_eq_left]
  | .unary _ e, _ => by
    simp only [bindExpr, exceptBind_eq_ok, bindExpr_eq_ok, exceptPure_eq_ok, Expr.AllCalls,
      Expr.recast, and_assoc, exists_and_left, exists_eq_left]
  | .binary _ l r, _ => by
    simp only [bindExpr, exceptBind_eq_ok, bindExpr_eq_ok, exceptPure_eq_ok, Expr.AllCalls,
      Expr.recast, and_assoc, exists_and_left, exists_eq_left]
  | .call c arguments l, _ => by
    -- the arguments are bound before the callee
    simp only [bindExpr, exceptBind_eq_ok, bindExprs_eq_ok, bindCallee_eq_ok, exceptPure_eq_ok,
      Expr.AllCalls, Expr.recast, and_assoc, exists_and_left, exists_eq_left, id]
    exact and_left_comm

theorem bindExprs_eq_ok : ∀ {es es' : List Expr}, bindExprs declared es = .ok es' ↔
    Expr.AllCallsIn (fun c _ => c.Meaningful declared) es ∧
      es' = Expr.recastAll (fun c _ => c.bound declared) id es
  | [], _ => by
    simp only [bindExprs, Except.ok.injEq, Expr.AllCallsIn, Expr.recastAll, true_and, eq_comm]
  | e :: rest, _ => by
    simp only [bindExprs, exceptBind_eq_ok, bindExpr_eq_ok, bindExprs_eq_ok, exceptPure_eq_ok,
      Expr.AllCallsIn, Expr.recastAll, and_assoc, exists_and_left, exists_eq_left]

end

theorem bindCall_eq_ok {c c' : Call} : bindCall declared c = .ok c' ↔
    c.expr.AllCalls (fun c _ => c.Meaningful declared) ∧
      c' = c.recast (fun c _ => c.bound declared) id := by
  simp only [bindCall, exceptBind_eq_ok, bindExprs_eq_ok, bindCallee_eq_ok, exceptPure_eq_ok,
    Call.expr, Expr.AllCalls, Call.recast, and_assoc, exists_and_left, exists_eq_left, id]
  exact and_left_comm

mutual

/-- Binding a statement succeeds if all its callees mean something. -/
theorem bindStmt_eq_ok : ∀ {s s' : Stmt}, bindStmt declared s = .ok s' ↔
    s.AllCalls (fun c _ => c.Meaningful declared) ∧ s' = s.recast (fun c _ => c.bound declared) id
  | .skip, _ => by
    simp only [bindStmt, Except.ok.injEq, Stmt.AllCalls, Stmt.recast, true_and, eq_comm]
  | .assign _ e, _ | .leave e, _ | .throwing _ e, _ => by
    simp only [bindStmt, exceptBind_eq_ok, bindExpr_eq_ok, exceptPure_eq_ok, Stmt.AllCalls,
      Stmt.recast, and_assoc, exists_and_left, exists_eq_left]
  | .branch c yes no, _ => by
    simp only [bindStmt, exceptBind_eq_ok, bindExpr_eq_ok, bindStmt_eq_ok, exceptPure_eq_ok,
      Stmt.AllCalls, Stmt.recast, and_assoc, exists_and_left, exists_eq_left]
  | .loop c body, _ => by
    simp only [bindStmt, exceptBind_eq_ok, bindExpr_eq_ok, bindStmt_eq_ok, exceptPure_eq_ok,
      Stmt.AllCalls, Stmt.recast, and_assoc, exists_and_left, exists_eq_left]
  | .chain s t, _ => by
    simp only [bindStmt, exceptBind_eq_ok, bindStmt_eq_ok, exceptPure_eq_ok, Stmt.AllCalls,
      Stmt.recast, and_assoc, exists_and_left, exists_eq_left]
  | .perform c, _ => by
    simp only [bindStmt, exceptBind_eq_ok, bindCall_eq_ok, exceptPure_eq_ok, Stmt.AllCalls,
      Stmt.recast, and_assoc, exists_and_left, exists_eq_left]
  | .attempt body catches cleanup, _ => by
    simp only [bindStmt, exceptBind_eq_ok, bindStmt_eq_ok, bindCatches_eq_ok, bindCleanup_eq_ok,
      exceptPure_eq_ok, Stmt.AllCalls, Stmt.recast, and_assoc, exists_and_left, exists_eq_left]

theorem bindCatches_eq_ok : ∀ {cs cs' : List Catch}, bindCatches declared cs = .ok cs' ↔
    Catch.AllCalls (fun c _ => c.Meaningful declared) cs ∧
      cs' = Catch.recastAll (fun c _ => c.bound declared) id cs
  | [], _ => by
    simp only [bindCatches, Except.ok.injEq, Catch.AllCalls, Catch.recastAll, true_and, eq_comm]
  | .on _ _ s :: rest, _ => by
    simp only [bindCatches, exceptBind_eq_ok, bindStmt_eq_ok, bindCatches_eq_ok, exceptPure_eq_ok,
      Catch.AllCalls, Catch.recastAll, and_assoc, exists_and_left, exists_eq_left]

theorem bindCleanup_eq_ok : ∀ {s s' : Option Stmt}, bindCleanup declared s = .ok s' ↔
    Stmt.CleanupAllCalls (fun c _ => c.Meaningful declared) s ∧
      s' = Stmt.recastCleanup (fun c _ => c.bound declared) id s
  | none, _ => by
    simp only [bindCleanup, Except.ok.injEq, Stmt.CleanupAllCalls, Stmt.recastCleanup, true_and,
      eq_comm]
  | some s, _ => by
    simp only [bindCleanup, exceptBind_eq_ok, bindStmt_eq_ok, exceptPure_eq_ok,
      Stmt.CleanupAllCalls, Stmt.recastCleanup, and_assoc, exists_and_left, exists_eq_left]

end

theorem mapM_bindFunction_eq_ok : ∀ {fs fs' : List Function},
    fs.mapM (bindFunction declared) = .ok fs' ↔
      (∀ f ∈ fs, f.body.AllCalls fun c _ => c.Meaningful declared) ∧
        fs' = fs.map fun f => { f with body := f.body.recast (fun c _ => c.bound declared) id }
  | [], _ => by
    rw [List.mapM_nil, exceptPure_eq_ok]
    simp
  | f :: rest, _ => by
    simp only [List.mapM_cons, bindFunction, exceptBind_eq_ok, bindStmt_eq_ok,
      mapM_bindFunction_eq_ok, exceptPure_eq_ok, List.forall_mem_cons, List.map_cons, and_assoc,
      exists_and_left, exists_eq_left]

end Bind

/-- The functions of a list are told apart if neither an earlier one nor a built-in one has the
signature of any of them. -/
theorem checkDistinct_eq_ok : ∀ {earlier : List Signature} {fs : List Function},
    checkDistinct earlier fs = .ok () ↔ (fs.map Function.signature).Nodup ∧
      ∀ f ∈ fs, f.signature ∉ earlier ∧ ∀ i : Intrinsic, i.signature ≠ f.signature
  | _, [] => by simp [checkDistinct]
  | earlier, f :: rest => by
    rw [checkDistinct]
    by_cases refused : (Intrinsic.ofSignature? f.signature).isSome ∨ f.signature ∈ earlier
    · rw [if_pos refused]
      refine iff_of_false (fun accepted => by cases accepted) ?_
      rintro ⟨-, told⟩
      obtain ⟨new, other⟩ := told f List.mem_cons_self
      rcases refused with built | old
      · obtain ⟨i, same⟩ := Intrinsic.isSome_ofSignature?.mp built
        exact other i same
      · exact new old
    · rw [if_neg refused, checkDistinct_eq_ok, List.map_cons, List.nodup_cons,
        List.forall_mem_cons]
      rw [Intrinsic.isSome_ofSignature?, not_or, not_exists] at refused
      constructor
      · rintro ⟨distinct, told⟩
        refine ⟨⟨fun found => ?_, distinct⟩, refused.symm, fun g hg => ?_⟩
        · obtain ⟨g, hg, same⟩ := List.mem_map.mp found
          exact (told g hg).1 (same ▸ List.mem_cons_self)
        · exact ⟨fun old => (told g hg).1 (List.mem_cons_of_mem _ old), (told g hg).2⟩
      · rintro ⟨⟨first, distinct⟩, -, told⟩
        refine ⟨distinct, fun g hg => ⟨fun found => ?_, (told g hg).2⟩⟩
        rcases List.mem_cons.mp found with same | old
        · exact first (same ▸ List.mem_map_of_mem hg)
        · exact (told g hg).1 old

/-- Binding accepts the programs that can be bound, and exchanges the callees in them. -/
theorem bind_eq_ok {q : Program} : p.bind = .ok q ↔
    p.Bindable ∧ q = p.rebound (Callee.bound p.signatures) := by
  constructor
  · intro h
    obtain ⟨⟨⟩, told, h⟩ := ok_of_bind (by rwa [bind] at h)
    split at h
    · cases h
    · rename_i entered
      obtain ⟨fs, hfs, h⟩ := ok_of_bind h
      cases h
      obtain ⟨distinct, told⟩ := checkDistinct_eq_ok.mp told
      obtain ⟨meaningful, rfl⟩ := mapM_bindFunction_eq_ok.mp hfs
      refine ⟨⟨distinct, fun i found => ?_, Decidable.not_not.mp entered, meaningful⟩, rfl⟩
      obtain ⟨f, hf, same⟩ := List.mem_map.mp found
      exact (told f hf).2 i same.symm
  · rintro ⟨h, rfl⟩
    have told : checkDistinct [] p.functions = .ok () :=
      checkDistinct_eq_ok.mpr ⟨h.distinct, fun f hf =>
        ⟨List.not_mem_nil, fun i same => h.apart i (same ▸ List.mem_map_of_mem hf)⟩⟩
    rw [bind, exceptBind_eq_ok]
    refine ⟨(), told, ?_⟩
    rw [if_neg (Decidable.not_not.mpr h.entry_mem)]
    exact exceptBind_eq_ok.mpr ⟨_, mapM_bindFunction_eq_ok.mpr ⟨h.meaningful, rfl⟩, rfl⟩

section Rebound

variable {meaning meaning' : Callee → Callee}

theorem signatures_rebound (meaning : Callee → Callee) (p : Program) :
    (p.rebound meaning).signatures = p.signatures := by
  rw [signatures, rebound, List.map_map]
  rfl

theorem forall_mem_rebound {P : Callee → Nat → Prop} :
    (∀ f ∈ (p.rebound meaning).functions, f.body.AllCalls P) ↔
      ∀ f ∈ p.functions, f.body.AllCalls fun c n => P (meaning c) n := by
  simp only [rebound, List.forall_mem_map, Stmt.allCalls_recast]

theorem rebound_rebound :
    (p.rebound meaning).rebound meaning' = p.rebound (meaning' ∘ meaning) := by
  simp only [rebound, List.map_map, Function.comp_def, Stmt.recast_recast]
  rfl

end Rebound

/-- A bound program can be bound, and its callees stay. -/
theorem Bindable.bind_rebound (h : p.Bindable) :
    (p.rebound (Callee.bound p.signatures)).bind =
      .ok (p.rebound (Callee.bound p.signatures)) := by
  have same := signatures_rebound (Callee.bound p.signatures) p
  refine bind_eq_ok.mpr ⟨⟨?_, ?_, ?_, ?_⟩, ?_⟩
  · rw [same]
    exact h.distinct
  · rw [same]
    exact h.apart
  · rw [same]
    exact h.entry_mem
  · rw [same, forall_mem_rebound]
    simpa only [Callee.meaningful_bound] using h.meaningful
  · have once : Callee.bound p.signatures ∘ Callee.bound p.signatures =
        Callee.bound p.signatures := funext Callee.bound_bound
    rw [same, rebound_rebound, once]

/-- Binding accepts a program if its functions are told apart by their signatures, also from the
built-in ones, its entry is one of them, and every call in it means something. Then it exchanges
every callee for the one thing that it means and changes nothing else; the callees that come out are
known, and binding them again changes nothing. -/
theorem bind_exact (p : Program) :
    ((∃ q, p.bind = .ok q) ↔ p.Bindable) ∧
      ∀ q, p.bind = .ok q →
        (∃ meaning : Callee → Callee, q = p.rebound meaning ∧
          ∀ f ∈ p.functions, f.body.AllCalls fun c _ => ∀ d, c.Means p d ↔ d = meaning c) ∧
        (∀ f ∈ q.functions, f.body.AllCalls fun c _ => c.Known q.signatures) ∧
        q.bind = .ok q := by
  constructor
  · simp only [bind_eq_ok, exists_and_left, exists_eq, and_true]
  · intro q hq
    obtain ⟨h, rfl⟩ := bind_eq_ok.mp hq
    refine ⟨⟨Callee.bound p.signatures, rfl, ?_⟩, ?_, h.bind_rebound⟩
    · simpa only [meaningful_iff h.distinct h.apart] using h.meaningful
    · rw [signatures_rebound, forall_mem_rebound]
      simpa only [Callee.known_bound] using h.meaningful

/-- A program with calls in a payload, in a branch that catches it and in what runs in any case, with
callees that are by name and that are bound. -/
def nested : Program where
  functions :=
    [⟨"f", ["n"], .leave (.array true [.call (.unbound "f" 1) [.var "n"] .unknown]), .unknown⟩,
      ⟨"f", [], .attempt
        (.throwing "A" (.call (.unbound "strlen" 1) [.string "a"] .unknown))
        [.on "A" "x" (.perform ⟨.declared ⟨"f", 1⟩, [.var "x"], .unknown⟩)]
        (some (.perform ⟨.intrinsic .write, [.call (.unbound "f" 0) [] .unknown], .unknown⟩)),
        .unknown⟩]
  entry := ⟨"f", 0⟩

theorem bind_exact_nested :
    ∃ q, nested.bind = .ok q ∧
      (∃ meaning : Callee → Callee, q = nested.rebound meaning ∧
        ∀ f ∈ nested.functions, f.body.AllCalls fun c _ => ∀ d, c.Means nested d ↔ d = meaning c) ∧
      (∀ f ∈ q.functions, f.body.AllCalls fun c _ => c.Known q.signatures) ∧
      q.bind = .ok q := by
  have accepted : nested.bind.isOk = true := by decide +kernel
  cases h : nested.bind with
  | error e =>
    rw [h] at accepted
    cases accepted
  | ok q => exact ⟨q, rfl, (bind_exact nested).2 q h⟩

/-! ## Numbers of arguments -/

/-- Binding leaves it to the program whether its calls have as many arguments as their callees
take. -/
theorem takes_iff_of_bind {q : Program} (h : p.bind = .ok q) :
    (∀ f ∈ q.functions, f.body.AllCalls Callee.Takes) ↔
      ∀ f ∈ p.functions, f.body.AllCalls Callee.Takes := by
  obtain ⟨-, rfl⟩ := bind_eq_ok.mp h
  rw [forall_mem_rebound]
  simp only [Callee.takes_bound]

/-- A program that gives two numbers to a function that takes one. Binding accepts it. -/
def overfed : Program where
  functions :=
    [⟨"main", [], .perform ⟨.intrinsic .write, [.const 1, .const 2], .unknown⟩, .unknown⟩]
  entry := ⟨"main", 0⟩

example : overfed.bind = .ok overfed := rfl

end Program

end Threefold
