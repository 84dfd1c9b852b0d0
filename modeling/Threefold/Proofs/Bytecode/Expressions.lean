import Threefold.Proofs.Bytecode.Following

/-!
# The code of expressions

The machine follows the evaluation of expressions, of arguments and of the items of an array literal,
given that it follows whatever is evaluated within a smaller bound.
-/

namespace Threefold.Bytecode.Machine

open Compilation (Goal CodeAt code codeAt_append codeAt_append₃ ExprOk ExprsOk exprCode exprsCode itemsCode
  checkCode)
open Evaluation (Variables Unwinding OwnNumber Throws)

section Expressions

variable {p : Program} {image : Image} {cx : Evaluation.Context} {K fuel : Nat}
  {S : Site} {targets : Goal → Nat} {pos depth arrays : Nat} {b : Store} {ops : List Value}
  {xs : Variables}

/-- The handle of a pooled literal. -/
theorem Loaded.literal (L : Loaded p image cx) {s : String} (hs : s ∈ p.literals) :
    ∃ n, image.pool[(p.literals.idxOf? s).getD 0]? = some n ∧
      Evaluation.literal cx s = Evaluation.callIntrinsic .strDup [.scalar n] := by
  obtain ⟨i, hi⟩ := Option.isSome_iff_exists.mp (List.isSome_idxOf?.mpr hs)
  have lt : i < image.pool.size := by
    rw [L.pooled]
    exact (List.idxOf?_eq_some_iff.mp hi).choose
  have there : image.pool[i]? = some image.pool[i] := Array.getElem?_eq_getElem lt
  refine ⟨image.pool[i], by rw [hi]; exact there, ?_⟩
  simp only [Evaluation.literal, L.literals, L.pool, hi, Option.bind_some, there]

/-- A call of a built-in function that cannot throw is followed without looking behind it. -/
theorem follows_intrinsic {i : Intrinsic} (vs : List Value) {limit : Nat → Prop} {w : World}
    {U : Unwinding → World → Progress → Prop}
    (h : S.routine.code[pos]? = some (.call (.intrinsic i))) (hv : vs.length = i.arity)
    (hi : i.canThrow = false) :
    Follows image (S.point w b (vs.reverse ++ ops) pos) limit (Returned S b ops (pos + 1)) U
      (Evaluation.callIntrinsic i vs w) := by
  refine (follows_callIntrinsic h hv).unchecked fun u w' hu => ?_
  have never := Evaluation.callIntrinsic_unwinds (Q := fun _ => True) trivial i vs w u w' hu
  rw [hi] at never
  cases u with
  | returning v => exact never
  | thrown n v => exact absurd never.1 (by decide)

/-- What a call of a routine or of a built-in function comes to is looked at alike. -/
theorem Follows.called {callee : Threefold.Callee} {arguments : List Expr} {location : Location}
    {start : Progress} {limit : Nat → Prop} {r : Evaluation.Result World Value} {b' : Store}
    (hcode : CodeAt S.routine.code targets pos
      (exprCode p.compilation pos depth arrays (.call callee arguments location)))
    (ready : Ready b ops xs depth) (kept : Kept arrays b b') (cleanups : Nat)
    (ht : ∀ u w, r = .unwinding u w → Throws OwnNumber (callee.canThrow p.throwing) u)
    (hr : Follows image start limit
      (Returned S b' ops (pos + (exprsCode p.compilation pos depth arrays arguments).length + 1))
      (Handed S b' ops (pos + (exprsCode p.compilation pos depth arrays arguments).length + 1))
      r) :
    Follows image start limit
      (fun v => Evaluated S arrays b ops (pos + (exprCode p.compilation pos depth arrays
        (.call callee arguments location)).length) [v])
      (fun u w => Unwound S cleanups b (targets .handler) u ⟨w, xs⟩) r := by
  obtain ⟨-, -, check⟩ := codeAt_append₃.mp hcode
  by_cases can : callee.canThrow p.compilation.throwing = true
  · rw [if_pos can] at check
    have ready' : Ready b' ops xs depth := ready.kept [] kept
    refine ((hr.checked cleanups check ready' fun u w hu =>
      (ht u w hu).leaves.number_ne).before kept.saved).mapDone ?_
    rintro v w q rfl
    refine ⟨0, _, .refl _, b', ?_, kept⟩
    simp [exprCode, can]
    omega
  · refine (hr.unchecked fun u w hu => ?_).mapDone ?_
    · have thrown := ht u w hu
      cases u with
      | returning v => exact thrown
      | thrown n v => exact can thrown.1
    · rintro v w q rfl
      refine ⟨0, _, .refl _, b', ?_, kept⟩
      simp [exprCode, can, Nat.add_assoc]

theorem evaluate_succ (L : Loaded p image cx) (ih : Simulated p image cx K fuel) {e : Expr}
    (he : ExprOk p.compilation p.signatures e)
    (hcode : CodeAt S.routine.code targets pos (exprCode p.compilation pos depth arrays e))
    (ready : Ready b ops xs depth) (cleanups : Nat) (w : World) :
    Follows image (S.point w b ops pos) (Affords K (fuel + 1) (sizeOf e))
      (fun v => Evaluated S arrays b ops
        (pos + (exprCode p.compilation pos depth arrays e).length) [v])
      (fun u w => Unwound S cleanups b (targets .handler) u ⟨w, xs⟩)
      (Evaluation.evaluate cx (fuel + 1) e xs w) := by
  cases e with
  | const n => exact ⟨1, _, Steps.move hcode.1 rfl, b, rfl, .refl b⟩
  | var x =>
    have value : xs.load x = b.load (.named x) := (ready.reads x).symm
    refine ⟨1, _, Steps.move hcode.1 rfl, b, ?_, .refl b⟩
    rw [value]
    rfl
  | string s =>
    obtain ⟨n, hn, hl⟩ := L.literal he
    have pushed : Steps image 1 (S.point w b ops pos) (S.point w b (.scalar n :: ops) (pos + 1)) := by
      have next : Steps image 1 (S.point w b ops pos) _ := Steps.one hcode.1 (by rintro ⟨⟩)
      simp only [Compilation.Mark.instruction, execute] at next
      have hn' : image.pool[(p.compilation.literals.idxOf? s).getD 0]? = some n := hn
      rw [hn'] at next
      exact next
    simp only [Evaluation.evaluate, hl]
    refine .after pushed ((follows_intrinsic [.scalar n] hcode.2.1 rfl rfl).mapDone ?_)
    rintro v w q rfl
    exact ⟨0, _, .refl _, b, rfl, .refl b⟩
  | unary op e =>
    obtain ⟨first, last⟩ := codeAt_append.mp hcode
    simp only [Evaluation.evaluate]
    refine (ih.evaluate (e := e) he first ready cleanups w).bind (fun _ => True)
      (fun m hm => hm.part (by simp +arith)) (fun _ _ => trivial) ?_
    rintro v w _ - ⟨b', rfl, kept⟩
    refine ⟨1, _, Steps.unary last.1, b', ?_, kept⟩
    simp [exprCode, Nat.add_assoc]
  | binary op l r =>
    obtain ⟨first, second, last⟩ := codeAt_append₃.mp hcode
    simp only [Evaluation.evaluate]
    refine (ih.evaluate he.1 first ready cleanups w).bind (Affords K fuel (sizeOf r))
      (fun m hm => hm.part (by simp +arith)) (fun m hm => hm.part (by simp +arith)) ?_
    rintro left w _ - ⟨b', rfl, kept⟩
    refine ((ih.evaluate he.2 second (ready.kept [left] kept) cleanups w).before
      kept.saved).bind (fun _ => True) (fun _ hm => hm) (fun _ _ => trivial) ?_
    rintro right w _ - ⟨b'', rfl, kept'⟩
    have done : Steps image 1 (S.point w b'' (right :: left :: ops) _) _ := Steps.binary last.1
    unfold Evaluation.operate
    cases hv : op.eval? left.word right.word with
    | none =>
      rw [hv] at done
      exact ⟨1, done⟩
    | some n =>
      rw [hv] at done
      refine ⟨1, _, done, b'', ?_, kept.trans (kept'.mono (Nat.le_add_right _ _))⟩
      simp [exprCode, Nat.add_assoc]
  | array boxed items =>
    obtain ⟨first, second, last⟩ := codeAt_append₃.mp hcode
    let make : Intrinsic := if boxed then .arrMakeBoxed else .arrMake
    have cannot : make.canThrow = false := by cases boxed <;> rfl
    have arity : make.arity = 2 := by cases boxed <;> rfl
    let size : Value := .scalar (.ofNat items.length)
    simp only [Evaluation.evaluate]
    have first₂ : CodeAt S.routine.code targets pos
        (code [.push (.ofNat items.length), .push 0]) := ⟨first.1, first.2.1, trivial⟩
    have pushed : Steps image 2 (S.point w b ops pos) (S.point w b (.scalar 0 :: size :: ops) _) :=
      Steps.block first₂ rfl
    refine .after pushed ((follows_intrinsic [size, .scalar 0] first.2.2.1 (by rw [arity]; rfl)
      cannot).bind (Affords K fuel (sizeOf items)) (fun _ hm => hm)
      (fun m hm => hm.part (by simp +arith)) ?_)
    rintro array w _ - rfl
    have stored : Steps image 1 (S.point w b (array :: ops) (pos + 3))
        (S.point w (b.set (.array arrays) array) ops (pos + 4)) :=
      Steps.move first.2.2.2.1 rfl
    have kept : Kept arrays b (b.set (.array arrays) array) := .array b array
    have ready' : Ready (b.set (.array arrays) array) ops xs depth := ready.kept [] kept
    have value : Store.load (b.set (.array arrays) array) (.array arrays) = array := by simp
    have itemsOk : ExprsOk p.compilation p.signatures items := he
    have filled := ih.fill itemsOk (Nat.lt_succ_self arrays) second ready' cleanups w
    rw [value] at filled
    refine .after stored ((filled.before kept.saved).bind (fun _ => True)
      (fun _ hm => hm) (fun _ _ => trivial) ?_)
    rintro ⟨⟩ w _ - ⟨b', rfl, kept'⟩
    have same : b'.load (.array arrays) = array := by
      rw [kept' (.array arrays) fun k hk h => by cases h; omega, value]
    refine ⟨1, _, Steps.move last.1 rfl, b', ?_, kept.trans (kept'.mono (Nat.le_succ _))⟩
    rw [same]
    simp [exprCode]
    omega
  | call callee arguments location =>
    obtain ⟨values, called, -⟩ := codeAt_append₃.mp hcode
    simp only [Evaluation.evaluate]
    refine (ih.evaluateAll he.2 values ready cleanups w).bind (Affords K (fuel + 1) 1)
      (fun m hm => hm.part (by simp +arith)) (fun m hm => ?_) ?_
    · unfold Affords at hm ⊢
      simp at hm
      omega
    rintro vs w _ - ⟨hvs, b', rfl, kept⟩
    cases callee with
    | unbound name arity => exact he.1.elim
    | declared s =>
      refine .called hcode ready kept cleanups (fun u w' => (L.unwinds fuel).call s vs w u w') ?_
      have step : Steps image 1 (S.point w b' (vs.reverse ++ ops) _) _ :=
        Steps.one called.1 (by rintro ⟨⟩)
      rw [Compilation.Mark.instruction, execute_call rfl (by rw [hvs]; exact he.1.2.symm)] at step
      refine .afterOne step ((ih.call he.1.1 vs w _).imp (fun _ hm => hm) ?_ ?_) fun m hm => ?_
      · rintro v w' q rfl
        exact ⟨0, _, .refl _, rfl⟩
      · rintro u w' q - rfl
        exact ⟨0, _, .refl _, rfl⟩
      · unfold Affords at hm
        rw [Nat.add_one_mul] at hm
        omega
    | intrinsic i =>
      refine .called hcode ready kept cleanups (fun u w' =>
        Evaluation.callIntrinsic_unwinds ⟨by decide, by decide⟩ i vs w u w') ?_
      exact follows_callIntrinsic called.1 (by rw [hvs]; exact he.1.symm)

theorem evaluateAll_succ (ih : Simulated p image cx K fuel) {es : List Expr}
    (he : ExprsOk p.compilation p.signatures es)
    (hcode : CodeAt S.routine.code targets pos (exprsCode p.compilation pos depth arrays es))
    (ready : Ready b ops xs depth) (cleanups : Nat) (w : World) :
    Follows image (S.point w b ops pos) (Affords K (fuel + 1) (sizeOf es))
      (fun vs w q => vs.length = es.length ∧ Evaluated S arrays b ops
        (pos + (exprsCode p.compilation pos depth arrays es).length) vs w q)
      (fun u w => Unwound S cleanups b (targets .handler) u ⟨w, xs⟩)
      (Evaluation.evaluateAll cx (fuel + 1) es xs w) := by
  cases es with
  | nil => exact ⟨0, _, .refl _, rfl, b, rfl, .refl b⟩
  | cons e rest =>
    obtain ⟨first, second⟩ := codeAt_append.mp hcode
    simp only [Evaluation.evaluateAll]
    refine (ih.evaluate he.1 first ready cleanups w).bind (Affords K fuel (sizeOf rest))
      (fun m hm => hm.part (by simp +arith)) (fun m hm => hm.part (by simp +arith)) ?_
    rintro v w _ - ⟨b', rfl, kept⟩
    refine ((ih.evaluateAll he.2 second (ready.kept [v] kept) cleanups w).before
      kept.saved).bind (fun _ => True) (fun _ hm => hm) (fun _ _ => trivial) ?_
    rintro vs w _ - ⟨hvs, b'', rfl, kept'⟩
    refine ⟨0, _, .refl _, by simp [hvs], b'', ?_, kept.trans (kept'.mono (Nat.le_add_right _ _))⟩
    simp [exprsCode, Nat.add_assoc]

theorem fill_succ (ih : Simulated p image cx K fuel) {es : List Expr} {k index : Nat}
    (he : ExprsOk p.compilation p.signatures es) (hk : k < arrays)
    (hcode : CodeAt S.routine.code targets pos
      (itemsCode p.compilation pos depth arrays (.array k) index es))
    (ready : Ready b ops xs depth) (cleanups : Nat) (w : World) :
    Follows image (S.point w b ops pos) (Affords K (fuel + 1) (sizeOf es))
      (fun _ => Evaluated S arrays b ops
        (pos + (itemsCode p.compilation pos depth arrays (.array k) index es).length) [])
      (fun u w => Unwound S cleanups b (targets .handler) u ⟨w, xs⟩)
      (Evaluation.fill cx (fuel + 1) (b.load (.array k)) index es xs w) := by
  cases es with
  | nil => exact ⟨0, _, .refl _, b, rfl, .refl b⟩
  | cons e rest =>
    let value := exprCode p.compilation (pos + 2) (depth + 2) arrays e
    simp only [itemsCode, List.append_assoc, codeAt_append] at hcode
    obtain ⟨load, first, set, check, pop, others⟩ := hcode
    have first : CodeAt S.routine.code targets (pos + 2) value := first
    have set := set.cast (pos + value.length + 2) (by simp [value]; omega)
    have check := check.cast (pos + value.length + 3) (by simp [value]; omega)
    have pop := pop.cast (pos + value.length + 3 + depth + 10) (by simp [value]; omega)
    have others := others.cast (pos + value.length + depth + 14) (by simp [value]; omega)
    let above := [b.load (.array k), .scalar (.ofNat index)]
    have loaded : Steps image 2 (S.point w b ops pos)
        (S.point w b (above.reverse ++ ops) (pos + 2)) := Steps.block load rfl
    have ready' : Ready b (above.reverse ++ ops) xs (depth + 2) :=
      ready.kept above (show Kept arrays b b from .refl b)
    simp only [Evaluation.fill]
    refine .after loaded ((ih.evaluate he.1 first ready' cleanups w).bind
      (Affords K fuel (sizeOf rest)) (fun m hm => hm.part (by simp +arith))
      (fun m hm => hm.part (by simp +arith)) ?_)
    rintro v w _ - ⟨b', rfl, kept⟩
    have ready'' : Ready b' ops xs depth := ready.kept [] kept
    have same : b'.load (.array k) = b.load (.array k) :=
      kept _ fun j hj h => by cases h; omega
    let arguments := [b.load (.array k), .scalar (.ofNat index), v]
    have stored : Follows image (S.point w b' (arguments.reverse ++ ops) _) (fun _ => True) _ _ _ :=
      follows_callIntrinsic set.1 rfl
    have here : pos + 2 + value.length = pos + value.length + 2 := by omega
    rw [here]
    refine ((stored.checked cleanups check ready'' fun u w hu =>
      (Evaluation.callIntrinsic_unwinds (Q := OwnNumber) ⟨by decide, by decide⟩ .arrSet _ _ _ _
        hu).leaves.number_ne).before kept.saved).bind (Affords K fuel (sizeOf rest))
      (fun _ _ => trivial) (fun _ hm => hm) ?_
    rintro v' w _ - rfl
    have popped : Steps image 1 (S.point w b' (v' :: ops) _) (S.point w b' ops _) :=
      Steps.move pop.1 rfl
    have rest := ih.fill he.2 (Nat.lt_of_lt_of_le hk (Nat.le_add_right _ _)) others ready'' cleanups w
    rw [same] at rest
    have there : pos + value.length + 3 + depth + 10 + 1 = pos + value.length + depth + 14 := by
      omega
    rw [there] at popped
    refine .after popped ((rest.before kept.saved).mapDone ?_)
    rintro ⟨⟩ w q ⟨b'', rfl, kept'⟩
    refine ⟨0, _, .refl _, b'', ?_, kept.trans (kept'.mono (Nat.le_add_right _ _))⟩
    simp [itemsCode, value]
    omega

end Expressions

end Threefold.Bytecode.Machine
