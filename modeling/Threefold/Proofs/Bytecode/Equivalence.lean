import Threefold.Proofs.Bytecode.Expressions
import Threefold.Proofs.Bytecode.Statements
import Threefold.Proofs.Heap.Traffic

/-!
# Programs and their bytecode

A program and its bytecode agree on every input (`run_iff_run_compile`): one run ends exactly if the
other does, and then they end alike, with the same output and the same uncaught exception or with the
same fault. What is left after expressions and statements is the frame of a function: its parameters,
and the code where its exceptions and returns end.

The numbers of exceptions are words. A program with so many types of exceptions that the numbers
wrap would have one that stands for a return or for nothing; that is the one assumption about the
program.
-/

namespace Threefold

theorem latest?_map {α β : Type} (q : β → Bool) (f : α → β) (xs : List α) :
    latest? q (xs.map f) = (latest? (fun x => q (f x)) xs).map f := by
  rw [latest?_eq_find?_reverse, latest?_eq_find?_reverse, ← List.map_reverse, List.find?_map]
  rfl

namespace Bytecode.Machine

open Compilation (Goal Mark CodeAt code codeAt_append codeAt_bodyCode stmtCode landingCode bodyCode
  routineOf)
open Evaluation (Variables Unwinding OwnNumber Leaves)

section Activations

variable {p : Program} {image : Image} {cx : Evaluation.Context} {K fuel : Nat}

theorem Reads.storeAll {b : Store} {xs : Variables} (h : Reads b xs) (hi : Idle b)
    (ps : List (String × Value)) :
    Reads (ps.foldl (fun b q => b.set (.named q.1) q.2) b)
        (ps.foldl (fun xs q => xs.set q.1 q.2) xs) ∧
      Idle (ps.foldl (fun b q => b.set (.named q.1) q.2) b) := by
  induction ps generalizing b xs with
  | nil => exact ⟨h, hi⟩
  | cons q ps ih => exact ih (h.store q.1 q.2) (hi.store q.2 (by nofun) (by nofun))

/-- The function and the routine that a call reaches. -/
theorem Loaded.reached (L : Loaded p image cx) {s : Signature} (hs : s ∈ p.signatures) :
    ∃ f ∈ p.functions, cx.function? s = some f ∧
      image.routine? s = some (routineOf p.compilation f) := by
  obtain ⟨g, hg, rfl⟩ := List.mem_map.mp hs
  have isSome : (cx.function? g.signature).isSome = true := by
    rw [Evaluation.Context.function?, latest?_eq_find?_reverse, List.find?_isSome, L.program]
    exact ⟨g, List.mem_reverse.mpr hg, by simp⟩
  obtain ⟨f, hf⟩ := Option.isSome_iff_exists.mp isSome
  refine ⟨f, L.program ▸ (Evaluation.Context.of_function? hf).1, hf, ?_⟩
  rw [Image.routine?, L.routines, latest?_map]
  rw [Evaluation.Context.function?, L.program] at hf
  have same : latest? (fun f => (routineOf p.compilation f).signature = g.signature)
      p.functions = some f := hf
  rw [same]
  rfl

section Landing

variable {S : Site} {w : World} {b : Store} {targets : Goal → Nat} {pos : Nat} {k : Int32}
  {v : Value}

/-- A return ends a routine. -/
theorem Steps.land_returning (hcode : CodeAt S.routine.code targets pos (code (landingCode pos)))
    (hu : Raised (.returning v) b) :
    Steps image 6 (S.point w b [] pos) (leave w v none S.callers) := by
  have test : CodeAt S.routine.code targets pos (code [.load .pending,
      .push Exceptions.returning, .binary .eq, .jumpIfZero (pos + 6)]) :=
    ⟨hcode.1, hcode.2.1, hcode.2.2.1, hcode.2.2.2.1, trivial⟩
  have compared : Steps image 4 (S.point w b [] pos) _ := Steps.compare test
  rw [hu.pending] at compared
  have loaded : Steps image 1 (S.point w b [] (pos + 4)) (S.point w b [b.load .pendingData] _) :=
    Steps.move hcode.2.2.2.2.1 rfl
  have data : b.load .pendingData = v := hu.payload
  have returned : Steps image 1 (S.point w b [b.load .pendingData] (pos + 5)) _ :=
    Steps.one hcode.2.2.2.2.2.1 (by nofun)
  rw [data] at loaded returned
  exact (compared.trans loaded).trans returned

/-- An exception ends a routine that can throw. -/
theorem Steps.land_thrown (hcode : CodeAt S.routine.code targets pos (code (landingCode pos)))
    (hu : Raised (.thrown k v) b) (can : S.routine.canThrow = true) (hk : OwnNumber k) :
    Steps image 6 (S.point w b [] pos)
      (leave w (.scalar 0) (some (.scalar k, v)) S.callers) := by
  have test : CodeAt S.routine.code targets pos (code [.load .pending,
      .push Exceptions.returning, .binary .eq, .jumpIfZero (pos + 6)]) :=
    ⟨hcode.1, hcode.2.1, hcode.2.2.1, hcode.2.2.2.1, trivial⟩
  have compared : Steps image 4 (S.point w b [] pos) _ := Steps.compare test
  have other : ¬ (b.load .pending).word = Exceptions.returning := by
    rw [hu.pending]
    exact hk.2
  rw [if_neg other] at compared
  have transfer : S.routine.code[pos + 6]? = some .transfer := hcode.2.2.2.2.2.2.1
  have returnZero : S.routine.code[pos + 7]? = some .returnZero := hcode.2.2.2.2.2.2.2.1
  have handed : some (.scalar k, v) = some (b.load .pending, b.load .pendingData) := by
    rw [hu.pending, hu.payload]
    rfl
  have first : Machine.step image w ⟨S.routine, b, [], pos + 6, none⟩ S.callers =
      .running w ⟨S.routine, b, [], pos + 7, some (.scalar k, v)⟩ S.callers := by
    simp only [Machine.step, transfer, handed]
    rfl
  have second : Machine.step image w ⟨S.routine, b, [], pos + 7, some (.scalar k, v)⟩ S.callers =
      leave w (.scalar 0) (some (.scalar k, v)) S.callers := by
    simp only [Machine.step, returnZero]
    rfl
  have ended : Steps image 2 (S.point w b [] (pos + 6))
      (leave w (.scalar 0) (some (.scalar k, v)) S.callers) := by
    refine .step (fun _ => can) ?_
    rw [first]
    refine .step (fun _ => can) ?_
    rw [second]
    exact .refl _
  exact compared.trans ended

end Landing

theorem call_succ (L : Loaded p image cx) (hK : ∀ f ∈ p.functions, sizeOf f.body + 2 ≤ K)
    (ih : Simulated p image cx K fuel) {s : Signature} (hs : s ∈ p.signatures) (vs : List Value)
    (w : World) (callers : List Activation) :
    Follows image (enter image w s vs callers) (fun m => m * K + K ≤ fuel + 1)
      (fun v w q => q = leave w v none callers)
      (fun u w q => q = leave w (.scalar 0) (some (.scalar u.number, u.payload)) callers)
      (Evaluation.call cx (fuel + 1) s vs w) := by
  obtain ⟨f, hf, hfunction, hroutine⟩ := L.reached hs
  let S : Site := ⟨routineOf p.compilation f, callers⟩
  let inner := stmtCode p.compilation 0 0 0 f.body
  let b : Store := (f.parameters.zip vs).foldl (fun b q => b.set (.named q.1) q.2) .empty
  let xs : Variables := .bind f.parameters vs
  obtain ⟨hr, hi⟩ : Reads b xs ∧ Idle b :=
    Reads.storeAll (fun _ => rfl) ⟨rfl, rfl⟩ (f.parameters.zip vs)
  obtain ⟨body, landing⟩ := codeAt_append.mp (codeAt_bodyCode p.compilation f.body)
  have landing := landing.cast inner.length (Nat.zero_add _)
  have entered : enter image w s vs callers = S.point w b [] 0 := by
    rw [enter, hroutine]
    rfl
  have h := ih.execute (S := S) (L.linked.stmtOk hf) body (s := ⟨w, xs⟩) hr hi
  have bound := hK f hf
  simp only [Evaluation.call, hfunction]
  rw [entered]
  cases hx : Evaluation.execute cx fuel f.body ⟨w, xs⟩ with
  | fault g =>
    rw [hx] at h
    exact h
  | exhausted =>
    rw [hx] at h
    refine fun m hm => h m ?_
    unfold Affords
    omega
  | done a t =>
    rw [hx] at h
    obtain ⟨n, _, hn, b', rfl, -⟩ := h
    rw [Nat.zero_add] at hn
    exact ⟨_, _, hn.trans (Steps.one landing.1 (by rintro ⟨⟩)), rfl⟩
  | unwinding u t =>
    rw [hx] at h
    obtain ⟨n, _, hn, b', rfl, hu, -⟩ := h
    have left := (L.unwinds fuel).execute f.body _ u t hx
    cases u with
    | returning v => exact ⟨_, _, hn.trans (Steps.land_returning landing.2 hu), rfl⟩
    | thrown k v =>
      have can : S.routine.canThrow = true := decide_eq_true (p.throwing_closed f hf left.1)
      exact ⟨_, _, hn.trans (Steps.land_thrown landing.2 hu can left.2), rfl⟩

/-- Within no bound nothing is evaluated, and nothing is claimed. -/
theorem simulated_zero (hK : 0 < K) : Simulated p image cx K 0 := by
  have never : ∀ {size m : Nat} {P : Prop}, Affords K 0 size m → P :=
    fun hm => absurd hm (Nat.not_lt_zero _)
  constructor
  case call =>
    intros
    exact fun m hm => by omega
  all_goals
    intros
    exact fun m hm => never hm

/-- The machine follows the evaluation of a program. -/
theorem simulated (L : Loaded p image cx) (hK : ∀ f ∈ p.functions, sizeOf f.body + 2 ≤ K)
    (hpos : 0 < K) (fuel : Nat) : Simulated p image cx K fuel := by
  induction fuel with
  | zero => exact simulated_zero hpos
  | succ fuel ih =>
    constructor
    case evaluate => exact fun {_} he {_ _ _ _ _} hcode {_ _ _} => evaluate_succ L ih he hcode
    case evaluateAll => exact fun {_} he {_ _ _ _ _} hcode {_ _ _} => evaluateAll_succ ih he hcode
    case fill => exact fun {_} he {_ _ _ _ _ _ _} hk hcode {_ _ _} => fill_succ ih he hk hcode
    case call => exact call_succ L hK ih
    case execute => exact fun {_} hst {_ _ _ _ _} hcode {_ _} => execute_succ L ih hst hcode
    case repeatWhile => exact fun {_ _} hst {_ _ _ _ _} hcode {_ _} => repeatWhile_succ hpos ih hst hcode
    case attempt =>
      exact fun {_ _} _ _ hb hc {_ _ _ _ _ _} hl hcode hexit hbranches {_ _} =>
        attempt_succ L ih hb hc hl hcode hexit hbranches
    case finish => exact fun {_} _ hst {_ _ _ _ _} hcode {_ _} => finish_succ ih hst hcode

end Activations

end Bytecode.Machine

/-- The run of a program in bytecode has one outcome. -/
theorem Bytecode.run_unique {b : Bytecode} {input : List Int32} {m n : Nat}
    {r r' : Except Fault Outcome} (h : b.run input m = some r) (h' : b.run input n = some r') :
    r = r' := by
  obtain ⟨e, he, rfl⟩ := Option.map_eq_some_iff.mp h
  obtain ⟨e', he', rfl⟩ := Option.map_eq_some_iff.mp h'
  rw [Machine.run_unique he he']

namespace Program

open Bytecode (Machine.enter Machine.run)
open Bytecode.Machine (Loaded Steps Progress simulated)

variable {p : Program}

/-- A program and its bytecode start alike. -/
theorem loaded (h : p.Linked) (few : p.exceptions.length < 2 ^ 32 - 1) (input : List Int32) :
    Loaded p (p.bytecode.load input).1 (Evaluation.start p input).1 ∧
      (p.bytecode.load input).2 = (Evaluation.start p input).2 := by
  obtain ⟨pool, heap, hp, hl⟩ := Heap.preload_ok p.literals (.empty false)
  have hp' : Heap.preload p.bytecode.literals (.empty false) = .ok pool heap := hp
  simp only [Bytecode.load, Evaluation.start, World.start, hp, hp']
  exact ⟨⟨h, rfl, rfl, rfl, rfl, by simpa using hl, rfl, few⟩, trivial⟩

theorem exists_bound (fs : List Function) : ∃ K, 0 < K ∧ ∀ f ∈ fs, sizeOf f.body + 2 ≤ K := by
  induction fs with
  | nil => exact ⟨1, by decide, fun f hf => by cases hf⟩
  | cons f fs ih =>
    obtain ⟨K, hK, hfs⟩ := ih
    refine ⟨K + (sizeOf f.body + 2), by omega, fun g hg => ?_⟩
    rcases List.mem_cons.mp hg with rfl | hg
    · omega
    · have := hfs g hg
      omega

/-- The machine ends as the evaluation does, and goes on for long where the evaluation needs a large
bound. -/
theorem follows_run (h : p.Linked) (few : p.exceptions.length < 2 ^ 32 - 1) (input : List Int32) :
    ∃ K, ∀ fuel,
      (∀ r, p.run input fuel = some r → ∃ n, p.bytecode.run input n = some r) ∧
      (p.run input fuel = none → ∀ n, n * K + K ≤ fuel → p.bytecode.run input n = none) := by
  obtain ⟨K, hpos, hK⟩ := exists_bound p.functions
  obtain ⟨L, hw⟩ := loaded h few input
  refine ⟨K, fun fuel => ?_⟩
  obtain ⟨cx, w, hs⟩ : ∃ cx w, Evaluation.start p input = (cx, w) := ⟨_, _, rfl⟩
  obtain ⟨image, w', hb⟩ : ∃ image w', p.bytecode.load input = (image, w') := ⟨_, _, rfl⟩
  rw [hs, hb] at L hw
  cases hw
  have followed := (simulated L hK hpos fuel).call h.entry_mem [] w []
  have ended : ∀ {n : Nat} {q : Progress} {r : Except Fault Outcome},
      Steps image n (Machine.enter image w p.entry [] []) q →
      (Machine.run image 0 q).map (fun e => e.map p.bytecode.outcome) = some r →
      p.bytecode.run input n = some r := by
    intro n q r hn hr
    have run := hn.run 0
    rw [Nat.add_zero] at run
    simp only [Bytecode.run, hb]
    rw [← hr, ← run]
    rfl
  simp only [Program.run, hs]
  cases hx : Evaluation.call cx fuel p.entry [] w with
  | done v t =>
    rw [hx] at followed
    obtain ⟨n, q, hn, rfl⟩ := followed
    refine ⟨fun r hr => ⟨n, ended hn ?_⟩, by nofun⟩
    rw [← hr]
    rfl
  | unwinding u t =>
    rw [hx] at followed
    obtain ⟨n, q, hn, rfl⟩ := followed
    cases u with
    | returning v => exact ((L.unwinds fuel).call p.entry [] w _ t hx).elim
    | thrown k v =>
      refine ⟨fun r hr => ⟨n, ended hn ?_⟩, by nofun⟩
      have names : cx.exceptions = p.exceptions := L.exceptions
      rw [← hr, names]
      rfl
  | fault f =>
    rw [hx] at followed
    obtain ⟨n, hn⟩ := followed
    refine ⟨fun r hr => ⟨n, ended hn ?_⟩, by nofun⟩
    rw [← hr]
    rfl
  | exhausted =>
    rw [hx] at followed
    refine ⟨by nofun, fun _ n hn => ?_⟩
    simp only [Bytecode.run, hb]
    have lasts := (followed n hn).run
    have entry : p.bytecode.entry = p.entry := rfl
    rw [entry, lasts]
    rfl

/-- A program and its bytecode agree, as long as the program has fewer than `2 ^ 32 - 1` types of
exceptions, whose numbers then do not wrap around onto those of no exception: one run ends if and only if
the other does, and then both end alike. -/
theorem run_iff_run_compile {file source entry : String} (h : load file source entry = .ok p)
    (few : p.exceptions.length < 2 ^ 32 - 1) :
    ∃ b, p.compile = .ok b ∧
      ∀ input r, (∃ n, p.run input n = some r) ↔ ∃ n, b.run input n = some r := by
  have linked := linked_of_load h
  refine ⟨p.bytecode, linked.compile_eq, fun input r => ?_⟩
  obtain ⟨K, followed⟩ := follows_run linked few input
  constructor
  · rintro ⟨n, hn⟩
    exact (followed n).1 r hn
  · rintro ⟨n, hn⟩
    have enough := followed (n * K + K)
    cases hr : p.run input (n * K + K) with
    | none =>
      rw [enough.2 hr n (Nat.le_refl _)] at hn
      cases hn
    | some r' =>
      obtain ⟨m, hm⟩ := enough.1 r' hr
      rw [Bytecode.run_unique hn hm]
      exact ⟨_, hr⟩

theorem run_iff_run_compile_finally :
    ∃ p, load "finally" "try throw (A 7) finally write(2) yrt" entryName = .ok p ∧
      p.exceptions.length < 2 ^ 32 - 1 ∧
      ∃ b, p.compile = .ok b ∧
        ∀ input r, (∃ n, p.run input n = some r) ↔ ∃ n, b.run input n = some r := by
  have names :
      (load "finally" "try throw (A 7) finally write(2) yrt" entryName).toOption.map exceptions =
        some ["IndexOutOfBounds", "A"] := by decide +kernel
  cases h : load "finally" "try throw (A 7) finally write(2) yrt" entryName with
  | error e =>
    rw [h] at names
    cases names
  | ok p =>
    rw [h] at names
    have few : p.exceptions.length < 2 ^ 32 - 1 := by
      rw [Option.some.inj names]
      decide
    exact ⟨p, rfl, few, run_iff_run_compile h few⟩

end Program

end Threefold
