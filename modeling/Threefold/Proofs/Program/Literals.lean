import Threefold.Proofs.Bytecode.Copying
import Threefold.Proofs.Evaluation.Moments
import Threefold.Proofs.X86.Heights
import Threefold.Proofs.X86.Shapes

/-!
# String literals keep their text

The string literals of a program are on the heap before its run, as strings that a program can name:
words are not distinguished from handles. A literal is evaluated to a copy of its entry in the pool, so
a program that computes with the strings that it gets changes no entry. It does if it guesses the
number of an entry and sets bytes there, and then later copies have these bytes
(`literal_overwritten`). Nothing else changes an entry: `literals_kept` says what every entry is at
every moment of a run, and what comes of the evaluation of a literal.
-/

namespace Threefold

/-- The string literals of a pool after some moments: nothing has changed but the bytes that were set
under the very handle of a literal. -/
def World.KeepsPool (literals : List String) (earlier : List Moment) (w : World) : Prop :=
  ∀ k text, literals[k]? = some text → Heap.base + k < 2 ^ 31 →
    w.heap.Names (Heap.handle k) k
      (.string (earlier.foldl (Moment.rewrite (Heap.handle k)) text.toUTF8.data))

variable {w₀ w : World} {literals : List String} {ms : List Moment}

theorem Chain.keepsPool (chain : Chain w₀ ms (some w))
    (start : w₀.heap = finalState (Heap.preload literals (.empty false))) :
    w.KeepsPool literals ms := by
  intro k text there room
  exact chain.rewrites (start ▸ Heap.preload_lasting literals)
    (start ▸ Heap.preload_names there room)

/-- What comes of the evaluation of a literal of the pool. -/
theorem Chain.copies_literal (chain : Chain w₀ ms (some w))
    (start : w₀.heap = finalState (Heap.preload literals (.empty false))) {k : Nat} {text : String}
    (there : literals[k]? = some text) (room : Heap.base + w.heap.cells.size < 2 ^ 31) :
    ∃ n w', Intrinsic.call .strDup [.scalar (Heap.handle k)] w = .ok (.scalar n) w' ∧
      Copied ms w (Heap.handle k) text n w' := by
  have inside : k < w₀.heap.cells.size := by
    rw [start, Heap.preload_eq]
    simpa [finalState, Heap.empty] using (List.getElem?_eq_some_iff.mp there).1
  have grown := chain.grows.size
  have names := Heap.preload_names there (show Heap.base + k < 2 ^ 31 by omega)
  exact chain.copies (start ▸ Heap.preload_lasting literals) (start ▸ names) room

namespace Program

variable {p : Program} {file source : String}

/-- What becomes of the literals of a program in its runs, up to any bound on the depth: at every moment,
the entries of the pool are as they were but for the bytes that were set under their handles, and the
evaluation of a literal yields a copy of its entry. The moments leave nothing out. -/
structure KeepsLiterals (p : Program) (input : List Int32) : Prop where
  chain : ∀ fuel, Chain (Evaluation.start p input).2 (p.moments input fuel)
    (Evaluation.call (Evaluation.start p input).1 fuel p.entry [] (Evaluation.start p input).2).state?
  pool : ∀ fuel before m after, p.moments input fuel = before ++ m :: after →
    m.world.KeepsPool p.literals before
  copied : ∀ fuel before w text after, p.moments input fuel = before ++ ⟨w, .literal text⟩ :: after →
    Heap.base + w.heap.cells.size < 2 ^ 31 → ∃ k n w', p.literals[k]? = some text ∧
      Evaluation.literal (Evaluation.start p input).1 text w = .done (.scalar n) w' ∧
      Copied before w (Heap.handle k) text n w'

/-- A literal is evaluated to a copy of its entry in the pool. -/
theorem literal_start (input : List Int32) {text : String} (there : text ∈ p.literals) :
    ∃ k, p.literals[k]? = some text ∧ ∀ w n w',
      Intrinsic.call .strDup [.scalar (Heap.handle k)] w = .ok (.scalar n) w' →
      Evaluation.literal (Evaluation.start p input).1 text w = .done (.scalar n) w' := by
  obtain ⟨k, found⟩ := Option.isSome_iff_exists.mp (List.isSome_idxOf?.mpr there)
  obtain ⟨inside, same, -⟩ := List.findIdx?_eq_some_iff_getElem.mp found
  refine ⟨k, List.getElem?_eq_some_iff.mpr ⟨inside, eq_of_beq same⟩, fun w n w' called => ?_⟩
  have entry : (p.literals.idxOf? text).bind
      (((List.range p.literals.length).map Heap.handle).toArray[·]?) = some (Heap.handle k) := by
    simp [found, inside]
  rw [Evaluation.start_eq]
  simp only [Evaluation.literal, entry, Evaluation.callIntrinsic, called]
  rfl

theorem keepsLiterals (p : Program) (input : List Int32) : p.KeepsLiterals input := by
  have recounts (fuel : Nat) :=
    (Evaluation.recounted (Evaluation.pooled_start p input) fuel).call p.entry []
      (Evaluation.start p input).2
  have literals : (Evaluation.start p input).1.literals = p.literals := by
    rw [Evaluation.start_eq]
  have start : (Evaluation.start p input).2.heap =
      finalState (Heap.preload p.literals (.empty false)) := by
    rw [Evaluation.start_eq]
  have chain (fuel : Nat) : Chain (Evaluation.start p input).2 (p.moments input fuel)
      (Evaluation.call (Evaluation.start p input).1 fuel p.entry []
        (Evaluation.start p input).2).state? := by
    have chain := (recounts fuel).chain
    rwa [Option.map_id] at chain
  have before {fuel : Nat} {before after : List Moment} {m : Moment}
      (moments : p.moments input fuel = before ++ m :: after) :
      Chain (Evaluation.start p input).2 before (some m.world) :=
    (moments ▸ chain fuel).split.1
  refine ⟨chain, fun fuel _ m after moments => (before moments).keepsPool start, ?_⟩
  intro fuel earlier w text after moments room
  have pooled : text ∈ p.literals := by
    rw [← literals]
    refine (recounts fuel).pooled w text ?_
    rw [show Evaluation.callMoments (Evaluation.start p input).1 fuel p.entry []
      (Evaluation.start p input).2 = _ from moments]
    exact List.mem_append_right _ List.mem_cons_self
  obtain ⟨k, there, evaluated⟩ := literal_start input pooled
  obtain ⟨n, w', called, copied⟩ := (before moments).copies_literal start there room
  exact ⟨k, n, w', there, evaluated w n w' called, copied⟩

end Program

namespace Bytecode

open Machine

/-- What a run of bytecode begins with. -/
def begin (b : Bytecode) (input : List Int32) : Progress :=
  enter (b.load input).1 (b.load input).2 b.entry [] []

/-- What becomes of the literals of some bytecode in its runs: whatever a run comes to, the entries of
the pool are as they were but for the bytes that were set under their handles, and behind an
instruction for a literal the run goes on with a copy of its entry. -/
structure KeepsLiterals (b : Bytecode) (input : List Int32) : Prop where
  pool : ∀ ms q w, Takes (b.load input).1 (b.begin input) ms q → q.world? = some w →
    w.KeepsPool b.literals ms
  copied : ∀ ms w a callers j, Takes (b.load input).1 (b.begin input) ms (.running w a callers) →
    a.routine.code[a.next]? = some (.pushLiteral j) → Heap.base + w.heap.cells.size < 2 ^ 31 →
    ∃ text n w', b.literals[j]? = some text ∧
      Takes (b.load input).1 (b.begin input) (ms ++ [⟨w, .call .strDup [.scalar (Heap.handle j)]⟩])
        (.running w' (Activation.push { a with next := a.next + 2 } (.scalar n)) callers) ∧
      Copied ms w (Heap.handle j) text n w'

theorem load_eq (b : Bytecode) (input : List Int32) : b.load input =
    (⟨b.routines, ((List.range b.literals.length).map Heap.handle).toArray⟩,
      ⟨finalState (Heap.preload b.literals (.empty false)), ⟨input, #[]⟩⟩) := by
  simp only [load, World.start, Heap.preload_eq]
  simp [Heap.empty, finalState]

end Bytecode

namespace Program

open Bytecode Bytecode.Machine

variable {p : Program} {file source : String}

/-- Behind every instruction for a literal in the bytecode of an accepted program there is a call that
makes a copy. -/
theorem copies_bytecode {r : Routine} (hr : r ∈ p.bytecode.routines) {k j : Nat}
    (here : r.code[k]? = some (.pushLiteral j)) :
    j < p.literals.length ∧ r.code[k + 1]? = some (.call (.intrinsic .strDup)) := by
  obtain ⟨f, hf, rfl⟩ := List.mem_map.mp hr
  have code : (Compilation.routineOf p.compilation f).code =
    (Compilation.bodyCode p.compilation f.body).toArray := rfl
  rw [code, List.getElem?_toArray] at here ⊢
  exact Compilation.copies_bodyCode (fun _ => mem_literals hf) here

theorem bytecode_keepsLiterals (h : load file source entryName = .ok p) (input : List Int32) :
    p.bytecode.KeepsLiterals input := by
  obtain ⟨asm, -, lowered⟩ := lowered_of_load h
  have begins : Chain (p.bytecode.load input).2 [] (p.bytecode.begin input).world? :=
    fun _ hw => enter_world hw
  have start : (p.bytecode.load input).2.heap =
      finalState (Heap.preload p.bytecode.literals (.empty false)) := by
    rw [load_eq]
  refine ⟨fun ms q w taken hw => ?_, fun ms w a callers j taken here room => ?_⟩
  · have chain := taken.chain begins
    rw [hw] at chain
    exact chain.keepsPool start
  · have chain : Chain _ ms (some w) := taken.chain begins
    have mem : a.routine ∈ p.bytecode.routines :=
      (consistent_of_reached lowered taken.reached).1.routine
    obtain ⟨inside, next⟩ := copies_bytecode mem here
    have pooled : (p.bytecode.load input).1.pool[j]? = some (Heap.handle j) := by
      rw [load_eq]
      have within : j < p.bytecode.literals.length := inside
      simp [within]
    have there : p.bytecode.literals[j]? = some p.literals[j] := List.getElem?_eq_getElem inside
    obtain ⟨n, w', called, copied⟩ := chain.copies_literal start there room
    exact ⟨p.literals[j], n, w', there, taken.literal here next pooled called, copied⟩

/-- The evaluation of a string literal yields a new string with the text of the literal, but for the
bytes that were set under the handle of the literal itself; nothing else changes the pool. -/
theorem literals_kept (h : load file source entryName = .ok p) (input : List Int32) :
    p.KeepsLiterals input ∧ ∃ b, p.compile = .ok b ∧ b.KeepsLiterals input := by
  obtain ⟨-, compiled, -⟩ := lowered_of_load h
  exact ⟨keepsLiterals p input, p.bytecode, compiled, bytecode_keepsLiterals h input⟩

/-- A program that reads a byte of a literal between two others. -/
def reading : String :=
  "s := \"ab\"; write(strget(\"cd\", 0)); write(strlen(s))"

theorem literals_kept_reading :
    ∃ p, load "reading" reading entryName = .ok p ∧ p.literals = ["ab", "cd"] ∧
      ∀ input, p.KeepsLiterals input ∧ ∃ b, p.compile = .ok b ∧ b.KeepsLiterals input := by
  have names : (load "reading" reading entryName).toOption.map literals = some ["ab", "cd"] := by
    decide +kernel
  cases h : load "reading" reading entryName with
  | error e =>
    rw [h] at names
    cases names
  | ok p =>
    rw [h] at names
    exact ⟨p, rfl, Option.some.inj names, literals_kept h⟩

/-- The literal that is evaluated at some moment of a run, and the object that the result names. -/
def evaluated? (p : Program) (input : List Int32) (fuel i : Nat) : Option (String × HeapObject) :=
  match (p.moments input fuel)[i]? with
  | some ⟨w, .literal text⟩ =>
    match Evaluation.literal (Evaluation.start p input).1 text w with
    | .done v w' =>
      match Heap.object v.word w'.heap with
      | .ok o _ => some (text, o)
      | .error _ _ => none
    | _ => none
  | _ => none

/-- A program that sets a byte under the handle of a literal between two evaluations of it. -/
def overwriting : String :=
  "write(strget(\"a\", 0)); strset(4096, 0, 98); write(strget(\"a\", 0))"

/-- A literal is evaluated to a string with another text. -/
theorem literal_overwritten :
    ∃ p, load "overwriting" overwriting entryName = .ok p ∧
      p.evaluated? [] 10 0 = some ("a", .ofString "a") ∧
      p.evaluated? [] 10 5 = some ("a", .ofString "b") ∧
      p.run [] 10 = some (.ok ⟨[97, 98], none⟩) ∧
      ∃ b, p.compile = .ok b ∧ b.run [] 56 = some (.ok ⟨[97, 98], none⟩) := by
  have ended {r : Option (Except Fault Outcome)} {o : Outcome}
      (h : r.bind Except.toOption = some o) : r = some (.ok o) := by
    obtain _ | _ | o' := r <;> cases h
    rfl
  have evaluated : (load "overwriting" overwriting entryName).toOption.map (fun p =>
      ((p.evaluated? [] 10 0, p.evaluated? [] 10 5), (p.run [] 10).bind Except.toOption,
        p.compile.toOption.bind fun b => (b.run [] 56).bind Except.toOption)) =
        some ((some ("a", .ofString "a"), some ("a", .ofString "b")), some ⟨[97, 98], none⟩,
          some ⟨[97, 98], none⟩) := by
    decide +kernel
  cases h : load "overwriting" overwriting entryName with
  | error e =>
    rw [h] at evaluated
    cases evaluated
  | ok p =>
    rw [h] at evaluated
    simp only [Except.toOption, Option.map_some, Option.some.injEq, Prod.mk.injEq] at evaluated
    obtain ⟨⟨first, second⟩, ran, ranCompiled⟩ := evaluated
    cases compiled : p.compile with
    | error e =>
      rw [compiled] at ranCompiled
      cases ranCompiled
    | ok b =>
      rw [compiled] at ranCompiled
      exact ⟨p, rfl, first, second, ended ran, b, compiled, ended ranCompiled⟩

end Program

end Threefold
