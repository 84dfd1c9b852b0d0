import Threefold.Proofs.Bytecode.Equivalence
import Threefold.Proofs.Bytecode.Underway

/-!
# Runs in which what is noted holds

Between calls an activation goes on as its listing does. What comes with a run is the stack of
activations: each caller waits for any value, and for any exception that what it has called can hand
over. A function that the analysis of exceptions does not name hands none over (`Undisturbed`), and
so code behind a call of it need not look for one. Every instruction preserves that the activations
go on as their notes say (`Disciplined.step`).

* `pending_discipline` is about whole programs.
-/

namespace Threefold.Bytecode.Underway

open Machine (Activation Frame Harmless Holds Image Progress Reached Transferred Undisturbed Watch
  Watched callIntrinsic enter execute leave undisturbed_enter watches)
open Compilation (Note)

/-! ## Activations and their callers -/

section Runs

variable {throwing : List Signature} {notes : Routine → Nat → List Note}

/-- An activation goes on as its notes say, which fit its code, and hands over at most an exception
with a number of its own. -/
structure Follows (throwing : List Signature) (notes : Routine → Nat → List Note) (a : Activation)
    (g : Watch) : Prop where
  fits : ∀ i, ∀ m ∈ notes a.routine i, ∃ j, a.routine.code[i]? = some j ∧ m.Fits j
  handed : Handed a.transferred
  safe : ∀ n, Safe ⟨a.routine.code, notes a.routine, throwing⟩ n a.next (a.frame g)

/-- An activation goes on as its notes say with whatever it receives from what it has called. -/
def Awaits (throwing : List Signature) (notes : Routine → Nat → List Note) (c : Callee)
    (a : Activation) (g : Watch) : Prop :=
  ∀ v t, Delivers throwing c t → Follows throwing notes ((a.receive t).push v) g

/-- Callers wait for what they have called. -/
def Waiting (throwing : List Signature) (notes : Routine → Nat → List Note) :
    Signature → List Activation → List Watch → Prop
  | _, [], [] => True
  | s, a :: callers, g :: gs =>
    Awaits throwing notes (.routine s) a g ∧ Waiting throwing notes a.routine.signature callers gs
  | _, _, _ => False

theorem Waiting.length {s : Signature} {callers : List Activation} {gs : List Watch}
    (h : Waiting throwing notes s callers gs) : gs.length = callers.length := by
  induction callers generalizing s gs with
  | nil =>
    cases gs with
    | nil => rfl
    | cons g gs => exact h.elim
  | cons a callers ih =>
    cases gs with
    | nil => exact h.elim
    | cons g gs => exact congrArg (· + 1) (ih h.2)

/-- In a run the activations go on as their notes say. -/
def Disciplined (throwing : List Signature) (notes : Routine → Nat → List Note) :
    Progress → List Watch → Prop
  | .running _ a callers, g :: gs =>
    Follows throwing notes a g ∧ Waiting throwing notes a.routine.signature callers gs
  | .running .., [] => False
  | .ended .., _ => True
  | .fault _, _ => True

/-- What a call reaches has the signature that was called, and goes on as its notes say. -/
def BeginsNoted (image : Image) (throwing : List Signature) (notes : Routine → Nat → List Note) :
    Prop :=
  ∀ s r, image.routine? s = some r →
    r.signature = s ∧ ∀ vs, Follows throwing notes (.start r vs) .fresh

section Step

variable {image : Image} {w : World} {a : Activation} {callers : List Activation} {g : Watch}
  {gs : List Watch}

@[simp]
theorem watches_same : watches g gs callers.length (.running w a callers) = g :: gs := by
  simp [watches]

@[simp]
theorem watches_called {caller : Activation} :
    watches g gs callers.length (.running w a (caller :: callers)) = .fresh :: g :: gs := by
  simp [watches]

@[simp]
theorem watches_left {caller : Activation} :
    watches g gs (caller :: callers).length (.running w a callers) = gs := by
  have fewer : ¬ callers.length + 1 < callers.length := by omega
  simp [watches, fewer]

/-- The same activation goes on. -/
theorem disciplined_next (follows : Follows throwing notes a g)
    (waiting : Waiting throwing notes a.routine.signature callers gs) :
    Disciplined throwing notes (.running w a callers)
      (watches g gs callers.length (.running w a callers)) := by
  rw [watches_same]
  exact ⟨follows, waiting⟩

theorem disciplined_enter (begins : BeginsNoted image throwing notes) {s : Signature}
    (vs : List Value) (waiting : Waiting throwing notes s callers gs) :
    Disciplined throwing notes (enter image w s vs callers) (.fresh :: gs) := by
  unfold enter
  cases found : image.routine? s with
  | none => trivial
  | some r =>
    obtain ⟨rfl, follows⟩ := begins s r found
    exact ⟨follows vs, waiting⟩

/-- A routine is called. -/
theorem disciplined_call (begins : BeginsNoted image throwing notes) {s : Signature}
    (vs : List Value) (awaits : Awaits throwing notes (.routine s) a g)
    (waiting : Waiting throwing notes a.routine.signature callers gs) :
    Disciplined throwing notes (enter image w s vs (a :: callers))
      (watches g gs callers.length (enter image w s vs (a :: callers))) := by
  have entered : Disciplined throwing notes (enter image w s vs (a :: callers))
      (.fresh :: g :: gs) := disciplined_enter begins vs ⟨awaits, waiting⟩
  unfold enter at entered ⊢
  cases found : image.routine? s with
  | none => trivial
  | some r =>
    rw [found] at entered
    dsimp only
    rw [watches_called]
    exact entered

/-- A caller receives what it has waited for. -/
theorem disciplined_leave {s : Signature} (waiting : Waiting throwing notes s callers gs)
    (v : Value) {t : Option Transferred} (ht : Delivers throwing (.routine s) t) :
    Disciplined throwing notes (leave w v t callers)
      (watches g gs callers.length (leave w v t callers)) := by
  match callers, gs, waiting with
  | [], _, _ => trivial
  | caller :: callers, g' :: gs, ⟨awaits, waiting⟩ =>
    rw [leave, watches_left]
    have same : (caller.receive t).routine = caller.routine := by cases t <;> rfl
    refine ⟨awaits v t ht, ?_⟩
    show Waiting throwing notes (caller.receive t).routine.signature callers gs
    rw [same]
    exact waiting

/-- A built-in function is called. -/
theorem disciplined_callIntrinsic (i : Intrinsic) (vs : List Value)
    (awaits : Awaits throwing notes (.intrinsic i) a g)
    (waiting : Waiting throwing notes a.routine.signature callers gs) :
    Disciplined throwing notes (callIntrinsic w i vs a callers)
      (watches g gs callers.length (callIntrinsic w i vs a callers)) := by
  unfold callIntrinsic
  cases called : i.call vs w with
  | error f w' => trivial
  | ok reply w' =>
    cases reply with
    | returned v => exact disciplined_next (awaits v none ⟨trivial, fun _ => rfl⟩) waiting
    | outOfBounds k =>
      have own : Evaluation.OwnNumber Exceptions.outOfBounds :=
        ⟨by decide, by decide⟩
      refine disciplined_next (awaits _ (some (_, _)) ⟨⟨_, own, rfl⟩, fun harmless => ?_⟩) waiting
      obtain ⟨v, impossible⟩ := Intrinsic.call_answers harmless called
      cases impossible

/-- Execute an instruction. -/
theorem disciplined_execute (begins : BeginsNoted image throwing notes) {i : Instruction}
    (hi : a.routine.code[a.next]? = some i)
    (quiet : a.routine.signature ∉ throwing → a.transferred = none)
    (follows : Follows throwing notes a g)
    (waiting : Waiting throwing notes a.routine.signature callers gs) :
    Disciplined throwing notes (execute image i w { a with next := a.next + 1 } callers)
      (watches ((a.frame g).seeAll (notes a.routine a.next)).watch gs callers.length
        (execute image i w { a with next := a.next + 1 } callers)) := by
  have fits := follows.fits
  have handed := follows.handed
  -- What is known one instruction further, with what the watch has seen by then.
  have safe := fun n => ((follows.safe (n + 1)).2 i hi)
  rw [Frame.seeAll_eq] at safe
  generalize ((a.frame g).seeAll (notes a.routine a.next)).watch = g' at safe ⊢
  obtain ⟨r, xs, ops, next, t⟩ := a
  dsimp only [Activation.frame] at hi quiet fits handed safe waiting ⊢
  cases i with
  | push k => exact disciplined_next ⟨fits, handed, safe⟩ waiting
  | pushLiteral k =>
    simp only [execute]
    split
    · exact disciplined_next ⟨fits, handed, fun n => safe n _⟩ waiting
    · trivial
  | load x => exact disciplined_next ⟨fits, handed, safe⟩ waiting
  | store x =>
    cases ops with
    | nil => trivial
    | cons v ops => exact disciplined_next ⟨fits, handed, fun n => safe n v ops rfl⟩ waiting
  | unary op =>
    cases ops with
    | nil => trivial
    | cons v ops => exact disciplined_next ⟨fits, handed, fun n => safe n v ops rfl⟩ waiting
  | binary op =>
    rcases ops with _ | ⟨right, _ | ⟨left, ops⟩⟩
    · trivial
    · trivial
    · simp only [execute]
      cases value : op.eval? left.word right.word with
      | none => trivial
      | some k =>
        exact disciplined_next ⟨fits, handed, fun n => safe n right left ops k rfl value⟩ waiting
  | jump target => exact disciplined_next ⟨fits, handed, safe⟩ waiting
  | jumpIfZero target =>
    cases ops with
    | nil => trivial
    | cons v ops => exact disciplined_next ⟨fits, handed, fun n => safe n v ops rfl⟩ waiting
  | call callee =>
    simp only [execute]
    split
    · trivial
    · have awaits : Awaits throwing notes callee ⟨r, xs, ops.drop callee.arity, next + 1, t⟩
          g' := by
        intro v t' ht
        cases t' with
        | none => exact ⟨fits, handed, fun n => safe n v none ht⟩
        | some t' => exact ⟨fits, handed, fun n => safe n v (some t') ht⟩
      cases callee with
      | intrinsic i => exact disciplined_callIntrinsic i _ awaits waiting
      | routine s => exact disciplined_call begins _ awaits waiting
  | pop =>
    cases ops with
    | nil => trivial
    | cons v ops => exact disciplined_next ⟨fits, handed, fun n => safe n v ops rfl⟩ waiting
  | returnValue =>
    cases ops with
    | nil => trivial
    | cons v ops => exact disciplined_leave waiting v ⟨handed, quiet⟩
  | returnZero => exact disciplined_leave waiting _ ⟨handed, quiet⟩
  | transfer =>
    obtain ⟨k, own, number⟩ := (safe 0).1
    exact disciplined_next ⟨fits, ⟨k, own, number⟩, fun n => (safe n).2⟩ waiting

/-- An instruction preserves that activations go on as their notes say. -/
theorem Disciplined.step (begins : BeginsNoted image throwing notes)
    (quiet : a.routine.signature ∉ throwing → a.transferred = none)
    (h : Disciplined throwing notes (.running w a callers) (g :: gs)) :
    Disciplined throwing notes (Machine.step image w a callers)
      (watches ((a.frame g).seeAll (notes a.routine a.next)).watch gs callers.length
        (Machine.step image w a callers)) := by
  unfold Machine.step
  cases hi : a.routine.code[a.next]? with
  | none => trivial
  | some i => exact disciplined_execute begins hi quiet h.1 h.2

end Step

/-- There is a watch on each activation, and what is noted where control is holds. -/
theorem Disciplined.holds {w : World} {a : Activation} {callers : List Activation}
    {gs : List Watch} (h : Disciplined throwing notes (.running w a callers) gs) :
    ∃ g rest, gs = g :: rest ∧ rest.length = callers.length ∧
      ∀ m ∈ notes a.routine a.next,
        (∃ i, a.routine.code[a.next]? = some i ∧ m.Fits i) ∧ Holds (a.frame g) m := by
  cases gs with
  | nil => exact h.elim
  | cons g rest =>
    exact ⟨g, rest, rfl, h.2.length, fun m hm => ⟨h.1.fits _ m hm, (h.1.safe 1).1 m hm⟩⟩

/-- Watches do not change what a run comes to. -/
theorem reached_of_watched {image : Image} {p q : Progress} {gs : List Watch}
    (h : Watched image notes p q gs) : Reached image p q := by
  induction h with
  | start => exact .start
  | step _ ih => exact .step ih

/-- Whatever a run comes to, the activations go on as their notes say. -/
theorem disciplined_of_watched {image : Image} {w : World} {entry : Signature}
    (safely : image.BeginsSafely throwing) (begins : BeginsNoted image throwing notes)
    {q : Progress} {gs : List Watch}
    (h : Watched image notes (enter image w entry [] []) q gs) :
    Disciplined throwing notes q gs := by
  induction h with
  | start =>
    have outermost : Waiting throwing notes entry [] [] := trivial
    exact disciplined_enter begins [] outermost
  | step watched ih =>
    have outermost : Machine.Guarded throwing entry [] := trivial
    have undisturbed : Undisturbed throwing (.running _ _ _) :=
      (reached_of_watched watched).invariant (undisturbed_enter safely [] outermost)
        fun _ _ _ h => h.step safely
    exact ih.step begins fun hs => (undisturbed.1 hs).transferred

/-- What a run comes to has a watch on each activation. -/
theorem watched_of_reached {image : Image} {w : World} {entry : Signature}
    (safely : image.BeginsSafely throwing) (begins : BeginsNoted image throwing notes)
    {q : Progress} (h : Reached image (enter image w entry [] []) q) :
    ∃ gs, Watched image notes (enter image w entry [] []) q gs := by
  induction h with
  | start => exact ⟨_, .start⟩
  | step _ ih =>
    obtain ⟨gs, watched⟩ := ih
    have disciplined := disciplined_of_watched safely begins watched
    cases gs with
    | nil => exact disciplined.elim
    | cons g gs => exact ⟨_, .step watched⟩

end Runs

end Threefold.Bytecode.Underway

/-! ## Programs -/

namespace Threefold.Program

open Bytecode.Machine (Activation Holds Reached Watch Watched enter)
open Bytecode.Compilation (Note bodyNotes fits_of_mem numberOf number?_of_mem routineOf)
open Bytecode.Underway (BeginsNoted Idle Listing continues_body disciplined_of_watched
  watched_of_reached)

variable {p : Program}

/-- The notes on the code of a routine are those on the code of the function that it is compiled
from. -/
def notesAt (p : Program) (r : Bytecode.Routine) (i : Nat) : List Note :=
  match latest? (fun f => f.signature = r.signature) p.functions with
  | some f => (bodyNotes p.compilation f.body)[i]?.getD []
  | none => []

/-- Nothing is under way where an activation begins. -/
theorem idle_start (r : Bytecode.Routine) (vs : List Value) :
    Idle [] ((Activation.start r vs).frame .fresh) := by
  have all : ∀ (ps : List (String × Value)) (b : Bytecode.Machine.Store), Idle [] ⟨b, [], .fresh⟩ →
      Idle [] ⟨ps.foldl (fun xs p => xs.set (.named p.1) p.2) b, [], .fresh⟩ := by
    intro ps
    induction ps with
    | nil => exact fun b idle => idle
    | cons q ps ih => exact fun b idle => ih _ (idle.assign (x := .named q.1) trivial q.2)
  exact all _ _ ⟨rfl, rfl, rfl, rfl, fun _ => rfl, List.forall_mem_nil _⟩

/-- What a call reaches is the code of a function with its notes. -/
theorem Linked.beginsNoted (h : p.Linked) (few : p.exceptions.length < 2 ^ 32 - 1)
    (input : List Int32) : BeginsNoted (p.bytecode.load input).1 p.throwing p.notesAt := by
  intro s r hr
  rw [Bytecode.Machine.Image.routine?, Bytecode.load_routines] at hr
  obtain ⟨f, found, rfl⟩ := Option.map_eq_some_iff.mp ((latest?_map _ _ _).symm.trans hr)
  have reached := found
  rw [latest?_eq_find?_reverse] at reached
  have same : (routineOf p.compilation f).signature = s := by simpa using List.find?_some reached
  have member : f ∈ p.functions := List.mem_reverse.mp (List.mem_of_find?_eq_some reached)
  subst same
  have notes : p.notesAt (routineOf p.compilation f) =
      fun i => (bodyNotes p.compilation f.body)[i]?.getD [] := by
    have latest : latest? (fun g : Function =>
        g.signature = (routineOf p.compilation f).signature) p.functions = some f := found
    funext i
    rw [notesAt, latest]
  have listed : (⟨(routineOf p.compilation f).code, p.notesAt (routineOf p.compilation f),
      p.throwing⟩ : Listing) = .ofBody p.compilation f.body := by
    rw [notes]
    rfl
  refine ⟨rfl, fun vs => ⟨fun i m hm => ?_, trivial, fun n => ?_⟩⟩
  · have member : m ∈ p.notesAt (routineOf p.compilation f) i := hm
    rw [notes] at member
    obtain ⟨j, hj, fits⟩ := fits_of_mem member
    exact ⟨j, List.getElem?_toArray.trans hj, fits⟩
  · have own : ∀ x ∈ p.compilation.exceptions, Evaluation.OwnNumber (numberOf p.compilation x) :=
      fun x hx => Evaluation.ownNumber_of_number? few (number?_of_mem hx)
    have continues := continues_body own (h.stmtOk member) n
    rw [← listed] at continues
    exact continues n (Nat.le_refl n) _ (idle_start _ vs)

/-- As long as the numbers of exceptions do not wrap, there are watches on the activations in every
run of a program that was loaded, and wherever control comes to, what is noted there fits the
instruction and holds: nothing is under way where a statement begins and where a function ends
normally, and something is where a catch branch is tested, where what was under way goes on behind a
block that runs in any case, and where exceptions and returns of a function end. -/
theorem pending_discipline {file source entry : String} (h : load file source entry = .ok p)
    (few : p.exceptions.length < 2 ^ 32 - 1) :
    ∃ b, p.compile = .ok b ∧ ∀ input,
      let image := (b.load input).1
      let start := enter image (b.load input).2 b.entry [] []
      (∀ q, Reached image start q → ∃ gs, Watched image p.notesAt start q gs) ∧
        ∀ w a callers gs, Watched image p.notesAt start (.running w a callers) gs →
          ∃ g rest, gs = g :: rest ∧ rest.length = callers.length ∧
            ∀ m ∈ p.notesAt a.routine a.next,
              (∃ i, a.routine.code[a.next]? = some i ∧ m.Fits i) ∧ Holds (a.frame g) m := by
  have linked := linked_of_load h
  refine ⟨p.bytecode, linked.compile_eq, fun input => ?_⟩
  have safely := linked.beginsSafely input
  have begins := linked.beginsNoted few input
  exact ⟨fun q reached => watched_of_reached safely begins reached,
    fun w a callers gs watched => (disciplined_of_watched safely begins watched).holds⟩

/-- A program in which an exception is caught inside of a block that runs in any case, while another
one and then a return are to go on behind it. -/
def parked : String :=
  "fun f(n) begin
  while n do
    try
      try throw (A n)
      finally try throw (B n) catch (B m) n := m - 1 yrt yrt
    catch (A k) write(k) yrt
  od
  try return n finally try skip finally n := 1 yrt yrt
end
write(f(3))"

theorem pending_discipline_parked :
    ∃ p, load "parked" parked entryName = .ok p ∧ p.exceptions.length < 2 ^ 32 - 1 ∧
      ∃ b, p.compile = .ok b ∧ ∀ input,
        let image := (b.load input).1
        let start := enter image (b.load input).2 b.entry [] []
        (∀ q, Reached image start q → ∃ gs, Watched image p.notesAt start q gs) ∧
          ∀ w a callers gs, Watched image p.notesAt start (.running w a callers) gs →
            ∃ g rest, gs = g :: rest ∧ rest.length = callers.length ∧
              ∀ m ∈ p.notesAt a.routine a.next,
              (∃ i, a.routine.code[a.next]? = some i ∧ m.Fits i) ∧ Holds (a.frame g) m := by
  have names : (load "parked" parked entryName).toOption.map exceptions =
      some ["IndexOutOfBounds", "A", "B"] := by decide +kernel
  cases h : load "parked" parked entryName with
  | error e =>
    rw [h] at names
    cases names
  | ok p =>
    rw [h] at names
    have few : p.exceptions.length < 2 ^ 32 - 1 := by
      rw [Option.some.inj names]
      decide
    exact ⟨p, rfl, few, pending_discipline h few⟩

end Threefold.Program
