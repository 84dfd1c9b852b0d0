import Threefold.Proofs.X86.Activations
import Threefold.Proofs.X86.Shapes

/-!
# Computing native runs

What a native run of a program comes to is computed from the text of the program. The image is put
together from the lines of code (`Image.withLines`), which is the image that loading leaves
(`Laid.withLines_eq`), and every visit on the way can be checked (`Visit.checked?`).
-/

namespace Threefold

namespace X86

open Machine (Awaited Visit)
open Directive (codeOf)

deriving instance DecidableEq for Awaited

/-! ## Runs of which every visit is checked -/

namespace Machine.Visit

/-- The visit to which a number of instructions leads, if all visits before it pass a check. -/
def checked? (image : Image) (φ : Visit → Bool) : Nat → Visit → Option Visit
  | 0, x => some x
  | n + 1, x => if φ x then x.next? image >>= checked? image φ n else none

variable {image : Image} {φ : Visit → Bool} {n : Nat} {x y : Visit}

theorem steps_of_checked? (h : x.checked? image φ n = some y) :
    x.Steps image n y ∧ ∀ k < n, ∀ z, x.Steps image k z → φ z = true := by
  induction n generalizing x with
  | zero =>
    cases h
    exact ⟨.refl _, fun k hk => absurd hk (Nat.not_lt_zero k)⟩
  | succ n ih =>
    simp only [checked?] at h
    split at h
    case isFalse => cases h
    case isTrue here =>
      obtain ⟨x', first, rest⟩ := Option.bind_eq_some_iff.mp h
      have first := next_iff.mpr first
      obtain ⟨steps, passed⟩ := ih rest
      refine ⟨.next first steps, fun k hk z hz => ?_⟩
      cases hz with
      | refl => exact here
      | @next k _ x'' _ first' rest' =>
        obtain rfl := first.unique first'
        exact passed k (Nat.lt_of_succ_lt_succ hk) z rest'

theorem passes_of_checked? (h : x.checked? image φ n = some y) (last : φ y = true) :
    ∀ k ≤ n, ∀ z, x.Steps image k z → φ z = true := by
  obtain ⟨steps, passed⟩ := steps_of_checked? h
  intro k hk z hz
  obtain less | rfl := Nat.lt_or_eq_of_le hk
  · exact passed k less z hz
  · exact steps.unique hz ▸ last

/-- What is computed to stay above the global words does so. -/
theorem staysAbove_of_checked? (h : x.checked? image (fun z => z.machine.Above) n = some y)
    (last : y.machine.Above) : x.StaysAbove image n :=
  fun k hk z hz => of_decide_eq_true (passes_of_checked? h (decide_eq_true last) k hk z hz)

/-- The function that a visit belongs to has not returned, and a visit of the same activation is not at
some index. -/
def within (x : Visit) (index : Nat) (z : Visit) : Bool :=
  x.awaited.length ≤ z.awaited.length && (x.awaited != z.awaited || z.index != index)

theorem staysInside_of_checked? (inside : ∀ z, φ z = true → x.awaited.length ≤ z.awaited.length)
    (h : x.checked? image φ n = some y) (last : x.awaited.length ≤ y.awaited.length) :
    x.StaysInside image n := by
  obtain ⟨steps, passed⟩ := steps_of_checked? h
  intro k hk z hz
  obtain less | rfl := Nat.lt_or_eq_of_le hk
  · exact inside z (passed k less z hz)
  · exact steps.unique hz ▸ last

theorem inside_of_within {index : Nat} {z : Visit} (h : x.within index z = true) :
    x.awaited.length ≤ z.awaited.length := by
  simp only [within, Bool.and_eq_true, decide_eq_true_eq] at h
  exact h.1

end Machine.Visit

/-! ## Images with plain code -/

namespace Image

/-- Symbols and labels stand for the number of instructions in front of them. -/
def places : Nat → Bindings Symbol Nat → Bindings Label Nat → List Directive →
    Bindings Symbol Nat × Bindings Label Nat
  | _, functions, labels, [] => (functions, labels)
  | n, functions, labels, .symbol s :: ds => places n (functions.set s n) labels ds
  | n, functions, labels, .label l :: ds => places n functions (labels.set l n) ds
  | n, functions, labels, .instruction _ :: ds => places (n + 1) functions labels ds
  | n, functions, labels, _ :: ds => places n functions labels ds

theorem extendAll_eq_places (image : Image) (ds : List Directive) :
    ((image.extendAll ds).functions, (image.extendAll ds).labels) =
      places image.code.size image.functions image.labels ds := by
  induction ds generalizing image with
  | nil => rfl
  | cons d ds ih =>
    have rest := ih (image.extend d)
    have cons : image.extendAll (d :: ds) = (image.extend d).extendAll ds := rfl
    rw [cons, rest]
    cases d with
    | instruction i =>
      simp only [places, extend, Array.size_push]
    | _ => rfl

/-- An image with the code of some lines. -/
def withLines (image : Image) (lines : List Directive) : Image :=
  { image with
    code := (codeOf lines).toArray
    functions := (places 0 .empty .empty lines).1
    labels := (places 0 .empty .empty lines).2 }

end Image

theorem Laid.withLines_eq {b : Bytecode} {bodies : List (List Directive)} {image : Image} {heap : Heap}
    (laid : Laid b bodies image heap) : image.withLines bodies.flatten = image := by
  have same := Image.extendAll_eq_places .nothing bodies.flatten
  have code : (codeOf bodies.flatten).toArray = image.code := Array.toList_inj.mp laid.code.symm
  obtain ⟨functions, labels⟩ := Prod.mk.inj same
  have functions := laid.functions.trans functions
  have labels := laid.labels.trans labels
  obtain ⟨code', functions', labels', data, words⟩ := image
  subst code functions labels
  rfl

/-! ## Computing calls -/

/-- Where an instruction of a routine is: the routine, the step of the instruction, and the indices at
which its code and that of the next instruction begin. -/
def Image.site? (image : Image) (b : Bytecode) (s : Signature) (k : Nat) :
    Option (Bytecode.Routine × Lowering.Step × Nat × Nat) :=
  (b.routine? s).bind fun r =>
  (image.functions.get? (Context.ofRoutine b r).symbol).bind fun start =>
  (Lowering.routineSteps (.ofRoutine b r)).toOption.bind fun ss =>
  (ss[k]?).bind fun st =>
  (ss[k + 1]?).map fun _ =>
    let plan := Lowering.planAt start (.ofRoutine b r) ss
    (r, st, plan.pos k, plan.pos (k + 1))

theorem eq_ok_of_toOption {ε α : Type} {e : Except ε α} {a : α} (h : e.toOption = some a) :
    e = .ok a := by
  cases e with
  | error e => cases h
  | ok a' =>
    cases h
    rfl

theorem Image.begins_of_site? {image : Image} {b : Bytecode} {s : Signature} {k i j : Nat}
    {r : Bytecode.Routine} {st : Lowering.Step} (h : image.site? b s k = some (r, st, i, j)) :
    r ∈ b.routines ∧ image.Begins b r k st i ∧ ∃ st', image.Begins b r (k + 1) st' j := by
  simp only [site?, Option.bind_eq_some_iff, Option.map_eq_some_iff] at h
  obtain ⟨r', hr, start, hstart, ss, hss, st', hst, next, hnext, same⟩ := h
  cases same
  have steps := eq_ok_of_toOption hss
  exact ⟨List.mem_of_find?_eq_some hr, ⟨ss, start, steps, hstart, hst, rfl⟩, next,
    ⟨ss, start, steps, hstart, hnext, rfl⟩⟩

instance decidableLocated (image : Image) : ∀ n is, Decidable (Machine.Located image n is)
  | _, [] => .isTrue trivial
  | n, i :: is =>
    haveI := decidableLocated image (n + 1) is
    inferInstanceAs (Decidable (image.code[n]? = some i ∧ Machine.Located image (n + 1) is))

/-- The number of instructions and the sizes of frames, computed. -/
def addressable? (b : Bytecode) (image : Image) : Bool :=
  image.code.size ≤ 2 ^ 31 && b.routines.all fun r => (Frame.ofRoutine b r).size < 2 ^ 31

theorem addressable_of_addressable? {b : Bytecode} {image : Image}
    (h : addressable? b image = true) : image.Addressable b := by
  simp only [addressable?, Bool.and_eq_true, decide_eq_true_eq, List.all_eq_true] at h
  exact ⟨h.1, h.2⟩

/-- The first visit of a native run. -/
def Image.first? (image : Image) (heap : Heap) (input : List Int32) : Option Visit :=
  (image.functions.get? Symbol.main).map fun index =>
    ⟨index, finalState (Machine.enter (.start image.words heap input)),
      [⟨none, Machine.stackTop.toInt32, 0⟩]⟩

theorem entered_of_first? {image : Image} {heap : Heap} {input : List Int32} {start : Visit}
    (h : image.first? heap input = some start) :
    Machine.enter (.start image.words heap input) = .ok () start.machine ∧
      image.functions.get? Symbol.main = some start.index ∧
      start.awaited = [⟨none, Machine.stackTop.toInt32, 0⟩] := by
  obtain ⟨index, found, rfl⟩ := Option.map_eq_some_iff.mp h
  exact ⟨rfl, found, rfl⟩

end X86

namespace Program

open X86

/-- What the program of a text is in memory: its bytecode, its image and its heap. -/
def inMemory? (file source : String) : Option (Bytecode × Image × Heap) :=
  (load file source entryName).toOption.bind fun p =>
  p.compile.toOption.bind fun b =>
  b.lower.toOption.bind fun a =>
  a.load.toOption.bind fun m =>
  (b.routines.mapM (Lowering.routine b)).toOption.map fun bodies =>
    (b, m.1.withLines bodies.flatten, m.2)

theorem inMemory?_eq_some {file source : String} {b : Bytecode} {image : Image} {heap : Heap}
    (h : inMemory? file source = some (b, image, heap)) :
    ∃ p a, load file source entryName = .ok p ∧ p.compile = .ok b ∧ b.lower = .ok a ∧
      a.load = .ok (image, heap) ∧ image.HasGlobals := by
  simp only [inMemory?, Option.bind_eq_some_iff, Option.map_eq_some_iff] at h
  obtain ⟨p, hp, b', hb, a, ha, m, hm, bodies, hbodies, same⟩ := h
  cases same
  obtain ⟨bodies', image, heap, hbodies', loads, laid⟩ := laid_of_lower (eq_ok_of_toOption ha)
  cases loads.symm.trans (eq_ok_of_toOption hm)
  cases hbodies'.symm.trans (eq_ok_of_toOption hbodies)
  rw [laid.withLines_eq]
  exact ⟨p, a, eq_ok_of_toOption hp, eq_ok_of_toOption hb, eq_ok_of_toOption ha, loads, laid.globals⟩

end Program

end Threefold
