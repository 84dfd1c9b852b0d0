import Threefold.Bytecode.Machine

/-!
# What a run comes to

A run of bytecode comes to one state after the other, however many instructions it is allowed. What
holds at its beginning and is preserved by every instruction holds of all of them
(`Reached.invariant`), and of the fault with which it ends (`reached_of_run_error`).
-/

namespace Threefold.Bytecode

/-- The machine runs the routines of the program. -/
theorem load_routines (b : Bytecode) (input : List Int32) :
    (b.load input).1.routines = b.routines := by
  unfold load World.start
  dsimp only
  split <;> rfl

namespace Machine

/-- A run that begins with one thing comes to another. -/
inductive Reached (image : Image) (p : Progress) : Progress → Prop
  | start : Reached image p p
  | step {w : World} {a : Activation} {callers : List Activation} :
    Reached image p (.running w a callers) → Reached image p (Machine.step image w a callers)

variable {image : Image} {p q : Progress}

/-- What every instruction preserves holds of everything that a run comes to. -/
theorem Reached.invariant {I : Progress → Prop} (start : I p)
    (step : ∀ w a callers, I (.running w a callers) → I (Machine.step image w a callers))
    (h : Reached image p q) : I q := by
  induction h with
  | start => exact start
  | step _ ih => exact step _ _ _ ih

/-- A run that ends with a fault comes to it. -/
theorem reached_of_run_error {fuel : Nat} {f : Fault} (h : Reached image p q)
    (hr : run image fuel q = some (.error f)) : Reached image p (.fault f) := by
  induction fuel generalizing q with
  | zero =>
    cases q with
    | running w a callers => cases hr
    | ended w v t => cases hr
    | fault g =>
      cases hr
      exact h
  | succ fuel ih =>
    cases q with
    | running w a callers => exact ih h.step hr
    | ended w v t => cases hr
    | fault g =>
      cases hr
      exact h

end Machine

end Threefold.Bytecode
