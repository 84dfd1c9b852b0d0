import Threefold.Program.Throwing

/-!
# The functions that can throw

The set of functions that can throw is closed: a function whose body can throw, given the set, is in
it (`throwing_closed`). Every pass but the last adds a function of the program, each at most once,
so there are enough passes.
-/

namespace Threefold.Program

variable {p : Program}

/-- Every function whose body can throw is in a set. -/
def ThrowingClosed (p : Program) (throwing : List Signature) : Prop :=
  ∀ f ∈ p.functions, f.body.canThrow throwing = true → f.signature ∈ throwing

theorem length_le_foldl_addThrowing (throwing : List Signature) (fs : List Function) :
    throwing.length ≤ (fs.foldl addThrowing throwing).length := by
  induction fs generalizing throwing with
  | nil => exact Nat.le_refl _
  | cons f fs ih =>
    refine Nat.le_trans ?_ (ih (addThrowing throwing f))
    unfold addThrowing
    split
    · exact Nat.le_succ _
    · exact Nat.le_refl _

/-- A pass that adds nothing has found nothing to add. -/
theorem foldl_addThrowing_closed {throwing : List Signature} {fs : List Function}
    (h : (fs.foldl addThrowing throwing).length = throwing.length) :
    ∀ f ∈ fs, f.body.canThrow throwing = true → f.signature ∈ throwing := by
  induction fs with
  | nil =>
    intro f hf
    cases hf
  | cons g fs ih =>
    rw [List.foldl_cons] at h
    by_cases hg : g.signature ∉ throwing ∧ g.body.canThrow throwing
    · have longer := length_le_foldl_addThrowing (g.signature :: throwing) fs
      rw [addThrowing, if_pos hg] at h
      rw [List.length_cons] at longer
      omega
    · rw [addThrowing, if_neg hg] at h
      intro f hf hc
      rcases List.mem_cons.mp hf with rfl | hf
      · exact Decidable.of_not_not fun hn => hg ⟨hn, hc⟩
      · exact ih h f hf hc

/-- The functions of the program that a pass can find, each once. -/
structure ThrowingFound (p : Program) (throwing : List Signature) : Prop where
  nodup : throwing.Nodup
  declared : ∀ s ∈ throwing, s ∈ p.signatures

theorem ThrowingFound.add {throwing : List Signature} (h : p.ThrowingFound throwing)
    {f : Function} (hf : f ∈ p.functions) : p.ThrowingFound (addThrowing throwing f) := by
  unfold addThrowing
  split
  · rename_i hn
    refine ⟨List.nodup_cons.mpr ⟨hn.1, h.nodup⟩, fun s hs => ?_⟩
    rcases List.mem_cons.mp hs with rfl | hs
    · exact List.mem_map_of_mem hf
    · exact h.declared s hs
  · exact h

theorem ThrowingFound.pass {throwing : List Signature} (h : p.ThrowingFound throwing) :
    p.ThrowingFound (p.throwingPass throwing) := by
  have all : ∀ fs : List Function, (∀ f ∈ fs, f ∈ p.functions) → ∀ throwing,
      p.ThrowingFound throwing → p.ThrowingFound (fs.foldl addThrowing throwing) := by
    intro fs
    induction fs with
    | nil => exact fun _ _ h => h
    | cons f fs ih =>
      exact fun hfs throwing h =>
        ih (fun g hg => hfs g (by simp [hg])) _ (h.add (hfs f (by simp)))
  exact all p.functions (fun _ hf => hf) throwing h

theorem ThrowingFound.length_le {throwing : List Signature} (h : p.ThrowingFound throwing) :
    throwing.length ≤ p.functions.length := by
  have := List.Nodup.length_le_of_subset h.nodup fun s hs => h.declared s hs
  simpa [signatures] using this

theorem throwingWithin_closed {n : Nat} {throwing : List Signature}
    (h : p.ThrowingFound throwing) (hn : p.functions.length < n + throwing.length) :
    p.ThrowingClosed (p.throwingWithin n throwing) := by
  induction n generalizing throwing with
  | zero =>
    have := h.length_le
    omega
  | succ n ih =>
    rw [throwingWithin]
    split
    · rename_i same
      exact foldl_addThrowing_closed same
    · rename_i more
      have : throwing.length ≤ (p.throwingPass throwing).length :=
        length_le_foldl_addThrowing throwing p.functions
      exact ih h.pass (by omega)

/-- A function whose body can throw is one of the functions that can throw. -/
theorem throwing_closed (p : Program) : p.ThrowingClosed p.throwing :=
  throwingWithin_closed ⟨List.nodup_nil, fun _ hs => by cases hs⟩
    (by simp only [List.length_nil]; omega)

end Threefold.Program
