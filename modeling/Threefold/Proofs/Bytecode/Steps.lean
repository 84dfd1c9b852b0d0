import Threefold.Bytecode.Machine
import Threefold.Evaluation

/-!
# Steps of the bytecode machine

`Steps image n p q` says that `n` instructions lead from `p` to `q`, and that each of them is quiet:
an exception is handed over only by a routine that can throw. `Lasts image m p` says that a run goes
on for `m` instructions at least. Both tell what `Machine.run` answers (`Steps.run`, `Lasts.run`).

`Follows` compares what a computation on the tree comes to with what the machine does. It has a
clause for each kind of result, so that a computation in sequence is followed in sequence
(`Follows.bind`). A computation that is exhausted stands for a run that lasts as long as a limit
allows.
-/

namespace Threefold.Bytecode.Machine

/-- An activation does not hand an exception over next, unless its routine can throw. -/
def Activation.Quiet (a : Activation) : Prop :=
  a.routine.code[a.next]? = some .transfer → a.routine.canThrow = true

/-- A number of instructions lead from one point of a run to another. -/
inductive Steps (image : Image) : Nat → Progress → Progress → Prop
  | refl (p : Progress) : Steps image 0 p p
  | step {n : Nat} {w : World} {a : Activation} {callers : List Activation} {q : Progress} :
    a.Quiet → Steps image n (Machine.step image w a callers) q →
      Steps image (n + 1) (.running w a callers) q

/-- A run goes on for a number of instructions at least. -/
def Lasts (image : Image) (m : Nat) (p : Progress) : Prop :=
  ∃ w a callers, Steps image m p (.running w a callers)

variable {image : Image}

theorem Steps.trans {m n : Nat} {p q r : Progress} (h : Steps image m p q)
    (h' : Steps image n q r) : Steps image (m + n) p r := by
  induction h with
  | refl => simpa using h'
  | step quiet _ ih =>
    rw [Nat.add_right_comm]
    exact .step quiet (ih h')

/-- Instructions do not depend on how many more are allowed. -/
theorem Steps.run {n : Nat} {p q : Progress} (h : Steps image n p q) (k : Nat) :
    run image (n + k) p = run image k q := by
  induction h with
  | refl => rw [Nat.zero_add]
  | step _ _ ih =>
    rw [Nat.add_right_comm, Machine.run]
    exact ih

/-- A longer run ends as a shorter one that ended. -/
theorem run_mono {n : Nat} {p : Progress} {r : Except Fault Ending}
    (h : run image n p = some r) (k : Nat) : run image (n + k) p = some r := by
  induction n generalizing p with
  | zero =>
    cases p with
    | running w a callers => cases h
    | ended w v t =>
      rw [Machine.run] at h ⊢
      exact h
    | fault f =>
      rw [Machine.run] at h ⊢
      exact h
  | succ n ih =>
    cases p with
    | running w a callers =>
      rw [Nat.add_right_comm, Machine.run]
      exact ih h
    | ended w v t =>
      rw [Machine.run] at h ⊢
      exact h
    | fault f =>
      rw [Machine.run] at h ⊢
      exact h

/-- A run ends in one way. -/
theorem run_unique {m n : Nat} {p : Progress} {r r' : Except Fault Ending}
    (h : run image m p = some r) (h' : run image n p = some r') : r = r' := by
  have hm := run_mono h n
  have hn := run_mono h' m
  rw [Nat.add_comm] at hn
  exact Option.some.inj (hm.symm.trans hn)

theorem Lasts.run {m : Nat} {p : Progress} (h : Lasts image m p) : run image m p = none := by
  obtain ⟨w, a, callers, h⟩ := h
  have := h.run 0
  rwa [Nat.add_zero] at this

theorem Lasts.zero (w : World) (a : Activation) (callers : List Activation) :
    Lasts image 0 (.running w a callers) :=
  ⟨w, a, callers, .refl _⟩

theorem Lasts.pred {m : Nat} {p : Progress} (h : Lasts image (m + 1) p) : Lasts image m p := by
  induction m generalizing p with
  | zero =>
    obtain ⟨w, a, callers, h⟩ := h
    cases h
    exact .zero _ _ _
  | succ m ih =>
    obtain ⟨w, a, callers, h⟩ := h
    cases h with
    | step quiet h =>
      obtain ⟨w', a', callers', h'⟩ := ih ⟨w, a, callers, h⟩
      exact ⟨w', a', callers', .step quiet h'⟩

theorem Lasts.mono {m n : Nat} {p : Progress} (h : Lasts image n p) (hmn : m ≤ n) :
    Lasts image m p := by
  induction hmn with
  | refl => exact h
  | step _ ih => exact ih h.pred

theorem Lasts.before {m n : Nat} {p q : Progress} (h : Steps image n p q)
    (h' : Lasts image m q) : Lasts image (n + m) p := by
  obtain ⟨w, a, callers, h'⟩ := h'
  exact ⟨w, a, callers, h.trans h'⟩

/-! ## Following a computation -/

open Evaluation (Result Action Unwinding)

/-- From a point on, the machine does what a computation comes to. -/
def Follows {σ α : Type} (image : Image) (start : Progress) (limit : Nat → Prop)
    (done : α → σ → Progress → Prop) (unwound : Unwinding → σ → Progress → Prop) :
    Result σ α → Prop
  | .done a s => ∃ n q, Steps image n start q ∧ done a s q
  | .unwinding u s => ∃ n q, Steps image n start q ∧ unwound u s q
  | .fault f => ∃ n, Steps image n start (.fault f)
  | .exhausted => ∀ m, limit m → Lasts image m start

namespace Follows

variable {σ α β : Type} {start : Progress} {limit limit' : Nat → Prop}
  {D : α → σ → Progress → Prop} {U : Unwinding → σ → Progress → Prop} {r : Result σ α}

/-- Instructions before the computation begins. -/
theorem after {n : Nat} {q : Progress} (h : Steps image n start q)
    (hr : Follows image q limit D U r) : Follows image start limit D U r := by
  cases r with
  | done a s =>
    obtain ⟨k, p, hk, hp⟩ := hr
    exact ⟨n + k, p, h.trans hk, hp⟩
  | unwinding u s =>
    obtain ⟨k, p, hk, hp⟩ := hr
    exact ⟨n + k, p, h.trans hk, hp⟩
  | fault f =>
    obtain ⟨k, hk⟩ := hr
    exact ⟨n + k, h.trans hk⟩
  | exhausted => exact fun m hm => (Lasts.before h (hr m hm)).mono (Nat.le_add_left m n)

/-- At least one instruction before the computation begins, which leaves one less to go. -/
theorem afterOne {n : Nat} {q : Progress} (h : Steps image (n + 1) start q)
    (hr : Follows image q limit' D U r) (hl : ∀ m, limit (m + 1) → limit' m) :
    Follows image start limit D U r := by
  cases r with
  | exhausted =>
    intro m hm
    cases m with
    | zero =>
      cases h
      exact .zero _ _ _
    | succ m => exact (Lasts.before h (hr m (hl m hm))).mono (by omega)
  | done a s => exact after h hr
  | unwinding u s => exact after h hr
  | fault f => exact after h hr

/-- Less is claimed, or the limit is lower. -/
theorem imp {D' : α → σ → Progress → Prop} {U' : Unwinding → σ → Progress → Prop}
    (hr : Follows image start limit' D U r) (hl : ∀ m, limit m → limit' m)
    (hd : ∀ a s q, D a s q → ∃ n q', Steps image n q q' ∧ D' a s q')
    (hu : ∀ u s q, r = .unwinding u s → U u s q → ∃ n q', Steps image n q q' ∧ U' u s q') :
    Follows image start limit D' U' r := by
  cases r with
  | done a s =>
    obtain ⟨n, q, hn, hq⟩ := hr
    obtain ⟨k, q', hk, hq'⟩ := hd a s q hq
    exact ⟨n + k, q', hn.trans hk, hq'⟩
  | unwinding u s =>
    obtain ⟨n, q, hn, hq⟩ := hr
    obtain ⟨k, q', hk, hq'⟩ := hu u s q rfl hq
    exact ⟨n + k, q', hn.trans hk, hq'⟩
  | fault f => exact hr
  | exhausted => exact fun m hm => hr m (hl m hm)

theorem mapUnwound {U' : Unwinding → σ → Progress → Prop}
    (hr : Follows image start limit D U r) (hu : ∀ u s q, U u s q → U' u s q) :
    Follows image start limit D U' r :=
  hr.imp (fun _ hm => hm) (fun _ _ q hq => ⟨0, q, .refl q, hq⟩)
    fun u s q _ hq => ⟨0, q, .refl q, hu u s q hq⟩

/-- Instructions after a computation that is done. -/
theorem mapDone {D' : α → σ → Progress → Prop} (hr : Follows image start limit D U r)
    (hd : ∀ a s q, D a s q → ∃ n q', Steps image n q q' ∧ D' a s q') :
    Follows image start limit D' U r :=
  hr.imp (fun _ hm => hm) hd fun _ _ q _ hq => ⟨0, q, .refl q, hq⟩

/-- A computation in sequence. -/
theorem bind {m : Action σ α} {k : α → Action σ β} {s : σ} {D' : β → σ → Progress → Prop}
    {limit₁ : Nat → Prop} (hm : Follows image start limit₁ D U (m s)) (limit₂ : Nat → Prop)
    (hl : ∀ n, limit n → limit₁ n) (hl' : ∀ n, limit n → limit₂ n)
    (hk : ∀ a t q, m s = .done a t → D a t q → Follows image q limit₂ D' U (k a t)) :
    Follows image start limit D' U ((m >>= k) s) := by
  simp only [Bind.bind, Action.bind]
  cases hr : m s with
  | done a t =>
    rw [hr] at hm
    obtain ⟨n, q, hn, hq⟩ := hm
    exact (after hn (hk a t q hr hq)).imp hl' (fun a t q h => ⟨0, q, .refl q, h⟩)
      fun u t q _ h => ⟨0, q, .refl q, h⟩
  | unwinding u t =>
    rw [hr] at hm
    exact hm
  | fault f =>
    rw [hr] at hm
    exact hm
  | exhausted =>
    rw [hr] at hm
    exact fun n hn => hm n (hl n hn)

end Follows

end Threefold.Bytecode.Machine
