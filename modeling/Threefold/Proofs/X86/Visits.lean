import Threefold.Proofs.X86.Discipline

/-!
# From one visit to a later one

A number of instructions leads from one visit of a run to another one (`Visit.Steps`), and there is
only one visit to which it leads. A piece of code does to the machine what it does to a view, as long
as the stack stays above the global words (`Visit.StaysAbove`): it leads to the index behind it
(`Visit.block`), or stops where the view traps (`Visit.trapped`).
-/

namespace Threefold.X86.Machine

namespace Visit

/-- The next instruction leads from one visit to another. -/
def Next (image : Image) (x y : Visit) : Prop :=
  ∃ i, image.code[x.index]? = some i ∧
    execute image i (x.index + 1) x.machine = .ok (some y.index) y.machine ∧
    y.awaited = x.behind image i

/-- A number of instructions leads from one visit to another. -/
inductive Steps (image : Image) : Nat → Visit → Visit → Prop
  | refl (x : Visit) : Steps image 0 x x
  | next {n : Nat} {x y z : Visit} (first : x.Next image y) (rest : Steps image n y z) :
    Steps image (n + 1) x z

/-- The instruction at a visit stops the run. -/
def Stops (image : Image) (x : Visit) (t : Trap) : Prop :=
  ∃ i m, image.code[x.index]? = some i ∧ execute image i (x.index + 1) x.machine = .error t m

/-- The stack is above the global words for a number of instructions. -/
def StaysAbove (image : Image) (n : Nat) (x : Visit) : Prop :=
  ∀ k ≤ n, ∀ y, x.Steps image k y → y.machine.Above

variable {image : Image} {x y z : Visit} {k n : Nat}

/-! ## The order of visits -/

theorem Next.unique (h : x.Next image y) (h' : x.Next image z) : y = z := by
  obtain ⟨i, hi, he, ha⟩ := h
  obtain ⟨i', hi', he', ha'⟩ := h'
  obtain rfl := Option.some.inj (hi.symm.trans hi')
  obtain ⟨index, machine, awaited⟩ := y
  obtain ⟨index', machine', awaited'⟩ := z
  cases he.symm.trans he'
  cases ha.trans ha'.symm
  rfl

theorem Next.not_stops (h : x.Next image y) (t : Trap) : ¬ x.Stops image t := by
  rintro ⟨i, m, hi, he⟩
  obtain ⟨i', hi', he', -⟩ := h
  obtain rfl := Option.some.inj (hi.symm.trans hi')
  cases he.symm.trans he'

theorem Steps.one (h : x.Next image y) : x.Steps image 1 y :=
  .next h (.refl y)

theorem Steps.trans (h : x.Steps image k y) (h' : y.Steps image n z) :
    x.Steps image (k + n) z := by
  induction h with
  | refl x =>
    rw [Nat.zero_add]
    exact h'
  | next first rest ih =>
    rw [Nat.add_right_comm]
    exact .next first (ih h')

theorem Steps.unique (h : x.Steps image n y) (h' : x.Steps image n z) : y = z := by
  induction h with
  | refl x =>
    cases h'
    rfl
  | next first rest ih =>
    cases h' with
    | next first' rest' =>
      obtain rfl := first.unique first'
      exact ih rest'

/-- A visit on the way. -/
theorem Steps.split (h : x.Steps image n z) (hk : k ≤ n) :
    ∃ y, x.Steps image k y ∧ y.Steps image (n - k) z := by
  induction h generalizing k with
  | refl x =>
    obtain rfl : k = 0 := by omega
    exact ⟨x, .refl x, .refl x⟩
  | @next n x y z first rest ih =>
    cases k with
    | zero => exact ⟨x, .refl x, .next first rest⟩
    | succ k =>
      obtain ⟨w, before, behind⟩ := ih (Nat.le_of_succ_le_succ hk)
      rw [Nat.succ_sub_succ]
      exact ⟨w, .next first before, behind⟩

/-- Of two visits on one way, the one that takes fewer instructions comes first. -/
theorem Steps.between (h : x.Steps image n z) (h' : x.Steps image k y) (hk : k ≤ n) :
    y.Steps image (n - k) z := by
  obtain ⟨w, before, behind⟩ := h.split hk
  obtain rfl := before.unique h'
  exact behind

/-- A run does not go on from where it stops. -/
theorem Steps.not_stops (h : x.Steps image n z) (h' : x.Steps image k y) (hk : k < n) (t : Trap) :
    ¬ y.Stops image t := by
  have rest := h.between h' (Nat.le_of_lt hk)
  have more : n - k = n - k - 1 + 1 := by omega
  rw [more] at rest
  cases rest with
  | next first _ => exact first.not_stops t

theorem Stops.unique {t t' : Trap} (h : x.Stops image t) (h' : x.Stops image t') : t = t' := by
  obtain ⟨i, m, hi, he⟩ := h
  obtain ⟨i', m', hi', he'⟩ := h'
  cases hi.symm.trans hi'
  cases he.symm.trans he'
  rfl

/-- A run stops in one way only. -/
theorem Steps.stops_unique {t t' : Trap} (h : x.Steps image k y) (stops : y.Stops image t)
    (h' : x.Steps image n z) (stops' : z.Stops image t') : t = t' := by
  rcases Nat.lt_trichotomy k n with less | rfl | more
  · exact absurd stops (h'.not_stops h less t)
  · obtain rfl := h.unique h'
    exact stops.unique stops'
  · exact absurd stops' (h.not_stops h' more t')

theorem StaysAbove.now (h : x.StaysAbove image n) : x.machine.Above :=
  h 0 (Nat.zero_le n) x (.refl x)

theorem StaysAbove.mono (h : x.StaysAbove image n) (hk : k ≤ n) : x.StaysAbove image k :=
  fun j hj => h j (Nat.le_trans hj hk)

theorem StaysAbove.later (h : x.StaysAbove image n) (s : x.Steps image k y) (hk : k ≤ n) :
    y.StaysAbove image (n - k) :=
  fun j hj z hz => h (k + j) (by omega) z (s.trans hz)

/-! ## Computing visits -/

/-- The visit to which the next instruction leads. -/
def next? (image : Image) (x : Visit) : Option Visit :=
  match image.code[x.index]? with
  | none => none
  | some i =>
    match execute image i (x.index + 1) x.machine with
    | .ok (some index) m => some ⟨index, m, x.behind image i⟩
    | _ => none

/-- The visit to which a number of instructions leads. -/
def after? (image : Image) : Nat → Visit → Option Visit
  | 0, x => some x
  | n + 1, x => x.next? image >>= after? image n

theorem next_iff : x.Next image y ↔ x.next? image = some y := by
  unfold Next next?
  constructor
  · rintro ⟨i, hi, he, awaited⟩
    rw [hi]
    dsimp only
    rw [he, ← awaited]
  · intro h
    split at h
    · cases h
    · rename_i i hi
      split at h
      · rename_i index m he
        cases h
        exact ⟨i, hi, he, rfl⟩
      · cases h

theorem steps_iff : x.Steps image n y ↔ x.after? image n = some y := by
  induction n generalizing x with
  | zero =>
    refine ⟨fun h => ?_, fun h => ?_⟩
    · cases h
      rfl
    · cases h
      exact .refl _
  | succ n ih =>
    simp only [after?, Option.bind_eq_bind, Option.bind_eq_some_iff, ← next_iff, ← ih]
    refine ⟨fun h => ?_, fun ⟨z, first, rest⟩ => .next first rest⟩
    cases h with
    | next first rest => exact ⟨_, first, rest⟩

/-- The trap at which the next instruction stops. -/
def stop? (image : Image) (x : Visit) : Option Trap :=
  match image.code[x.index]? with
  | none => none
  | some i =>
    match execute image i (x.index + 1) x.machine with
    | .error t _ => some t
    | .ok _ _ => none

theorem stops_iff {t : Trap} : x.Stops image t ↔ x.stop? image = some t := by
  unfold Stops stop?
  constructor
  · rintro ⟨i, m, hi, he⟩
    rw [hi]
    dsimp only
    rw [he]
  · intro h
    split at h
    · cases h
    · rename_i i hi
      split at h
      · rename_i t' m he
        cases h
        exact ⟨i, m, hi, he⟩
      · cases h

instance (m : Machine) : Decidable m.Above :=
  inferInstanceAs (Decidable (_ ∧ _))

instance (image : Image) (n : Nat) (x : Visit) : Decidable (x.StaysAbove image n) :=
  decidable_of_iff (∀ k ≤ n, (x.after? image k).all (fun y => decide y.machine.Above) = true) <| by
    simp only [StaysAbove, steps_iff, Option.all_eq_true, decide_eq_true_eq]

/-! ## Pieces of code -/

theorem next_of_exec {v v' : View} (hg : image.HasGlobals) (S : x.machine.Shows v)
    {i : Instruction} (hi : image.code[x.index]? = some i) (he : v.exec image i = some (.ok v')) :
    ∃ m, x.Next image ⟨x.index + 1, m, x.awaited⟩ ∧ m.Near v' := by
  obtain ⟨m, done, near⟩ := S.exec hg he (x.index + 1)
  exact ⟨m, ⟨i, hi, done, (x.behind_of_exec he).symm⟩, near⟩

/-- A piece of code does to the machine what it does to a view. -/
theorem block {is : Code} {v v' : View} (hg : image.HasGlobals) (S : x.machine.Shows v)
    (located : Located image x.index is) (above : x.StaysAbove image is.length)
    (h : View.execAll image is v = some (.ok v')) :
    ∃ m, x.Steps image is.length ⟨x.index + is.length, m, x.awaited⟩ ∧ m.Shows v' := by
  induction is generalizing x v with
  | nil =>
    cases h
    exact ⟨x.machine, .refl x, S⟩
  | cons i is ih =>
    simp only [View.execAll] at h
    cases he : v.exec image i with
    | none => simp [he] at h
    | some e =>
      cases e with
      | error e => simp [he] at h
      | ok v₁ =>
        rw [he] at h
        obtain ⟨m₁, first, near⟩ := next_of_exec hg S located.1 he
        have above₁ := above.later (.one first) (Nat.succ_le_succ (Nat.zero_le is.length))
        obtain ⟨m, rest, S'⟩ := ih (near.shows_of_above above₁.now) located.2 above₁ h
        refine ⟨m, ?_, S'⟩
        rw [List.length_cons, ← Nat.add_assoc, Nat.add_right_comm]
        exact .next first rest

/-- A piece of code stops the machine where it stops a view. -/
theorem trapped {is : Code} {v v' : View} {t : Trap} (hg : image.HasGlobals)
    (S : x.machine.Shows v) (located : Located image x.index is)
    (above : x.StaysAbove image is.length)
    (h : View.execAll image is v = some (.error (t, v'))) :
    ∃ k < is.length, ∃ y, x.Steps image k y ∧ y.Stops image t := by
  induction is generalizing x v with
  | nil => cases h
  | cons i is ih =>
    simp only [View.execAll] at h
    cases he : v.exec image i with
    | none => simp [he] at h
    | some e =>
      cases e with
      | error e =>
        rw [he] at h
        cases h
        obtain ⟨m, done, -⟩ := S.exec hg he (x.index + 1)
        exact ⟨0, Nat.succ_pos _, x, .refl x, i, m, located.1, done⟩
      | ok v₁ =>
        rw [he] at h
        obtain ⟨m₁, first, near⟩ := next_of_exec hg S located.1 he
        have above₁ := above.later (.one first) (Nat.succ_le_succ (Nat.zero_le is.length))
        obtain ⟨k, hk, y, rest, stops⟩ := ih (near.shows_of_above above₁.now) located.2 above₁ h
        exact ⟨k + 1, Nat.succ_lt_succ hk, y, .next first rest, stops⟩

end Visit

end Threefold.X86.Machine
