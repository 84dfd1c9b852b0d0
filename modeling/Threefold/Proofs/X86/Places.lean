import Threefold.Proofs.X86.Staged

/-!
# Where control is in the code of a routine

The code of a routine is a prologue and the pieces for its instructions, one behind the other, so
the index of the next machine instruction determines how high the stack is. `At` says that control
is at an index in a certain stage.

* `At.next` says which instruction stands there, and that behind it control is in the stage to which
  that instruction takes the routine.
* `at_pos` and `at_start` are about the places to which jumps and calls go.
-/

namespace Threefold.X86

open Directive (codeOf)

variable {b : Bytecode} {r : Bytecode.Routine} {image : Image} {p : Plan}

/-! ## From one instruction of the bytecode to the next -/

theorem Image.Follows.pos_mono {c : Context} (F : image.Follows c p) {j k : Nat} (hj : j ≤ k)
    (hk : k ≤ c.routine.code.size) : p.pos j ≤ p.pos k := by
  induction k with
  | zero =>
    obtain rfl := Nat.le_zero.mp hj
    exact Nat.le_refl _
  | succ k ih =>
    rcases Nat.lt_or_eq_of_le hj with before | rfl
    · obtain ⟨ds, -, -, -, behind, -⟩ := F.code k _ (Array.getElem?_eq_getElem hk)
      have front := ih (Nat.le_of_lt_succ before) (Nat.le_of_succ_le hk)
      omega
    · exact Nat.le_refl _

theorem Plan.stage_ne_gone (p : Plan) (c : Context) (k : Nat) : p.stage c k ≠ .gone :=
  nofun

/-- The code of one instruction of the bytecode, with the stage behind it. -/
structure Piece (image : Image) (c : Context) (p : Plan) (k : Nat) (is : Code) (s : Stage) :
    Prop where
  located : Machine.Located image (p.pos k) is
  behind : p.pos (k + 1) = p.pos k + is.length
  leads : Leads c p is (p.stage c k) s
  next : s = .gone ∨ k + 1 < c.routine.code.size ∧ s = p.stage c (k + 1)

section Places

variable (hb : Regular b) (hc : (Context.ofRoutine b r).Modest)
  (F : image.Follows (.ofRoutine b r) p)
include hb hc F

theorem exists_piece {k : Nat} (hk : k < r.code.size) :
    ∃ is s, Piece image (.ofRoutine b r) p k is s := by
  have there : (Context.ofRoutine b r).routine.code[k]? = some r.code[k] :=
    Array.getElem?_eq_getElem hk
  obtain ⟨ds, after, lowered, located, behind, jumps, falls⟩ := F.code k _ there
  have leads := leads_code (p := p) hb hc lowered fun t ht =>
    ⟨(jumps t ht).1, k, _, there, ht⟩
  refine ⟨codeOf ds, _, located, behind, leads, ?_⟩
  unfold stageBehind
  cases flows : r.code[k].endsFlow with
  | true => exact .inl rfl
  | false =>
    obtain ⟨inside, shape⟩ := falls flows
    refine .inr ⟨inside, ?_⟩
    unfold Plan.stage
    rw [shape]
    rfl

/-- An instruction without code leaves the stage as it is. -/
theorem stage_of_empty {k : Nat} (hk : k < r.code.size) (empty : p.pos (k + 1) = p.pos k) :
    k + 1 < r.code.size ∧ p.stage (.ofRoutine b r) (k + 1) = p.stage (.ofRoutine b r) k := by
  obtain ⟨is, s, piece⟩ := exists_piece hb hc F hk
  have behind := piece.behind
  have none : is = [] := List.eq_nil_of_length_eq_zero (by omega)
  have leads := piece.leads
  rw [none] at leads
  cases leads
  exact piece.next.resolve_left (p.stage_ne_gone _ k) |>.imp_right Eq.symm

theorem stage_of_pos {j k : Nat} (hj : j ≤ k) (hk : k < r.code.size) (same : p.pos j = p.pos k) :
    p.stage (.ofRoutine b r) j = p.stage (.ofRoutine b r) k := by
  induction k with
  | zero => rw [Nat.le_zero.mp hj]
  | succ k ih =>
    rcases Nat.lt_or_eq_of_le hj with before | rfl
    · have inside : k < r.code.size := Nat.lt_of_succ_lt hk
      have front := F.pos_mono (Nat.le_of_lt_succ before) (Nat.le_of_lt inside)
      have back := F.pos_mono (k := k + 1) (Nat.le_succ k) (Nat.le_of_lt hk)
      rw [(stage_of_empty hb hc F inside (by omega)).2]
      exact ih (Nat.le_of_lt_succ before) inside (by omega)
    · rfl

end Places

/-! ## Places -/

/-- What is left of a piece of code at an index. Behind it, another piece begins, unless control
has left by then. -/
structure Ahead (image : Image) (c : Context) (p : Plan) (index : Nat) (is : Code) (s : Stage) :
    Prop where
  located : Machine.Located image index is
  behind : ∃ s' k, Leads c p is s s' ∧ index + is.length = p.pos k ∧ k ≤ c.routine.code.size ∧
    (∀ j < k, p.pos j < index) ∧ (s' = .gone ∨ k < c.routine.code.size ∧ s' = p.stage c k)

/-- Control is at an index in the code of a routine, in a stage. -/
structure At (image : Image) (c : Context) (p : Plan) (index : Nat) (s : Stage) : Prop where
  instruction : ∃ i is s', image.code[index]? = some i ∧ Takes c p i s s' ∧
    Ahead image c p (index + 1) is s'
  low : p.start ≤ index
  high : index < p.pos c.routine.code.size
  stage : ∀ k < c.routine.code.size, p.pos k = index → p.stage c k = s

/-- Inside a piece of code. -/
theorem Ahead.at_cons {c : Context} {index : Nat} {i : Instruction} {is : Code} {s : Stage}
    (F : image.Follows c p) (low : p.start ≤ index) (h : Ahead image c p index (i :: is) s) :
    At image c p index s := by
  obtain ⟨⟨here, located⟩, s', k, leads, behind, hk, front, next⟩ := h
  rw [List.length_cons] at behind
  have end_le := F.pos_mono hk (Nat.le_refl _)
  cases leads with
  | @cons _ _ _ s₁ _ first rest =>
    refine ⟨⟨i, is, s₁, here, first, located, s', k, rest, by omega, hk, ?_, next⟩, low, ?_, ?_⟩
    · exact fun j hj => Nat.lt_succ_of_lt (front j hj)
    · omega
    · intro j hj same
      by_cases before : j < k
      · have := front j before
        omega
      · have := F.pos_mono (Nat.le_of_not_lt before) (Nat.le_of_lt hj)
        omega

section Places

variable (hb : Regular b) (hc : (Context.ofRoutine b r).Modest)
  (F : image.Follows (.ofRoutine b r) p)
include hb hc F

/-- Control is where the code of an instruction of the bytecode begins. -/
theorem at_pos {k : Nat} (hk : k < r.code.size) :
    At image (.ofRoutine b r) p (p.pos k) (p.stage (.ofRoutine b r) k) := by
  -- An instruction without code hands control on to the next one.
  induction rest : r.code.size - k generalizing k with
  | zero => omega
  | succ n ih =>
    obtain ⟨is, s, piece⟩ := exists_piece hb hc F hk
    have behind := piece.behind
    cases is with
    | nil =>
      obtain ⟨inside, stage⟩ := stage_of_empty hb hc F hk behind
      have next := ih inside (by omega)
      rw [behind, stage] at next
      exact next
    | cons i is =>
      rw [List.length_cons] at behind
      obtain ⟨here, located⟩ := piece.located
      have start := F.first
      have front := F.pos_mono (Nat.zero_le k) (Nat.le_of_lt hk)
      have back : p.pos (k + 1) ≤ p.pos r.code.size := F.pos_mono hk (Nat.le_refl _)
      have leads := piece.leads
      generalize hs : p.stage (.ofRoutine b r) k = first at leads ⊢
      cases leads with
      | @cons _ _ _ s₁ _ takes leads =>
        refine ⟨⟨i, is, s₁, here, takes, located, s, k + 1, leads, by omega, hk, ?_, piece.next⟩,
          by omega, Nat.lt_of_lt_of_le (by omega) back, ?_⟩
        · intro j hj
          exact Nat.lt_succ_of_le (F.pos_mono (Nat.le_of_lt_succ hj) (Nat.le_of_lt hk))
        · intro j hj same
          rw [← hs]
          by_cases before : j ≤ k
          · exact stage_of_pos hb hc F before hk same
          · have := F.pos_mono (j := k + 1) (Nat.lt_of_not_le before) (Nat.le_of_lt hj)
            omega

omit hb in
/-- Control is where the code of a routine begins. -/
theorem at_start (size : 0 < r.code.size) :
    At image (.ofRoutine b r) p p.start (.entering []) := by
  have leads := Leads.prologue (p := p) hc
  have stage : p.stage (.ofRoutine b r) 0 =
      .standing (2 * (Context.ofRoutine b r).frame.inner.length) := by
    unfold Plan.stage
    rw [F.shape]
    rfl
  rw [← stage] at leads
  have ahead : Ahead image (.ofRoutine b r) p p.start (Code.prologue (.ofRoutine b r))
      (.entering []) :=
    ⟨F.prologue, _, 0, leads, F.first.symm, Nat.zero_le _, nofun, .inr ⟨size, rfl⟩⟩
  cases hp : Code.prologue (.ofRoutine b r) with
  | nil =>
    rw [hp] at leads
    cases leads
  | cons i is =>
    rw [hp] at ahead
    exact ahead.at_cons F (Nat.le_refl _)

/-- Behind an instruction. -/
theorem At.next {index : Nat} {s : Stage} (h : At image (.ofRoutine b r) p index s) :
    ∃ i s', image.code[index]? = some i ∧ Takes (.ofRoutine b r) p i s s' ∧
      (s' ≠ .gone → At image (.ofRoutine b r) p (index + 1) s') := by
  obtain ⟨i, is, s', here, takes, ahead⟩ := h.instruction
  refine ⟨i, s', here, takes, fun stays => ?_⟩
  cases is with
  | cons i' is => exact ahead.at_cons F (Nat.le_succ_of_le h.low)
  | nil =>
    obtain ⟨-, s'', k, leads, behind, -, -, next⟩ := ahead
    cases leads
    obtain ⟨hk, rfl⟩ := next.resolve_left stays
    have place : index + 1 = p.pos k := behind
    rw [place]
    exact at_pos hb hc F hk

end Places

end Threefold.X86
