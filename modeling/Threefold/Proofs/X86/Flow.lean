import Threefold.Proofs.Program.Calls
import Threefold.X86.Lowering

/-!
# The shape of the operands at every instruction

Lowering goes over the code of a routine once. Whatever way control takes through code that was
lowered, the operands at an instruction have the shape with which it was lowered. So the shapes are
a function of the index (`Shaped`), of which every instruction says what it is at the instructions
behind it.

* `routineSteps_flowing` says so of the shapes that lowering has found.
-/

namespace Threefold.X86.Lowering

section Inversion

variable {c : Context} {ts : List Nat} {index target : Nat} {s : Operands} {f f' : Flow}

/-- What was recorded stays. -/
def Flow.Keeps (f f' : Flow) : Prop :=
  ∀ t x, f.recorded.get? t = some x → f'.recorded.get? t = some x

theorem Flow.Keeps.refl (f : Flow) : f.Keeps f := fun _ _ h => h

theorem Flow.keeps_set {t : Nat} {x : Operands} (h : f.recorded.get? t = none) :
    f.Keeps { f with recorded := f.recorded.set t x } := by
  intro u y hu
  rw [Bindings.get?_set, if_neg]
  · exact hu
  · rintro rfl
    rw [h] at hu
    cases hu

/-- What is known of the operands at an index at which control arrives. -/
structure Flow.Arrived (ts : List Nat) (index : Nat) (f : Flow) (s : Operands) (f' : Flow) :
    Prop where
  falling : ∀ x, f.falling = some x → s = x
  target : index ∈ ts → f'.recorded.get? index = some s
  keeps : f.Keeps f'

theorem Flow.arrived (h : f.arrive c ts index = .ok (s, f')) : f.Arrived ts index s f' := by
  unfold Flow.arrive at h
  split at h
  · cases hr : f.recorded.get? index with
    | some recorded =>
      cases hf : f.falling with
      | some falling =>
        rw [hr, hf] at h
        dsimp only at h
        split at h
        · rename_i same
          cases h
          exact ⟨fun x hx => Option.some.inj (hf.symm.trans hx), fun _ => same ▸ hr, .refl f⟩
        · cases h
      | none =>
        rw [hr, hf] at h
        cases h
        refine ⟨fun x hx => ?_, fun _ => hr, .refl f⟩
        rw [hf] at hx
        cases hx
    | none =>
      rw [hr] at h
      cases h
      refine ⟨fun x hx => ?_, fun _ => ?_, Flow.keeps_set hr⟩
      · rw [hx]
        rfl
      · rw [Bindings.get?_set, if_pos rfl]
  · rename_i outside
    cases h
    refine ⟨fun x hx => ?_, fun hi => ?_, .refl f⟩
    · rw [hx]
      rfl
    · exact absurd (List.contains_iff_mem.mpr hi) outside

theorem Flow.jumped (h : f.jump c index target s = .ok f') :
    f'.recorded.get? target = some s ∧ f.Keeps f' := by
  unfold Flow.jump at h
  cases hr : f.recorded.get? target with
  | some recorded =>
    rw [hr] at h
    dsimp only at h
    split at h
    · rename_i same
      cases h
      exact ⟨same ▸ hr, .refl f⟩
    · cases h
  | none =>
    rw [hr] at h
    cases h
    refine ⟨?_, Flow.keeps_set hr⟩
    rw [Bindings.get?_set, if_pos rfl]

/-- The lines in front of the machine code of an instruction. -/
def heading (c : Context) (ts : List Nat) (index : Nat) (i : Bytecode.Instruction) : List Directive :=
  (if ts.contains index then [Directive.label (c.label index)] else []) ++
    [.comment (toString index ++ ": " ++ i.text)]

/-- What a step of lowering consists of. -/
structure Stepped (c : Context) (ts : List Nat) (index : Nat) (i : Bytecode.Instruction) (f : Flow)
    (st : Step) (f' : Flow) : Prop where
  lowered : ∃ ds after f₁, f.Arrived ts index st.operands f₁ ∧
    code c index st.operands i = .ok (ds, after) ∧ st.directives = heading c ts index i ++ ds ∧
    f₁.Keeps f' ∧ (∀ t, i.target? = some t → f'.recorded.get? t = some after) ∧
    f'.falling = if i.endsFlow then none else some after

theorem stepped {i : Bytecode.Instruction} {st : Step} (h : step c ts index i f = .ok (st, f')) :
    Stepped c ts index i f st f' := by
  obtain ⟨⟨s, f₁⟩, arrived, h⟩ := Program.ok_of_bind h
  obtain ⟨⟨ds, after⟩, lowered, h⟩ := Program.ok_of_bind h
  dsimp only at h
  cases ht : i.target? with
  | none =>
    rw [ht] at h
    cases h
    refine ⟨ds, after, f₁, Flow.arrived arrived, lowered, rfl, .refl f₁, ?_, rfl⟩
    intro t hi
    rw [ht] at hi
    cases hi
  | some t =>
    rw [ht] at h
    obtain ⟨f₂, jumped, h⟩ := Program.ok_of_bind h
    cases h
    have found := Flow.jumped jumped
    refine ⟨ds, after, f₁, Flow.arrived arrived, lowered, rfl, found.2, ?_, rfl⟩
    intro u hu
    rw [ht] at hu
    cases hu
    exact found.1

end Inversion

/-- Operands are taken in the number that was asked for. -/
theorem length_of_popMany {s : Operands} {origin : String} {n : Nat} {slots : List Slot}
    {below : Operands} (h : popMany s n origin = .ok (slots, below)) :
    slots.length = n ∧ below.depth + n = s.depth := by
  unfold popMany at h
  cases hs : s.popMany? n with
  | none =>
    rw [hs] at h
    cases h
  | some r =>
    rw [hs] at h
    cases h
    exact Operands.length_of_popMany? hs

section Shapes

variable {c : Context} {ts : List Nat} {shape : Nat → Operands}

/-- What lowering says about an instruction, given the shapes of the operands. -/
structure Shaped (c : Context) (ts : List Nat) (shape : Nat → Operands) (size index : Nat)
    (i : Bytecode.Instruction) (st : Step) : Prop where
  operands : st.operands = shape index
  lowered : ∃ ds after, code c index (shape index) i = .ok (ds, after) ∧
    st.directives = heading c ts index i ++ ds ∧
    (∀ t, i.target? = some t → t ∈ ts → t < size → shape t = after) ∧
    (i.endsFlow = false → index + 1 < size ∧ shape (index + 1) = after)

theorem steps_length {is : List Bytecode.Instruction} {index : Nat} {f : Flow} {ss : List Step}
    (h : steps c ts index is f = .ok ss) : ss.length = is.length := by
  induction is generalizing index f ss with
  | nil =>
    simp only [steps] at h
    split at h
    · cases h
    · cases h
      rfl
  | cons i is ih =>
    obtain ⟨⟨st, f'⟩, -, h⟩ := Program.ok_of_bind h
    obtain ⟨rest, hrest, h⟩ := Program.ok_of_bind h
    cases h
    rw [List.length_cons, List.length_cons, ih hrest]

/-- What is recorded for an index ahead is the shape found there. -/
theorem shape_of_recorded {is : List Bytecode.Instruction} {index : Nat} {f : Flow} {ss : List Step}
    (h : steps c ts index is f = .ok ss)
    (hs : ∀ j st, ss[j]? = some st → shape (index + j) = st.operands) {t : Nat} {x : Operands}
    (ht : t ∈ ts) (hx : f.recorded.get? t = some x) (low : index ≤ t)
    (high : t < index + is.length) : shape t = x := by
  induction is generalizing index f ss with
  | nil =>
    rw [List.length_nil] at high
    omega
  | cons i is ih =>
    obtain ⟨⟨st, f'⟩, first, h⟩ := Program.ok_of_bind h
    obtain ⟨rest, hrest, h⟩ := Program.ok_of_bind h
    cases h
    obtain ⟨ds, after, f₁, arrived, -, -, kept, -, -⟩ := (stepped first).lowered
    by_cases here : t = index
    · subst here
      have found := arrived.keeps t x hx
      rw [arrived.target ht] at found
      have shaped := hs 0 st rfl
      rw [Nat.add_zero] at shaped
      exact shaped.trans (Option.some.inj found)
    · apply ih hrest
      · intro j st' hj
        have shaped := hs (j + 1) st' hj
        rw [← shaped]
        congr 1
        omega
      · exact kept t x (arrived.keeps t x hx)
      · omega
      · rw [List.length_cons] at high
        omega

theorem steps_shaped {is : List Bytecode.Instruction} {index : Nat} {f : Flow} {ss : List Step}
    (h : steps c ts index is f = .ok ss)
    (hs : ∀ j st, ss[j]? = some st → shape (index + j) = st.operands)
    (earlier : ∀ t ∈ ts, t < index → f.recorded.get? t = some (shape t)) {j : Nat}
    {i : Bytecode.Instruction} (hi : is[j]? = some i) :
    ∃ st, ss[j]? = some st ∧ Shaped c ts shape (index + is.length) (index + j) i st := by
  induction is generalizing index f ss j with
  | nil => cases hi
  | cons k is ih =>
    obtain ⟨⟨st, f'⟩, first, h⟩ := Program.ok_of_bind h
    obtain ⟨rest, hrest, h⟩ := Program.ok_of_bind h
    cases h
    obtain ⟨ds, after, f₁, arrived, lowered, lines, kept, jumped, falling⟩ :=
      (stepped first).lowered
    have shaped := hs 0 st rfl
    rw [Nat.add_zero] at shaped
    have hs' : ∀ j st', rest[j]? = some st' → shape (index + 1 + j) = st'.operands := by
      intro j st' hj
      have later := hs (j + 1) st' hj
      rw [← later]
      congr 1
      omega
    have earlier' : ∀ t ∈ ts, t < index + 1 → f'.recorded.get? t = some (shape t) := by
      intro t ht low
      apply kept
      by_cases here : t = index
      · rw [here, shaped]
        exact arrived.target (here ▸ ht)
      · exact arrived.keeps t _ (earlier t ht (by omega))
    cases j with
    | succ j =>
      obtain ⟨st', hst, found⟩ := ih hrest hs' earlier' hi
      have place : index + 1 + j = index + (j + 1) := by omega
      have size : index + 1 + is.length = index + (k :: is).length := by
        rw [List.length_cons]
        omega
      rw [place, size] at found
      exact ⟨st', hst, found⟩
    | zero =>
      cases hi
      refine ⟨st, rfl, shaped.symm, ds, after, ?_, lines, ?_, ?_⟩
      · rw [Nat.add_zero, shaped]
        exact lowered
      · intro t ht inside high
        have recorded := jumped t ht
        by_cases past : t < index + 1
        · rw [earlier' t inside past] at recorded
          exact Option.some.inj recorded
        · apply shape_of_recorded hrest hs' inside recorded
          · omega
          · rw [List.length_cons] at high
            omega
      · intro flows
        rw [flows] at falling
        cases is with
        | nil =>
          simp only [steps, falling] at hrest
          cases hrest
        | cons k' is =>
          obtain ⟨⟨st', f''⟩, second, hrest⟩ := Program.ok_of_bind hrest
          obtain ⟨rest', -, hrest⟩ := Program.ok_of_bind hrest
          cases hrest
          obtain ⟨-, -, f₂, arrived', -⟩ := (stepped second).lowered
          refine ⟨?_, ?_⟩
          · simp only [List.length_cons]
            omega
          · rw [← arrived'.falling after falling]
            exact hs' 0 st' rfl

/-- Jumps of a routine that is lowered stay in it. -/
theorem targets_of_ok {r : Bytecode.Routine} {is : List Bytecode.Instruction} {index : Nat} {ts : List Nat}
    (h : targets r index is = .ok ts) {i : Bytecode.Instruction} (hi : i ∈ is) {t : Nat}
    (ht : i.target? = some t) : t ∈ ts ∧ t < r.code.size := by
  induction is generalizing index ts with
  | nil => cases hi
  | cons k is ih =>
    simp only [targets] at h
    rcases List.mem_cons.mp hi with rfl | later
    · rw [ht] at h
      dsimp only at h
      split at h
      · rename_i inside
        obtain ⟨rest, -, h⟩ := Program.ok_of_bind h
        cases h
        exact ⟨List.mem_cons_self, inside⟩
      · cases h
    · cases hk : k.target? with
      | none =>
        rw [hk] at h
        exact ih h later
      | some u =>
        rw [hk] at h
        dsimp only at h
        split at h
        · obtain ⟨rest, hrest, h⟩ := Program.ok_of_bind h
          cases h
          have found := ih hrest later
          exact ⟨List.mem_cons_of_mem u found.1, found.2⟩
        · cases h

/-- What is known of a routine that was lowered: its jump targets, and the shape of the operands at
each of its instructions. -/
structure Flowing (c : Context) (ts : List Nat) (shape : Nat → Operands) (ss : List Step) :
    Prop where
  start : shape 0 = .empty
  length : ss.length = c.routine.code.size
  targets : ∀ (index : Nat) (i : Bytecode.Instruction) (t : Nat), c.routine.code[index]? = some i → i.target? = some t →
    t ∈ ts ∧ t < c.routine.code.size
  shaped : ∀ (index : Nat) (i : Bytecode.Instruction), c.routine.code[index]? = some i →
    ∃ st, ss[index]? = some st ∧ Shaped c ts shape c.routine.code.size index i st

/-- The shape of the operands with which a step begins. -/
def shapeOf (ss : List Step) (index : Nat) : Operands :=
  ((ss[index]?).map Step.operands).getD .empty

theorem shapeOf_of_getElem? {ss : List Step} {index : Nat} {st : Step} (h : ss[index]? = some st) :
    shapeOf ss index = st.operands := by
  unfold shapeOf
  rw [h]
  rfl

theorem routineSteps_flowing {ss : List Step} (h : routineSteps c = .ok ss) :
    ∃ ts, Flowing c ts (shapeOf ss) ss := by
  obtain ⟨ts, hts, h⟩ := Program.ok_of_bind h
  have hs : ∀ j st, ss[j]? = some st → shapeOf ss (0 + j) = st.operands := by
    intro j st hj
    rw [Nat.zero_add]
    exact shapeOf_of_getElem? hj
  refine ⟨ts, ?_, ?_, ?_, ?_⟩
  · cases hcode : c.routine.code.toList with
    | nil =>
      rw [hcode] at h
      cases h
    | cons i is =>
      rw [hcode] at h
      obtain ⟨⟨st, f'⟩, first, h⟩ := Program.ok_of_bind h
      obtain ⟨rest, -, h⟩ := Program.ok_of_bind h
      cases h
      obtain ⟨-, -, f₁, arrived, -⟩ := (stepped first).lowered
      exact arrived.falling .empty rfl
  · exact steps_length h
  · intro index i t hi ht
    rw [← Array.getElem?_toList] at hi
    exact targets_of_ok hts (List.mem_of_getElem? hi) ht
  · intro index i hi
    rw [← Array.getElem?_toList] at hi
    have shaped := steps_shaped h hs (fun t _ ht => absurd ht (Nat.not_lt_zero t)) hi
    rw [Nat.zero_add, Nat.zero_add] at shaped
    exact shaped

/-- A routine that is lowered has code. -/
theorem size_pos_of_routineSteps {ss : List Step} (h : routineSteps c = .ok ss) :
    0 < c.routine.code.size := by
  obtain ⟨ts, -, h⟩ := Program.ok_of_bind h
  cases hcode : c.routine.code.toList with
  | nil =>
    rw [hcode] at h
    cases h
  | cons i is =>
    rw [← Array.length_toList, hcode]
    exact Nat.succ_pos _

end Shapes

/-- What the module of a program consists of. -/
theorem parts_of_lower {b : Bytecode} {a : Assembly} (h : b.lower = .ok a) :
    (b.routine? b.entry).isSome ∧ ∃ bodies, b.routines.mapM (routine b) = .ok bodies ∧
      a = ⟨[.enter .code] ++ bodies.flatten ++ literals b.literals ++ globals,
        b.exceptions⟩ := by
  unfold Bytecode.lower at h
  split at h
  · cases h
  · rename_i found
    obtain ⟨bodies, hbodies, h⟩ := Program.ok_of_bind h
    cases h
    refine ⟨?_, bodies, hbodies, rfl⟩
    cases hr : b.routine? b.entry with
    | none => simp [hr] at found
    | some r => rfl

/-- Whatever is done to the elements of a list is done to each of them. -/
theorem exists_of_mapM {ε α β : Type} {f : α → Except ε β} {xs : List α} {ys : List β}
    (h : xs.mapM f = .ok ys) {x : α} (hx : x ∈ xs) : ∃ y, f x = .ok y := by
  induction xs generalizing ys with
  | nil => cases hx
  | cons k xs ih =>
    rw [List.mapM_cons] at h
    obtain ⟨y, hy, h⟩ := Program.ok_of_bind h
    obtain ⟨rest, hrest, -⟩ := Program.ok_of_bind h
    rcases List.mem_cons.mp hx with rfl | later
    · exact ⟨y, hy⟩
    · exact ih hrest later

/-- Every routine of a program that is lowered has steps. -/
theorem steps_of_lower {b : Bytecode} {a : Assembly} (h : b.lower = .ok a) {r : Bytecode.Routine}
    (hr : r ∈ b.routines) : ∃ ss, routineSteps (.ofRoutine b r) = .ok ss := by
  obtain ⟨-, bodies, hbodies, -⟩ := parts_of_lower h
  obtain ⟨ds, hds⟩ := exists_of_mapM hbodies hr
  obtain ⟨ss, hss, -⟩ := Program.ok_of_bind hds
  exact ⟨ss, hss⟩

end Threefold.X86.Lowering
