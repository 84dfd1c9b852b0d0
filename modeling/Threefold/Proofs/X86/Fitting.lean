import Threefold.Proofs.X86.Flow

/-!
# Code that lowering accepts

Lowering accepts a routine if there is a shape of the operands for every instruction such that they
fit together: an instruction finds what it needs in its own shape, and what it leaves is the shape
at every place where control goes from there (`Fitting`). Nothing falls through to what stands
behind a jump or a return, so lowering begins there without operands, unless an earlier jump leads
there; the shapes must agree with that as well.

* `code_of_finds` is about one instruction.
* `Known.step` is the invariant of the pass over a routine: all that was found so far is in
  the given shapes.
* `lower_of_fitting` is about whole programs.
-/

namespace Threefold.X86

/-! ## Places of variables -/

namespace Frame

variable {f : Frame} {x y : Bytecode.Variable}

theorem home?_place_self (f : Frame) (x : Bytecode.Variable) : ((f.place x).home? x).isSome := by
  unfold place
  by_cases known : (f.home? x).isSome
  · rw [if_pos known]
    exact known
  · rw [if_neg known]
    by_cases payload : x = .thrownData
    · rw [if_pos payload]
      unfold home?
      rw [if_pos payload]
      rfl
    · rw [if_neg payload]
      unfold home?
      rw [if_neg payload]
      dsimp only
      cases f.parameters.idxOf? x with
      | some i => rfl
      | none => simp

theorem home?_place (h : (f.home? y).isSome) : ((f.place x).home? y).isSome := by
  unfold place
  split
  · exact h
  split
  · unfold home? at h ⊢
    split
    · rfl
    · rename_i other
      rw [if_neg other] at h
      exact h
  · unfold home? at h ⊢
    split
    · rename_i payload
      rw [if_pos payload] at h
      exact h
    · rename_i other
      rw [if_neg other] at h
      dsimp only at h ⊢
      cases found : f.parameters.idxOf? y with
      | some i => rfl
      | none =>
        rw [found] at h
        simp only [Option.isSome_map, List.isSome_idxOf?] at h ⊢
        exact List.mem_append_left _ h

theorem home?_foldl_place {xs : List Bytecode.Variable} (h : (f.home? y).isSome ∨ y ∈ xs) :
    ((xs.foldl place f).home? y).isSome := by
  induction xs generalizing f with
  | nil => exact h.resolve_right (by simp)
  | cons x xs ih =>
    apply ih
    rcases h with h | h
    · exact .inl (home?_place h)
    · rcases List.mem_cons.mp h with rfl | later
      · exact .inl (home?_place_self f y)
      · exact .inr later

/-- What an instruction of a routine mentions has a place in its frame. -/
theorem home?_ofRoutine {b : Bytecode} {r : Bytecode.Routine} {i : Bytecode.Instruction}
    (hi : i ∈ r.code.toList) (hx : mentioned? b i = some x) : ((ofRoutine b r).home? x).isSome :=
  home?_foldl_place (.inr (List.mem_filterMap.mpr ⟨i, hi, hx⟩))

end Frame

namespace Lowering

variable {c : Context} {index : Nat} {s : Operands} {i : Bytecode.Instruction}

/-! ## One instruction -/

/-- The operands behind an instruction. -/
def effect (s : Operands) (i : Bytecode.Instruction) : Operands :=
  let below : Operands := ⟨s.owned.drop i.pops⟩
  match i with
  | .push _ | .pushLiteral _ | .unary _ | .binary _ => below.push false
  | .load x => below.push (x = .thrownData)
  | .call callee => below.push (isOwned callee)
  | _ => below

/-- The variables that an instruction needs a place for. -/
def needed (b : Bytecode) : Bytecode.Instruction → List Bytecode.Variable
  | .transfer => [.pending, .pendingData]
  | i => (Frame.mentioned? b i).toList

/-- There is all that an instruction needs. -/
structure Finds (c : Context) (s : Operands) (i : Bytecode.Instruction) : Prop where
  enough : i.pops ≤ s.depth
  literal : ∀ n, i = .pushLiteral n → n < c.bytecode.literals.length
  compiled : ∀ f, i = .call (.routine f) → (c.bytecode.routine? f).isSome
  homed : ∀ x ∈ needed c.bytecode i, (c.frame.home? x).isSome

theorem words_of_homed {x : Bytecode.Variable} (h : (c.frame.home? x).isSome) :
    ∃ ws, c.words x = .ok ws := by
  obtain ⟨home, found⟩ := Option.isSome_iff_exists.mp h
  refine ⟨Frame.homeWords home, ?_⟩
  simp only [Context.words, Frame.words?, found, Option.map_some]

theorem popMany_of_le {n : Nat} (h : n ≤ s.depth) (origin : String) :
    popMany s n origin = .ok (s.slots.drop (s.depth - n), ⟨s.owned.drop n⟩) := by
  simp only [popMany, Operands.popMany?, if_pos h]

/-- On top of some operands there is one. -/
theorem exists_push (h : 1 ≤ s.depth) : ∃ below o, s = Operands.push below o := by
  obtain ⟨owned⟩ := s
  cases owned with
  | nil => exact absurd h (Nat.not_succ_le_zero 0)
  | cons o owned => exact ⟨⟨owned⟩, o, rfl⟩

/-- What a call needs. -/
theorem call_of_finds {callee : Bytecode.Callee} (h : Finds c s (.call callee)) :
    ∃ code, call c s callee = .ok (code, effect s (.call callee)) := by
  have symbol : ∃ symbol, target c callee = .ok symbol := by
    cases callee with
    | intrinsic i => exact ⟨_, rfl⟩
    | routine f => exact ⟨_, if_pos (h.compiled f rfl)⟩
  have thrown : ∃ thrown, thrownWord c callee = .ok thrown := by
    unfold thrownWord
    split
    · rename_i can
      have mentioned : needed c.bytecode (.call callee) = [.thrown] := by
        simp [needed, Frame.mentioned?, can]
      obtain ⟨ws, hws⟩ := words_of_homed (h.homed .thrown (by simp [mentioned]))
      rw [hws]
      exact ⟨_, rfl⟩
    · exact ⟨_, rfl⟩
  obtain ⟨symbol, hsymbol⟩ := symbol
  obtain ⟨thrown, hthrown⟩ := thrown
  have enough : callee.arity ≤ s.depth := h.enough
  unfold call
  rw [hsymbol, hthrown, popMany_of_le enough]
  exact ⟨_, rfl⟩

/-- An instruction that finds what it needs is lowered. -/
theorem code_of_finds (h : Finds c s i) (index : Nat) :
    ∃ ds, code c index s i = .ok (ds, effect s i) := by
  cases i with
  | push n => exact ⟨_, rfl⟩
  | pushLiteral n => exact ⟨_, if_pos (h.literal n rfl)⟩
  | load x =>
    obtain ⟨ws, hws⟩ := words_of_homed (h.homed x (by simp [needed, Frame.mentioned?]))
    simp only [code, hws]
    exact ⟨_, rfl⟩
  | store x =>
    obtain ⟨ws, hws⟩ := words_of_homed (h.homed x (by simp [needed, Frame.mentioned?]))
    obtain ⟨below, o, rfl⟩ := exists_push h.enough
    simp only [code, hws]
    exact ⟨_, rfl⟩
  | unary op =>
    obtain ⟨below, o, rfl⟩ := exists_push h.enough
    cases op
    exact ⟨_, rfl⟩
  | binary op =>
    have enough : 2 ≤ s.depth := h.enough
    have two : (s.slots.drop (s.depth - 2)).length = 2 := by
      rw [List.length_drop, Operands.length_slots]
      omega
    match slots : s.slots.drop (s.depth - 2), two with
    | [left, right], _ =>
      simp only [code, popMany_of_le enough, slots]
      exact ⟨_, rfl⟩
  | jump t => exact ⟨_, rfl⟩
  | jumpIfZero t =>
    obtain ⟨below, o, rfl⟩ := exists_push h.enough
    exact ⟨_, rfl⟩
  | call callee =>
    obtain ⟨ls, hls⟩ := call_of_finds h
    simp only [code, hls]
    exact ⟨_, rfl⟩
  | pop =>
    obtain ⟨below, o, rfl⟩ := exists_push h.enough
    exact ⟨_, rfl⟩
  | returnValue =>
    obtain ⟨below, o, rfl⟩ := exists_push h.enough
    exact ⟨_, rfl⟩
  | returnZero => exact ⟨_, rfl⟩
  | transfer =>
    obtain ⟨exception, hexception⟩ := words_of_homed (h.homed .pending (by simp [needed]))
    obtain ⟨payload, hpayload⟩ := words_of_homed (h.homed .pendingData (by simp [needed]))
    simp only [code, transfer]
    split
    · exact ⟨_, rfl⟩
    · rw [hexception, hpayload]
      exact ⟨_, rfl⟩

/-! ## The pass over a routine -/

/-- A jump that stands before an index leads there. -/
def Entered (c : Context) (index : Nat) : Prop :=
  ∃ j i, j < index ∧ c.routine.code[j]? = some i ∧ i.target? = some index

/-- An instruction finds what it needs, and leaves the operands that there are wherever control goes
from it. -/
structure Leads (c : Context) (shapes : List Operands) (index : Nat) (s : Operands)
    (i : Bytecode.Instruction) : Prop where
  finds : Finds c s i
  jumps : ∀ t, i.target? = some t → shapes[t]? = some (effect s i)
  falls : i.endsFlow = false → shapes[index + 1]? = some (effect s i)
  rests : i.endsFlow = true → ∀ s', shapes[index + 1]? = some s' →
    s' = .empty ∨ Entered c (index + 1)

/-- The operands before each instruction of a routine fit together. -/
structure Fitting (c : Context) (shapes : List Operands) : Prop where
  length : shapes.length = c.routine.code.size
  start : shapes[0]? = some .empty
  leads : ∀ index i s, c.routine.code[index]? = some i → shapes[index]? = some s →
    Leads c shapes index s i

/-- What the pass knows when it comes to an index is in the shapes, and the targets of all jumps
before it are known. -/
structure Known (c : Context) (shapes : List Operands) (index : Nat) (f : Flow) : Prop where
  falling : ∀ s, f.falling = some s → shapes[index]? = some s
  recorded : ∀ t s, f.recorded.get? t = some s → shapes[t]? = some s
  earlier : ∀ j i t, j < index → c.routine.code[j]? = some i → i.target? = some t →
    (f.recorded.get? t).isSome
  resting : f.falling = none → ∀ s, shapes[index]? = some s → s = .empty ∨ Entered c index

section Pass

variable {shapes : List Operands} {ts : List Nat} {f : Flow}

theorem recorded_set (h : ∀ t s, f.recorded.get? t = some s → shapes[t]? = some s) {u : Nat}
    (hu : shapes[u]? = some s) :
    ∀ t s', (f.recorded.set u s).get? t = some s' → shapes[t]? = some s' := by
  intro t s' ht
  rw [Bindings.get?_set] at ht
  split at ht
  · rename_i same
    cases ht
    exact same ▸ hu
  · exact h t s' ht

theorem isSome_recorded_set {t u : Nat} (h : (f.recorded.get? t).isSome) :
    ((f.recorded.set u s).get? t).isSome := by
  rw [Bindings.get?_set]
  split
  · rfl
  · exact h

/-- The operands that the pass finds at an index are those of the shapes. -/
theorem Known.arrive (h : Known c shapes index f) (hs : shapes[index]? = some s)
    (known : Entered c index → index ∈ ts) :
    ∃ f', f.arrive c ts index = .ok (s, f') ∧ Known c shapes index f' := by
  have fallen : ∀ x, f.falling = some x → x = s := fun x hx =>
    Option.some.inj ((h.falling x hx).symm.trans hs)
  by_cases inside : ts.contains index
  · cases hr : f.recorded.get? index with
    | some r =>
      obtain rfl : r = s := Option.some.inj ((h.recorded index r hr).symm.trans hs)
      cases hf : f.falling with
      | some x =>
        obtain rfl := fallen x hf
        exact ⟨f, by simp only [Flow.arrive, if_pos inside, hr, hf, if_true], h⟩
      | none => exact ⟨f, by simp only [Flow.arrive, if_pos inside, hr, hf], h⟩
    | none =>
      have found : f.falling.getD .empty = s := by
        cases hf : f.falling with
        | some x => exact fallen x hf
        | none =>
          rcases h.resting hf s hs with rfl | ⟨j, i, low, hi, ht⟩
          · rfl
          · have recorded := h.earlier j i index low hi ht
            rw [hr] at recorded
            cases recorded
      refine ⟨{ f with recorded := f.recorded.set index s }, ?_, h.falling,
        recorded_set h.recorded hs, ?_, h.resting⟩
      · simp only [Flow.arrive, if_pos inside, hr, found]
      · exact fun j i t low hi ht => isSome_recorded_set (h.earlier j i t low hi ht)
  · have found : f.falling.getD .empty = s := by
      cases hf : f.falling with
      | some x => exact fallen x hf
      | none =>
        rcases h.resting hf s hs with rfl | entered
        · rfl
        · exact absurd (List.contains_iff_mem.mpr (known entered)) inside
    exact ⟨f, by simp only [Flow.arrive, if_neg inside, found], h⟩

/-- A jump leads to what the shapes say. -/
theorem Known.jump (h : Known c shapes index f) {t : Nat} (ht : shapes[t]? = some s) :
    ∃ f', f.jump c index t s = .ok f' ∧ Known c shapes index f' ∧
      (f'.recorded.get? t).isSome := by
  cases hr : f.recorded.get? t with
  | some r =>
    obtain rfl : r = s := Option.some.inj ((h.recorded t r hr).symm.trans ht)
    refine ⟨f, ?_, h, by rw [hr]; rfl⟩
    simp only [Flow.jump, hr, if_true]
  | none =>
    refine ⟨{ f with recorded := f.recorded.set t s }, ?_, ⟨h.falling,
      recorded_set h.recorded ht, ?_, h.resting⟩, ?_⟩
    · simp only [Flow.jump, hr]
    · exact fun j i u low hi hu => isSome_recorded_set (h.earlier j i u low hi hu)
    · rw [Bindings.get?_set, if_pos rfl]
      rfl

/-- One instruction of the pass. -/
theorem Known.step (h : Known c shapes index f) (hi : c.routine.code[index]? = some i)
    (hs : shapes[index]? = some s) (leads : Leads c shapes index s i)
    (known : Entered c index → index ∈ ts) :
    ∃ st f', step c ts index i f = .ok (st, f') ∧ Known c shapes (index + 1) f' := by
  obtain ⟨f₁, arrived, h₁⟩ := h.arrive hs known
  obtain ⟨ds, lowered⟩ := code_of_finds leads.finds index
  have jumped : ∃ f₂, Known c shapes index f₂ ∧
      (∀ t, i.target? = some t → (f₂.recorded.get? t).isSome) ∧
      Lowering.step c ts index i f = .ok (⟨s, heading c ts index i ++ ds⟩,
        { f₂ with falling := if i.endsFlow then none else some (effect s i) }) := by
    simp only [Lowering.step, arrived]
    cases ht : i.target? with
    | none =>
      refine ⟨f₁, h₁, by nofun, ?_⟩
      show (code c index s i >>= _) = _
      rw [lowered]
      rfl
    | some t =>
      obtain ⟨f₂, jumped, h₂, recorded⟩ := h₁.jump (leads.jumps t ht)
      refine ⟨f₂, h₂, fun u hu => ?_, ?_⟩
      · cases hu
        exact recorded
      · show (code c index s i >>= _) = _
        rw [lowered]
        show (f₁.jump c index t (effect s i) >>= _) = _
        rw [jumped]
        rfl
  obtain ⟨f₂, h₂, recorded, stepped⟩ := jumped
  refine ⟨_, _, stepped, ?_⟩
  refine ⟨fun s' hs' => ?_, h₂.recorded, fun j k t low hk ht => ?_, fun none s' hs' => ?_⟩
  · cases ends : i.endsFlow with
    | true => simp [ends] at hs'
    | false =>
      simp only [ends, Bool.false_eq_true, if_false, Option.some.injEq] at hs'
      exact hs' ▸ leads.falls ends
  · rcases Nat.lt_succ_iff_lt_or_eq.mp low with low | rfl
    · exact h₂.earlier j k t low hk ht
    · rw [hi] at hk
      cases hk
      exact recorded t ht
  · cases ends : i.endsFlow with
    | true => exact leads.rests ends s' hs'
    | false => simp [ends] at none

/-- The rest of the pass over a routine whose operands fit together. -/
theorem Known.steps (fitting : Fitting c shapes) (known : ∀ t, Entered c t → t ∈ ts)
    {is : List Bytecode.Instruction} (h : Known c shapes index f)
    (hi : c.routine.code.toList.drop index = is) :
    ∃ ss, steps c ts index is f = .ok ss := by
  induction is generalizing index f with
  | nil =>
    have outside : shapes[index]? = none := by
      apply List.getElem?_eq_none
      rw [fitting.length, ← Array.length_toList]
      exact List.drop_eq_nil_iff.mp hi
    have none : f.falling = none := by
      cases hf : f.falling with
      | none => rfl
      | some s =>
        have there := h.falling s hf
        rw [outside] at there
        cases there
    exact ⟨[], by simp [Lowering.steps, none]⟩
  | cons i is ih =>
    have here : c.routine.code[index]? = some i := by
      rw [← Array.getElem?_toList, ← List.head?_drop, hi]
      rfl
    have rest : c.routine.code.toList.drop (index + 1) = is := by
      rw [← List.tail_drop, hi]
      rfl
    have inside : index < shapes.length := by
      obtain ⟨low, -⟩ := Array.getElem?_eq_some_iff.mp here
      exact fitting.length ▸ low
    have hs := List.getElem?_eq_getElem inside
    obtain ⟨st, f', stepped, h'⟩ := h.step here hs (fitting.leads index i _ here hs) (known index)
    obtain ⟨ss, hss⟩ := ih h' rest
    refine ⟨st :: ss, ?_⟩
    simp only [Lowering.steps, stepped]
    show (Lowering.steps c ts (index + 1) is f' >>= _) = _
    rw [hss]
    rfl

end Pass

/-- Jumps that stay in a routine are found. -/
theorem exists_targets {r : Bytecode.Routine} {is : List Bytecode.Instruction} (index : Nat)
    (h : ∀ i ∈ is, ∀ t, i.target? = some t → t < r.code.size) :
    ∃ ts, targets r index is = .ok ts := by
  induction is generalizing index with
  | nil => exact ⟨[], rfl⟩
  | cons i is ih =>
    obtain ⟨ts, hts⟩ := ih (index + 1) fun j hj => h j (List.mem_cons_of_mem i hj)
    simp only [targets]
    cases ht : i.target? with
    | none => exact ⟨ts, hts⟩
    | some t =>
      dsimp only
      rw [if_pos (h i List.mem_cons_self t ht), hts]
      exact ⟨_, rfl⟩

/-- A routine whose operands fit together is lowered. -/
theorem routineSteps_of_fitting {shapes : List Operands} (h : Fitting c shapes) :
    ∃ ss, routineSteps c = .ok ss := by
  have inside : ∀ i ∈ c.routine.code.toList, ∀ t, i.target? = some t →
      t < c.routine.code.size := by
    intro i hi t ht
    obtain ⟨index, low, same⟩ := List.mem_iff_getElem.mp hi
    have here : c.routine.code[index]? = some i := by
      rw [← Array.getElem?_toList, List.getElem?_eq_getElem low, same]
    have low' : index < shapes.length := by
      rw [h.length, ← Array.length_toList]
      exact low
    have hs := List.getElem?_eq_getElem low'
    obtain ⟨bound, -⟩ := List.getElem?_eq_some_iff.mp ((h.leads index i _ here hs).jumps t ht)
    exact h.length ▸ bound
  obtain ⟨ts, hts⟩ := exists_targets 0 inside
  have known : ∀ t, Entered c t → t ∈ ts := by
    rintro t ⟨j, i, -, hi, ht⟩
    rw [← Array.getElem?_toList] at hi
    exact (targets_of_ok hts (List.mem_of_getElem? hi) ht).1
  have start : Known c shapes 0 ⟨some .empty, .empty⟩ := by
    refine ⟨fun s hs => ?_, by nofun, fun j _ _ low => absurd low (Nat.not_lt_zero j), by nofun⟩
    cases hs
    exact h.start
  obtain ⟨ss, hss⟩ := start.steps h known rfl
  refine ⟨ss, ?_⟩
  simp only [routineSteps, hts]
  exact hss

/-- A program is lowered if it has an entry and the operands of each routine fit together. -/
theorem lower_of_fitting {b : Bytecode} (entry : (b.routine? b.entry).isSome)
    (h : ∀ r ∈ b.routines, ∃ shapes, Fitting (.ofRoutine b r) shapes) :
    ∃ a, b.lower = .ok a := by
  have each : ∀ rs : List Bytecode.Routine, (∀ r ∈ rs, r ∈ b.routines) →
      ∃ bodies, rs.mapM (routine b) = .ok bodies := by
    intro rs hrs
    induction rs with
    | nil => exact ⟨[], rfl⟩
    | cons r rs ih =>
      obtain ⟨shapes, fitting⟩ := h r (hrs r List.mem_cons_self)
      obtain ⟨ss, hss⟩ := routineSteps_of_fitting fitting
      obtain ⟨bodies, hbodies⟩ := ih fun r' hr' => hrs r' (List.mem_cons_of_mem r hr')
      rw [List.mapM_cons, hbodies]
      simp only [routine, hss]
      exact ⟨_, rfl⟩
  obtain ⟨bodies, hbodies⟩ := each b.routines fun _ hr => hr
  have there : ¬ (b.routine? b.entry).isNone = true := by
    rw [Option.isNone_iff_eq_none]
    exact Option.isSome_iff_ne_none.mp entry
  simp only [Bytecode.lower, if_neg there, hbodies]
  exact ⟨_, rfl⟩

end Lowering

end Threefold.X86
