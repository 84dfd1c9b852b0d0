import Threefold.Proofs.X86.Representation

/-!
# Instructions that work on operands, on both machines

From a machine that represents an activation, the code of an instruction that only works on operands
leads to a machine that represents the activation behind the instruction, which the machine for bytecode
comes to as well. Memory changes only above the operands that are left, and the heap only by giving back
what used operands own. The code of an instruction stops on the way just in case its operator has no
result, that is, in a division by zero and in that of the smallest word by -1 (`operands_simulated`).
-/

namespace Threefold

/-- The only operators without a result are those of division: a divisor may be zero, and a quotient of
the smallest word may be one more than a word can be. -/
theorem BinaryOp.eval?_eq_none {op : BinaryOp} {l r : Int32} :
    op.eval? l r = none ↔
      (op = .div ∨ op = .rem) ∧ (r = 0 ∨ l = Int32.minValue ∧ r = -1) := by
  have division (n : Int32) : (if traps l r then none else some n) = none ↔
      (r = 0 ∨ l = Int32.minValue ∧ r = -1) := by
    have known : traps l r = true ↔ r = 0 ∨ l = Int32.minValue ∧ r = -1 := by simp [traps]
    rw [← known]
    simp
  cases op <;> simp only [eval?, division] <;> simp

namespace Bytecode

/-- An instruction only reads and replaces operands, or jumps. The payload of an exception is not read
but taken. -/
def Instruction.isOperand : Instruction → Bool
  | push _ | pushLiteral _ | unary _ | binary _ | jump _ | jumpIfZero _ | pop => true
  | load x => x != .thrownData
  | _ => false

/-- An operator has no result for the operands on top. -/
def Instruction.Fails (i : Instruction) (vs : List Value) (t : X86.Trap) : Prop :=
  ∃ op left right rest, i = .binary op ∧ vs = right :: left :: rest ∧
    op.eval? left.word right.word = none ∧ t = .ofDivision left.word right.word

/-- Only a division fails: by zero, or of the smallest word by -1. -/
theorem Instruction.fails_iff {i : Instruction} {vs : List Value} {t : X86.Trap} :
    i.Fails vs t ↔ ∃ op left right rest, i = .binary op ∧ vs = right :: left :: rest ∧
      (op = .div ∨ op = .rem) ∧
      (right.word = 0 ∨ left.word = Int32.minValue ∧ right.word = -1) ∧
      t = .ofDivision left.word right.word := by
  simp only [Fails, BinaryOp.eval?_eq_none, and_assoc]

end Bytecode

namespace Heap

instance (h : Heap) (v : Value) : Decidable (h.Vouches v) :=
  decidable_of_iff (∀ k ∈ v.tag.kind?, ∃ i ∈ h.index? v.word, h.kindAt? i = some k) Iff.rfl

instance (h : Heap) : Decidable h.Sound :=
  decidable_of_iff (∀ c ∈ h.cells, ∀ v ∈ c.object.elements, h.Vouches v) <| by
    simp only [Sound, objectAt?, Array.mem_iff_getElem?, Option.map_eq_some_iff]
    exact ⟨fun all i o ⟨c, hc, same⟩ => same ▸ all c ⟨i, hc⟩,
      fun all c ⟨i, hc⟩ => all i _ ⟨c, hc, rfl⟩⟩

end Heap

namespace X86

open Directive (codeOf)

/-- The step of an instruction of a routine that follows others, and the index at which its code begins:
the number of instructions in front of it, in the code of the others and of the routine itself. -/
def Lowering.stepAt? (b : Bytecode) (front : List Bytecode.Routine) (r : Bytecode.Routine) (k : Nat) :
    Option (Step × Nat) :=
  match front.mapM (routine b), routineSteps (.ofRoutine b r) with
  | .ok lines, .ok ss => (ss[k]?).map fun st =>
    (st, (planAt (codeOf lines.flatten).length (.ofRoutine b r) ss).pos k)
  | _, _ => none

theorem Lowering.stepAt?_eq_some {b : Bytecode} {front : List Bytecode.Routine}
    {r : Bytecode.Routine} {k : Nat} {st : Step} {index : Nat} :
    stepAt? b front r k = some (st, index) ↔ ∃ lines ss, front.mapM (routine b) = .ok lines ∧
      routineSteps (.ofRoutine b r) = .ok ss ∧ ss[k]? = some st ∧
      (planAt (codeOf lines.flatten).length (.ofRoutine b r) ss).pos k = index := by
  unfold stepAt?
  constructor
  · intro h
    split at h
    · rename_i lines ss hlines hss
      obtain ⟨st', hst, same⟩ := Option.map_eq_some_iff.mp h
      cases same
      exact ⟨lines, ss, hlines, hss, hst, rfl⟩
    · cases h
  · rintro ⟨lines, ss, hlines, hss, hst, rfl⟩
    rw [hlines, hss]
    simp only [hst, Option.map_some]

open Lowering (stepAt?)

/-- What is known of the code of an instruction and of where it leads. -/
structure Lowering.Site (b : Bytecode) (image : Image) (front back : List Bytecode.Routine)
    (r : Bytecode.Routine) (k : Nat) (st : Step) (index : Nat) (i : Bytecode.Instruction)
    (after : Operands) : Prop where
  code : ∃ ds, codeOf st.directives = codeOf ds ∧
    Lowering.code (.ofRoutine b r) k st.operands i = .ok (ds, after)
  located : Machine.Located image index (codeOf st.directives)
  falls : i.endsFlow = false → ∃ st', stepAt? b front r (k + 1) =
      some (st', index + (codeOf st.directives).length) ∧
    st'.operands = after
  jumps : ∀ t, i.target? = some t → ∃ st' index',
    stepAt? b front r t = some (st', index') ∧ st'.operands = after ∧
    ((∀ r' ∈ back, (Context.ofRoutine b r').symbol ≠ (Context.ofRoutine b r).symbol) →
      image.labels.get? ((Context.ofRoutine b r).label t) = some index')

section Sites

variable {b : Bytecode} {asm : Assembly} {image : Image} {heap : Heap}
  {front back : List Bytecode.Routine} {r : Bytecode.Routine} {k index : Nat} {st : Lowering.Step}
  {i : Bytecode.Instruction}

theorem laid_of_load (lowered : b.lower = .ok asm) (loaded : asm.load = .ok (image, heap)) :
    ∃ bodies, b.routines.mapM (Lowering.routine b) = .ok bodies ∧ Laid b bodies image heap := by
  obtain ⟨bodies, image', heap', hbodies, load, laid⟩ := laid_of_lower lowered
  rw [loaded] at load
  cases load
  exact ⟨bodies, hbodies, laid⟩

/-- The library keeps the symbol with which references are given back, unless the entry has it. -/
theorem Laid.release {bodies : List (List Directive)}
    (hbodies : b.routines.mapM (Lowering.routine b) = .ok bodies) (laid : Laid b bodies image heap)
    (unclaimed : b.entry.name ≠ Symbol.release) :
    image.functions.get? Symbol.release = none := by
  rw [laid.functions, Image.functions_extendAll_of_notMem]
  · rfl
  · rw [Lowering.symbolsOf_bodies (Lowering.isBody_of_mapM hbodies), List.mem_map]
    rintro ⟨r, -, same⟩
    by_cases entry : r.signature = b.entry
    · refine unclaimed ?_
      rw [← same]
      show b.entry.name = Symbol.ofSignature b.entry r.signature
      rw [Symbol.ofSignature, if_pos entry]
    · have numbered := Symbol.numbered_ofSignature entry
      have symbol : Symbol.ofSignature b.entry r.signature = Symbol.release := same
      rw [symbol] at numbered
      exact Symbol.not_numbered_release numbered

theorem Lowering.site_of_stepAt? (lowered : b.lower = .ok asm) (loaded : asm.load = .ok (image, heap))
    (routines : b.routines = front ++ r :: back) (h : stepAt? b front r k = some (st, index))
    (hi : r.code[k]? = some i) :
    ∃ after, Lowering.Site b image front back r k st index i after := by
  obtain ⟨bodies, hbodies, laid⟩ := laid_of_load lowered loaded
  obtain ⟨front', ss, hlines, hss, hst, rfl⟩ := Lowering.stepAt?_eq_some.mp h
  rw [routines] at hbodies
  obtain ⟨front'', ss', rest, hlines', hss', hrest, split⟩ := Lowering.lines_of_split hbodies
  cases hlines.symm.trans hlines'
  cases hss.symm.trans hss'
  obtain ⟨ts, flowing⟩ := Lowering.routineSteps_flowing hss
  have hcode := laid.code
  rw [split] at hcode
  have places := flowing.places hcode
  obtain ⟨ds, after, code, located, next, jumps, falls⟩ := places.code k i hi
  have shape : Lowering.shapeOf ss k = st.operands := Lowering.shapeOf_of_getElem? hst
  have lines : codeOf st.directives = codeOf ds := by
    obtain ⟨st', hst', shaped⟩ := flowing.shaped k i hi
    obtain ⟨ds', after', code', lines, -⟩ := shaped.lowered
    cases hst.symm.trans hst'
    cases (code.symm.trans code')
    rw [lines, Directive.codeOf_append, Lowering.codeOf_heading, List.nil_append]
  have there (j : Nat) (hj : j < r.code.size) (at_j : Lowering.shapeOf ss j = after) :
      ∃ st', stepAt? b front r j = some (st',
        (Lowering.planAt (codeOf front'.flatten).length (.ofRoutine b r) ss).pos j) ∧
        st'.operands = after := by
    obtain ⟨st', hst', shaped⟩ := flowing.shaped j _ (Array.getElem?_eq_getElem hj)
    exact ⟨st', Lowering.stepAt?_eq_some.mpr ⟨front', ss, hlines, hss, hst', rfl⟩, shaped.operands.trans at_j⟩
  refine ⟨after, ⟨ds, lines, shape ▸ code⟩, lines ▸ located, fun flows => ?_, fun t ht => ?_⟩
  · obtain ⟨inside, at_next⟩ := falls flows
    rw [lines, ← next]
    exact there (k + 1) inside at_next
  · obtain ⟨at_t, inside⟩ := jumps t ht
    obtain ⟨st', step, operands⟩ := there t inside at_t
    refine ⟨st', _, step, operands, fun fresh => ?_⟩
    have bodied := Lowering.isBody_of_mapM hrest
    refine flowing.label (by rw [laid.labels, split]) (fun l hl same => ?_) hi ht
    obtain ⟨r', hr', function⟩ := Lowering.mem_labelsOf_bodies bodied l hl
    exact fresh r' hr' (function.symm.trans same)

end Sites

theorem itemsOf_eq_cons {flags : List Bool} {vs : List Value} {o : Item} {rest : List Item}
    (h : itemsOf flags vs = o :: rest) :
    ∃ fs v us, flags = o.owned :: fs ∧ vs = v :: us ∧ o.raw = .ofValue v ∧ rest = itemsOf fs us := by
  match flags, vs, h with
  | f :: fs, v :: us, h =>
    simp only [itemsOf, List.zipWith_cons_cons, List.cons.injEq] at h
    obtain ⟨rfl, rfl⟩ := h
    exact ⟨fs, v, us, rfl, rfl, rfl, rfl⟩

/-! ## One instruction -/

namespace Machine

/-- The code of an instruction leads to a machine that represents an activation behind it. -/
structure Visit.Reaches (image : Image) (b : Bytecode) (front : List Bytecode.Routine)
    (r : Bytecode.Routine) (home : Nat) (st : Lowering.Step) (n : Nat)
    (a a' : Bytecode.Machine.Activation) (x y : Visit) (st' : Lowering.Step) : Prop where
  steps : x.Steps image (codeOf st.directives).length y
  awaited : y.awaited = x.awaited
  place : stepAt? b front r a'.next = some (st', y.index)
  represents : y.machine.Represents image (.ofRoutine b r) home st'.operands a'
  spends : Spends (.ofRoutine b r) home st.operands n a.operands x.machine y.machine

section Steps

variable {b : Bytecode} {image : Image} {front back : List Bytecode.Routine} {r : Bytecode.Routine}
  {home : Nat} {st : Lowering.Step} {a : Bytecode.Machine.Activation} {x : Visit}
  {i : Bytecode.Instruction} {after : Operands}

/-- Code that replaces operands reaches the next instruction. -/
theorem Visit.reaches_next {n : Nat} {vs : List Value} (hg : image.HasGlobals)
    (hr : image.functions.get? Symbol.release = none)
    (site : Lowering.Site b image front back r a.next st x.index i after) (flows : i.endsFlow = false)
    (R : x.machine.Represents image (.ofRoutine b r) home st.operands a)
    (above : x.StaysAbove image (codeOf st.directives).length)
    (replaces : View.Replaces image (.ofRoutine b r) home (itemsOf st.operands.owned a.operands)
      (x.machine.view ((Context.ofRoutine b r).bottom home + spilledWords st.operands.depth))
      (codeOf st.directives) n (itemsOf (vs.map fun _ => false) vs) fun _ => True)
    (shape : after = ⟨(vs.map fun _ => false) ++ st.operands.owned.drop n⟩) :
    ∃ y st', Visit.Reaches image b front r home st n a
      { a with operands := vs ++ a.operands.drop n, next := a.next + 1 } x y st' := by
  obtain ⟨m, -, steps, spends, -, -, represents⟩ := R.replace vs hg hr replaces site.located above
  obtain ⟨st', place, operands⟩ := site.falls flows
  refine ⟨_, st', steps, rfl, place, ?_, spends⟩
  rw [operands, shape]
  exact represents (a.next + 1)

/-- A jump reaches its target. -/
theorem Visit.reaches_jump {t : Nat}
    (site : Lowering.Site b image front back r a.next st x.index (.jump t) after)
    (fresh : ∀ r' ∈ back, (Context.ofRoutine b r').symbol ≠ (Context.ofRoutine b r).symbol)
    (R : x.machine.Represents image (.ofRoutine b r) home st.operands a) :
    ∃ y st', Visit.Reaches image b front r home st 0 a { a with next := t } x y st' := by
  obtain ⟨ds, lines, code⟩ := site.code
  obtain ⟨st', index', place, operands, label⟩ := site.jumps t rfl
  obtain ⟨only, same⟩ := codeOf_done code
  have located := site.located
  rw [lines, only] at located
  have jumps : x.Next image ⟨index', x.machine, x.awaited⟩ := by
    refine ⟨_, located.1, ?_, rfl⟩
    simp only [execute, find, label fresh]
    rfl
  have spends : Spends (.ofRoutine b r) home st.operands 0 a.operands x.machine x.machine :=
    ⟨rfl, fun outside exact => Heap.releaseEach_exact exact rfl, rfl, fun _ _ => rfl⟩
  refine ⟨⟨index', x.machine, x.awaited⟩, st', ?_, rfl, place, ?_, spends⟩
  · rw [lines, only]
    exact .one jumps
  · rw [operands, same]
    exact ⟨R.base, R.top, R.parameters, R.inside, R.globals, R.operands, R.held, R.stored, R.heap⟩

/-- A conditional jump reaches its target if the operand on top is zero, and the next instruction
otherwise. -/
theorem Visit.reaches_jumpIfZero {t : Nat} {v : Value} {vs : List Value} {owned : Bool}
    {flags : List Bool} {is : Code} (hg : image.HasGlobals)
    (hr : image.functions.get? Symbol.release = none)
    (site : Lowering.Site b image front back r a.next st x.index (.jumpIfZero t) after)
    (fresh : ∀ r' ∈ back, (Context.ofRoutine b r').symbol ≠ (Context.ofRoutine b r).symbol)
    (R : x.machine.Represents image (.ofRoutine b r) home st.operands a)
    (above : x.StaysAbove image (codeOf st.directives).length)
    (operands : a.operands = v :: vs) (shape : st.operands.owned = owned :: flags)
    (lines : codeOf st.directives = is ++ [.jcc .equal ((Context.ofRoutine b r).label t)])
    (replaces : View.Replaces image (.ofRoutine b r) home (itemsOf st.operands.owned a.operands)
      (x.machine.view ((Context.ofRoutine b r).bottom home + spilledWords st.operands.depth))
      is 1 [] fun v' => v'.flags.holds .equal = decide (v.word = 0))
    (left : after = ⟨flags⟩) :
    ∃ y st', Visit.Reaches image b front r home st 1 a
      { a with operands := vs, next := if v.word = 0 then t else a.next + 1 } x y st' := by
  have located := site.located
  rw [lines] at located above
  obtain ⟨front', jcc, -⟩ := Located.append.mp located
  have less : is.length ≤ (is ++ [Instruction.jcc .equal ((Context.ofRoutine b r).label t)]).length := by
    simp
  obtain ⟨m, v', steps, spends, shows, zero, represents⟩ := R.replace [] hg hr replaces front'
    (above.mono less)
  obtain ⟨stNext, next, nextShape⟩ := site.falls rfl
  obtain ⟨stTarget, index', target, targetShape, label⟩ := site.jumps t rfl
  have holds : m.flags.holds .equal = decide (v.word = 0) := shows.flags ▸ zero
  have represents := represents (if v.word = 0 then t else a.next + 1)
  have final (st' : Lowering.Step) (same : st'.operands = after) :
      m.Represents image (.ofRoutine b r) home st'.operands
        { a with operands := vs, next := if v.word = 0 then t else a.next + 1 } := by
    rw [same, left]
    simpa [operands, shape] using represents
  have length : (codeOf st.directives).length = is.length + 1 := by simp [lines]
  by_cases word : v.word = 0
  · refine ⟨⟨index', m, x.awaited⟩, stTarget, ?_, rfl, ?_, final _ targetShape, spends⟩
    · rw [length]
      refine steps.trans (.one ⟨_, jcc, ?_, rfl⟩)
      simp only [execute, Machine.holds, Bind.bind, EStateM.bind, holds, word, decide_true, if_true,
        find, label fresh]
      rfl
    · rw [if_pos word]
      exact target
  · refine ⟨⟨x.index + is.length + 1, m, x.awaited⟩, stNext, ?_, rfl, ?_, final _ nextShape, spends⟩
    · rw [length]
      refine steps.trans (.one ⟨_, jcc, ?_, rfl⟩)
      simp only [execute, Machine.holds, Bind.bind, EStateM.bind, holds, word, decide_false,
        Bool.false_eq_true, if_false]
      rfl
    · rw [if_neg word]
      rw [length] at next
      exact next

end Steps

end Machine

/-! ## Both machines -/

namespace Machine

open Bytecode.Machine (step)

variable {b : Bytecode} {image : Image} {front back : List Bytecode.Routine} {r : Bytecode.Routine}
  {home : Nat} {st : Lowering.Step} {a a' : Bytecode.Machine.Activation} {x y : Visit}
  {i : Bytecode.Instruction} {after : Operands} {w : World}
  {callers : List Bytecode.Machine.Activation} {p : Bytecode.Machine.Progress} {st' : Lowering.Step}

/-- The code of an instruction does what the instruction does: it stops where the operator of the
instruction has no result, and otherwise leads to a machine that represents the next activation. -/
structure Visit.Simulates (image : Image) (b : Bytecode) (front : List Bytecode.Routine)
    (r : Bytecode.Routine) (home : Nat) (st : Lowering.Step) (i : Bytecode.Instruction)
    (a : Bytecode.Machine.Activation) (p : Bytecode.Machine.Progress) (w : World)
    (callers : List Bytecode.Machine.Activation) (x : Visit) : Prop where
  stops : ∀ t, (∃ k < (codeOf st.directives).length, ∃ y, x.Steps image k y ∧ y.Stops image t) ↔
    i.Fails a.operands t
  faults : ∀ t, i.Fails a.operands t → ∃ f, p = .fault f
  reaches : (∀ t, ¬ i.Fails a.operands t) → ∃ a' y st', p = .running w a' callers ∧ a'.routine = r ∧
    Visit.Reaches image b front r home st i.pops a a' x y st'

theorem Visit.simulates_of_reaches (result : ∀ t, ¬ i.Fails a.operands t)
    (hp : p = .running w a' callers) (hr : a'.routine = r)
    (reaches : Visit.Reaches image b front r home st i.pops a a' x y st') :
    Visit.Simulates image b front r home st i a p w callers x where
  stops t := by
    refine ⟨fun h => ?_, fun h => absurd h (result t)⟩
    obtain ⟨k, hk, z, steps, stops⟩ := h
    exact absurd stops (reaches.steps.not_stops steps hk t)
  faults t h := absurd h (result t)
  reaches _ := ⟨a', y, st', hp, hr, reaches⟩

theorem Visit.simulates_of_stops {t : Trap} {f : Fault} {k : Nat} (fails : i.Fails a.operands t)
    (hp : p = .fault f) (hk : k < (codeOf st.directives).length) (steps : x.Steps image k y)
    (stops : y.Stops image t) : Visit.Simulates image b front r home st i a p w callers x where
  stops t' := by
    refine ⟨fun h => ?_, fun h => ?_⟩
    · obtain ⟨k', -, z, steps', stops'⟩ := h
      rw [steps'.stops_unique stops' steps stops]
      exact fails
    · obtain ⟨op, left, right, rest, same, operands, none, rfl⟩ := h
      obtain ⟨op', left', right', rest', same', operands', none', rfl⟩ := fails
      cases same.symm.trans same'
      cases operands.symm.trans operands'
      exact ⟨k, hk, y, steps, stops⟩
  faults _ _ := ⟨f, hp⟩
  reaches result := absurd fails (result t)

theorem step_of_code {image : Bytecode.Machine.Image} (hi : a.routine.code[a.next]? = some i) :
    step image w a callers =
      Bytecode.Machine.execute image i w { a with next := a.next + 1 } callers := by
  unfold step
  rw [hi]

section Execution

variable {image : Bytecode.Machine.Image} {v : Value} {vs : List Value}

theorem execute_unary {op : UnaryOp} (h : a.operands = v :: vs) :
    Bytecode.Machine.execute image (.unary op) w a callers =
      .running w { a with operands := .scalar (op.eval v.word) :: vs } callers := by
  cases a
  cases h
  rfl

theorem execute_binary {op : BinaryOp} {right left : Value} (h : a.operands = right :: left :: vs) :
    Bytecode.Machine.execute image (.binary op) w a callers =
      match op.eval? left.word right.word with
      | some m => .running w { a with operands := .scalar m :: vs } callers
      | none => .fault (.arithmetic left.word op right.word) := by
  cases a
  cases h
  rfl

theorem execute_jumpIfZero {t : Nat} (h : a.operands = v :: vs) :
    Bytecode.Machine.execute image (.jumpIfZero t) w a callers =
      .running w { a with operands := vs, next := if v.word = 0 then t else a.next } callers := by
  cases a
  cases h
  rfl

theorem execute_pop (h : a.operands = v :: vs) :
    Bytecode.Machine.execute image .pop w a callers =
      .running w { a with operands := vs } callers := by
  cases a
  cases h
  rfl

end Execution

theorem not_fails {vs : List Value} (h : ∀ op, i ≠ .binary op) (t : Trap) : ¬ i.Fails vs t := by
  rintro ⟨op, -, -, -, same, -⟩
  exact h op same

/-- Code that replaces operands simulates an instruction that does so. -/
theorem Visit.simulates_of_replaces (vs : List Value) (hg : image.HasGlobals)
    (hr : image.functions.get? Symbol.release = none)
    (site : Lowering.Site b image front back r a.next st x.index i after) (flows : i.endsFlow = false)
    (R : x.machine.Represents image (.ofRoutine b r) home st.operands a) (routine : a.routine = r)
    (above : x.StaysAbove image (codeOf st.directives).length)
    (result : ∀ t, ¬ i.Fails a.operands t)
    (replaces : View.Replaces image (.ofRoutine b r) home (itemsOf st.operands.owned a.operands)
      (x.machine.view ((Context.ofRoutine b r).bottom home + spilledWords st.operands.depth))
      (codeOf st.directives) i.pops (itemsOf (vs.map fun _ => false) vs) fun _ => True)
    (shape : after = ⟨(vs.map fun _ => false) ++ st.operands.owned.drop i.pops⟩)
    (hp : p = .running w
      { a with operands := vs ++ a.operands.drop i.pops, next := a.next + 1 } callers) :
    Visit.Simulates image b front r home st i a p w callers x := by
  obtain ⟨y, st', reaches⟩ := Visit.reaches_next hg hr site flows R above replaces shape
  exact Visit.simulates_of_reaches result hp routine reaches

end Machine

/-- Literals have the same handles on both machines. -/
theorem pool_of_load {b : Bytecode} (input : List Int32) {n : Nat} (hn : n < b.literals.length) :
    (b.load input).1.pool[n]? = some (Heap.handle n) := by
  have handles : ∀ (ss : List String) (h : Heap), ∃ pool h', Heap.preload ss h = .ok pool h' ∧
      pool = (List.range' h.cells.size ss.length).map Heap.handle := by
    intro ss
    induction ss with
    | nil => exact fun h => ⟨[], h, rfl, rfl⟩
    | cons s ss ih =>
      intro h
      obtain ⟨pool, h', run, same⟩ := ih { h with cells := h.cells.push ⟨.ofString s, 1, false⟩ }
      refine ⟨Heap.handle h.cells.size :: pool, h', ?_, ?_⟩
      · simp only [Heap.preload, Bind.bind, EStateM.bind, Heap.allocate, run]
        rfl
      · rw [same, Array.size_push]
        rfl
  obtain ⟨pool, heap, run, same⟩ := handles b.literals (.empty false)
  have loaded : (b.load input).1.pool = pool.toArray := by
    simp only [Bytecode.load, World.start, run]
  rw [loaded, same]
  simp [Heap.empty, hn]

section Operands

open Bytecode.Machine (step)
open Machine

variable {b : Bytecode} {asm : Assembly} {image : Image} {heap : Heap}
  {front back : List Bytecode.Routine} {r : Bytecode.Routine} {home : Nat} {st : Lowering.Step}
  {a : Bytecode.Machine.Activation} {i : Bytecode.Instruction} {x : Visit}

/-- The code of an instruction that only works on operands does what the instruction does, from every
machine that represents an activation in front of it, as long as the stack stays above the global words.
It stops on the way exactly where the instruction divides by zero, or the smallest word by -1. Jumps may
be taken over by a routine with the same symbol, and the calls that give references back by an entry with
that symbol. -/
theorem operands_simulated (lowered : b.lower = .ok asm) (loaded : asm.load = .ok (image, heap))
    (unclaimed : b.entry.name ≠ Symbol.release) (routines : b.routines = front ++ r :: back)
    (routine : a.routine = r) (hi : r.code[a.next]? = some i) (operand : i.isOperand = true)
    (fresh : i.target?.isSome = true →
      ∀ r' ∈ back, (Context.ofRoutine b r').symbol ≠ (Context.ofRoutine b r).symbol)
    (begins : stepAt? b front r a.next = some (st, x.index))
    (R : x.machine.Represents image (.ofRoutine b r) home st.operands a)
    (above : x.StaysAbove image (codeOf st.directives).length) (input : List Int32) (w : World)
    (callers : List Bytecode.Machine.Activation) :
    Visit.Simulates image b front r home st i a (step (b.load input).1 w a callers) w callers x ∧
      ∀ t, (∃ k < (codeOf st.directives).length, ∃ y, x.Steps image k y ∧ y.Stops image t) ↔
        ∃ op left right rest, i = .binary op ∧ a.operands = right :: left :: rest ∧
          (op = .div ∨ op = .rem) ∧
          (right.word = 0 ∨ left.word = Int32.minValue ∧ right.word = -1) ∧
          t = .ofDivision left.word right.word := by
  suffices simulates :
      Visit.Simulates image b front r home st i a (step (b.load input).1 w a callers) w callers x from
    ⟨simulates, fun t => (simulates.stops t).trans Bytecode.Instruction.fails_iff⟩
  obtain ⟨bodies, hbodies, laid⟩ := laid_of_load lowered loaded
  have hg := laid.globals
  have hr := laid.release hbodies unclaimed
  obtain ⟨after, site⟩ := Lowering.site_of_stepAt? lowered loaded routines begins hi
  obtain ⟨ds, lines, code⟩ := site.code
  have flags : (itemsOf st.operands.owned a.operands).map Item.owned = st.operands.owned :=
    owned_itemsOf R.length_operands
  have code : Lowering.code (.ofRoutine b r) a.next
      ⟨(itemsOf st.operands.owned a.operands).map Item.owned⟩ i = .ok (ds, after) := by
    rw [flags]
    exact code
  have S := R.stands
  have inside := R.inside
  have release := View.counts_release hr
  rw [step_of_code (routine ▸ hi)]
  cases i with
  | push n =>
    obtain ⟨shape, replaces⟩ := View.replaces_of_push image S code
    rw [← lines] at replaces
    exact Visit.simulates_of_replaces [.scalar n] hg hr site rfl R routine above (not_fails nofun)
      replaces (by rw [shape, flags]; rfl) rfl
  | pushLiteral n =>
    obtain ⟨bound, shape, replaces⟩ := View.replaces_of_pushLiteral S laid.literals code
    rw [← lines] at replaces
    refine Visit.simulates_of_replaces [.scalar (Heap.handle n)] hg hr site rfl R routine above
      (not_fails nofun) replaces (by rw [shape, flags]; rfl) ?_
    have found : (b.load input).1.pool[n]? = some (Heap.handle n) := pool_of_load input bound
    simp only [Bytecode.Machine.execute, found]
    rfl
  | load y =>
    have taken : decide (y = .thrownData) = false := decide_eq_false (bne_iff_ne.mp operand)
    obtain ⟨shape, replaces⟩ := View.replaces_of_load S (fun ws hws => R.denotes hg hws) code
    rw [← lines, taken] at replaces
    rw [taken] at shape
    exact Visit.simulates_of_replaces [a.load y] hg hr site rfl R routine above (not_fails nofun)
      replaces (by rw [shape, flags]; rfl) rfl
  | store y => cases operand
  | unary op =>
    obtain ⟨o, rest, items, shape, replaces⟩ := View.replaces_of_unary S inside release code
    obtain ⟨fs, v, us, owned, operands, raw, rfl⟩ := itemsOf_eq_cons items
    rw [← lines, raw] at replaces
    refine Visit.simulates_of_replaces [.scalar (op.eval v.word)] hg hr site rfl R routine above
      (not_fails nofun) replaces ?_ ?_
    · rw [items, owned] at flags
      rw [shape, (List.cons.inj flags).2, owned]
      rfl
    · refine (execute_unary (a := { a with next := a.next + 1 }) operands).trans ?_
      rw [operands]
      rfl
  | binary op =>
    obtain ⟨o, o', rest, items, shape, result⟩ := View.replaces_of_binary S inside release code
    obtain ⟨fs, right, us, owned, operands, raw, rest'⟩ := itemsOf_eq_cons items
    obtain ⟨fs', left, us', rfl, rfl, raw', rfl⟩ := itemsOf_eq_cons rest'.symm
    rw [raw, raw', ← lines] at result
    rw [execute_binary (a := { a with next := a.next + 1 }) operands]
    have words : op.eval? (Raw.ofValue left).word (Raw.ofValue right).word =
      op.eval? left.word right.word := rfl
    rw [words] at result
    cases heval : op.eval? left.word right.word with
    | none =>
      rw [heval] at result
      obtain ⟨t, v', done, rfl⟩ := View.Runs.exists_trap
        (result (E := fun t _ => t = .ofDivision left.word right.word) rfl)
      obtain ⟨k, hk, y, steps, stops⟩ := Visit.trapped hg R.shows site.located above done
      exact Visit.simulates_of_stops ⟨op, left, right, us', rfl, operands, heval, rfl⟩ rfl hk steps
        stops
    | some m =>
      rw [heval] at result
      refine Visit.simulates_of_replaces [.scalar m] hg hr site rfl R routine above ?_ result
        ?_ ?_
      · rintro t ⟨op', left', right', us, same, operands', none, -⟩
        cases same
        cases operands.symm.trans operands'
        rw [heval] at none
        cases none
      · rw [items, owned] at flags
        rw [shape, (List.cons.inj (List.cons.inj flags).2).2, owned]
        rfl
      · rw [operands]
        rfl
  | jump t =>
    obtain ⟨y, st', reaches⟩ := Visit.reaches_jump site (fresh rfl) R
    exact Visit.simulates_of_reaches (not_fails nofun) rfl routine reaches
  | jumpIfZero t =>
    obtain ⟨o, rest, is, items, shape, split, replaces⟩ :=
      View.replaces_of_jumpIfZero S inside release code
    obtain ⟨fs, v, us, owned, operands, raw, rfl⟩ := itemsOf_eq_cons items
    rw [raw] at replaces
    rw [items, owned] at flags
    rw [(List.cons.inj flags).2] at shape
    obtain ⟨y, st', reaches⟩ := Visit.reaches_jumpIfZero hg hr site (fresh rfl) R above operands owned
      (lines.trans split) replaces shape
    exact Visit.simulates_of_reaches (not_fails nofun) (execute_jumpIfZero operands) routine reaches
  | call callee => cases operand
  | pop =>
    obtain ⟨o, rest, items, shape, replaces⟩ := View.replaces_of_pop S inside release code
    obtain ⟨fs, v, us, owned, operands, raw, rfl⟩ := itemsOf_eq_cons items
    rw [← lines] at replaces
    refine Visit.simulates_of_replaces [] hg hr site rfl R routine above
      (not_fails nofun) replaces ?_ ?_
    · rw [items, owned] at flags
      rw [shape, (List.cons.inj flags).2, owned]
      rfl
    · refine (execute_pop (a := { a with next := a.next + 1 }) operands).trans ?_
      rw [operands]
      rfl
  | returnValue => cases operand
  | returnZero => cases operand
  | transfer => cases operand

end Operands

/-! ## Programs in memory -/

/-- A program is in memory as lowering and loading leave it, and the code of an instruction of one of
its routines begins at an index. -/
def Lowering.Holds (b : Bytecode) (front : List Bytecode.Routine) (r : Bytecode.Routine) (k : Nat)
    (image : Image) (st : Step) (index : Nat) : Prop :=
  (∃ asm heap, b.lower = .ok asm ∧ asm.load = .ok (image, heap)) ∧
    stepAt? b front r k = some (st, index)

theorem Lowering.Holds.globals {b : Bytecode} {front : List Bytecode.Routine}
    {r : Bytecode.Routine} {k : Nat} {image : Image} {st : Step} {index : Nat}
    (h : Holds b front r k image st index) : image.HasGlobals := by
  obtain ⟨asm, heap, lowered, loaded⟩ := h.1
  obtain ⟨bodies, -, laid⟩ := laid_of_load lowered loaded
  exact laid.globals

/-- What a program is in memory, and where the code of one of its instructions begins. -/
def Lowering.lookUp? (b : Bytecode) (front : List Bytecode.Routine) (r : Bytecode.Routine) (k : Nat) :
    Option (Image × Step × Nat) :=
  match b.lower with
  | .ok asm =>
    match asm.load with
    | .ok (image, _) => (stepAt? b front r k).map fun (st, index) => (image, st, index)
    | .error _ => none
  | .error _ => none

/-- What is computed of a program in memory holds of it. -/
theorem Lowering.exists_of_lookUp? {b : Bytecode} {front : List Bytecode.Routine}
    {r : Bytecode.Routine} {k : Nat} (P : Image → Step → Nat → Prop)
    [∀ image st index, Decidable (P image st index)]
    (h : (lookUp? b front r k).any (fun (image, st, index) => decide (P image st index)) = true) :
    ∃ image st index, Holds b front r k image st index ∧ P image st index := by
  obtain ⟨⟨image, st, index⟩, found, holds⟩ := Option.any_eq_true _ _ |>.mp h
  refine ⟨image, st, index, ?_, of_decide_eq_true holds⟩
  unfold lookUp? at found
  split at found
  · rename_i asm lowered
    split at found
    · rename_i image' heap loaded
      obtain ⟨⟨st', index'⟩, there, same⟩ := Option.map_eq_some_iff.mp found
      cases same
      exact ⟨⟨asm, heap, lowered, loaded⟩, there⟩
    · cases found
  · cases found

/-- The words of variables of a routine that has none but the payload that it was handed. -/
theorem words_of_empty {c : Context} (parameters : c.frame.parameters = [])
    (inner : c.frame.inner = []) {x : Bytecode.Variable} {ws : Words} (h : c.words x = .ok ws) :
    x = .thrownData ∧ c.frame.usesPayload = true ∧ ws = Frame.homeWords .payload := by
  obtain ⟨place, found, rfl⟩ := words_eq_ok h
  unfold Frame.home? at found
  rw [parameters, inner] at found
  split at found
  · rename_i same
    split at found
    · rename_i used
      cases found
      exact ⟨same, used, rfl⟩
    · cases found
  · cases found

/-- A routine that divides a variable. -/
def halve : Bytecode.Routine where
  signature := ⟨"main", 0⟩
  parameters := []
  code := #[.push 7, .store (.named "n"), .load (.named "n"), .push 2, .binary .div, .pop,
    .returnZero]
  canThrow := false

/-- A program with that routine alone. -/
def halving : Bytecode :=
  ⟨[halve], halve.signature, [], []⟩

/-- Its activation in front of the division. -/
def halving.activation : Bytecode.Machine.Activation :=
  ⟨halve, Bindings.empty.set (.named "n") (.scalar 7), [.scalar 2, .scalar 7], 4, none⟩

/-- A machine that represents this activation. -/
def halving.machine : Machine where
  registers := ⟨0, 0, 7, 0, 2, 0, heightWord 5, heightWord 7⟩
  memory := .ofList ([(0x00010000, 0), (0x00010004, 0), (0x00010008, 0),
    ((heightWord 6).toUInt32, 0), ((heightWord 7).toUInt32, 7)] : List (UInt32 × Int32))
  flags := ⟨false, false, false⟩
  world := .start true []

theorem halving.represents (image : Image) : halving.machine.Represents image
    (.ofRoutine halving halve) 5 ⟨[false, false]⟩ halving.activation := by
  refine ⟨rfl, rfl, by decide, by decide, fun g => ?_, ?_, by decide, ?_, by decide⟩
  · cases g <;> decide +kernel
  · exact .cons ⟨rfl, rfl⟩ (.cons ⟨rfl, rfl⟩ .nil)
  · intro x ws hx
    obtain ⟨place, found, rfl⟩ := words_eq_ok hx
    have frame : (Context.ofRoutine halving halve).frame = ⟨[], [.named "n"], false⟩ := by decide
    rw [frame] at found
    have only : x = .named "n" ∧ place = .inner 0 := by
      simp [Frame.home?, List.idxOf?_cons] at found
      grind
    obtain ⟨rfl, rfl⟩ := only
    exact ⟨(Machine.read_frame (k := 7) rfl (by decide)).mpr (by decide +kernel),
      (Machine.read_frame (k := 6) rfl (by decide)).mpr (by decide +kernel)⟩

theorem operands_simulated_halving :
    ∃ image st x, Lowering.Holds halving [] halve 4 image st x.index ∧
      x.machine.Represents image (.ofRoutine halving halve) 5 st.operands halving.activation ∧
      x.StaysAbove image (codeOf st.directives).length ∧
      (∀ input w callers, Machine.Visit.Simulates image halving [] halve 5 st (.binary .div)
        halving.activation (Bytecode.Machine.step (halving.load input).1 w halving.activation callers)
        w callers x) ∧
      ∀ t, ¬ ∃ k < (codeOf st.directives).length, ∃ y, x.Steps image k y ∧ y.Stops image t := by
  obtain ⟨image, st, index, holds, shape, above⟩ := Lowering.exists_of_lookUp?
    (fun image st index => st.operands = ⟨[false, false]⟩ ∧
      Machine.Visit.StaysAbove image (codeOf st.directives).length ⟨index, halving.machine, []⟩)
    (show (Lowering.lookUp? halving [] halve 4).any _ = true by decide +kernel)
  obtain ⟨⟨asm, heap, lowered, loaded⟩, begins⟩ := id holds
  have represents := halving.represents image
  rw [← shape] at represents
  have simulated (input : List Int32) (w : World) (callers : List Bytecode.Machine.Activation) :=
    operands_simulated lowered loaded (by decide)
      (show halving.routines = [] ++ halve :: [] from rfl) rfl rfl rfl (by decide) begins represents
      above input w callers
  refine ⟨image, st, ⟨index, halving.machine, []⟩, holds, represents, above,
    fun input w callers => (simulated input w callers).1, fun t stops => ?_⟩
  obtain ⟨op, left, right, rest, -, operands, -, wrong, -⟩ :=
    ((simulated [] (.start true []) []).2 t).mp stops
  cases operands
  revert wrong
  decide

/-! ## Where the stack, the heap and the linker set limits -/

section Limits

open Machine

/-- A memory of the global words alone. -/
def globalWords : Std.TreeMap UInt32 Int32 :=
  .ofList ([(0x00010000, 0), (0x00010004, 0), (0x00010008, 0)] : List (UInt32 × Int32))

theorem getElem?_globalWords (g : Global) : globalWords[g.address]? = some 0 := by
  cases g <;> decide +kernel

/-- A machine whose frame is empty but for two operands in registers. -/
def standingAt (height : Nat) (first second : Raw) (heap : Heap) : Machine where
  registers := ⟨0, 0, first.word, first.code, second.word, second.code, heightWord height,
    heightWord height⟩
  memory := globalWords
  flags := ⟨false, false, false⟩
  world := ⟨heap, ⟨[], #[]⟩⟩

theorem represents_standingAt {image : Image} {c : Context} {height : Nat} {first second : Raw}
    {heap : Heap} {shape : Operands} {a : Bytecode.Machine.Activation} (hg : image.HasGlobals)
    (frame : c.frame.parameters = [] ∧ c.frame.inner = []) (low : 2 ≤ height) (high : height ≤ room)
    (few : shape.depth ≤ 2)
    (operands : List.Forall₂ (fun slot v =>
      (standingAt height first second heap).Contains image (c.slotWords slot) v)
      (Operands.slotsOf shape.owned) a.operands)
    (held : ∀ p ∈ shape.owned.zip a.operands, p.1 = true → heap.Vouches p.2)
    (payload : a.load .thrownData = .scalar 0) (sound : heap.Sound) :
    (standingAt height first second heap).Represents image c height shape a := by
  have bottom : c.bottom height + spilledWords shape.depth = height := by
    unfold Context.bottom spilledWords
    rw [frame.2, List.length_nil]
    omega
  refine ⟨rfl, congrArg heightWord bottom.symm, ?_, bottom.symm ▸ high,
    fun g => Option.isSome_of_eq_some (getElem?_globalWords g), operands, held, fun x ws h => ?_, sound⟩
  · rw [frame.1]
    exact low
  · obtain ⟨rfl, -, rfl⟩ := words_of_empty frame.1 frame.2 h
    rw [payload]
    exact ⟨(read_global hg .payload).mpr (getElem?_globalWords .payload),
      (read_global hg .payloadTag).mpr (getElem?_globalWords .payloadTag)⟩

/-- From a machine that represents an activation, a number of instructions of the code of its next
instruction lead to a visit with a property. -/
def Lowering.LeadsTo (b : Bytecode) (a : Bytecode.Machine.Activation) (height : Nat) (heap : Heap)
    (n : Step → Nat) (φ : Image → Step → Visit → Prop) : Prop :=
  ∃ (image : Image) (st : Step) (x y : Visit), Holds b [] a.routine a.next image st x.index ∧
    x.machine.Represents image (.ofRoutine b a.routine) height st.operands a ∧
    x.machine.world.heap = heap ∧ x.Steps image (n st) y ∧ φ image st y

/-- Runs of code from a machine with an empty frame are computed. -/
theorem Lowering.leadsTo_of_standingAt {b : Bytecode} {a : Bytecode.Machine.Activation} {height : Nat}
    {heap : Heap} {n : Step → Nat} {φ : Image → Step → Visit → Prop} (first second : Raw)
    (shape : Operands) (ψ : Image → Step → Visit → Bool)
    (computed : (lookUp? b [] a.routine a.next).any (fun (image, st, index) => decide (
      st.operands = shape ∧
        ((Visit.after? image (n st) ⟨index, standingAt height first second heap, []⟩).any
          fun y => ψ image st y) = true)) = true)
    (holds : ∀ {image : Image} {st : Step} {y : Visit}, image.HasGlobals → st.operands = shape →
      ψ image st y = true → φ image st y)
    (represents : ∀ {image : Image}, image.HasGlobals → (standingAt height first second heap).Represents
      image (.ofRoutine b a.routine) height shape a) :
    LeadsTo b a height heap n φ := by
  obtain ⟨image, st, index, inMemory, same, runs⟩ := Lowering.exists_of_lookUp?
    (fun image st index => st.operands = shape ∧
      ((Visit.after? image (n st) ⟨index, standingAt height first second heap, []⟩).any
        fun y => ψ image st y) = true) computed
  obtain ⟨y, steps, found⟩ := Option.any_eq_true _ _ |>.mp runs
  exact ⟨image, st, ⟨index, standingAt height first second heap, []⟩, y, inMemory,
    same.symm ▸ represents inMemory.globals, rfl, Visit.steps_iff.mpr steps,
    holds inMemory.globals same found⟩

/-- A routine that drops a boxed array. -/
def dropBox : Bytecode.Routine :=
  ⟨⟨"main", 0⟩, [], #[.push 1, .push 1, .push 3, .call (.intrinsic .arrMake),
    .call (.intrinsic .arrMakeBoxed), .pop, .returnZero], false⟩

/-- Its activation in front of the instruction that drops the array. -/
def dropBox.activation : Bytecode.Machine.Activation :=
  ⟨dropBox, .empty, [⟨Heap.handle 1, .boxedArray⟩], 5, none⟩

/-- A heap with a boxed array of one array. -/
def boxHeap : Heap :=
  ⟨#[⟨.scalars #[3], 1, false⟩, ⟨.boxed #[⟨Heap.handle 0, .scalarArray⟩], 1, false⟩], true, 1, 1, 0⟩

/-- A boxed array that is given back gives back what it holds as well. -/
theorem pop_cascades :
    Lowering.LeadsTo ⟨[dropBox], dropBox.signature, [], []⟩ dropBox.activation 5 boxHeap
      (fun st => (codeOf st.directives).length) fun _ st y =>
        st.operands.owning 1 dropBox.activation.operands = [⟨Heap.handle 1, .boxedArray⟩] ∧
        (boxHeap.cells[0]?).map Heap.Cell.references = some 1 ∧
        (y.machine.world.heap.cells[0]?).map Heap.Cell.references = some 0 := by
  refine Lowering.leadsTo_of_standingAt (.ofValue ⟨Heap.handle 1, .boxedArray⟩) ⟨0, 0⟩
    ⟨[true]⟩
    (fun _ _ y => (y.machine.world.heap.cells[0]?).map Heap.Cell.references = some 0) (by decide +kernel)
    (fun _ shape counted => ⟨by rw [shape]; rfl, rfl, of_decide_eq_true counted⟩) fun hg => ?_
  exact represents_standingAt hg ⟨rfl, rfl⟩ (by decide) (by decide) (by decide) (.cons ⟨rfl, rfl⟩ .nil)
    (by decide) rfl (by decide)

/-- A routine with three operands that also takes a payload. -/
def pushThree : Bytecode.Routine :=
  ⟨⟨"main", 0⟩, [], #[.push 1, .push 2, .push 3, .pop, .pop, .pop, .load .thrownData, .pop,
    .returnZero], false⟩

/-- Its activation in front of the last operand. -/
def pushThree.activation : Bytecode.Machine.Activation :=
  ⟨pushThree, .empty, [.scalar 2, .scalar 1], 2, none⟩

/-- A stack without room for another operand runs into the words of a payload. -/
theorem push_reaches_payload :
    let b : Bytecode := ⟨[pushThree], pushThree.signature, [], []⟩
    Lowering.LeadsTo b pushThree.activation room (.empty true)
      (fun st => (codeOf st.directives).length) fun image _ y =>
        ∃ ws, (Context.ofRoutine b pushThree).words .thrownData = .ok ws ∧
          ∀ v, ¬ y.machine.Contains image ws v := by
  intro b
  refine Lowering.leadsTo_of_standingAt (.scalar 1) (.scalar 2) ⟨[false, false]⟩
    (fun _ _ y => y.machine.memory[Global.payloadTag.address]? = some 3) (by decide +kernel)
    (fun hg _ written => ⟨_, rfl, fun v contains => ?_⟩) fun hg => ?_
  · have there : _ = some v.tag.code := (read_global hg .payloadTag).mp contains.tag
    have code : ∀ tag : Tag, some (3 : Int32) ≠ some tag.code := fun tag => by cases tag <;> decide
    exact code v.tag ((of_decide_eq_true written).symm.trans there)
  · exact represents_standingAt hg ⟨rfl, rfl⟩ (by decide) (by decide) (by decide)
      (.cons ⟨rfl, rfl⟩ (.cons ⟨rfl, rfl⟩ .nil)) (by decide) rfl (by decide)

/-- A routine that jumps over nothing. -/
def jumpAhead (s : Signature) : Bytecode.Routine :=
  ⟨s, [], #[.jump 1, .returnZero], false⟩

/-- Jumps of a routine go to the routine behind it that has the same symbol. -/
theorem jump_taken_over :
    let r := jumpAhead ⟨"f", 1⟩
    let b : Bytecode := ⟨[r, jumpAhead ⟨"f_1", 0⟩], ⟨"f_1", 0⟩, [], []⟩
    Lowering.LeadsTo b ⟨r, .empty, [], 0, none⟩ 5 (.empty true) (fun _ => 1) fun _ _ y =>
      ∃ st' index', stepAt? b [] r 1 = some (st', index') ∧ y.index ≠ index' := by
  intro r b
  refine Lowering.leadsTo_of_standingAt (.scalar 0) (.scalar 0) ⟨[]⟩
    (fun _ _ y => (stepAt? b [] r 1).any fun p => y.index ≠ p.2) (by decide +kernel)
    (fun _ _ elsewhere => ?_) fun hg => ?_
  · obtain ⟨⟨st', index'⟩, target, apart⟩ := Option.any_eq_true _ _ |>.mp elsewhere
    exact ⟨st', index', target, of_decide_eq_true apart⟩
  · exact represents_standingAt hg ⟨rfl, rfl⟩ (by decide) (by decide) (by decide) .nil (by decide) rfl
      (by decide)

/-- A routine that drops an array. -/
def dropArray : Bytecode.Routine :=
  ⟨⟨"f", 0⟩, [], #[.push 1, .push 3, .call (.intrinsic .arrMake), .pop, .returnZero], false⟩

/-- An entry with the symbol that gives references back, which divides by zero. -/
def dividingRelease : Bytecode.Routine :=
  ⟨⟨Symbol.release, 0⟩, [], #[.push 1, .push 0, .binary .div, .pop, .returnZero], false⟩

/-- References are given to an entry with the symbol of the library. -/
theorem release_taken_over :
    Lowering.LeadsTo ⟨[dropArray, dividingRelease], dividingRelease.signature, [], []⟩
      ⟨dropArray, .empty, [⟨Heap.handle 0, .scalarArray⟩], 3, none⟩ 5
      ⟨#[⟨.scalars #[3], 1, false⟩], true, 0, 0, 0⟩ (fun _ => 18) fun image _ y =>
        y.Stops image .divisionByZero := by
  refine Lowering.leadsTo_of_standingAt (.ofValue ⟨Heap.handle 0, .scalarArray⟩) ⟨0, 0⟩
    ⟨[true]⟩ (fun image _ y => y.stop? image = some .divisionByZero)
    (by decide +kernel) (fun _ _ stops => Visit.stops_iff.mpr (of_decide_eq_true stops)) fun hg => ?_
  exact represents_standingAt hg ⟨rfl, rfl⟩ (by decide) (by decide) (by decide) (.cons ⟨rfl, rfl⟩ .nil)
    (by decide) rfl (by decide)

/-- Instructions on operands change more than the counts of the operands that they give back, and their
code goes astray without room on the stack and where a routine has taken a symbol. -/
theorem operands_astray :
    (Lowering.LeadsTo ⟨[dropBox], dropBox.signature, [], []⟩ dropBox.activation 5 boxHeap
      (fun st => (codeOf st.directives).length) fun _ st y =>
        st.operands.owning 1 dropBox.activation.operands = [⟨Heap.handle 1, .boxedArray⟩] ∧
        (boxHeap.cells[0]?).map Heap.Cell.references = some 1 ∧
        (y.machine.world.heap.cells[0]?).map Heap.Cell.references = some 0) ∧
    (let b : Bytecode := ⟨[pushThree], pushThree.signature, [], []⟩;
      Lowering.LeadsTo b pushThree.activation room (.empty true)
        (fun st => (codeOf st.directives).length) fun image _ y =>
          ∃ ws, (Context.ofRoutine b pushThree).words .thrownData = .ok ws ∧
            ∀ v, ¬ y.machine.Contains image ws v) ∧
    (let r := jumpAhead ⟨"f", 1⟩;
      let b : Bytecode := ⟨[r, jumpAhead ⟨"f_1", 0⟩], ⟨"f_1", 0⟩, [], []⟩;
      Lowering.LeadsTo b ⟨r, .empty, [], 0, none⟩ 5 (.empty true) (fun _ => 1) fun _ _ y =>
        ∃ st' index', stepAt? b [] r 1 = some (st', index') ∧ y.index ≠ index') ∧
    Lowering.LeadsTo ⟨[dropArray, dividingRelease], dividingRelease.signature, [], []⟩
      ⟨dropArray, .empty, [⟨Heap.handle 0, .scalarArray⟩], 3, none⟩ 5
      ⟨#[⟨.scalars #[3], 1, false⟩], true, 0, 0, 0⟩ (fun _ => 18) fun image _ y =>
        y.Stops image .divisionByZero :=
  ⟨pop_cascades, push_reaches_payload, jump_taken_over, release_taken_over⟩

end Limits

end X86

end Threefold
