import Mathlib.Data.List.Nodup
import Threefold.Proofs.Program.Spelling
import Threefold.Proofs.X86.Loading
import Threefold.Proofs.X86.Shapes
import Threefold.X86.Text

/-!
# Names in the code of a program

A module of machine code refers to functions, literals and global words by symbols, and to places
inside of a function by labels. The symbols of a program that a text holds are distinct
(`nodup_symbols`), and none of its functions has a symbol that the host defines. The code of an
instruction of the bytecode only jumps where the instruction does (`jumps_code`), and the lines of a
routine have one label for every index that its instructions jump to (`Flowing.labelsOf_body`), so
every jump stays in its function.

* `lower_hygienic` is about whole modules.
-/

namespace Threefold.X86

open Directive (codeOf labelsOf symbolsOf)

/-! ## Jumps of generated code -/

/-- The label that an instruction jumps to. -/
@[simp]
def Instruction.jump? : Instruction → Option Label
  | .jmp l | .jcc _ l => some l
  | _ => none

namespace Code

/-- The labels that code jumps to. -/
def jumps (is : Code) : List Label :=
  is.filterMap Instruction.jump?

@[simp]
theorem jumps_nil : jumps [] = [] := rfl

@[simp]
theorem jumps_cons (i : Instruction) (is : Code) :
    jumps (i :: is) = i.jump?.toList ++ jumps is := by
  unfold jumps
  cases h : i.jump? <;> simp [-Instruction.jump?, h]

@[simp]
theorem jumps_append (is js : Code) : jumps (is ++ js) = jumps is ++ jumps js :=
  List.filterMap_append

@[simp]
theorem jumps_flatMap {α : Type} (xs : List α) (f : α → Code) :
    jumps (xs.flatMap f) = xs.flatMap fun x => jumps (f x) :=
  List.filterMap_flatMap

@[simp]
theorem jumps_move (source destination : Operand) : jumps (move source destination) = [] := by
  unfold move
  split <;> rfl

@[simp]
theorem jumps_moveWords (source destination : Words) :
    jumps (moveWords source destination) = [] := by
  simp [moveWords]

@[simp]
theorem jumps_pushAt (depth : Nat) (ws : Words) : jumps (pushAt depth ws) = [] := by
  unfold pushAt
  split <;> rfl

@[simp]
theorem jumps_drop (n : Nat) : jumps (drop n) = [] := by
  unfold drop
  split <;> rfl

@[simp]
theorem jumps_dropSpilled (slots : List Slot) : jumps (dropSpilled slots) = [] :=
  jumps_drop _

@[simp]
theorem jumps_save (depth : Nat) : jumps (save depth) = [] := by
  simp [save]

@[simp]
theorem jumps_restore (depth : Nat) : jumps (restore depth) = [] := by
  simp [restore]

@[simp]
theorem jumps_count (symbol : Symbol) (ws : Words) (depth : Nat) :
    jumps (count symbol ws depth) = [] := by
  simp [count]

@[simp]
theorem jumps_retain (ws : Words) (depth : Nat) : jumps (retain ws depth) = [] :=
  jumps_count _ _ _

@[simp]
theorem jumps_release (ws : Words) (depth : Nat) : jumps (release ws depth) = [] :=
  jumps_count _ _ _

@[simp]
theorem jumps_parked (is : Code) : jumps (parked is) = jumps is := by
  simp [parked]

@[simp]
theorem jumps_releaseOwned (c : Context) (slots : List Slot) (depth : Nat) :
    jumps (releaseOwned c slots depth) = [] := by
  simp [releaseOwned]

@[simp]
theorem jumps_discard (c : Context) (slots : List Slot) (depth : Nat) :
    jumps (discard c slots depth) = [] := by
  unfold discard
  split <;> simp

@[simp]
theorem jumps_binary (op : BinaryOp) (left right : Operand) :
    jumps (binary op left right) = [] := by
  cases op <;> rfl

@[simp]
theorem jumps_compare (left right : Operand) (condition : Condition) :
    jumps (compare left right condition) = [] :=
  rfl

@[simp]
theorem jumps_prologue (c : Context) : jumps (prologue c) = [] := by
  have cells : jumps (c.frame.innerCells.map fun cell => .mov (.immediate 0) cell) = [] := by
    simp [jumps]
  unfold prologue
  split <;> split <;> simp [cells]

@[simp]
theorem jumps_sweep (c : Context) : jumps (sweep c) = [] := by
  simp [sweep]

@[simp]
theorem jumps_epilogue (c : Context) : jumps (epilogue c) = [] := by
  unfold epilogue
  split <;> rfl

@[simp]
theorem jumps_returnValue (c : Context) : jumps (returnValue c) = [] := by
  unfold returnValue
  split <;> split <;> simp

@[simp]
theorem jumps_returnZero (c : Context) : jumps (returnZero c) = [] := by
  simp [returnZero]

@[simp]
theorem jumps_storeCounted (source destination : Words) (owned : Bool) (depth : Nat) :
    jumps (storeCounted source destination owned depth) = [] := by
  unfold storeCounted
  split <;> simp

@[simp]
theorem jumps_enter (c : Context) (symbol : Symbol) (canThrow : Bool) (arguments : List Slot)
    (depth : Nat) : jumps (enter c symbol canThrow arguments depth) = [] := by
  unfold enter
  split <;> simp

@[simp]
theorem jumps_resume (c : Context) (tag : Option Tag) (thrown : Option Operand) (retained : Bool)
    (arguments : List Slot) (depth : Nat) :
    jumps (resume c tag thrown retained arguments depth) = [] := by
  unfold resume
  cases tag <;> cases thrown <;> split <;> split <;> simp

end Code

/-! ## Lines under symbols -/

namespace Directive

/-- Lines, each with the last symbol that is defined in front of it. -/
def under : Option Symbol → List Directive → List (Option Symbol × Directive)
  | _, [] => []
  | _, .symbol s :: ds => (some s, .symbol s) :: under (some s) ds
  | owner, d :: ds => (owner, d) :: under owner ds

theorem under_append (owner : Option Symbol) (ds es : List Directive) :
    ∃ last, under owner (ds ++ es) = under owner ds ++ under last es := by
  induction ds generalizing owner with
  | nil => exact ⟨owner, rfl⟩
  | cons d ds ih =>
    cases d with
    | symbol s =>
      obtain ⟨last, same⟩ := ih (some s)
      exact ⟨last, congrArg _ same⟩
    | _ =>
      obtain ⟨last, same⟩ := ih owner
      exact ⟨last, congrArg _ same⟩

theorem mem_of_mem_under {owner o : Option Symbol} {d : Directive} {ds : List Directive}
    (h : (o, d) ∈ under owner ds) : d ∈ ds := by
  induction ds generalizing owner with
  | nil => cases h
  | cons e ds ih =>
    cases e <;> rcases List.mem_cons.mp h with same | later
    all_goals first
      | exact List.mem_cons_of_mem _ (ih later)
      | exact (Prod.mk.inj same).2 ▸ List.mem_cons_self

/-- Lines that define no symbol stand where they are put. -/
theorem under_eq_map {owner : Option Symbol} {ds : List Directive} (h : symbolsOf ds = []) :
    under owner ds = ds.map fun d => (owner, d) := by
  induction ds with
  | nil => rfl
  | cons d ds ih =>
    cases d with
    | symbol s => cases h
    | _ => exact congrArg _ (ih h)

end Directive

namespace Lowering

section Lines

variable {c : Context} {b : Bytecode} {ts : List Nat} {shape : Nat → Operands} {ss : List Step}

theorem jumps_of_transfer {ds : List Directive} (h : transfer c = .ok ds) :
    Code.jumps (codeOf ds) = [] := by
  unfold transfer at h
  split at h
  · cases h
    rfl
  · obtain ⟨exception, -, h⟩ := Program.ok_of_bind h
    obtain ⟨payload, -, h⟩ := Program.ok_of_bind h
    cases h
    rw [Directive.codeOf_map]
    simp

theorem jumps_of_done {is : Code} {s after : Operands} {ds : List Directive}
    (h : code.done is s = .ok (ds, after)) : Code.jumps (codeOf ds) = Code.jumps is := by
  cases h
  rw [Directive.codeOf_map]

/-- The code of an instruction jumps where the instruction does. -/
theorem jumps_code {index : Nat} {s after : Operands} {i : Bytecode.Instruction}
    {ds : List Directive} (h : code c index s i = .ok (ds, after)) :
    Code.jumps (codeOf ds) = (i.target?.map c.label).toList := by
  cases i with
  | push n =>
    rw [jumps_of_done h]
    exact Code.jumps_pushAt _ _
  | pushLiteral n =>
    simp only [code] at h
    split at h
    · rw [jumps_of_done h]
      exact Code.jumps_pushAt _ _
    · cases h
  | load x =>
    obtain ⟨ws, -, h⟩ := Program.ok_of_bind h
    rw [jumps_of_done h]
    exact Code.jumps_pushAt _ _
  | store x =>
    obtain ⟨⟨slot, below⟩, -, h⟩ := Program.ok_of_bind h
    obtain ⟨home, -, h⟩ := Program.ok_of_bind h
    rw [jumps_of_done h]
    split <;> simp [Bytecode.Instruction.target?]
  | pop =>
    obtain ⟨⟨slot, below⟩, -, h⟩ := Program.ok_of_bind h
    rw [jumps_of_done h]
    simp [Bytecode.Instruction.target?]
  | unary op =>
    cases op
    obtain ⟨⟨slot, below⟩, -, h⟩ := Program.ok_of_bind h
    rw [jumps_of_done h]
    simp [Bytecode.Instruction.target?]
  | binary op =>
    obtain ⟨⟨slots, below⟩, -, h⟩ := Program.ok_of_bind h
    split at h <;> rw [jumps_of_done h] <;> simp [Bytecode.Instruction.target?]
  | jumpIfZero target =>
    obtain ⟨⟨slot, below⟩, -, h⟩ := Program.ok_of_bind h
    rw [jumps_of_done h]
    simp [Bytecode.Instruction.target?]
  | jump target =>
    rw [jumps_of_done h]
    rfl
  | call callee =>
    obtain ⟨⟨is, s'⟩, called, h⟩ := Program.ok_of_bind h
    obtain ⟨symbol, -, called⟩ := Program.ok_of_bind called
    obtain ⟨⟨arguments, below⟩, -, called⟩ := Program.ok_of_bind called
    obtain ⟨thrown, -, called⟩ := Program.ok_of_bind called
    cases called
    rw [jumps_of_done h]
    simp [Bytecode.Instruction.target?]
  | returnValue =>
    obtain ⟨⟨slot, below⟩, -, h⟩ := Program.ok_of_bind h
    rw [jumps_of_done h]
    simp [Bytecode.Instruction.target?]
  | returnZero =>
    rw [jumps_of_done h]
    exact Code.jumps_returnZero c
  | transfer =>
    obtain ⟨es, he, h⟩ := Program.ok_of_bind h
    cases h
    exact jumps_of_transfer he

/-- An instruction of a step only jumps to a place that has a label. -/
theorem Flowing.jump_directives (h : Flowing c ts shape ss) {st : Step} (hst : st ∈ ss)
    {i : Instruction} (hi : .instruction i ∈ st.directives) {l : Label} (hl : i.jump? = some l) :
    l.function = c.symbol ∧ .label l ∈ ss.flatMap Step.directives := by
  obtain ⟨index, found⟩ := List.mem_iff_getElem?.mp hst
  obtain ⟨j, hj, shaped⟩ := h.shaped_of_getElem? found
  obtain ⟨ds, after, lowered, lines, -⟩ := shaped.lowered
  have inside : i ∈ codeOf ds := by
    rw [← Directive.mem_codeOf, lines, Directive.codeOf_append, codeOf_heading] at hi
    exact hi
  have jump : l ∈ Code.jumps (codeOf ds) := List.mem_filterMap.mpr ⟨i, inside, hl⟩
  rw [jumps_code lowered, Option.mem_toList, Option.map_eq_some_iff] at jump
  obtain ⟨t, ht, rfl⟩ := jump
  -- The target is an index of the routine, and the step there begins with the label.
  obtain ⟨target, bound⟩ := h.targets index j t hj ht
  obtain ⟨st', hst', shaped'⟩ := h.shaped t _ (Array.getElem?_eq_getElem bound)
  refine ⟨rfl, List.mem_flatMap.mpr ⟨st', List.mem_of_getElem? hst', ?_⟩⟩
  rw [← Directive.mem_labelsOf, shaped'.lines.labels, if_pos (List.contains_iff_mem.mpr target)]
  exact List.mem_singleton_self _

/-- The labels of steps from an index on. -/
theorem labelsOf_steps : ∀ {ss : List Step} {k : Nat},
    (∀ j st, ss[j]? = some st → Lines c ts (k + j) st.directives) →
      labelsOf (ss.flatMap Step.directives) =
        ((List.range' k ss.length).filter ts.contains).map c.label
  | [], _, _ => rfl
  | st :: ss, k, h => by
    have first : labelsOf st.directives = if ts.contains k then [c.label k] else [] :=
      (h 0 st rfl).labels
    have rest : labelsOf (ss.flatMap Step.directives) =
        ((List.range' (k + 1) ss.length).filter ts.contains).map c.label := by
      refine labelsOf_steps fun j st' hj => ?_
      rw [Nat.add_right_comm]
      exact h (j + 1) st' hj
    rw [List.flatMap_cons, Directive.labelsOf_append, first, rest, List.length_cons,
      List.range'_succ, List.filter_cons]
    by_cases target : ts.contains k = true
    · rw [if_pos target, if_pos target]
      rfl
    · rw [if_neg target, if_neg target]
      rfl

/-- The labels of a routine are those of the indices that its instructions jump to. -/
theorem Flowing.labelsOf_body (h : Flowing c ts shape ss) :
    labelsOf (body c ss) = ((List.range ss.length).filter ts.contains).map c.label := by
  have plain : labelsOf ((Code.prologue c).map .instruction) = [] :=
    Directive.labelsOf_plain fun d hd => Directive.isPlain_of_mem_map hd
  have steps := @labelsOf_steps c ts ss 0 fun j st hj => by
    rw [Nat.zero_add]
    exact h.lines hj
  rw [List.range_eq_range', ← steps]
  simp only [body, Directive.labelsOf_append, plain]
  rfl

theorem Flowing.nodup_labelsOf_body (h : Flowing c ts shape ss) : (labelsOf (body c ss)).Nodup := by
  rw [h.labelsOf_body]
  exact List.Nodup.map (fun s t same => congrArg Label.index same) (List.nodup_range.filter _)

/-- The lines of a routine stand under its symbol, but for the one that exports it. -/
theorem Flowing.under_body (h : Flowing c ts shape ss) (owner : Option Symbol) :
    Directive.under owner (body c ss) =
      (owner, .export c.symbol) :: (some c.symbol, .symbol c.symbol) ::
        ((Code.prologue c).map Directive.instruction ++ ss.flatMap Step.directives).map
          fun d => (some c.symbol, d) := by
  have plain : symbolsOf ((Code.prologue c).map .instruction) = [] :=
    Directive.symbolsOf_plain fun d hd => Directive.isPlain_of_mem_map hd
  have nothing :
      symbolsOf ((Code.prologue c).map .instruction ++ ss.flatMap Step.directives) = [] := by
    rw [Directive.symbolsOf_append, plain, h.symbols]
    rfl
  rw [← Directive.under_eq_map nothing]
  simp only [body, List.append_assoc]
  rfl

/-- A jump of a routine goes to a label that stands under the symbol of the routine. -/
theorem Flowing.jump_body (h : Flowing c ts shape ss) {owner o : Option Symbol} {i : Instruction}
    {l : Label} (hi : (o, .instruction i) ∈ Directive.under owner (body c ss))
    (hl : i.jump? = some l) :
    o = some l.function ∧ (o, .label l) ∈ Directive.under owner (body c ss) := by
  rw [h.under_body] at hi ⊢
  simp only [List.mem_cons, Prod.mk.injEq, reduceCtorEq, and_false, false_or, List.mem_map,
    List.mem_append] at hi ⊢
  obtain ⟨d, inside, rfl, rfl⟩ := hi
  rcases inside with ⟨j, hj, same⟩ | steps
  · cases same
    have jump : l ∈ Code.jumps (Code.prologue c) := List.mem_filterMap.mpr ⟨i, hj, hl⟩
    rw [Code.jumps_prologue] at jump
    cases jump
  · obtain ⟨st, hst, found⟩ := List.mem_flatMap.mp steps
    obtain ⟨function, label⟩ := h.jump_directives hst found hl
    exact ⟨congrArg some function.symm, .label l, .inr label, rfl, rfl⟩

end Lines

section Bodies

variable {b : Bytecode} {rs : List Bytecode.Routine} {bodies : List (List Directive)}

/-- No label is defined twice in the lines of routines that have different symbols. -/
theorem nodup_labelsOf_bodies (h : List.Forall₂ (IsBody b) rs bodies)
    (distinct : (rs.map fun r => (Context.ofRoutine b r).symbol).Nodup) :
    (labelsOf bodies.flatten).Nodup := by
  induction h with
  | nil => exact List.nodup_nil
  | cons first rest ih =>
    obtain ⟨ss, ts, flowing, rfl⟩ := first
    rw [List.map_cons, List.nodup_cons] at distinct
    rw [List.flatten_cons, Directive.labelsOf_append]
    refine flowing.nodup_labelsOf_body.append (ih distinct.2) fun l hl hl' => ?_
    obtain ⟨r, hr, function⟩ := mem_labelsOf_bodies rest l hl'
    rw [flowing.mem_labelsOf_body hl] at function
    exact distinct.1 (List.mem_map.mpr ⟨r, hr, function.symm⟩)

/-- The jumps in the lines of routines go to labels that stand under the same symbol. -/
theorem jump_bodies (h : List.Forall₂ (IsBody b) rs bodies) {owner o : Option Symbol}
    {i : Instruction} {l : Label}
    (hi : (o, .instruction i) ∈ Directive.under owner bodies.flatten) (hl : i.jump? = some l) :
    o = some l.function ∧ (o, .label l) ∈ Directive.under owner bodies.flatten := by
  induction h generalizing owner with
  | nil => cases hi
  | cons first rest ih =>
    obtain ⟨ss, ts, flowing, rfl⟩ := first
    obtain ⟨last, same⟩ := Directive.under_append owner (body _ ss) (List.flatten _)
    rw [List.flatten_cons, same, List.mem_append] at hi ⊢
    rcases hi with here | later
    · obtain ⟨function, label⟩ := flowing.jump_body here hl
      exact ⟨function, .inl label⟩
    · obtain ⟨function, label⟩ := ih later
      exact ⟨function, .inr label⟩

end Bodies

/-- The lines of literals have a symbol for each of them, and neither labels nor instructions. -/
theorem lines_zipIdx (ss : List String) (k : Nat) :
    let ds := (ss.zipIdx k).flatMap fun x => [.symbol (.ofLiteral x.2), .string x.1]
    symbolsOf ds = (List.range' k ss.length).map Symbol.ofLiteral ∧ labelsOf ds = [] ∧
      codeOf ds = [] := by
  induction ss generalizing k with
  | nil => exact ⟨rfl, rfl, rfl⟩
  | cons s ss ih =>
    obtain ⟨symbols, labels, code⟩ := ih (k + 1)
    refine ⟨?_, labels, code⟩
    rw [List.zipIdx_cons, List.flatMap_cons, List.length_cons, List.range'_succ, List.map_cons,
      ← symbols]
    rfl

/-- The sections behind the code have the symbols of the literals and of the global words, and
neither labels nor instructions. -/
theorem lines_data (ss : List String) :
    symbolsOf (literals ss ++ globals) =
        (List.range ss.length).map Symbol.ofLiteral ++ Symbol.globals ∧
      labelsOf (literals ss ++ globals) = [] ∧ codeOf (literals ss ++ globals) = [] := by
  obtain ⟨symbols, labels, code⟩ := lines_zipIdx ss 0
  rw [Directive.symbolsOf_append, Directive.labelsOf_append, Directive.codeOf_append,
    List.range_eq_range']
  unfold literals
  split
  · rename_i empty
    rw [List.isEmpty_iff.mp empty]
    exact ⟨rfl, rfl, rfl⟩
  · rw [← symbols]
    exact ⟨rfl, congrArg (· ++ labelsOf globals) labels, congrArg (· ++ codeOf globals) code⟩

section Lower

variable {b : Bytecode} {a : Assembly}

/-- The lines of a module are those of its routines and of the sections behind the code. -/
theorem lines_of_lower (h : b.lower = .ok a) : ∃ bodies, List.Forall₂ (IsBody b) b.routines bodies ∧
    a.directives = .enter .code :: (bodies.flatten ++ (literals b.literals ++ globals)) := by
  obtain ⟨-, bodies, hbodies, rfl⟩ := parts_of_lower h
  exact ⟨bodies, isBody_of_mapM hbodies, by simp⟩

theorem symbolsOf_lower (h : b.lower = .ok a) : symbolsOf a.directives =
    (b.routines.map fun r => (Context.ofRoutine b r).symbol) ++
      ((List.range b.literals.length).map Symbol.ofLiteral ++ Symbol.globals) := by
  obtain ⟨bodies, bodied, lines⟩ := lines_of_lower h
  rw [lines, ← (lines_data b.literals).1, ← symbolsOf_bodies bodied]
  exact Directive.symbolsOf_append _ _

theorem nodup_labelsOf_lower (h : b.lower = .ok a)
    (distinct : (b.routines.map fun r => (Context.ofRoutine b r).symbol).Nodup) :
    (labelsOf a.directives).Nodup := by
  obtain ⟨bodies, bodied, lines⟩ := lines_of_lower h
  have same : labelsOf a.directives = labelsOf bodies.flatten := by
    rw [lines]
    show labelsOf (bodies.flatten ++ _) = _
    rw [Directive.labelsOf_append, (lines_data b.literals).2.1, List.append_nil]
  rw [same]
  exact nodup_labelsOf_bodies bodied distinct

/-- Every jump of a module goes to a label that stands under the same symbol. -/
theorem jump_lower (h : b.lower = .ok a) {o : Option Symbol} {i : Instruction} {l : Label}
    (hi : (o, .instruction i) ∈ Directive.under none a.directives) (hl : i.jump? = some l) :
    o = some l.function ∧ (o, .label l) ∈ Directive.under none a.directives := by
  obtain ⟨bodies, bodied, lines⟩ := lines_of_lower h
  obtain ⟨last, same⟩ := Directive.under_append none bodies.flatten (literals b.literals ++ globals)
  have parts : Directive.under none a.directives = (none, .enter .code) ::
      (Directive.under none bodies.flatten ++
        Directive.under last (literals b.literals ++ globals)) := by
    rw [lines, ← same]
    rfl
  rw [parts] at hi ⊢
  rcases List.mem_cons.mp hi with first | hi
  · cases first
  rcases List.mem_append.mp hi with code | data
  · obtain ⟨function, label⟩ := jump_bodies bodied code hl
    exact ⟨function, List.mem_cons_of_mem _ (List.mem_append_left _ label)⟩
  · -- The sections behind the code have no instructions.
    have inside := Directive.mem_codeOf.mpr (Directive.mem_of_mem_under data)
    rw [(lines_data b.literals).2.2] at inside
    cases inside

end Lower

end Lowering

/-! ## Names of a program -/

theorem Label.text_injective : Function.Injective Label.text := by
  rintro ⟨f, m⟩ ⟨g, n⟩ h
  obtain ⟨function, index⟩ := Symbol.append_toString_inj h
  have chars := congrArg String.toList function
  rw [String.toList_append, String.toList_append] at chars
  exact congrArg₂ Label.mk (String.toList_inj.mp (List.append_cancel_left chars)) index

/-- What is asked of the names in the machine code of a program. -/
structure Assembly.Hygienic (a : Assembly) (p : Program) : Prop where
  /-- The symbols are those of the functions, of the literals and of the global words. -/
  symbols : symbolsOf a.directives = p.signatures.map (Symbol.ofSignature p.entry) ++
    ((List.range p.literals.length).map Symbol.ofLiteral ++ Symbol.globals)
  distinct : (symbolsOf a.directives).Nodup
  library : ∀ s ∈ p.signatures, Symbol.ofSignature p.entry s ∉ Symbol.library
  globals : ∀ s ∈ p.signatures, Symbol.ofSignature p.entry s ∉ Symbol.globals
  literals : ∀ s ∈ p.signatures, ∀ i, Symbol.ofSignature p.entry s ≠ Symbol.ofLiteral i
  /-- The label of a place in a function says which function and which place. -/
  texts : ∀ s ∈ p.signatures, ∀ t ∈ p.signatures, ∀ m n,
    Label.text ⟨.ofSignature p.entry s, m⟩ = Label.text ⟨.ofSignature p.entry t, n⟩ →
      s = t ∧ m = n
  /-- A jump goes to a label that is defined once, under the symbol under which the jump is. -/
  jumps : ∀ o i l, (o, .instruction i) ∈ Directive.under none a.directives → i.jump? = some l →
    o = some l.function ∧ (o, .label l) ∈ Directive.under none a.directives ∧
      (labelsOf a.directives).count l = 1

end Threefold.X86

namespace Threefold.Program

open X86 (Symbol Label Directive)
open X86.Directive (labelsOf symbolsOf)

section Load

variable {file source : String} {p : Program}

theorem symbol_ne_ofLiteral (h : load file source entryName = .ok p) {s : Signature}
    (hs : s ∈ p.signatures) (i : Nat) : Symbol.ofSignature p.entry s ≠ Symbol.ofLiteral i := by
  have entry : p.entry.name = Symbol.main := congrArg Signature.name (entry_of_load h)
  refine Symbol.ofSignature_ne_ofLiteral entry (fun apart => ?_) i
  obtain ⟨c, cs, chars, letter, -⟩ := (isName_of_load h s hs).resolve_left apart
  refine ⟨c, by rw [chars]; rfl, ?_⟩
  rintro rfl
  cases letter

theorem nodup_symbols (h : load file source entryName = .ok p) :
    (p.signatures.map (Symbol.ofSignature p.entry) ++
      ((List.range p.literals.length).map Symbol.ofLiteral ++ Symbol.globals)).Nodup := by
  have entry : p.entry.name = Symbol.main := congrArg Signature.name (entry_of_load h)
  have functions : (p.signatures.map (Symbol.ofSignature p.entry)).Nodup :=
    List.Nodup.map (fun s t same => Symbol.ofSignature_inj entry same) (linked_of_load h).distinct
  have literals : ((List.range p.literals.length).map Symbol.ofLiteral).Nodup :=
    List.Nodup.map (fun i j same => Symbol.ofLiteral_inj same) List.nodup_range
  have globals : Symbol.globals.Nodup := by decide
  refine functions.append (literals.append globals ?_) ?_
  · intro s hs hg
    obtain ⟨i, -, rfl⟩ := List.mem_map.mp hs
    exact Symbol.not_numbered_of_mem_globals hg (Symbol.numbered_ofLiteral i)
  · intro t ht others
    obtain ⟨s, hs, rfl⟩ := List.mem_map.mp ht
    -- Functions and literals both have numbers, but no name begins as the symbol of a literal does.
    rcases List.mem_append.mp others with literal | global
    · obtain ⟨i, -, same⟩ := List.mem_map.mp literal
      exact symbol_ne_ofLiteral h hs i same.symm
    · exact Symbol.ofSignature_notMem entry (fun _ => Symbol.not_numbered_of_mem_globals)
        (by decide) s global

/-- Whatever program a text holds, the names in its machine code do not meet, and every jump stays
in its function. -/
theorem lower_hygienic (h : load file source entryName = .ok p) :
    ∃ b a, p.compile = .ok b ∧ b.lower = .ok a ∧ a.Hygienic p := by
  obtain ⟨a, hb, ha⟩ := lowered_of_load h
  have entry : p.entry.name = Symbol.main := congrArg Signature.name (entry_of_load h)
  have functions : (p.bytecode.routines.map fun r =>
      (X86.Context.ofRoutine p.bytecode r).symbol) = p.signatures.map (.ofSignature p.entry) := by
    rw [bytecode, signatures, List.map_map, List.map_map]
    rfl
  have symbols := X86.Lowering.symbolsOf_lower ha
  rw [functions] at symbols
  have distinct := nodup_symbols h
  have labels : (labelsOf a.directives).Nodup :=
    X86.Lowering.nodup_labelsOf_lower ha (functions ▸ distinct.of_append_left)
  refine ⟨p.bytecode, a, hb, ha, symbols, symbols ▸ distinct, ?_, ?_, ?_, ?_, ?_⟩
  · exact fun s _ => Symbol.ofSignature_notMem entry (fun _ => Symbol.not_numbered_of_mem_library)
      (by decide) s
  · exact fun s _ => Symbol.ofSignature_notMem entry (fun _ => Symbol.not_numbered_of_mem_globals)
      (by decide) s
  · exact fun s hs => symbol_ne_ofLiteral h hs
  · intro s _ t _ m n same
    obtain ⟨function, index⟩ := Label.mk.inj (Label.text_injective same)
    exact ⟨Symbol.ofSignature_inj entry function, index⟩
  · intro o i l hi hl
    obtain ⟨function, label⟩ := X86.Lowering.jump_lower ha hi hl
    refine ⟨function, label, List.count_eq_one_of_mem labels ?_⟩
    exact Directive.mem_labelsOf.mpr (Directive.mem_of_mem_under label)

end Load

/-- A program whose functions have names that look like symbols, with jumps in all of them. -/
def lookalikes : String :=
  "fun f(n) begin while n do n := n - 1 od end
fun f_1() begin f(2) end
fun main(x) begin if x then f_1() fi end
main(\"a\")"

theorem lower_hygienic_lookalikes : ∃ p, load "lookalikes" lookalikes entryName = .ok p ∧
    p.signatures = [⟨"f", 1⟩, ⟨"f_1", 0⟩, ⟨"main", 1⟩, ⟨"main", 0⟩] ∧
      ∃ b a, p.compile = .ok b ∧ b.lower = .ok a ∧ a.Hygienic p := by
  have names : (load "lookalikes" lookalikes entryName).toOption.map signatures =
      some [⟨"f", 1⟩, ⟨"f_1", 0⟩, ⟨"main", 1⟩, ⟨"main", 0⟩] := by decide +kernel
  cases h : load "lookalikes" lookalikes entryName with
  | error e =>
    rw [h] at names
    cases names
  | ok p =>
    rw [h] at names
    exact ⟨p, rfl, Option.some.inj names, lower_hygienic h⟩

end Threefold.Program
