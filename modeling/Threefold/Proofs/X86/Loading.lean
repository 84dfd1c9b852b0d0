import Mathlib.Data.List.Forall2
import Threefold.Proofs.X86.Flow
import Threefold.Proofs.X86.Sequences
import Threefold.Proofs.X86.Symbols

/-!
# Where lowered code is in memory

The lines of a lowered module define every symbol and every label once, so the place of a definition
is the number of instructions in front of it. A `Plan` of a routine has the index of its first
instruction, the index at which the code of each bytecode instruction begins, and the shape of the
operands there.

* `loaded_of_lower` says that the image of a lowered program follows a plan for each of its routines,
  that the global words have their addresses, and that its literals are the first cells of the heap.
-/

namespace Threefold.X86

/-! ## Lines of code -/

namespace Directive

/-- A line that the section of code may have. -/
def isCode : Directive → Bool
  | .export _ | .symbol _ | .label _ | .comment _ | .instruction _ => true
  | _ => false

/-- A line that defines nothing. -/
def isPlain : Directive → Bool
  | .comment _ | .instruction _ => true
  | _ => false

/-- The instructions among some lines. -/
def codeOf : List Directive → Code
  | [] => []
  | .instruction i :: ds => i :: codeOf ds
  | _ :: ds => codeOf ds

/-- The labels that lines define. -/
def labelsOf : List Directive → List Label
  | [] => []
  | .label l :: ds => l :: labelsOf ds
  | _ :: ds => labelsOf ds

/-- The symbols that lines define. -/
def symbolsOf : List Directive → List Symbol
  | [] => []
  | .symbol s :: ds => s :: symbolsOf ds
  | _ :: ds => symbolsOf ds

theorem codeOf_append (ds es : List Directive) : codeOf (ds ++ es) = codeOf ds ++ codeOf es := by
  induction ds with
  | nil => rfl
  | cons d ds ih => cases d <;> simp [codeOf, ih]

theorem labelsOf_append (ds es : List Directive) :
    labelsOf (ds ++ es) = labelsOf ds ++ labelsOf es := by
  induction ds with
  | nil => rfl
  | cons d ds ih => cases d <;> simp [labelsOf, ih]

theorem symbolsOf_append (ds es : List Directive) :
    symbolsOf (ds ++ es) = symbolsOf ds ++ symbolsOf es := by
  induction ds with
  | nil => rfl
  | cons d ds ih => cases d <;> simp [symbolsOf, ih]

theorem mem_codeOf {i : Instruction} {ds : List Directive} :
    i ∈ codeOf ds ↔ .instruction i ∈ ds := by
  induction ds with
  | nil => simp [codeOf]
  | cons d ds ih => cases d <;> simp [codeOf, ih]

theorem mem_labelsOf {l : Label} {ds : List Directive} : l ∈ labelsOf ds ↔ .label l ∈ ds := by
  induction ds with
  | nil => simp [labelsOf]
  | cons d ds ih => cases d <;> simp [labelsOf, ih]

theorem mem_symbolsOf {s : Symbol} {ds : List Directive} : s ∈ symbolsOf ds ↔ .symbol s ∈ ds := by
  induction ds with
  | nil => simp [symbolsOf]
  | cons d ds ih => cases d <;> simp [symbolsOf, ih]

@[simp]
theorem codeOf_map (is : Code) : codeOf (is.map .instruction) = is := by
  induction is with
  | nil => rfl
  | cons i is ih => simp [codeOf, ih]

theorem labelsOf_plain {ds : List Directive} (h : ∀ d ∈ ds, d.isPlain = true) :
    labelsOf ds = [] := by
  rw [List.eq_nil_iff_forall_not_mem]
  intro l hl
  cases h _ (mem_labelsOf.mp hl)

theorem symbolsOf_plain {ds : List Directive} (h : ∀ d ∈ ds, d.isPlain = true) :
    symbolsOf ds = [] := by
  rw [List.eq_nil_iff_forall_not_mem]
  intro s hs
  cases h _ (mem_symbolsOf.mp hs)

theorem isPlain_of_mem_map {is : Code} {d : Directive} (h : d ∈ is.map .instruction) :
    d.isPlain = true := by
  obtain ⟨i, -, rfl⟩ := List.mem_map.mp h
  rfl

end Directive

open Directive (codeOf labelsOf symbolsOf)

/-! ## Loading lines of code -/

namespace Image

/-- The image with one more line of code. -/
def extend (image : Image) : Directive → Image
  | .symbol s => { image with functions := image.functions.set s image.code.size }
  | .label l => { image with labels := image.labels.set l image.code.size }
  | .instruction i => { image with code := image.code.push i }
  | _ => image

/-- The image with more lines of code. -/
def extendAll (image : Image) (ds : List Directive) : Image :=
  ds.foldl extend image

theorem extendAll_append (image : Image) (ds es : List Directive) :
    image.extendAll (ds ++ es) = (image.extendAll ds).extendAll es :=
  List.foldl_append

theorem words_extend (image : Image) (d : Directive) : (image.extend d).words = image.words := by
  cases d <;> rfl

theorem code_extendAll (image : Image) (ds : List Directive) :
    (image.extendAll ds).code.toList = image.code.toList ++ codeOf ds := by
  induction ds generalizing image with
  | nil => simp [extendAll, codeOf]
  | cons d ds ih =>
    have rest := ih (image.extend d)
    unfold extendAll at rest ⊢
    rw [List.foldl_cons, rest]
    cases d <;> simp [extend, codeOf]

theorem words_extendAll (image : Image) (ds : List Directive) :
    (image.extendAll ds).words = image.words := by
  induction ds generalizing image with
  | nil => rfl
  | cons d ds ih => exact (ih (image.extend d)).trans (image.words_extend d)

theorem size_extendAll (image : Image) (ds : List Directive) :
    (image.extendAll ds).code.size = image.code.size + (codeOf ds).length := by
  have same := congrArg List.length (image.code_extendAll ds)
  simpa using same

theorem labels_extendAll_of_notMem {l : Label} (image : Image) {ds : List Directive}
    (h : l ∉ labelsOf ds) : (image.extendAll ds).labels.get? l = image.labels.get? l := by
  induction ds generalizing image with
  | nil => rfl
  | cons d ds ih =>
    show ((image.extend d).extendAll ds).labels.get? l = _
    cases d with
    | label l' =>
      simp only [labelsOf, List.mem_cons, not_or] at h
      rw [ih (image.extend (.label l')) h.2]
      simp only [extend, Bindings.get?_set]
      rw [if_neg fun same => h.1 same.symm]
    | _ => exact ih _ h

theorem functions_extendAll_of_notMem {s : Symbol} (image : Image) {ds : List Directive}
    (h : s ∉ symbolsOf ds) : (image.extendAll ds).functions.get? s = image.functions.get? s := by
  induction ds generalizing image with
  | nil => rfl
  | cons d ds ih =>
    show ((image.extend d).extendAll ds).functions.get? s = _
    cases d with
    | symbol s' =>
      simp only [symbolsOf, List.mem_cons, not_or] at h
      rw [ih (image.extend (.symbol s')) h.2]
      simp only [extend, Bindings.get?_set]
      rw [if_neg fun same => h.1 same.symm]
    | _ => exact ih _ h

/-- A label that is not defined again stands for the number of instructions in front of it. -/
theorem labels_extendAll {l : Label} (image : Image) {ds es : List Directive}
    (h : l ∉ labelsOf es) :
    (image.extendAll (ds ++ .label l :: es)).labels.get? l =
      some (image.code.size + (codeOf ds).length) := by
  rw [extendAll_append]
  show (((image.extendAll ds).extend (.label l)).extendAll es).labels.get? l = _
  rw [labels_extendAll_of_notMem _ h]
  simp only [extend, Bindings.get?_set, if_pos, size_extendAll]

/-- A symbol that is not defined again stands for the number of instructions in front of it. -/
theorem functions_extendAll {s : Symbol} (image : Image) {ds es : List Directive}
    (h : s ∉ symbolsOf es) :
    (image.extendAll (ds ++ .symbol s :: es)).functions.get? s =
      some (image.code.size + (codeOf ds).length) := by
  rw [extendAll_append]
  show (((image.extendAll ds).extend (.symbol s)).extendAll es).functions.get? s = _
  rw [functions_extendAll_of_notMem _ h]
  simp only [extend, Bindings.get?_set, if_pos, size_extendAll]

namespace Loading

theorem addAll_append (l : Loading) (ds es : List Directive) :
    l.addAll (ds ++ es) = l.addAll ds >>= fun l => l.addAll es := by
  induction ds generalizing l with
  | nil => rfl
  | cons d ds ih =>
    simp only [List.cons_append, addAll]
    cases l.add d with
    | error t => rfl
    | ok l' => exact ih l'

theorem addAll_code (l : Loading) {ds : List Directive} (hc : l.current = .code)
    (hd : ∀ d ∈ ds, d.isCode = true) :
    l.addAll ds = .ok { l with image := l.image.extendAll ds } := by
  induction ds generalizing l with
  | nil => rfl
  | cons d ds ih =>
    have first : l.add d = .ok { l with image := l.image.extend d } := by
      have code := hd d List.mem_cons_self
      cases d <;> first | simp only [add, hc, if_true]; rfl | rfl | cases code
    simp only [addAll, first]
    exact ih { l with image := l.image.extend d } hc fun e he => hd e (List.mem_cons_of_mem d he)

/-- What is loaded after a string literal with a given number. -/
def withLiteral (l : Loading) (s : String) (k : Nat) : Loading :=
  { l with
    image := l.image.name (some (Symbol.ofLiteral k)) (Heap.handle l.heap.cells.size)
    pending := none
    heap := { l.heap with cells := l.heap.cells.push ⟨.ofString s, 1, false⟩ } }

/-- What is loaded after some string literals, of which the first has a given number. -/
def withLiterals (l : Loading) : List String → Nat → Loading
  | [], _ => l
  | s :: rest, k => (l.withLiteral s k).withLiterals rest (k + 1)

theorem addAll_literals (l : Loading) (hc : l.current ≠ .code) (ss : List String) (k : Nat) :
    l.addAll ((ss.zipIdx k).flatMap fun x => [.symbol (.ofLiteral x.2), .string x.1]) =
      .ok (l.withLiterals ss k) := by
  induction ss generalizing l k with
  | nil => rfl
  | cons s ss ih =>
    have rest := ih (l.withLiteral s k) hc (k + 1)
    rw [List.zipIdx_cons, List.flatMap_cons, addAll_append]
    simp only [addAll, add, if_neg hc, Heap.allocate, Bind.bind, Except.bind]
    exact rest

/-- What string literals do to what is loaded. -/
structure Literals (ss : List String) (k : Nat) (l l' : Loading) : Prop where
  code : l'.image.code = l.image.code
  functions : l'.image.functions = l.image.functions
  labels : l'.image.labels = l.image.labels
  words : l'.image.words = l.image.words
  address : l'.address = l.address
  pending : l.pending = none → l'.pending = none
  heap : l'.heap = { l.heap with
    cells := l.heap.cells ++ (ss.map fun s => (⟨.ofString s, 1, false⟩ : Heap.Cell)).toArray }
  data : ∀ i < ss.length,
    l'.image.data.get? (Symbol.ofLiteral (k + i)) = some (Heap.handle (l.heap.cells.size + i))
  others : ∀ s, (∀ i, k ≤ i → s ≠ Symbol.ofLiteral i) →
    l'.image.data.get? s = l.image.data.get? s

theorem withLiterals_literals (l : Loading) (ss : List String) (k : Nat) :
    Literals ss k l (l.withLiterals ss k) := by
  induction ss generalizing l k with
  | nil => exact ⟨rfl, rfl, rfl, rfl, rfl, id, by simp [withLiterals], by simp, fun _ _ => rfl⟩
  | cons s ss ih =>
    have rest := ih (l.withLiteral s k) (k + 1)
    refine ⟨rest.code, rest.functions, rest.labels, rest.words, rest.address,
      fun _ => rest.pending rfl, ?_, ?_, ?_⟩
    · rw [withLiterals, rest.heap]
      simp [withLiteral]
    · intro i hi
      rw [withLiterals]
      cases i with
      | zero =>
        have kept := rest.others (Symbol.ofLiteral k) fun i hk same => by
          have := Symbol.ofLiteral_inj same
          omega
        show (Loading.withLiterals _ _ _).image.data.get? (Symbol.ofLiteral k) = some (Heap.handle _)
        rw [kept]
        simp only [withLiteral, name, Bindings.get?_set, if_true]
        rfl
      | succ i =>
        have later := rest.data i (by simpa using hi)
        have place : k + 1 + i = k + (i + 1) := by omega
        have cell : (l.withLiteral s k).heap.cells.size + i = l.heap.cells.size + (i + 1) := by
          simp only [withLiteral, Array.size_push]
          omega
        rw [place, cell] at later
        exact later
    · intro t ht
      rw [withLiterals, rest.others t fun i hi => ht i (by omega)]
      simp only [withLiteral, name, Bindings.get?_set]
      rw [if_neg fun same => ht k (Nat.le_refl k) same.symm]

end Loading

end Image

/-! ## The lines of a routine -/

namespace Lowering

section Lines

variable {c : Context} {b : Bytecode} {r : Bytecode.Routine} {ts : List Nat}
  {shape : Nat → Operands} {ss : List Step}

theorem plain_of_done {is : Code} {s after : Operands} {ds : List Directive}
    (h : code.done is s = .ok (ds, after)) : ∀ d ∈ ds, d.isPlain = true := by
  cases h
  exact fun d hd => Directive.isPlain_of_mem_map hd

/-- The code of an instruction defines nothing. -/
theorem plain_of_code {index : Nat} {s after : Operands} {i : Bytecode.Instruction}
    {ds : List Directive} (h : code c index s i = .ok (ds, after)) :
    ∀ d ∈ ds, d.isPlain = true := by
  cases i with
  | push n => exact plain_of_done h
  | pushLiteral n =>
    simp only [code] at h
    split at h
    · exact plain_of_done h
    · cases h
  | load x =>
    obtain ⟨ws, -, h⟩ := Program.ok_of_bind h
    exact plain_of_done h
  | store x =>
    obtain ⟨⟨slot, below⟩, -, h⟩ := Program.ok_of_bind h
    obtain ⟨home, -, h⟩ := Program.ok_of_bind h
    exact plain_of_done h
  | pop =>
    obtain ⟨⟨slot, below⟩, -, h⟩ := Program.ok_of_bind h
    exact plain_of_done h
  | unary op =>
    cases op
    obtain ⟨⟨slot, below⟩, -, h⟩ := Program.ok_of_bind h
    exact plain_of_done h
  | binary op =>
    obtain ⟨⟨slots, below⟩, -, h⟩ := Program.ok_of_bind h
    split at h <;> exact plain_of_done h
  | jumpIfZero target =>
    obtain ⟨⟨slot, below⟩, -, h⟩ := Program.ok_of_bind h
    exact plain_of_done h
  | jump target => exact plain_of_done h
  | call callee =>
    obtain ⟨⟨is, s'⟩, -, h⟩ := Program.ok_of_bind h
    exact plain_of_done h
  | returnValue =>
    obtain ⟨⟨slot, below⟩, -, h⟩ := Program.ok_of_bind h
    exact plain_of_done h
  | returnZero => exact plain_of_done h
  | transfer =>
    obtain ⟨es, he, h⟩ := Program.ok_of_bind h
    cases h
    unfold transfer at he
    split at he
    · cases he
      intro d hd
      rw [List.mem_singleton.mp hd]
      rfl
    · obtain ⟨exception, -, he⟩ := Program.ok_of_bind he
      obtain ⟨payload, -, he⟩ := Program.ok_of_bind he
      cases he
      exact fun d hd => Directive.isPlain_of_mem_map hd

theorem labelsOf_heading (index : Nat) (i : Bytecode.Instruction) :
    labelsOf (heading c ts index i) = if ts.contains index then [c.label index] else [] := by
  unfold heading
  split <;> rfl

theorem symbolsOf_heading (index : Nat) (i : Bytecode.Instruction) :
    symbolsOf (heading c ts index i) = [] := by
  unfold heading
  split <;> rfl

theorem codeOf_heading (index : Nat) (i : Bytecode.Instruction) :
    codeOf (heading c ts index i) = [] := by
  unfold heading
  split <;> rfl

theorem isCode_heading {index : Nat} {i : Bytecode.Instruction} {d : Directive}
    (h : d ∈ heading c ts index i) : d.isCode = true := by
  unfold heading at h
  split at h <;> simp at h
  · rcases h with rfl | rfl <;> rfl
  · rw [h]
    rfl

/-- The lines of a step. -/
structure Lines (c : Context) (ts : List Nat) (index : Nat) (ds : List Directive) : Prop where
  code : ∀ d ∈ ds, d.isCode = true
  symbols : symbolsOf ds = []
  labels : labelsOf ds = if ts.contains index then [c.label index] else []

theorem Shaped.lines {size index : Nat} {i : Bytecode.Instruction} {st : Step}
    (h : Shaped c ts shape size index i st) : Lines c ts index st.directives := by
  obtain ⟨ds, after, lowered, lines, -⟩ := h.lowered
  have plain := plain_of_code lowered
  rw [lines]
  refine ⟨?_, ?_, ?_⟩
  · intro d hd
    rcases List.mem_append.mp hd with first | second
    · exact isCode_heading first
    · have := plain d second
      cases d <;> first | rfl | cases this
  · rw [Directive.symbolsOf_append, symbolsOf_heading, Directive.symbolsOf_plain plain]
    rfl
  · rw [Directive.labelsOf_append, labelsOf_heading, Directive.labelsOf_plain plain,
      List.append_nil]

theorem mem_labelsOf_flatMap {α : Type} {f : α → List Directive} {xs : List α} {l : Label}
    (h : l ∈ labelsOf (xs.flatMap f)) : ∃ x ∈ xs, l ∈ labelsOf (f x) := by
  simp only [Directive.mem_labelsOf] at h ⊢
  exact List.mem_flatMap.mp h

theorem mem_symbolsOf_flatMap {α : Type} {f : α → List Directive} {xs : List α} {s : Symbol}
    (h : s ∈ symbolsOf (xs.flatMap f)) : ∃ x ∈ xs, s ∈ symbolsOf (f x) := by
  simp only [Directive.mem_symbolsOf] at h ⊢
  exact List.mem_flatMap.mp h

/-- A step is that of the instruction at its index. -/
theorem Flowing.shaped_of_getElem? (h : Flowing c ts shape ss) {index : Nat} {st : Step}
    (hst : ss[index]? = some st) :
    ∃ i, c.routine.code[index]? = some i ∧ Shaped c ts shape c.routine.code.size index i st := by
  obtain ⟨bound, -⟩ := List.getElem?_eq_some_iff.mp hst
  rw [h.length] at bound
  have found := Array.getElem?_eq_getElem bound
  obtain ⟨st', hst', shaped⟩ := h.shaped index _ found
  rw [hst] at hst'
  cases hst'
  exact ⟨_, found, shaped⟩

theorem Flowing.lines (h : Flowing c ts shape ss) {index : Nat} {st : Step}
    (hst : ss[index]? = some st) : Lines c ts index st.directives := by
  obtain ⟨i, -, shaped⟩ := h.shaped_of_getElem? hst
  exact shaped.lines

/-- The labels of the steps from an index on. -/
theorem Flowing.mem_labels (h : Flowing c ts shape ss) {k : Nat} {l : Label}
    (hl : l ∈ labelsOf ((ss.drop k).flatMap Step.directives)) : ∃ index, k ≤ index ∧
      l = c.label index := by
  obtain ⟨st, hst, found⟩ := mem_labelsOf_flatMap hl
  obtain ⟨j, hj⟩ := List.mem_iff_getElem?.mp hst
  rw [List.getElem?_drop] at hj
  rw [(h.lines hj).labels] at found
  split at found
  · exact ⟨k + j, Nat.le_add_right k j, List.mem_singleton.mp found⟩
  · cases found

theorem Flowing.symbols (h : Flowing c ts shape ss) :
    symbolsOf (ss.flatMap Step.directives) = [] := by
  rw [List.eq_nil_iff_forall_not_mem]
  intro s hs
  obtain ⟨st, hst, found⟩ := mem_symbolsOf_flatMap hs
  obtain ⟨j, hj⟩ := List.mem_iff_getElem?.mp hst
  rw [(h.lines hj).symbols] at found
  cases found

/-- The lines of a routine. -/
def body (c : Context) (ss : List Step) : List Directive :=
  [.export c.symbol, .symbol c.symbol] ++ (Code.prologue c).map .instruction ++
    ss.flatMap Step.directives

theorem body_of_routine {ds : List Directive} (h : routine b r = .ok ds) :
    ∃ ss, routineSteps (.ofRoutine b r) = .ok ss ∧ ds = body (.ofRoutine b r) ss := by
  obtain ⟨ss, hss, h⟩ := Program.ok_of_bind h
  cases h
  exact ⟨ss, hss, rfl⟩

theorem Flowing.isCode (h : Flowing c ts shape ss) {d : Directive} (hd : d ∈ body c ss) :
    d.isCode = true := by
  unfold body at hd
  simp only [List.mem_append, List.mem_cons, List.not_mem_nil, or_false] at hd
  rcases hd with ((rfl | rfl) | start) | steps
  · rfl
  · rfl
  · obtain ⟨i, -, rfl⟩ := List.mem_map.mp start
    rfl
  · obtain ⟨st, hst, found⟩ := List.mem_flatMap.mp steps
    obtain ⟨j, hj⟩ := List.mem_iff_getElem?.mp hst
    exact (h.lines hj).code d found

theorem Flowing.symbolsOf_body (h : Flowing c ts shape ss) :
    symbolsOf (body c ss) = [c.symbol] := by
  have plain : symbolsOf ((Code.prologue c).map .instruction) = [] :=
    Directive.symbolsOf_plain fun d hd => Directive.isPlain_of_mem_map hd
  simp only [body, Directive.symbolsOf_append, plain, h.symbols]
  rfl

theorem Flowing.mem_labelsOf_body (h : Flowing c ts shape ss) {l : Label}
    (hl : l ∈ labelsOf (body c ss)) : l.function = c.symbol := by
  have plain : labelsOf ((Code.prologue c).map .instruction) = [] :=
    Directive.labelsOf_plain fun d hd => Directive.isPlain_of_mem_map hd
  simp only [body, Directive.labelsOf_append, plain] at hl
  have inside : l ∈ labelsOf ((ss.drop 0).flatMap Step.directives) := by
    simpa [labelsOf] using hl
  obtain ⟨index, -, rfl⟩ := h.mem_labels inside
  rfl

end Lines

end Lowering

/-! ## Plans -/

/-- Where the code of a routine is: the index of its first instruction, the index at which the code
of each bytecode instruction begins, and the shape of the operands there. -/
structure Plan where
  start : Nat
  pos : Nat → Nat
  shape : Nat → Operands

/-- The plan of a routine whose code begins at an index. -/
def Lowering.planAt (start : Nat) (c : Context) (ss : List Lowering.Step) : Plan where
  start := start
  pos index := start + (Code.prologue c).length +
    (codeOf ((ss.take index).flatMap Lowering.Step.directives)).length
  shape := Lowering.shapeOf ss

/-- The pieces of code of a routine are in memory where they are planned, and the shapes of the
operands fit together. -/
structure Image.Places (image : Image) (c : Context) (p : Plan) : Prop where
  prologue : Machine.Located image p.start (Code.prologue c)
  first : p.pos 0 = p.start + (Code.prologue c).length
  shape : p.shape 0 = .empty
  code : ∀ (index : Nat) (i : Bytecode.Instruction), c.routine.code[index]? = some i →
    ∃ ds after, Lowering.code c index (p.shape index) i = .ok (ds, after) ∧
      Machine.Located image (p.pos index) (codeOf ds) ∧
      p.pos (index + 1) = p.pos index + (codeOf ds).length ∧
      (∀ t, i.target? = some t → p.shape t = after ∧ t < c.routine.code.size) ∧
      (i.endsFlow = false → index + 1 < c.routine.code.size ∧ p.shape (index + 1) = after)

/-- The code of a routine is in memory as it is planned, and can be called and jumped to. -/
structure Image.Follows (image : Image) (c : Context) (p : Plan) : Prop where
  function : image.functions.get? c.symbol = some p.start
  prologue : Machine.Located image p.start (Code.prologue c)
  first : p.pos 0 = p.start + (Code.prologue c).length
  shape : p.shape 0 = .empty
  code : ∀ (index : Nat) (i : Bytecode.Instruction), c.routine.code[index]? = some i →
    ∃ ds after, Lowering.code c index (p.shape index) i = .ok (ds, after) ∧
      Machine.Located image (p.pos index) (codeOf ds) ∧
      p.pos (index + 1) = p.pos index + (codeOf ds).length ∧
      (∀ t, i.target? = some t → p.shape t = after ∧ t < c.routine.code.size ∧
        image.labels.get? (c.label t) = some (p.pos t)) ∧
      (i.endsFlow = false → index + 1 < c.routine.code.size ∧ p.shape (index + 1) = after)

theorem Machine.located_of_toList {image : Image} {xs is ys : Code}
    (h : image.code.toList = xs ++ is ++ ys) : Machine.Located image xs.length is := by
  induction is generalizing xs with
  | nil => trivial
  | cons i is ih =>
    refine ⟨?_, ?_⟩
    · rw [← Array.getElem?_toList, h, List.append_assoc, List.getElem?_append_right (Nat.le_refl _)]
      simp
    · have rest := @ih (xs ++ [i]) (by simpa using h)
      simpa using rest

section Following

variable {b : Bytecode} {c : Context} {ts : List Nat} {shape : Nat → Operands}
  {ss : List Lowering.Step} {image : Image} {before behind : List Directive}

/-- An image before anything is loaded. -/
def Image.nothing : Image := ⟨#[], .empty, .empty, .empty, []⟩

theorem take_append_of_getElem? {α : Type} {xs : List α} {k : Nat} {x : α} (h : xs[k]? = some x) :
    xs = xs.take k ++ x :: xs.drop (k + 1) := by
  obtain ⟨bound, same⟩ := List.getElem?_eq_some_iff.mp h
  rw [← same, List.getElem_cons_drop, List.take_append_drop]

/-- A routine begins behind the code in front of its lines. -/
theorem Lowering.Flowing.function (h : Lowering.Flowing c ts shape ss)
    (hfunctions : image.functions =
      (Image.nothing.extendAll (before ++ Lowering.body c ss ++ behind)).functions)
    (hsymbol : c.symbol ∉ symbolsOf behind) :
    image.functions.get? c.symbol = some (codeOf before).length := by
  have place := @Image.functions_extendAll c.symbol Image.nothing
    (before ++ [Directive.export c.symbol])
    ((Code.prologue c).map .instruction ++ ss.flatMap Lowering.Step.directives ++ behind) (by
      have plain : symbolsOf ((Code.prologue c).map .instruction) = [] :=
        Directive.symbolsOf_plain fun d hd => Directive.isPlain_of_mem_map hd
      rw [Directive.symbolsOf_append, Directive.symbolsOf_append, plain, h.symbols]
      exact hsymbol)
  have lines : before ++ Lowering.body c ss ++ behind =
      before ++ [Directive.export c.symbol] ++ .symbol c.symbol ::
        ((Code.prologue c).map .instruction ++ ss.flatMap Lowering.Step.directives ++ behind) := by
    simp [Lowering.body]
  rw [hfunctions, lines, place]
  simp [Image.nothing, Directive.codeOf_append, codeOf]

/-- The code in front of the code of an instruction. -/
def Lowering.codeUpTo (before : List Directive) (c : Context) (ss : List Lowering.Step)
    (index : Nat) : Code :=
  codeOf before ++ Code.prologue c ++ codeOf ((ss.take index).flatMap Lowering.Step.directives)

theorem Lowering.pos_planAt (before : List Directive) (c : Context) (ss : List Lowering.Step)
    (index : Nat) : (Lowering.planAt (codeOf before).length c ss).pos index =
      (Lowering.codeUpTo before c ss index).length := by
  simp only [Lowering.planAt, Lowering.codeUpTo, List.length_append]

/-- The lines in front of a step, its own, and those behind it. -/
theorem Lowering.flatMap_split {index : Nat} {st : Lowering.Step} (hst : ss[index]? = some st) :
    ss.flatMap Lowering.Step.directives = (ss.take index).flatMap Lowering.Step.directives ++
      (st.directives ++ (ss.drop (index + 1)).flatMap Lowering.Step.directives) := by
  have parts := congrArg (List.flatMap Lowering.Step.directives) (take_append_of_getElem? hst)
  rw [List.flatMap_append, List.flatMap_cons] at parts
  exact parts

/-- Where the lines of a routine are in a module, its code is in memory. -/
theorem Lowering.Flowing.places (h : Lowering.Flowing c ts (Lowering.shapeOf ss) ss)
    (hcode : image.code.toList = codeOf (before ++ Lowering.body c ss ++ behind)) :
    image.Places c (Lowering.planAt (codeOf before).length c ss) := by
  have whole : image.code.toList = codeOf before ++ Code.prologue c ++
      codeOf (ss.flatMap Lowering.Step.directives) ++ codeOf behind := by
    rw [hcode]
    simp [Lowering.body, Directive.codeOf_append, codeOf]
  refine ⟨?_, rfl, h.start, ?_⟩
  · refine @Machine.located_of_toList _ _ _ (codeOf (ss.flatMap Lowering.Step.directives) ++
      codeOf behind) ?_
    rw [whole]
    simp
  · intro index i hi
    obtain ⟨st, hst, shaped⟩ := h.shaped index i hi
    obtain ⟨ds, after, lowered, lines, jumps, falls⟩ := shaped.lowered
    have code : codeOf st.directives = codeOf ds := by
      rw [lines, Directive.codeOf_append, Lowering.codeOf_heading, List.nil_append]
    refine ⟨ds, after, lowered, ?_, ?_, ?_, falls⟩
    · rw [Lowering.pos_planAt]
      refine @Machine.located_of_toList _ _ _
        (codeOf ((ss.drop (index + 1)).flatMap Lowering.Step.directives) ++ codeOf behind) ?_
      rw [whole, Lowering.flatMap_split hst, Directive.codeOf_append, Directive.codeOf_append, code]
      simp [Lowering.codeUpTo]
    · have next : ss.take (index + 1) = ss.take index ++ [st] := by
        rw [List.take_add_one, hst]
        rfl
      rw [Lowering.pos_planAt, Lowering.pos_planAt]
      simp only [Lowering.codeUpTo, next, List.flatMap_append, List.flatMap_cons, List.flatMap_nil,
        List.append_nil, Directive.codeOf_append, List.length_append, code]
      omega
    · intro t ht
      obtain ⟨target, inside⟩ := h.targets index i t hi ht
      exact ⟨jumps t ht target inside, inside⟩

/-- The target of a jump has a label, which stands for the place of its code. -/
theorem Lowering.Flowing.label (h : Lowering.Flowing c ts (Lowering.shapeOf ss) ss)
    (hlabels : image.labels =
      (Image.nothing.extendAll (before ++ Lowering.body c ss ++ behind)).labels)
    (hlabel : ∀ l ∈ labelsOf behind, l.function ≠ c.symbol) {index t : Nat}
    {i : Bytecode.Instruction} (hi : c.routine.code[index]? = some i) (ht : i.target? = some t) :
    image.labels.get? (c.label t) =
      some ((Lowering.planAt (codeOf before).length c ss).pos t) := by
  obtain ⟨target, inside⟩ := h.targets index i t hi ht
  obtain ⟨st', hst', shaped'⟩ := h.shaped t _ (Array.getElem?_eq_getElem inside)
  obtain ⟨es, -, -, lines', -⟩ := shaped'.lowered
  have plain := (Lowering.Shaped.lines shaped').labels
  have contained : ts.contains t = true := List.contains_iff_mem.mpr target
  let rest := .comment (toString t ++ ": " ++ (c.routine.code[t]).text) :: es ++
    ((ss.drop (t + 1)).flatMap Lowering.Step.directives ++ behind)
  have lines : before ++ Lowering.body c ss ++ behind =
      before ++ [Directive.export c.symbol, .symbol c.symbol] ++ (Code.prologue c).map .instruction ++
        (ss.take t).flatMap Lowering.Step.directives ++ .label (c.label t) :: rest := by
    unfold Lowering.body
    rw [Lowering.flatMap_split hst', lines']
    simp [Lowering.heading, target, rest]
  have fresh : c.label t ∉ labelsOf rest := by
    intro found
    have once : labelsOf st'.directives = c.label t :: labelsOf es := by
      rw [lines']
      simp [Lowering.heading, target, labelsOf]
    rw [plain, if_pos contained] at once
    have none : labelsOf es = [] := (List.cons.inj once).2.symm
    simp only [rest, List.cons_append, labelsOf, Directive.labelsOf_append, none,
      List.nil_append, List.mem_append] at found
    rcases found with later | other
    · obtain ⟨j, hj, same⟩ := h.mem_labels later
      have : t = j := congrArg Label.index same
      omega
    · exact hlabel _ other rfl
  rw [hlabels, lines, Image.labels_extendAll _ fresh, Lowering.pos_planAt]
  simp only [Image.nothing, Directive.codeOf_append, Directive.codeOf_map, codeOf,
    Lowering.codeUpTo, List.append_nil]
  simp

/-- Where the lines of a routine are in a module, and no other symbol or label takes it over, it can
be called and jumped to. -/
theorem Lowering.Flowing.follows (h : Lowering.Flowing c ts (Lowering.shapeOf ss) ss)
    (hcode : image.code.toList = codeOf (before ++ Lowering.body c ss ++ behind))
    (hfunctions : image.functions =
      (Image.nothing.extendAll (before ++ Lowering.body c ss ++ behind)).functions)
    (hlabels : image.labels =
      (Image.nothing.extendAll (before ++ Lowering.body c ss ++ behind)).labels)
    (hsymbol : c.symbol ∉ symbolsOf behind)
    (hlabel : ∀ l ∈ labelsOf behind, l.function ≠ c.symbol) :
    image.Follows c (Lowering.planAt (codeOf before).length c ss) := by
  have places := h.places hcode
  refine ⟨h.function hfunctions hsymbol, places.prologue, places.first, places.shape, ?_⟩
  intro index i hi
  obtain ⟨ds, after, lowered, located, next, jumps, falls⟩ := places.code index i hi
  refine ⟨ds, after, lowered, located, next, fun t ht => ?_, falls⟩
  obtain ⟨shape, inside⟩ := jumps t ht
  exact ⟨shape, inside, h.label hlabels hlabel hi ht⟩

end Following

/-! ## Loading a lowered program -/

/-- The signatures of the routines are distinct and say how many parameters they have, and the
program starts at a routine without parameters that is named as the host names it. -/
structure Regular (b : Bytecode) : Prop where
  distinct : (b.routines.map Bytecode.Routine.signature).Nodup
  arity : ∀ r ∈ b.routines, r.signature.arity = r.parameters.length
  entry : b.entry = ⟨Symbol.main, 0⟩

/-- The code of one routine is in front of that of another one. -/
def Image.Apart (image : Image) (b : Bytecode) (r r' : Bytecode.Routine) : Prop :=
  ∀ ss start start', Lowering.routineSteps (.ofRoutine b r) = .ok ss →
    image.functions.get? (Context.ofRoutine b r).symbol = some start →
    image.functions.get? (Context.ofRoutine b r').symbol = some start' →
    (Lowering.planAt start (.ofRoutine b r) ss).pos ss.length ≤ start'

/-- What is known of an image of a lowered program, and of the heap with its literals. -/
structure Loaded (b : Bytecode) (image : Image) (heap : Heap) : Prop where
  plans : ∀ r ∈ b.routines, ∃ ss start, Lowering.routineSteps (.ofRoutine b r) = .ok ss ∧
    image.Follows (.ofRoutine b r) (Lowering.planAt start (.ofRoutine b r) ss)
  apart : ∀ r ∈ b.routines, ∀ r' ∈ b.routines, r ≠ r' → image.Apart b r r' ∨ image.Apart b r' r
  library : ∀ s, ¬ Symbol.Numbered s → s ≠ Symbol.main → image.functions.get? s = none
  globals : image.HasGlobals
  words : image.words = [(0x00010000, 0), (0x00010004, 0), (0x00010008, 0)]
  literals : ∀ i < b.literals.length,
    image.data.get? (Symbol.ofLiteral i) = some (Heap.handle i)
  heap : heap = ⟨(b.literals.map fun s => (⟨.ofString s, 1, false⟩ : Heap.Cell)).toArray, true, 0,
    0, 0⟩

namespace Lowering

variable {b : Bytecode}

/-- Lines that lowering has written for a routine. -/
def IsBody (b : Bytecode) (r : Bytecode.Routine) (ds : List Directive) : Prop :=
  ∃ ss ts, Flowing (.ofRoutine b r) ts (shapeOf ss) ss ∧ ds = body (.ofRoutine b r) ss

/-- Every element has its own result. -/
theorem forall₂_of_mapM {ε α β : Type} {f : α → Except ε β} : ∀ {xs : List α} {ys : List β},
    xs.mapM f = .ok ys → List.Forall₂ (fun x y => f x = .ok y) xs ys
  | [], _, h => by
    cases h
    exact .nil
  | x :: xs, _, h => by
    rw [List.mapM_cons] at h
    obtain ⟨y, hy, h⟩ := Program.ok_of_bind h
    obtain ⟨rest, hrest, h⟩ := Program.ok_of_bind h
    cases h
    exact .cons hy (forall₂_of_mapM hrest)

theorem isBody_of_mapM {rs : List Bytecode.Routine} {bodies : List (List Directive)}
    (h : rs.mapM (routine b) = .ok bodies) : List.Forall₂ (IsBody b) rs bodies := by
  refine (forall₂_of_mapM h).imp fun r ds hds => ?_
  obtain ⟨ss, hss, rfl⟩ := body_of_routine hds
  obtain ⟨ts, flowing⟩ := routineSteps_flowing hss
  exact ⟨ss, ts, flowing, rfl⟩

section Bodies

variable {rs : List Bytecode.Routine} {bodies : List (List Directive)}

theorem isCode_bodies (h : List.Forall₂ (IsBody b) rs bodies) :
    ∀ d ∈ bodies.flatten, d.isCode = true := by
  induction h with
  | nil => exact fun _ inside => absurd inside List.not_mem_nil
  | cons first _ ih =>
    obtain ⟨ss, ts, flowing, rfl⟩ := first
    rw [List.flatten_cons, List.forall_mem_append]
    exact ⟨fun d hd => flowing.isCode hd, ih⟩

/-- The lines of routines define the symbols of the routines. -/
theorem symbolsOf_bodies (h : List.Forall₂ (IsBody b) rs bodies) :
    symbolsOf bodies.flatten = rs.map fun r => (Context.ofRoutine b r).symbol := by
  induction h with
  | nil => rfl
  | cons first _ ih =>
    obtain ⟨ss, ts, flowing, rfl⟩ := first
    rw [List.flatten_cons, Directive.symbolsOf_append, flowing.symbolsOf_body, ih]
    rfl

/-- The labels that lines of routines define belong to the routines. -/
theorem mem_labelsOf_bodies (h : List.Forall₂ (IsBody b) rs bodies) :
    ∀ l ∈ labelsOf bodies.flatten, ∃ r ∈ rs, l.function = (Context.ofRoutine b r).symbol := by
  induction h with
  | nil => exact fun _ inside => absurd inside List.not_mem_nil
  | cons first _ ih =>
    obtain ⟨ss, ts, flowing, rfl⟩ := first
    rw [List.flatten_cons, Directive.labelsOf_append, List.forall_mem_append]
    refine ⟨fun l hl => ⟨_, List.mem_cons_self, flowing.mem_labelsOf_body hl⟩, fun l hl => ?_⟩
    obtain ⟨r, hr, same⟩ := ih l hl
    exact ⟨r, List.mem_cons_of_mem _ hr, same⟩

end Bodies

/-- The lines of a routine are among those of a module, and those behind them belong to other
routines. -/
structure Among (b : Bytecode) (lines : List Directive) (r : Bytecode.Routine) (ss : List Step)
    (before behind : List Directive) : Prop where
  steps : routineSteps (.ofRoutine b r) = .ok ss
  split : lines = before ++ body (.ofRoutine b r) ss ++ behind
  symbol : (Context.ofRoutine b r).symbol ∉ symbolsOf behind
  label : ∀ l ∈ labelsOf behind, l.function ≠ (Context.ofRoutine b r).symbol

section Among

variable {rs : List Bytecode.Routine} {r r' : Bytecode.Routine} {ds : List Directive}
  {bodies : List (List Directive)}

theorem Among.prepend {lines before behind : List Directive} {ss : List Step}
    (h : Among b lines r ss before behind) (ds : List Directive) :
    Among b (ds ++ lines) r ss (ds ++ before) behind :=
  ⟨h.steps, by rw [h.split, List.append_assoc, List.append_assoc, List.append_assoc], h.symbol,
    h.label⟩

/-- The lines of a routine whose symbol no routine behind it has. -/
theorem among_head (fresh : ∀ k ∈ rs, (Context.ofRoutine b k).symbol ≠ (Context.ofRoutine b r).symbol)
    (first : routine b r = .ok ds) (rest : rs.mapM (routine b) = .ok bodies) :
    ∃ ss, ds = body (.ofRoutine b r) ss ∧
      Among b (ds ++ bodies.flatten) r ss [] bodies.flatten := by
  obtain ⟨ss, hss, rfl⟩ := body_of_routine first
  have bodied := isBody_of_mapM rest
  refine ⟨ss, rfl, hss, rfl, fun found => ?_, fun l hl same => ?_⟩
  · rw [symbolsOf_bodies bodied] at found
    obtain ⟨k, hk, symbol⟩ := List.mem_map.mp found
    exact fresh k hk symbol
  · obtain ⟨k, hk, function⟩ := mem_labelsOf_bodies bodied l hl
    exact fresh k hk (function.symm.trans same)

/-- The lines of a routine behind those of others. -/
theorem lines_of_split {front : List Bytecode.Routine}
    (h : (front ++ r :: rs).mapM (routine b) = .ok bodies) :
    ∃ lines ss rest, front.mapM (routine b) = .ok lines ∧
      routineSteps (.ofRoutine b r) = .ok ss ∧ rs.mapM (routine b) = .ok rest ∧
      bodies.flatten = lines.flatten ++ body (.ofRoutine b r) ss ++ rest.flatten := by
  induction front generalizing bodies with
  | nil =>
    rw [List.nil_append, List.mapM_cons] at h
    obtain ⟨ds, hds, h⟩ := Program.ok_of_bind h
    obtain ⟨rest, hrest, h⟩ := Program.ok_of_bind h
    cases h
    obtain ⟨ss, hss, rfl⟩ := body_of_routine hds
    exact ⟨[], ss, rest, rfl, hss, hrest, rfl⟩
  | cons k front ih =>
    rw [List.cons_append, List.mapM_cons] at h
    obtain ⟨ds, hds, h⟩ := Program.ok_of_bind h
    obtain ⟨rest, hrest, h⟩ := Program.ok_of_bind h
    cases h
    obtain ⟨lines, ss, behind, hlines, hss, hbehind, split⟩ := ih hrest
    refine ⟨ds :: lines, ss, behind, ?_, hss, hbehind, ?_⟩
    · rw [List.mapM_cons, hds, hlines]
      rfl
    · rw [List.flatten_cons, split, List.flatten_cons, List.append_assoc, List.append_assoc,
        List.append_assoc]

variable (entry : b.entry.name = Symbol.main)
include entry

theorem fresh_of_distinct (distinct : ((r :: rs).map Bytecode.Routine.signature).Nodup) :
    ∀ k ∈ rs, (Context.ofRoutine b k).symbol ≠ (Context.ofRoutine b r).symbol := by
  intro k hk same
  have signature := Symbol.ofSignature_inj entry same
  rw [List.map_cons] at distinct
  exact (List.nodup_cons.mp distinct).1 (signature ▸ List.mem_map_of_mem hk)

theorem among_of_mem (distinct : (rs.map Bytecode.Routine.signature).Nodup)
    (h : rs.mapM (routine b) = .ok bodies) (hr : r ∈ rs) :
    ∃ before behind ss, Among b bodies.flatten r ss before behind := by
  induction rs generalizing bodies with
  | nil => cases hr
  | cons k rs ih =>
    rw [List.mapM_cons] at h
    obtain ⟨ds, hds, h⟩ := Program.ok_of_bind h
    obtain ⟨rest, hrest, h⟩ := Program.ok_of_bind h
    cases h
    rcases List.mem_cons.mp hr with rfl | later
    · obtain ⟨ss, -, among⟩ := among_head (fresh_of_distinct entry distinct) hds hrest
      exact ⟨[], rest.flatten, ss, among⟩
    · obtain ⟨before, behind, ss, among⟩ := ih (List.nodup_cons.mp distinct).2 hrest later
      exact ⟨ds ++ before, behind, ss, among.prepend ds⟩

/-- Of two routines one comes first. -/
theorem ordered_of_mem (distinct : (rs.map Bytecode.Routine.signature).Nodup)
    (h : rs.mapM (routine b) = .ok bodies) (hr : r ∈ rs) (hr' : r' ∈ rs) (ne : r ≠ r') :
    ∃ x y before between behind ss ss', (x = r ∧ y = r' ∨ x = r' ∧ y = r) ∧
      Among b bodies.flatten x ss before (between ++ body (.ofRoutine b y) ss' ++ behind) ∧
      Among b bodies.flatten y ss' (before ++ body (.ofRoutine b x) ss ++ between) behind := by
  induction rs generalizing bodies with
  | nil => cases hr
  | cons k rs ih =>
    rw [List.mapM_cons] at h
    obtain ⟨ds, hds, h⟩ := Program.ok_of_bind h
    obtain ⟨rest, hrest, h⟩ := Program.ok_of_bind h
    cases h
    have tail := (List.nodup_cons.mp distinct).2
    have head {y : Bytecode.Routine} (hy : y ∈ rs) : ∃ between behind ss ss',
        Among b (ds ++ rest.flatten) k ss [] (between ++ body (.ofRoutine b y) ss' ++ behind) ∧
        Among b (ds ++ rest.flatten) y ss' (body (.ofRoutine b k) ss ++ between) behind := by
      obtain ⟨ss, rfl, first⟩ := among_head (fresh_of_distinct entry distinct) hds hrest
      obtain ⟨between, behind, ss', second⟩ := among_of_mem entry tail hrest hy
      refine ⟨between, behind, ss, ss', ?_, second.prepend _⟩
      rw [← second.split]
      exact first
    rcases List.mem_cons.mp hr with rfl | later
    · have later' : r' ∈ rs := (List.mem_cons.mp hr').resolve_left (Ne.symm ne)
      obtain ⟨between, behind, ss, ss', first, second⟩ := head later'
      exact ⟨r, r', [], between, behind, ss, ss', .inl ⟨rfl, rfl⟩, first, second⟩
    · rcases List.mem_cons.mp hr' with rfl | later'
      · obtain ⟨between, behind, ss, ss', first, second⟩ := head later
        exact ⟨r', r, [], between, behind, ss, ss', .inr ⟨rfl, rfl⟩, first, second⟩
      · obtain ⟨x, y, before, between, behind, ss, ss', order, first, second⟩ :=
          ih tail hrest later later'
        refine ⟨x, y, ds ++ before, between, behind, ss, ss', order, first.prepend ds, ?_⟩
        have whole := second.prepend ds
        rw [← List.append_assoc, ← List.append_assoc] at whole
        exact whole

end Among

end Lowering

namespace Image.Loading

/-- What the last section does to what is loaded. -/
theorem addAll_globals (l : Loading) :
    l.addAll Lowering.globals = .ok { l with
      image := { l.image with
        data := ((l.image.data.set Symbol.payload l.address.toInt32).set Symbol.payloadTag
          (l.address + 4).toInt32).set Symbol.uncaught (l.address + 4 + 4).toInt32
        words := l.image.words ++ [(l.address, 0)] ++ [(l.address + 4, 0)] ++
          [(l.address + 4 + 4, 0)] }
      current := .data
      pending := none
      address := l.address + 4 + 4 + 4 } := by
  have data : Section.data ≠ .code := by decide
  simp only [Lowering.globals, List.flatMap_cons, List.flatMap_nil, List.cons_append,
    List.nil_append, addAll, add, Bind.bind, Except.bind, if_neg data, name]

/-- What the section of literals does to what is loaded. -/
theorem addAll_literalSection (l : Loading) (ss : List String) :
    ∃ l', l.addAll (Lowering.literals ss) = .ok l' ∧ Literals ss 0 l l' := by
  have constants : Section.constants ≠ .code := by decide
  unfold Lowering.literals
  by_cases empty : ss.isEmpty = true
  · rw [if_pos empty, List.isEmpty_iff.mp empty]
    exact ⟨l, rfl, rfl, rfl, rfl, rfl, rfl, id, by simp, by simp, fun _ _ => rfl⟩
  · rw [if_neg empty]
    have inside := addAll_literals { l with current := .constants } constants ss 0
    have facts := withLiterals_literals { l with current := .constants } ss 0
    exact ⟨_, inside, facts.code, facts.functions, facts.labels, facts.words, facts.address,
      facts.pending, facts.heap, facts.data, facts.others⟩

end Image.Loading

theorem Assembly.load_of_addAll {a : Assembly} {l : Image.Loading}
    (h : Image.Loading.start.addAll a.directives = .ok l) : a.load = .ok (l.image, l.heap) := by
  unfold Assembly.load
  rw [h]
  rfl

/-- What the lines of the routines of a program leave in memory, and what is in front of and behind
them. -/
structure Laid (b : Bytecode) (bodies : List (List Directive)) (image : Image) (heap : Heap) :
    Prop where
  code : image.code.toList = codeOf bodies.flatten
  functions : image.functions = (Image.nothing.extendAll bodies.flatten).functions
  labels : image.labels = (Image.nothing.extendAll bodies.flatten).labels
  globals : image.HasGlobals
  words : image.words = [(0x00010000, 0), (0x00010004, 0), (0x00010008, 0)]
  literals : ∀ i < b.literals.length,
    image.data.get? (Symbol.ofLiteral i) = some (Heap.handle i)
  heap : heap = ⟨(b.literals.map fun s => (⟨.ofString s, 1, false⟩ : Heap.Cell)).toArray, true, 0,
    0, 0⟩

/-- Whatever the program, its lines can be loaded. -/
theorem laid_of_lower {b : Bytecode} {a : Assembly} (ha : b.lower = .ok a) :
    ∃ bodies image heap, b.routines.mapM (Lowering.routine b) = .ok bodies ∧
      a.load = .ok (image, heap) ∧ Laid b bodies image heap := by
  obtain ⟨-, bodies, hbodies, rfl⟩ := Lowering.parts_of_lower ha
  have bodied := Lowering.isBody_of_mapM hbodies
  have parts : ([Directive.enter .code] ++ bodies.flatten ++ Lowering.literals b.literals ++
      Lowering.globals) = .enter .code :: (bodies.flatten ++ (Lowering.literals b.literals ++
        Lowering.globals)) := by simp
  let l₁ : Image.Loading :=
    { Image.Loading.start with image := Image.nothing.extendAll bodies.flatten }
  have first : Image.Loading.start.addAll bodies.flatten = .ok l₁ :=
    Image.Loading.addAll_code Image.Loading.start rfl (Lowering.isCode_bodies bodied)
  obtain ⟨l₂, second, facts⟩ := Image.Loading.addAll_literalSection l₁ b.literals
  have third := Image.Loading.addAll_globals l₂
  have whole : Image.Loading.start.addAll (.enter .code :: (bodies.flatten ++
      (Lowering.literals b.literals ++ Lowering.globals))) = l₂.addAll Lowering.globals := by
    show Image.Loading.start.addAll (bodies.flatten ++ _) = _
    rw [Image.Loading.addAll_append, first]
    show l₁.addAll _ = _
    rw [Image.Loading.addAll_append, second]
    rfl
  rw [third] at whole
  refine ⟨bodies, _, _, hbodies, Assembly.load_of_addAll (parts ▸ whole), ?_⟩
  have address : l₂.address = 0x00010000 := facts.address
  refine ⟨?_, facts.functions, facts.labels, ?_, ?_, ?_, ?_⟩
  · show l₂.image.code.toList = _
    rw [facts.code, Image.code_extendAll]
    rfl
  · intro g
    simp only [address, Bindings.get?_set]
    cases g <;> rfl
  · show l₂.image.words ++ _ ++ _ ++ _ = _
    rw [facts.words, address, Image.words_extendAll]
    rfl
  · intro i hi
    have found := facts.data i hi
    have apart {t : Symbol} (ht : ¬ Symbol.Numbered t) : t ≠ Symbol.ofLiteral i := fun same =>
      ht (same ▸ Symbol.numbered_ofLiteral i)
    simp only [Bindings.get?_set]
    rw [if_neg (apart Symbol.not_numbered_uncaught), if_neg (apart Symbol.not_numbered_payloadTag),
      if_neg (apart Symbol.not_numbered_payload)]
    have start : l₁.heap.cells.size = 0 := rfl
    rw [Nat.zero_add, start, Nat.zero_add] at found
    exact found
  · show l₂.heap = _
    rw [facts.heap]
    simp [l₁, Image.Loading.start, Heap.empty]

/-- The lines of a routine that no other symbol or label takes over are in memory as planned. -/
theorem Laid.follows {b : Bytecode} {bodies : List (List Directive)} {image : Image} {heap : Heap}
    (h : Laid b bodies image heap) {r : Bytecode.Routine} {ss : List Lowering.Step}
    {before behind : List Directive} (among : Lowering.Among b bodies.flatten r ss before behind) :
    image.Follows (.ofRoutine b r) (Lowering.planAt (codeOf before).length (.ofRoutine b r) ss) := by
  obtain ⟨ts, flowing⟩ := Lowering.routineSteps_flowing among.steps
  refine @Lowering.Flowing.follows _ _ _ _ before behind flowing ?_ ?_ ?_ among.symbol among.label
  · rw [← among.split]
    exact h.code
  · rw [← among.split]
    exact h.functions
  · rw [← among.split]
    exact h.labels

/-- What is in memory once a lowered program is loaded. -/
theorem loaded_of_lower {b : Bytecode} {a : Assembly} (hr : Regular b) (ha : b.lower = .ok a) :
    ∃ image heap, a.load = .ok (image, heap) ∧ Loaded b image heap := by
  obtain ⟨bodies, image, heap, hbodies, load, laid⟩ := laid_of_lower ha
  have bodied := Lowering.isBody_of_mapM hbodies
  have entry : b.entry.name = Symbol.main := by rw [hr.entry]
  refine ⟨image, heap, load, ?_, ?_, ?_, laid.globals, laid.words, laid.literals, laid.heap⟩
  · intro r hmem
    obtain ⟨before, behind, ss, among⟩ := Lowering.among_of_mem entry hr.distinct hbodies hmem
    exact ⟨ss, (codeOf before).length, among.steps, laid.follows among⟩
  · intro r hmem r' hmem' ne
    obtain ⟨x, y, before, between, behind, ss, ss', order, first, second⟩ :=
      Lowering.ordered_of_mem entry hr.distinct hbodies hmem hmem' ne
    obtain ⟨ts, flowing⟩ := Lowering.routineSteps_flowing first.steps
    obtain ⟨ts', flowing'⟩ := Lowering.routineSteps_flowing second.steps
    have start : image.functions.get? (Context.ofRoutine b x).symbol =
        some (codeOf before).length :=
      flowing.function (first.split ▸ laid.functions) first.symbol
    have start' : image.functions.get? (Context.ofRoutine b y).symbol =
        some (codeOf (before ++ Lowering.body (.ofRoutine b x) ss ++ between)).length :=
      flowing'.function (second.split ▸ laid.functions) second.symbol
    have apart : image.Apart b x y := by
      intro steps k k' hsteps hk hk'
      rw [first.steps] at hsteps
      cases hsteps
      cases start.symm.trans hk
      cases start'.symm.trans hk'
      simp only [Lowering.planAt, Lowering.body, List.take_length, Directive.codeOf_append,
        Directive.codeOf_map, codeOf, List.length_append, List.nil_append]
      omega
    rcases order with ⟨rfl, rfl⟩ | ⟨rfl, rfl⟩
    · exact .inl apart
    · exact .inr apart
  · intro s hs hm
    rw [laid.functions, Image.functions_extendAll_of_notMem]
    · rfl
    · rw [Lowering.symbolsOf_bodies bodied, List.mem_map]
      rintro ⟨r, -, same⟩
      exact Symbol.ofSignature_ne entry hs hm same

end Threefold.X86
