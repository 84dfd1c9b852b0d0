import Threefold.Bytecode.Machine
import Threefold.Proofs.Heap.References
import Threefold.Proofs.X86.Instructions

/-!
# Machines that represent activations

A machine represents an activation that is about to execute an instruction when the words of the
operands and of the variables are those of their values, in the places that the lowering gave them, and
the operands that own a reference hold arrays that are on the heap (`Machine.Represents`). Code that
replaces the operands on top leads to a machine that represents the activation with other operands
(`Machine.Represents.replace`).
-/

namespace Threefold

/-! ## References that are given back -/

namespace Heap

variable {h : Heap} {vs : List Value}

/-- Give back references one after the other. -/
def releaseEach : List Value → Op Unit
  | [] => return ()
  | v :: rest => do
    release v
    releaseEach rest

theorem releaseEach_ok (sound : h.Sound) (known : ∀ v ∈ vs, h.Vouches v) :
    ∃ h', releaseEach vs h = .ok () h' ∧ h.SameObjects h' := by
  induction vs generalizing h with
  | nil => exact ⟨h, rfl, .refl h⟩
  | cons v vs ih =>
    obtain ⟨h₁, first⟩ := release_ok sound (known v List.mem_cons_self)
    have same : h.SameObjects h₁ := by
      have same := release_sameObjects v h
      rw [first] at same
      exact same
    obtain ⟨h', rest, same'⟩ := ih (same.sound sound) fun u hu =>
      (known u (List.mem_cons_of_mem v hu)).mono same.keepsKinds
    refine ⟨h', ?_, same.trans same'⟩
    simp only [releaseEach, Bind.bind, EStateM.bind, first]
    exact rest

/-- References that are given back are held no longer. -/
theorem releaseEach_exact {h' : Heap} {outside : Multiset Value}
    (exact : h.Exact (vs + outside)) (run : releaseEach vs h = .ok () h') : h'.Exact outside := by
  induction vs generalizing h with
  | nil =>
    cases run
    simpa using exact
  | cons v vs ih =>
    rw [← Multiset.cons_coe, Multiset.cons_add] at exact
    obtain ⟨h₁, first, exact₁⟩ := release_exact exact
    refine ih exact₁ ?_
    simp only [releaseEach, Bind.bind, EStateM.bind, first] at run
    exact run

end Heap

namespace X86

theorem Library.release_ofValue (v : Value) :
    Library.release (.ofValue v) = Library.lift (World.onHeap (Heap.release v)) := by
  unfold Library.release
  rw [Library.value_of_value? (Raw.value?_ofValue v), pure_bind]

/-- Values that are given back by the library are given back on the heap. -/
theorem Library.each_ofValue {vs : List Value} {w : World} {h' : Heap}
    (run : Heap.releaseEach vs w.heap = .ok () h') :
    each Library.release (vs.map .ofValue) w = .ok () ⟨h', w.console⟩ := by
  induction vs generalizing w with
  | nil =>
    cases run
    rfl
  | cons v vs ih =>
    simp only [Heap.releaseEach, Bind.bind, EStateM.bind] at run
    cases first : Heap.release v w.heap with
    | error f h₁ => simp [first] at run
    | ok a h₁ =>
      rw [first] at run
      have one : Library.release (.ofValue v) w = .ok () ⟨h₁, w.console⟩ := by
        rw [Library.release_ofValue]
        simp only [Library.lift, World.onHeap, first]
      simp only [List.map_cons, each, Bind.bind, EStateM.bind, one]
      exact ih (w := ⟨h₁, w.console⟩) run

theorem Library.wp_of_ok {α : Type} {op : Library.Op α} {w w' : World} {r : α}
    {Q : α → World → Prop} {E : Trap → World → Prop} (h : op w = .ok r w') (hq : Q r w') :
    Library.Wp op w Q E := by
  unfold Library.Wp
  rw [h]
  exact hq

/-! ## Operands and their values -/

/-- What the operands on top own, the topmost first. -/
def Operands.owning (s : Operands) (n : Nat) (vs : List Value) : List Value :=
  (((s.owned.zip vs).take n).filter Prod.fst).map Prod.snd

/-- Operands with their values. -/
def itemsOf (flags : List Bool) (vs : List Value) : List Item :=
  List.zipWith (fun owned v => ⟨.ofValue v, owned⟩) flags vs

theorem owned_itemsOf : ∀ {flags : List Bool} {vs : List Value}, flags.length = vs.length →
    (itemsOf flags vs).map Item.owned = flags
  | [], [], _ => rfl
  | _ :: flags, _ :: vs, h => by
    simp only [itemsOf, List.zipWith_cons_cons, List.map_cons]
    exact congrArg _ (owned_itemsOf (Nat.succ.inj h))

theorem length_itemsOf {flags : List Bool} {vs : List Value} (h : flags.length = vs.length) :
    (itemsOf flags vs).length = flags.length := by
  rw [itemsOf, List.length_zipWith, h, Nat.min_self]

theorem drop_itemsOf (flags : List Bool) (vs : List Value) (n : Nat) :
    (itemsOf flags vs).drop n = itemsOf (flags.drop n) (vs.drop n) :=
  List.drop_zipWith

/-- Giving back what operands own gives back their values. -/
theorem releaseOwned_itemsOf (s : Operands) (n : Nat) (vs : List Value) :
    releaseOwned ((itemsOf s.owned vs).take n) =
      each Library.release ((s.owning n vs).map .ofValue) := by
  have raws : ∀ (flags : List Bool) (vs : List Value) (n : Nat),
      (((itemsOf flags vs).take n).filter (·.owned)).map Item.raw =
        ((((flags.zip vs).take n).filter Prod.fst).map Prod.snd).map .ofValue := by
    intro flags
    induction flags with
    | nil => simp [itemsOf]
    | cons owned flags ih =>
      intro vs n
      match vs, n with
      | [], n => simp [itemsOf]
      | v :: vs, 0 => rfl
      | v :: vs, n + 1 =>
        have rest := ih vs n
        simp only [itemsOf] at rest
        cases owned <;> simp [itemsOf, rest]
  unfold releaseOwned Operands.owning
  rw [raws]

/-- A run of code that does not trap ends in a view. -/
theorem View.Runs.exists_ok {image : Image} {is : Code} {v : View} {Q : View → Prop}
    (h : Runs image is v Q fun _ _ => False) :
    ∃ v', execAll image is v = some (.ok v') ∧ Q v' := by
  unfold Runs at h
  split at h
  · rename_i v' done
    exact ⟨v', done, h⟩
  · cases h
  · cases h

/-- A run of code that comes to no end traps. -/
theorem View.Runs.exists_trap {image : Image} {is : Code} {v : View} {E : Trap → World → Prop}
    (h : Runs image is v (fun _ => False) E) :
    ∃ t v', execAll image is v = some (.error (t, v')) ∧ E t v'.world := by
  unfold Runs at h
  split at h
  · cases h
  · rename_i t v' done
    exact ⟨t, v', done, h⟩
  · cases h

/-! ## Representation -/

namespace Machine

/-- The words of an operand or a variable are those of a value. -/
structure Contains (image : Image) (m : Machine) (ws : Words) (v : Value) : Prop where
  value : Machine.read image ws.value m = .ok v.word m
  tag : Machine.read image ws.tag m = .ok v.tag.code m

/-- A machine represents an activation whose operands have a certain shape. The base pointer is at a
height, and the frame is between the global words and the end of the stack. -/
structure Represents (image : Image) (c : Context) (home : Nat) (shape : Operands) (m : Machine)
    (a : Bytecode.Machine.Activation) : Prop where
  base : m.registers.ebp = heightWord home
  top : m.registers.esp = heightWord (c.bottom home + spilledWords shape.depth)
  parameters : 2 * c.frame.parameters.length + 2 ≤ home
  inside : c.bottom home + spilledWords shape.depth ≤ room
  globals : ∀ g : Global, (m.memory[g.address]?).isSome
  operands : List.Forall₂ (fun slot v => m.Contains image (c.slotWords slot) v)
    (Operands.slotsOf shape.owned) a.operands
  held : ∀ p ∈ shape.owned.zip a.operands, p.1 = true → m.world.heap.Vouches p.2
  stored : ∀ x ws, c.words x = .ok ws → m.Contains image ws (a.load x)
  heap : m.world.heap.Sound

/-- What generated code sees of a machine whose stack has a height. -/
def view (m : Machine) (height : Nat) : View where
  registers := m.registers
  height := height
  cell k := m.memory[(heightWord k).toUInt32]?
  globals g := (m.memory[g.address]?).getD 0
  flags := m.flags
  world := m.world

section Words

variable {image : Image} {m m' : Machine} {c : Context} {home floor k : Nat} {n : Int32} {v : Value}
  {offset : Int}

theorem load_eq_ok {a : UInt32} : load a m = .ok n m ↔ m.memory[a]? = some n := by
  unfold load
  cases m.memory[a]? with
  | none => simp
  | some w => simp

/-- A word of the frame is read from memory. -/
theorem read_frame (base : m.registers.ebp = heightWord home)
    (hk : 4 * (k : Int) = 4 * home - offset) :
    Machine.read image (.frame offset) m = .ok n m ↔ m.memory[(heightWord k).toUInt32]? = some n := by
  have address : m.registers.ebp + .ofInt offset = heightWord k := by
    rw [base]
    exact heightWord_add hk
  have loads : Machine.read image (.frame offset) m =
      load (m.registers.ebp + .ofInt offset).toUInt32 m := rfl
  rw [loads, address]
  exact load_eq_ok

/-- A global word is read from memory. -/
theorem read_global (hg : image.HasGlobals) (g : Global) :
    Machine.read image (.global g.symbol) m = .ok n m ↔ m.memory[g.address]? = some n := by
  have address : g.address.toInt32.toUInt32 = g.address := by cases g <;> rfl
  have loads : Machine.read image (.global g.symbol) m = load g.address m := by
    simp only [Machine.read, Bind.bind, EStateM.bind, datum, hg g]
    show load g.address.toInt32.toUInt32 m = _
    rw [address]
  rw [loads]
  exact load_eq_ok

theorem outOfReach_heightWord (hk : k ≤ floor) (inside : floor ≤ room) :
    OutOfReach floor (heightWord k).toUInt32 := by
  unfold room at inside
  refine .inr (UInt32.le_iff_toNat_le.mpr ?_)
  rw [toNat_heightWord (by omega), toNat_heightWord (by omega)]
  omega

/-- Variables are out of reach of code that works on operands. -/
theorem KeepsBelow.contains (keeps : KeepsBelow floor m m') (hg : image.HasGlobals)
    (base : m.registers.ebp = heightWord home) (same : m'.registers.ebp = m.registers.ebp)
    (parameters : 2 * c.frame.parameters.length + 2 ≤ home) (bottom : c.bottom home ≤ floor)
    (inside : floor ≤ room) {x : Bytecode.Variable} {ws : Words} (hx : c.words x = .ok ws)
    (h : m.Contains image ws v) : m'.Contains image ws v := by
  obtain ⟨place, found, rfl⟩ := words_eq_ok hx
  have bound := home?_bound found
  unfold Context.bottom at bottom
  have frame {offset : Int} {k : Nat} {n : Int32} (hk : 4 * (k : Int) = 4 * home - offset)
      (low : k ≤ floor) (h : Machine.read image (.frame offset) m = .ok n m) :
      Machine.read image (.frame offset) m' = .ok n m' := by
    rw [read_frame (same.trans base) hk, keeps _ (outOfReach_heightWord low inside)]
    exact (read_frame base hk).mp h
  have global {g : Global} {n : Int32} (h : Machine.read image (.global g.symbol) m = .ok n m) :
      Machine.read image (.global g.symbol) m' = .ok n m' := by
    rw [read_global hg, keeps _ (.inl g.address_lt)]
    exact (read_global hg g).mp h
  cases place with
  | parameter i =>
    dsimp only at bound
    exact ⟨frame (k := home - 2 - 2 * i) (by omega) (by omega) h.value,
      frame (k := home - 3 - 2 * i) (by omega) (by omega) h.tag⟩
  | inner i =>
    dsimp only at bound
    exact ⟨frame (k := home + 2 * i + 2) (by omega) (by omega) h.value,
      frame (k := home + 2 * i + 1) (by omega) (by omega) h.tag⟩
  | payload => exact ⟨global (g := .payload) h.value, global (g := .payloadTag) h.tag⟩

/-- The words of an operand are in its place. -/
theorem Contains.inPlace {d : Nat} {owned : Bool} (base : m.registers.ebp = heightWord home)
    (h : m.Contains image (c.slotWords ⟨.atDepth d, owned⟩) v) :
    InPlace m.registers.get (fun k => m.memory[(heightWord k).toUInt32]?) (c.bottom home)
      (.atDepth d) (.ofValue v) := by
  match d, h with
  | 0, h => exact ⟨(EStateM.Result.ok.inj h.value).1, (EStateM.Result.ok.inj h.tag).1⟩
  | 1, h => exact ⟨(EStateM.Result.ok.inj h.value).1, (EStateM.Result.ok.inj h.tag).1⟩
  | d + 2, h =>
    have value : Machine.read image (.frame (-(c.frame.size : Int) - 8 * (d + 1))) m = .ok v.word m := h.value
    have tag : Machine.read image (.frame (-(c.frame.size : Int) - 8 * (d + 1) + 4)) m = .ok v.tag.code m :=
      h.tag
    unfold Frame.size at value tag
    unfold Context.bottom
    exact ⟨(read_frame base (by omega)).mp value, (read_frame base (by omega)).mp tag⟩

/-- Operands that stand in a frame are in the words of their slots. -/
theorem Shows.contains {v : View} (S : m.Shows v) (hg : image.HasGlobals) {flags : List Bool}
    {vs : List Value} (length : flags.length = vs.length)
    (stands : v.Stands c home (itemsOf flags vs)) :
    List.Forall₂ (fun slot v => m.Contains image (c.slotWords slot) v) (Operands.slotsOf flags) vs := by
  have hc : v.height ≤ ceiling := Nat.le_trans S.room room_le_ceiling
  have suffix : ∀ {fs : List Bool} {us : List Value}, fs.length = us.length →
      fs.length ≤ flags.length → Holds v.registers.get v.cell (c.bottom home) (itemsOf fs us) →
      List.Forall₂ (fun slot v => m.Contains image (c.slotWords slot) v) (Operands.slotsOf fs) us := by
    intro fs
    induction fs with
    | nil =>
      intro us same _ _
      rw [List.eq_nil_of_length_eq_zero same.symm]
      exact .nil
    | cons owned fs ih =>
      intro us same less holds
      match us, same, holds with
      | u :: us, same, holds =>
        have same := Nat.succ.inj same
        have here : InPlace v.registers.get v.cell (c.bottom home) (.atDepth fs.length)
            (.ofValue u) := length_itemsOf same ▸ holds.1
        have denotes := stands.denotes_place image hc owned (length_itemsOf length ▸ less) here
        exact .cons ⟨S.read hg denotes.value, S.read hg denotes.tag⟩
          (ih same (Nat.le_of_succ_le less) holds.2)
  exact suffix length (Nat.le_refl _) stands.operands

end Words

namespace Represents

variable {image : Image} {m : Machine} {c : Context} {home : Nat} {shape : Operands}
  {a : Bytecode.Machine.Activation}

theorem length_operands (R : m.Represents image c home shape a) :
    shape.owned.length = a.operands.length := by
  have same := R.operands.length_eq
  rw [Operands.length_slotsOf] at same
  exact same

theorem shows (R : m.Represents image c home shape a) :
    m.Shows (m.view (c.bottom home + spilledWords shape.depth)) := by
  refine ⟨rfl, rfl, rfl, R.top, R.inside, fun k n _ _ h => h, fun g => ?_⟩
  obtain ⟨n, found⟩ := Option.isSome_iff_exists.mp (R.globals g)
  show m.memory[g.address]? = some ((m.memory[g.address]?).getD 0)
  rw [found]
  rfl

theorem stands (R : m.Represents image c home shape a) :
    (m.view (c.bottom home + spilledWords shape.depth)).Stands c home
      (itemsOf shape.owned a.operands) := by
  refine ⟨R.base, ?_, R.top, ?_⟩
  · rw [length_itemsOf R.length_operands]
    rfl
  · have base := R.base
    have operands := R.operands
    generalize shape.owned = flags at operands
    generalize a.operands = vs at operands
    induction flags generalizing vs with
    | nil =>
      cases operands
      trivial
    | cons owned flags ih =>
      cases operands with
      | @cons _ v _ vs here rest =>
        have length : (itemsOf flags vs).length = flags.length := by
          have same := rest.length_eq
          rw [Operands.length_slotsOf] at same
          exact length_itemsOf same
        refine ⟨?_, ih vs rest⟩
        show InPlace _ _ _ (.atDepth (itemsOf flags vs).length) _
        rw [length]
        exact here.inPlace base

/-- Variables are read from the view as they are from the machine. -/
theorem denotes (R : m.Represents image c home shape a) (hg : image.HasGlobals)
    {x : Bytecode.Variable} {ws : Words} (hx : c.words x = .ok ws) :
    (m.view (c.bottom home + spilledWords shape.depth)).Denotes image ws (.ofValue (a.load x)) := by
  obtain ⟨value, tag⟩ := R.stored x ws hx
  obtain ⟨place, found, rfl⟩ := words_eq_ok hx
  have bound := home?_bound found
  have parameters := R.parameters
  have inside := R.inside
  have slack := room_le_ceiling
  have bottom : c.bottom home = home + 2 * c.frame.inner.length := rfl
  have frame {offset : Int} {k : Nat} {n : Int32} (hk : 4 * (k : Int) = 4 * home - offset)
      (low : 1 ≤ k) (high : k ≤ c.bottom home)
      (h : Machine.read image (.frame offset) m = .ok n m) :
      (m.view (c.bottom home + spilledWords shape.depth)).read image (.frame offset) = some n := by
    have height : (m.view (c.bottom home + spilledWords shape.depth)).height =
      c.bottom home + spilledWords shape.depth := rfl
    rw [View.read_frame R.base hk low (by omega) (by omega)]
    exact (read_frame R.base hk).mp h
  have global {g : Global} {n : Int32} (h : Machine.read image (.global g.symbol) m = .ok n m) :
      (m.view (c.bottom home + spilledWords shape.depth)).read image (.global g.symbol) = some n := by
    simp only [View.read, Global.ofSymbol?_symbol, Option.map_some, view, (read_global hg g).mp h,
      Option.getD_some]
  cases place with
  | parameter i =>
    dsimp only at bound
    exact ⟨frame (k := home - 2 - 2 * i) (by omega) (by omega) (by omega) value,
      frame (k := home - 3 - 2 * i) (by omega) (by omega) (by omega) tag⟩
  | inner i =>
    dsimp only at bound
    exact ⟨frame (k := home + 2 * i + 2) (by omega) (by omega) (by omega) value,
      frame (k := home + 2 * i + 1) (by omega) (by omega) (by omega) tag⟩
  | payload => exact ⟨global (g := .payload) value, global (g := .payloadTag) tag⟩

end Represents

/-- What a machine has left after operands on top were used up: what they own was given back, and
nothing else has changed but the stack above the other operands. If the counts of references were exact,
they still are, with those references gone. -/
structure Spends (c : Context) (home : Nat) (shape : Operands) (n : Nat) (vs : List Value)
    (m m' : Machine) : Prop where
  heap : Heap.releaseEach (shape.owning n vs) m.world.heap = .ok () m'.world.heap
  exact : ∀ outside : Multiset Value, m.world.heap.Exact (shape.owning n vs + outside) →
    m'.world.heap.Exact outside
  console : m'.world.console = m.world.console
  memory : KeepsBelow (c.bottom home + spilledWords (shape.depth - n)) m m'

/-- Code that replaces operands leads to a machine that represents the activation with the others. -/
theorem Represents.replace {image : Image} {c : Context} {home n : Nat} {shape : Operands}
    {a : Bytecode.Machine.Activation} {x : Visit} {is : Code} {φ : View → Prop} (vs : List Value)
    (hg : image.HasGlobals) (hr : image.functions.get? Symbol.release = none)
    (R : x.machine.Represents image c home shape a)
    (replaces : View.Replaces image c home (itemsOf shape.owned a.operands)
      (x.machine.view (c.bottom home + spilledWords shape.depth)) is n
      (itemsOf (vs.map fun _ => false) vs) φ)
    (located : Located image x.index is) (above : x.StaysAbove image is.length) :
    ∃ m v', x.Steps image is.length ⟨x.index + is.length, m, x.awaited⟩ ∧
      Spends c home shape n a.operands x.machine m ∧ m.Shows v' ∧ φ v' ∧
      ∀ next, m.Represents image c home ⟨(vs.map fun _ => false) ++ shape.owned.drop n⟩
        { a with operands := vs ++ a.operands.drop n, next } := by
  have length := R.length_operands
  have depth : (itemsOf shape.owned a.operands).length = shape.depth := length_itemsOf length
  -- What the operands own can be given back.
  have known : ∀ v ∈ shape.owning n a.operands, x.machine.world.heap.Vouches v := by
    intro v hv
    obtain ⟨p, hp, rfl⟩ := List.mem_map.mp hv
    obtain ⟨there, owned⟩ := List.mem_filter.mp hp
    exact R.held p (List.mem_of_mem_take there) owned
  obtain ⟨h', run, same⟩ := Heap.releaseEach_ok R.heap known
  have given : releaseOwned ((itemsOf shape.owned a.operands).take n) x.machine.world =
      .ok () ⟨h', x.machine.world.console⟩ := by
    rw [releaseOwned_itemsOf]
    exact Library.each_ofValue run
  have runs := replaces.runs (E := fun _ _ => False)
    (Q := fun v' => v'.Stands c home (itemsOf (vs.map fun _ => false) vs ++
        (itemsOf shape.owned a.operands).drop n) ∧
      v'.world = ⟨h', x.machine.world.console⟩ ∧ φ v')
    (Library.wp_of_ok given fun v' S _ world hφ => ⟨S, world, hφ⟩)
  obtain ⟨v', done, S', world, hφ⟩ := runs.exists_ok
  obtain ⟨m, steps, shows⟩ := Visit.block hg R.shows located above done
  -- The rest of memory is out of reach.
  obtain ⟨k, confined⟩ := replaces.confined
  rw [depth] at confined
  have less : spilledWords (shape.depth - n) ≤ spilledWords shape.depth :=
    View.spilledWords_mono (Nat.sub_le _ _)
  have height : c.bottom home + spilledWords (shape.depth - n) +
      (spilledWords shape.depth - spilledWords (shape.depth - n)) =
        c.bottom home + spilledWords shape.depth := by omega
  have keeps : KeepsBelow (c.bottom home + spilledWords (shape.depth - n)) x.machine m :=
    confined.keepsBelow hr located (height ▸ R.top) (height ▸ R.inside) above steps
  have heap : m.world.heap = h' := by rw [shows.world, world]
  have console : m.world.console = x.machine.world.console := by rw [shows.world, world]
  have spends : Spends c home shape n a.operands x.machine m :=
    ⟨heap ▸ run, fun outside exact => heap ▸ Heap.releaseEach_exact exact run, console, keeps⟩
  refine ⟨m, v', steps, spends, shows, hφ, fun next => ?_⟩
  have items : itemsOf (vs.map fun _ => false) vs ++ (itemsOf shape.owned a.operands).drop n =
      itemsOf ((vs.map fun _ => false) ++ shape.owned.drop n) (vs ++ a.operands.drop n) := by
    rw [drop_itemsOf]
    exact (List.zipWith_append (List.length_map _)).symm
  have length' : ((vs.map fun _ => false) ++ shape.owned.drop n).length =
      (vs ++ a.operands.drop n).length := by
    simp only [List.length_append, List.length_map, List.length_drop, length]
  rw [items] at S'
  have base : m.registers.ebp = heightWord home := shows.registers ▸ S'.ebp
  have top : v'.height = c.bottom home +
      spilledWords (Operands.depth ⟨(vs.map fun _ => false) ++ shape.owned.drop n⟩) :=
    S'.height.trans (congrArg (c.bottom home + spilledWords ·) (length_itemsOf length'))
  refine ⟨base, ?_, R.parameters, top ▸ shows.room, fun g => ?_, shows.contains hg length' S', ?_, ?_, ?_⟩
  · rw [← top, shows.registers]
    exact shows.top
  · rw [shows.globals g]
    rfl
  · intro p hp owned
    dsimp only at hp
    rw [List.zip_append (List.length_map _)] at hp
    rw [heap]
    rcases List.mem_append.mp hp with new | old
    · obtain ⟨u, -, unowned⟩ := List.mem_map.mp (List.of_mem_zip new).1
      rw [← unowned] at owned
      cases owned
    · rw [List.zip, ← List.drop_zipWith] at old
      exact (R.held p (List.mem_of_mem_drop old) owned).mono same.keepsKinds
  · intro y ws hy
    exact keeps.contains hg R.base (base.trans R.base.symm) R.parameters (Nat.le_add_right _ _)
      (by have := R.inside; omega) hy (R.stored y ws hy)
  · rw [heap]
    exact same.sound R.heap

end Machine

end X86

end Threefold
