import Threefold.Proofs.X86.Frames
import Threefold.Proofs.X86.Operations

/-!
# The words of variables

Where a view has the words of the variables of a routine, and what moves words to them. A variable that
the program does not name is below the base pointer, the parameters are above it.

* `Machine.Reads` says which words are read from the machine. It follows from what a view shows of the
  machine, and all views of one machine agree where they know a word.
-/

namespace Threefold.X86

open View (Runs Denotes)

/-! ## Places -/

section Homes

variable {image : Image} {v : View} {home i : Nat}

theorem View.read_inner (image : Image) (ebp : v.registers.ebp = heightWord home)
    (inside : home + 2 * i + 2 ≤ v.height) (room : v.height ≤ room) :
    v.read image (Frame.innerWords i).value = v.cell (home + 2 * i + 2) ∧
      v.read image (Frame.innerWords i).tag = v.cell (home + 2 * i + 1) := by
  have slack := room_le_ceiling
  constructor
  · exact View.read_frame ebp (by omega) (by omega) inside (by omega)
  · exact View.read_frame ebp (by omega) (by omega) (by omega) (by omega)

theorem View.read_parameter (image : Image) (ebp : v.registers.ebp = heightWord home)
    (low : 2 * i + 4 ≤ home) (inside : home ≤ v.height) (room : v.height ≤ room) :
    v.read image (Frame.parameterWords i).value = v.cell (home - 2 - 2 * i) ∧
      v.read image (Frame.parameterWords i).tag = v.cell (home - 3 - 2 * i) := by
  have slack := room_le_ceiling
  constructor
  · exact View.read_frame ebp (by omega) (by omega) (by omega) (by omega)
  · exact View.read_frame ebp (by omega) (by omega) (by omega) (by omega)

/-- Only what a program names is a parameter. -/
theorem words_inner {b : Bytecode} {r : Bytecode.Routine} {x : Bytecode.Variable} {ws : Words}
    (h : (Context.ofRoutine b r).words x = .ok ws) (own : ∀ n, x ≠ .named n)
    (stays : x ≠ .thrownData) :
    ∃ i < (Context.ofRoutine b r).frame.inner.length,
      (Context.ofRoutine b r).frame.home? x = some (.inner i) ∧ ws = Frame.innerWords i := by
  obtain ⟨place, found, rfl⟩ := words_eq_ok h
  have resident := Frame.resident?_home? found
  have bound := home?_bound found
  cases place with
  | inner i => exact ⟨i, bound, found, rfl⟩
  | parameter i =>
    have mem : x ∈ (Context.ofRoutine b r).frame.parameters := List.mem_of_getElem? resident
    have parameters : (Context.ofRoutine b r).frame.parameters = r.parameters.map .named :=
      Frame.parameters_ofRoutine b r
    rw [parameters] at mem
    obtain ⟨n, -, rfl⟩ := List.mem_map.mp mem
    exact absurd rfl (own n)
  | payload => exact absurd (Option.some.inj resident).symm stays

theorem Framed.denotes {c : Context} {top n : Nat} (F : Framed c top n v)
    (hw : Written v.cell v.height) (hl : image.HasLiterals c) {ws : Words}
    (h : ReadableWords c n ws) : ∃ r, v.Denotes image ws r := by
  obtain ⟨w, value⟩ := F.read hw hl h.value
  obtain ⟨code, tag⟩ := F.read hw hl h.tag
  exact ⟨⟨w, code⟩, value, tag⟩

end Homes

/-! ## Words of the machine -/

/-- The words of a value are read from the machine. -/
structure Machine.Reads (image : Image) (m : Machine) (ws : Words) (r : Raw) : Prop where
  value : read image ws.value m = .ok r.word m
  tag : read image ws.tag m = .ok r.code m

theorem Machine.Shows.reads {image : Image} {m : Machine} {v : View} (hg : image.HasGlobals)
    (S : m.Shows v) {ws : Words} {r : Raw} (h : v.Denotes image ws r) : m.Reads image ws r :=
  ⟨S.read hg h.value, S.read hg h.tag⟩

theorem Machine.Shows.height_eq {m : Machine} {v v' : View} (S : m.Shows v) (S' : m.Shows v') :
    v'.height = v.height := by
  refine heightWord_inj (Nat.le_trans S'.room room_le_ceiling) (Nat.le_trans S.room room_le_ceiling) ?_
  rw [← S'.top, ← S.top, ← S'.registers, ← S.registers]

theorem Machine.Shows.cell_eq {m : Machine} {v v' : View} (S : m.Shows v) (S' : m.Shows v') {k : Nat}
    {n : Int32} (low : 1 ≤ k) (high : k ≤ v.height) (there : v.cell k = some n)
    (known : (v'.cell k).isSome) : v'.cell k = some n := by
  obtain ⟨n', hn⟩ := Option.isSome_iff_exists.mp known
  have high' : k ≤ v'.height := S.height_eq S' ▸ high
  rw [hn]
  exact (S'.cell k n' low high' hn).symm.trans (S.cell k n low high there)

theorem Machine.Shows.globals_eq {m : Machine} {v v' : View} (S : m.Shows v) (S' : m.Shows v')
    (g : Global) : v'.globals g = v.globals g :=
  Option.some.inj ((S'.globals g).symm.trans (S.globals g))

/-! ## Moving words -/

namespace View

variable {image : Image} {v : View} {n : Int32} {s : Operand} {E : Trap → World → Prop}

theorem Runs.move {d : Operand} {Q : View → Prop} (hs : v.read image s = some n)
    (h : ∀ v', v' = v ∨ v' = v.set .eax n → ∃ v'', v'.write d n = some v'' ∧ Q v'') :
    Runs image (Code.move s d) v Q E := by
  unfold Code.move
  split
  · obtain ⟨v', written, hq⟩ := h _ (.inr rfl)
    have eax : (v.set .eax n).read image (.register .eax) = some n := rfl
    exact .movRegister (by decide) hs (.mov eax written (.nil hq))
  · obtain ⟨v', written, hq⟩ := h v (.inl rfl)
    exact .mov hs written (.nil hq)

/-- A view with other words in places that a routine owns, which still says where the stack ends. -/
structure Moved (own : Nat → Prop) (v v' : View) : Prop where
  alters : v.Alters own v'
  topped : v'.Topped

theorem Moved.trans {own : Nat → Prop} {v v' v'' : View} (h : v.Moved own v') (h' : v'.Moved own v'') :
    v.Moved own v'' :=
  ⟨h.alters.trans h'.alters, h'.topped⟩

theorem moved_of_move (own : Nat → Prop) {v v' : View} (topped : v.Topped)
    (h : v' = v ∨ v' = v.set .eax n) :
    v.Moved own v' ∧ v'.cell = v.cell ∧ v'.globals = v.globals := by
  rcases h with rfl | rfl
  · exact ⟨⟨.refl _, topped⟩, rfl, rfl⟩
  · exact ⟨⟨.set v (by decide) n, topped_set topped (by decide) n⟩, rfl, rfl⟩

/-- Move a word to a place in the frame. -/
theorem Runs.moveFrame {home k : Nat} {offset : Int} (own : Nat → Prop) (topped : v.Topped)
    (ebp : v.registers.ebp = heightWord home) (hs : v.read image s = some n)
    (hk : 4 * (k : Int) = 4 * home - offset) (low : 1 ≤ k) (high : k ≤ v.height)
    (room : v.height ≤ room) (mine : own k) :
    Runs image (Code.move s (.frame offset)) v (fun v' => v.Moved own v' ∧
      (∀ j, v'.cell j = if j = k then some n else v.cell j) ∧ v'.globals = v.globals) E := by
  refine Runs.move hs fun v' hv' => ⟨v'.put k n, ?_, ?_⟩
  · obtain ⟨⟨alters, -⟩, -, -⟩ := moved_of_move own topped hv'
    have ceiling := room_le_ceiling
    exact write_frame (alters.base.trans ebp) hk low (alters.height ▸ high) (by omega)
  · obtain ⟨⟨alters, topped'⟩, cell, globals⟩ := moved_of_move own topped hv'
    refine ⟨⟨alters.trans (.put v' mine n), topped'⟩, fun j => ?_, globals⟩
    rw [← cell]
    rfl

/-- Move a word to a global one. -/
theorem Runs.moveGlobal (own : Nat → Prop) (topped : v.Topped) (hs : v.read image s = some n)
    (g : Global) : Runs image (Code.move s (.global g.symbol)) v (fun v' => v.Moved own v' ∧
      v'.cell = v.cell ∧ ∀ g', v'.globals g' = if g' = g then n else v.globals g') E := by
  refine Runs.move hs fun v' hv' => ⟨v'.setGlobal g n, ?_, ?_⟩
  · simp only [write, Global.ofSymbol?_symbol, Option.map_some]
  · obtain ⟨⟨alters, topped'⟩, cell, globals⟩ := moved_of_move own topped hv'
    refine ⟨⟨alters.trans (.setGlobal v' g n), topped'⟩, cell, fun g' => ?_⟩
    rw [← globals]
    rfl

end View

end Threefold.X86
