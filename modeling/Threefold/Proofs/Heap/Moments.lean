import Threefold.Proofs.Heap.Catalogue

/-!
# The strings on a heap during a run

What a run does to the world is a chain of calls of built-in functions, each made in the world that
the one before has left (`Chain`). On a heap that does not count references, nothing is ever gone
(`Lasting`). So a chain of calls leaves a string with a handle as it is, but for the bytes that calls of
`strSet` on the very handle set (`Chain.rewrites`), and a copy of it is a new string with these bytes
(`Chain.copies`).
-/

namespace Threefold

/-! ## Heaps on which nothing is gone -/

namespace Heap

/-- References are not counted, and nothing is gone. -/
structure Lasting (h : Heap) : Prop where
  counting : h.counting = false
  live : ∀ (k : Nat) (c : Cell), h.cells[k]? = some c → c.freed = false

variable {h h' : Heap} {k : Nat} {n : Int32} {o : HeapObject}

theorem Lasting.retain (lasting : h.Lasting) (v : Value) : retain v h = .ok () h := by
  simp [Heap.retain, lasting.counting]

theorem Lasting.release (lasting : h.Lasting) (v : Value) : release v h = .ok () h := by
  simp [Heap.release, lasting.counting]

theorem Lasting.retainTimes (lasting : h.Lasting) (v : Value) (m : Nat) :
    retainTimes v m h = .ok () h := by
  induction m with
  | zero => rfl
  | succ m ih =>
    simp only [Heap.retainTimes, Bind.bind, EStateM.bind, lasting.retain v]
    exact ih

theorem Lasting.push (lasting : h.Lasting) (o : HeapObject) :
    Lasting { h with cells := h.cells.push ⟨o, 1, false⟩ } := by
  refine ⟨lasting.counting, fun k c cell => ?_⟩
  rw [Array.getElem?_push] at cell
  split at cell
  · cases cell
    rfl
  · exact lasting.live k c cell

theorem Lasting.modifyObject (lasting : h.Lasting) (i : Nat) (f : HeapObject → HeapObject) :
    (finalState (modifyObject i f h)).Lasting := by
  refine ⟨lasting.counting, fun k c cell => ?_⟩
  simp only [finalState, Heap.modifyObject, Array.getElem?_modify] at cell
  split at cell
  · obtain ⟨d, hd, rfl⟩ := Option.map_eq_some_iff.mp cell
    exact lasting.live k d hd
  · exact lasting.live k c cell

theorem Lasting.storeAt (lasting : h.Lasting) (i : Nat) (o : HeapObject) (p : Nat) (v : Value) :
    (finalState (storeAt i o p v h)).Lasting := by
  have set := lasting.modifyObject i (Intrinsic.setElement p v)
  cases o with
  | string bytes => exact set
  | scalars words => exact set
  | boxed values =>
    simp only [Heap.storeAt, Bind.bind, EStateM.bind]
    generalize hm : Heap.modifyObject i (Intrinsic.setElement p v) h = r at set
    cases r with
    | error e h₁ => exact set
    | ok u h₁ =>
      dsimp only [finalState] at set ⊢
      rw [set.retain v]
      dsimp only
      rw [set.release]
      exact set

theorem Lasting.names (lasting : h.Lasting) (index : h.index? n = some k)
    (there : h.objectAt? k = some o) : h.Names n k o := by
  obtain ⟨c, cell, object⟩ := Option.map_eq_some_iff.mp there
  exact ⟨index, c, cell, lasting.live k c cell, object⟩

theorem index?_of_grows (grows : h.Grows h') (index : h.index? n = some k) :
    h'.index? n = some k := by
  obtain ⟨inside, value⟩ := index?_eq_some.mp index
  exact index?_eq_some.mpr ⟨Nat.lt_of_lt_of_le inside grows.size, value⟩

end Heap

namespace Intrinsic

open Heap

theorem Effect.lasting {h : Heap} {i : Intrinsic} {arguments : List Value} {op : Heap.Op Reply}
    (effect : Effect h i arguments op) (lasting : h.Lasting) : (finalState (op h)).Lasting := by
  cases effect with
  | answer => exact lasting
  | outOfBounds => exact lasting
  | fail => exact lasting
  | newString i arguments bytes => exact lasting.push _
  | @setByte i arguments k p b inside => exact lasting.modifyObject k (Intrinsic.setByte p b)
  | make => exact lasting.push _
  | makeBoxed n v size lt =>
    simp only [Bind.bind, EStateM.bind, lasting.retainTimes v size]
    exact lasting.push _
  | get => exact lasting
  | @set a n v k p c counted index cell live inside =>
    have stored := lasting.storeAt k c.object p v
    simp only [Bind.bind, EStateM.bind]
    cases run : storeAt k c.object p v h <;> rw [run] at stored <;> exact stored

theorem call_lasting (i : Intrinsic) (arguments : List Value) {w : World} (lasting : w.heap.Lasting) :
    (finalState (i.call arguments w)).heap.Lasting := by
  obtain ⟨op, effect, same⟩ := call_effect i arguments w
  rw [← World.finalState_heapResult, same]
  exact effect.lasting lasting

/-- A call that puts something on the heap returns its handle. -/
theorem word_of_call {i : Intrinsic} {arguments : List Value} {w w' : World} {v : Value}
    (run : i.call arguments w = .ok (.returned v) w')
    (grown : w.heap.cells.size < w'.heap.cells.size) : v.word = handle w.heap.cells.size := by
  have comes := call_comes i arguments w
  rw [run] at comes
  generalize hr : EStateM.Result.ok (Reply.returned v) w' = r at comes
  cases comes with
  | fails => cases hr
  | misses => cases hr
  | answers =>
    cases hr
    exact absurd grown (Nat.lt_irrefl _)
  | copies =>
    cases hr
    rfl
  | makes tag same =>
    cases hr
    rw [same.size]
  | gets =>
    cases hr
    exact absurd grown (Nat.lt_irrefl _)
  | @sets k o o' r sets objects answer =>
    subst hr
    have more : (w'.heap.objectAt? w.heap.cells.size).isSome := objectAt?_isSome.mpr grown
    have none : ¬(w.heap.objectAt? w.heap.cells.size).isSome :=
      fun there => Nat.lt_irrefl _ (objectAt?_isSome.mp there)
    obtain ⟨-, v, index, new, p, -, addressed, -⟩ := sets
    have same : w'.heap.objectAt? w.heap.cells.size =
        if k = w.heap.cells.size then some o' else w.heap.objectAt? w.heap.cells.size := objects _
    rw [same] at more
    split at more
    case isTrue here =>
      have inside := objectAt?_lt addressed.1.objectAt?
      omega
    case isFalse => exact absurd more none

end Intrinsic

namespace Intrinsic

/-- What is left of a string when one of its bytes is set. -/
theorem objectAt?_strSet {w : World} {v : Value} (index b : Value) {k : Nat} {bytes : Array UInt8}
    (names : w.heap.Names v.word k (.string bytes)) :
    (finalState (call .strSet [v, index, b] w)).heap.objectAt? k = some (.string
      (if 0 ≤ index.word.toInt then bytes.setIfInBounds index.word.toInt.toNat (byte b.word)
        else bytes)) := by
  simp only [call, Bind.bind, EStateM.bind, bytesOf_of_names names]
  cases found : position? index.word bytes.size with
  | none =>
    show w.heap.objectAt? k = _
    rw [names.objectAt?]
    obtain below | above := position?_eq_none.mp found
    · rw [if_neg (by omega)]
    · rw [if_pos (by omega), Array.setIfInBounds_eq_of_size_le (by omega)]
  | some p =>
    obtain ⟨value, inside⟩ := position?_eq_some.mp found
    have set := objectAt?_modify names (setByte p (byte b.word)) k
    simp only [modifyObject, World.onHeap, Bind.bind, EStateM.bind, Heap.index, names.1]
    rw [if_pos rfl] at set
    rw [if_pos (by omega), value]
    exact set

end Intrinsic

/-! ## Chains of calls -/

/-- What happens at some moment of a run: a built-in function is called, or the evaluation of a string
literal begins. -/
inductive Deed
  | call (i : Intrinsic) (arguments : List Value)
  | literal (text : String)

/-- A moment of a run, and the world at this moment. -/
structure Moment where
  world : World
  deed : Deed

namespace Moment

/-- The world after a moment; none if the run ends with a fault. -/
def next? (m : Moment) : Option World :=
  match m.deed with
  | .literal _ => some m.world
  | .call i arguments =>
    match i.call arguments m.world with
    | .ok _ w => some w
    | .error _ _ => none

/-- What a moment leaves of the bytes of the string with some handle. -/
def rewrite (n : Int32) (bytes : Array UInt8) (m : Moment) : Array UInt8 :=
  match m.deed with
  | .call .strSet [v, index, b] =>
    if v.word = n ∧ 0 ≤ index.word.toInt then
      bytes.setIfInBounds index.word.toInt.toNat (Intrinsic.byte b.word)
    else bytes
  | _ => bytes

/-- At this moment, one of the first bytes of the string with some handle is set. -/
def Overwrites (m : Moment) (n : Int32) (length : Nat) : Prop :=
  ∃ v index b, m.deed = .call .strSet [v, index, b] ∧ v.word = n ∧
    0 ≤ index.word.toInt ∧ index.word.toInt < length

/-- At this moment, something is put on the heap, under some handle. -/
def Allocates (m : Moment) (n : Int32) : Prop :=
  ∃ i arguments v w, m.deed = .call i arguments ∧ i.call arguments m.world = .ok (.returned v) w ∧
    m.world.heap.cells.size < w.heap.cells.size ∧ v.word = n

variable {m : Moment} {w : World} {n : Int32} {k : Nat} {bytes : Array UInt8}

theorem next_call {i : Intrinsic} {arguments : List Value} {w₀ : World} :
    next? ⟨w₀, .call i arguments⟩ = some w ↔ ∃ reply, i.call arguments w₀ = .ok reply w := by
  simp only [next?]
  split
  case h_1 run => simp [run]
  case h_2 run => simp [run]

theorem grows (next : m.next? = some w) : m.world.heap.Grows w.heap := by
  obtain ⟨w₀, deed⟩ := m
  cases deed with
  | literal text =>
    cases next
    exact .refl _
  | call i arguments =>
    have adds := (Intrinsic.call_adds i arguments w₀).1
    obtain ⟨reply, run⟩ := next_call.mp next
    rw [run] at adds
    exact adds

theorem lasting (next : m.next? = some w) (lasting : m.world.heap.Lasting) : w.heap.Lasting := by
  obtain ⟨w₀, deed⟩ := m
  cases deed with
  | literal text =>
    cases next
    exact lasting
  | call i arguments =>
    have after := Intrinsic.call_lasting i arguments lasting
    obtain ⟨reply, run⟩ := next_call.mp next
    rw [run] at after
    exact after

theorem rewrite_of_spared (spared : ¬m.Overwrites n bytes.size) : m.rewrite n bytes = bytes := by
  unfold rewrite
  split
  case h_1 v index b deed =>
    split
    case isTrue there =>
      refine Array.setIfInBounds_eq_of_size_le (Nat.le_of_not_lt fun inside => spared ?_)
      exact ⟨v, index, b, deed, there.1, there.2, by omega⟩
    case isFalse => rfl
  case h_2 => rfl

/-- Nothing but the setting of its bytes changes a string. -/
theorem rewrites (next : m.next? = some w) (lasts : m.world.heap.Lasting)
    (names : m.world.heap.Names n k (.string bytes)) :
    w.heap.Names n k (.string (m.rewrite n bytes)) := by
  refine (lasting next lasts).names (Heap.index?_of_grows (grows next) names.1) ?_
  obtain ⟨w₀, deed⟩ := m
  cases deed with
  | literal text =>
    cases next
    exact names.objectAt?
  | call i arguments =>
    obtain ⟨reply, run⟩ := next_call.mp next
    by_cases sets : ∃ v index b, i = .strSet ∧ arguments = [v, index, b] ∧ v.word = n
    case pos =>
      obtain ⟨v, index, b, rfl, rfl, rfl⟩ := sets
      have set := Intrinsic.objectAt?_strSet index b names
      rw [run] at set
      simp only [rewrite, true_and]
      exact set
    case neg =>
      have same : rewrite n bytes ⟨w₀, .call i arguments⟩ = bytes := by
        unfold rewrite
        split
        case h_1 v index b deed =>
          cases deed
          exact if_neg fun there => sets ⟨v, index, b, rfl, rfl, there.1⟩
        case h_2 => rfl
      rw [same]
      obtain ⟨o', there, rfl | ⟨setter, v, index, b, p, rfl, addressed, -⟩⟩ :=
        (Intrinsic.call_comes i arguments w₀).changed names.objectAt?
      · rw [run] at there
        exact there
      · exfalso
        -- A setter of strings sets this one only if it has its handle; one of arrays sets no strings.
        obtain ⟨named, ⟨strings, -⟩ | ⟨-, -, kind⟩⟩ := addressed
        · obtain rfl | rfl := setter
          · have value := (Heap.index?_eq_some.mp named.1).2
            have value' := (Heap.index?_eq_some.mp names.1).2
            exact sets ⟨v, index, b, rfl, rfl, Int32.toInt_inj.mp (value.trans value'.symm)⟩
          · cases strings
        · exact kind rfl

end Moment

/-- Moments that follow each other, from one world to another; to none if the last one is a fault, or
if nothing is known of what comes next. -/
def Chain : World → List Moment → Option World → Prop
  | w, [], r => ∀ w', r = some w' → w' = w
  | w, m :: ms, r => m.world = w ∧
    match m.next? with
    | some w' => Chain w' ms r
    | none => ms = [] ∧ r = none

namespace Chain

variable {w w' : World} {ms ms' : List Moment} {m : Moment} {r : Option World}

theorem nil : Chain w [] (some w) := by
  rintro _ ⟨⟩
  rfl

theorem none : Chain w [] none := by
  rintro _ ⟨⟩

theorem single (d : Deed) : Chain w [⟨w, d⟩] (Moment.next? ⟨w, d⟩) := by
  refine ⟨rfl, ?_⟩
  cases Moment.next? ⟨w, d⟩ with
  | none => exact ⟨rfl, rfl⟩
  | some w' => exact nil

theorem append (h : Chain w ms (some w')) (h' : Chain w' ms' r) : Chain w (ms ++ ms') r := by
  induction ms generalizing w with
  | nil => exact h w' rfl ▸ h'
  | cons m ms ih =>
    obtain ⟨world, rest⟩ := h
    refine ⟨world, ?_⟩
    cases next : m.next? with
    | none =>
      rw [next] at rest
      cases rest.2
    | some w₁ =>
      rw [next] at rest
      exact ih rest

/-- A chain up to one of its moments, and from there on. -/
theorem split (h : Chain w (ms ++ m :: ms') r) :
    Chain w ms (some m.world) ∧ Chain m.world (m :: ms') r := by
  induction ms generalizing w with
  | nil =>
    obtain ⟨rfl, rest⟩ := h
    exact ⟨nil, rfl, rest⟩
  | cons m₀ ms ih =>
    obtain ⟨world, rest⟩ := h
    cases next : m₀.next? with
    | none =>
      rw [next] at rest
      exact absurd rest.1 (by simp)
    | some w₁ =>
      rw [next] at rest
      obtain ⟨before, after⟩ := ih rest
      refine ⟨⟨world, ?_⟩, after⟩
      rw [next]
      exact before

/-- What every moment of a chain preserves. -/
theorem invariant {P : World → Prop} (h : Chain w ms (some w')) (start : P w)
    (step : ∀ m ∈ ms, ∀ w', m.next? = some w' → P m.world → P w') : P w' := by
  induction ms generalizing w with
  | nil => exact h w' rfl ▸ start
  | cons m ms ih =>
    obtain ⟨rfl, rest⟩ := h
    cases next : m.next? with
    | none =>
      rw [next] at rest
      cases rest.2
    | some w₁ =>
      rw [next] at rest
      exact ih rest (step m List.mem_cons_self w₁ next start)
        fun m' hm => step m' (List.mem_cons_of_mem m hm)

theorem grows (h : Chain w ms (some w')) : w.heap.Grows w'.heap :=
  h.invariant (P := fun w' => w.heap.Grows w'.heap) (.refl _) fun _ _ _ next before =>
    before.trans (Moment.grows next)

theorem lasting (h : Chain w ms (some w')) (lasting : w.heap.Lasting) : w'.heap.Lasting :=
  h.invariant (P := fun w' => w'.heap.Lasting) lasting fun _ _ _ next before =>
    Moment.lasting next before

/-- What a chain leaves of a string. -/
theorem rewrites {n : Int32} {k : Nat} {bytes : Array UInt8} (h : Chain w ms (some w'))
    (lasting : w.heap.Lasting) (names : w.heap.Names n k (.string bytes)) :
    w'.heap.Names n k (.string (ms.foldl (Moment.rewrite n) bytes)) := by
  induction ms generalizing w bytes with
  | nil => exact h w' rfl ▸ names
  | cons m ms ih =>
    obtain ⟨rfl, rest⟩ := h
    cases next : m.next? with
    | none =>
      rw [next] at rest
      cases rest.2
    | some w₁ =>
      rw [next] at rest
      exact ih rest (Moment.lasting next lasting) (Moment.rewrites next lasting names)

/-- What was put on the heap before is there. -/
theorem allocated {n : Int32} (h : Chain w ms (some w')) (mem : m ∈ ms) (allocates : m.Allocates n) :
    ∃ k < w'.heap.cells.size, n = Heap.handle k := by
  obtain ⟨before, after, rfl⟩ := List.append_of_mem mem
  obtain ⟨i, arguments, v, w₁, deed, run, grown, rfl⟩ := allocates
  refine ⟨m.world.heap.cells.size, ?_, Intrinsic.word_of_call run grown⟩
  have next : m.next? = some w₁ := by
    rw [Moment.next?, deed]
    dsimp only
    rw [run]
  obtain ⟨-, -, rest⟩ := h.split
  rw [next] at rest
  exact Nat.lt_of_lt_of_le grown (grows rest).size

end Chain

/-! ## Copies -/

/-- The copy of a literal with some entry in the pool: it is a new string, whose handle names nothing
before, and no call before has returned it for what it put on the heap. It has the text of the
literal, but for the bytes that were set in the entry itself. -/
structure Copied (earlier : List Moment) (w : World) (entry : Int32) (text : String) (n : Int32)
    (w' : World) : Prop where
  new : w.heap.index? n = none
  unreturned : ∀ m ∈ earlier, ¬m.Allocates n
  bytes : ∃ k, w'.heap.Names n k (.string (earlier.foldl (Moment.rewrite entry) text.toUTF8.data))
  text : (∀ m ∈ earlier, ¬m.Overwrites entry text.toUTF8.size) → ∃ k, w'.heap.Names n k (.ofString text)

theorem foldl_rewrite_of_spared {n : Int32} {bytes : Array UInt8} {ms : List Moment}
    (spared : ∀ m ∈ ms, ¬m.Overwrites n bytes.size) : ms.foldl (Moment.rewrite n) bytes = bytes := by
  induction ms with
  | nil => rfl
  | cons m ms ih =>
    rw [List.foldl_cons, Moment.rewrite_of_spared (spared m List.mem_cons_self)]
    exact ih fun m' mem => spared m' (List.mem_cons_of_mem m mem)

/-- The copy of a string that was there in the beginning. -/
theorem Chain.copies {w₀ w : World} {earlier : List Moment} {text : String} {n : Int32} {k : Nat}
    (chain : Chain w₀ earlier (some w)) (lasting : w₀.heap.Lasting)
    (names : w₀.heap.Names n k (.ofString text)) (room : Heap.base + w.heap.cells.size < 2 ^ 31) :
    ∃ m w', Intrinsic.call .strDup [.scalar n] w = .ok (.scalar m) w' ∧
      Copied earlier w n text m w' := by
  have entry := chain.rewrites lasting names
  generalize left : earlier.foldl (Moment.rewrite n) text.toUTF8.data = bytes at entry
  have old {j : Nat} (value : (Heap.handle w.heap.cells.size).toInt = Heap.base + j) :
      ¬j < w.heap.cells.size := by
    rw [Heap.toInt_handle room] at value
    omega
  let w' : World :=
    ⟨{ w.heap with cells := w.heap.cells.push ⟨.string bytes, 1, false⟩ }, w.console⟩
  have called : Intrinsic.call .strDup [.scalar n] w =
      .ok (.scalar (Heap.handle w.heap.cells.size)) w' := by
    simp only [Intrinsic.call, Bind.bind, EStateM.bind,
      Intrinsic.bytesOf_of_names (v := .scalar n) entry]
    rfl
  have copy : ∃ k, w'.heap.Names (Heap.handle w.heap.cells.size) k (.string bytes) := by
    refine ⟨w.heap.cells.size, Heap.index?_eq_some.mpr ⟨?_, Heap.toInt_handle room⟩,
      ⟨.string bytes, 1, false⟩, Array.getElem?_push_size, rfl, rfl⟩
    rw [Array.size_push]
    exact Nat.lt_succ_self _
  refine ⟨_, w', called, ?_, ?_, left ▸ copy, fun spared => ?_⟩
  · rw [← Option.not_isSome_iff_eq_none, Option.isSome_iff_exists]
    rintro ⟨j, found⟩
    obtain ⟨inside, value⟩ := Heap.index?_eq_some.mp found
    exact old value inside
  · intro m hm allocates
    obtain ⟨j, inside, same⟩ := chain.allocated hm allocates
    refine old ?_ inside
    rw [same, Heap.toInt_handle (by omega)]
  · obtain rfl := left.symm.trans (foldl_rewrite_of_spared spared)
    exact copy

/-! ## The pool of literals -/

namespace Heap

theorem preload_eq (ss : List String) (h : Heap) : preload ss h =
    .ok ((List.range ss.length).map fun j => handle (h.cells.size + j))
      { h with cells := h.cells ++ (ss.map fun s => ⟨.ofString s, 1, false⟩).toArray } := by
  induction ss generalizing h with
  | nil => simp [preload, Pure.pure, EStateM.pure]
  | cons s ss ih =>
    simp only [preload, Bind.bind, EStateM.bind, allocate, ih]
    rw [List.length_cons, List.range_succ_eq_map, List.map_cons, List.map_map]
    simp [Pure.pure, EStateM.pure, Function.comp_def, Nat.add_comm, Nat.add_left_comm]

/-- The heap before a run. -/
theorem preload_lasting (ss : List String) : (finalState (preload ss (.empty false))).Lasting := by
  rw [preload_eq]
  refine ⟨rfl, fun k c cell => ?_⟩
  simp only [finalState, empty, List.getElem?_toArray, List.getElem?_map,
    Array.empty_append] at cell
  obtain ⟨s, -, rfl⟩ := Option.map_eq_some_iff.mp cell
  rfl

/-- The literals before a run. -/
theorem preload_names {ss : List String} {k : Nat} {text : String} (there : ss[k]? = some text)
    (room : base + k < 2 ^ 31) :
    (finalState (preload ss (.empty false))).Names (handle k) k (.ofString text) := by
  have inside : k < ss.length := (List.getElem?_eq_some_iff.mp there).1
  refine (preload_lasting ss).names (index?_eq_some.mpr ⟨?_, toInt_handle room⟩) ?_
  · rw [preload_eq]
    simpa [finalState, empty] using inside
  · rw [preload_eq, objectAt?]
    simp [finalState, empty, there]

end Heap

end Threefold
