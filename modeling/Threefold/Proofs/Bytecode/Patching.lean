import Threefold.Proofs.Bytecode.Writing
import Threefold.Proofs.Heap.Traffic

/-!
# Targets that are given later

Whoever writes code may write instructions, reserve jumps and give targets to jumps in any order, and
some of what is asked for may fail. `Past` is what such requests come to, told without the code: which
instructions and jumps were written, and which jumps were given which target. A request to give a
target is heard if the slot holds a jump that has none when its turn comes, and then only.

`patching_exact` says that the code is what its past says: it can be finished if and only if every jump
was given a target, everything then stands at the index at which it was written, and each jump has the
one target that it was given.
-/

namespace Threefold.Bytecode.Draft

/-- Something that is asked for while code is written. -/
inductive Request
  | emit (i : Instruction)
  | reserve (kind : JumpKind) (origin : String)
  | resolve (slot target : Nat)
  | resolveAll (slots : List Nat) (target : Nat)

/-- What a request does. -/
def Request.perform : Request → EStateM Mistake Draft Unit
  | emit i => modify (·.emit i)
  | reserve kind origin => modify (·.reserve kind origin)
  | resolve slot target => Draft.resolve slot target
  | resolveAll slots target => Draft.resolveAll slots target

/-- The code after requests, some of which may have failed. -/
def after (rs : List Request) : Draft :=
  rs.foldl (fun d r => finalState (r.perform d)) .empty

/-- Something that was written. -/
inductive Entry
  | instruction (i : Instruction)
  | jump (kind : JumpKind) (origin : String)

/-- What stands where something was written, and was given a target if it was given one. -/
def Entry.slot (target? : Option Nat) : Entry → Slot
  | instruction i => .filled i
  | jump kind origin =>
    match target? with
    | some target => .filled (kind.instruction target)
    | none => .reserved kind origin

/-- What was written, in order, and the jumps that were given a target, with their targets. -/
structure Past where
  written : List Entry
  given : List (Nat × Nat)

namespace Past

/-- A jump was written at an index and was given no target so far. -/
def waits (h : Past) (slot : Nat) : Bool :=
  match h.written[slot]? with
  | some (.jump _ _) => (h.given.lookup slot).isNone
  | _ => false

/-- The past after a jump was given a target. -/
def give (h : Past) (slot target : Nat) : Past :=
  { h with given := h.given ++ [(slot, target)] }

/-- The past after a target was given to the jumps in some slots, up to the first slot that holds no
jump without a target when its turn comes. -/
def giveAll (target : Nat) : List Nat → Past → Past
  | [], h => h
  | slot :: rest, h => if h.waits slot then giveAll target rest (h.give slot target) else h

/-- The past after one more request. -/
def note (h : Past) : Request → Past
  | .emit i => { h with written := h.written ++ [.instruction i] }
  | .reserve kind origin => { h with written := h.written ++ [.jump kind origin] }
  | .resolve slot target => h.giveAll target [slot]
  | .resolveAll slots target => h.giveAll target slots

/-- What requests come to. -/
def ofRequests (rs : List Request) : Past :=
  rs.foldl note ⟨[], []⟩

/-- What stands at an index, as far as the past tells. -/
def slot? (h : Past) (k : Nat) : Option Slot :=
  h.written[k]?.map (Entry.slot (h.given.lookup k))

section Given

variable {h : Past} {slot target k : Nat}

theorem waits_iff : h.waits slot = true ↔
    (∃ kind origin, h.written[slot]? = some (.jump kind origin)) ∧ h.given.lookup slot = none := by
  unfold waits
  split
  case h_1 kind origin there => simp [there]
  case h_2 other =>
    refine iff_of_false (by simp) ?_
    rintro ⟨⟨kind, origin, there⟩, -⟩
    exact other kind origin there

theorem lookup_give :
    (h.give slot target).given.lookup k =
      (h.given.lookup k).or (if k = slot then some target else none) := by
  rw [give, List.lookup_append]
  by_cases hk : k = slot
  · simp [hk]
  · simp [List.lookup_cons, hk, beq_false_of_ne hk]

/-- A jump that was given a target waits no more, and the others are as they were. -/
theorem waits_give : (h.give slot target).waits k = true ↔ k ≠ slot ∧ h.waits k = true := by
  rw [waits_iff, waits_iff, lookup_give]
  by_cases hk : k = slot <;> simp [give, hk]

theorem slot?_give (fresh : h.given.lookup slot = none) {kind : JumpKind} {origin : String}
    (jump : h.written[slot]? = some (.jump kind origin)) :
    (h.give slot target).slot? k =
      if k = slot then some (.filled (kind.instruction target)) else h.slot? k := by
  rw [slot?, slot?, lookup_give]
  by_cases hk : k = slot
  · subst hk
    simp [give, fresh, jump, Entry.slot]
  · simp [give, hk]

end Given

end Past

/-! ## The code shows its past -/

/-- Every index holds what the past says, and each jump that was given a target is one that was written
and was given no other target. -/
structure Shows (h : Past) (d : Draft) : Prop where
  slots : ∀ k, d.slots[k]? = h.slot? k
  jumps : ∀ p ∈ h.given, ∃ kind origin, h.written[p.1]? = some (.jump kind origin)
  once : (h.given.map Prod.fst).Nodup

namespace Shows

variable {h : Past} {d : Draft} {slot target : Nat}

theorem next (shown : Shows h d) : d.next = h.written.length := by
  have none_iff (k : Nat) : d.slots.size ≤ k ↔ h.written.length ≤ k := by
    rw [← Array.getElem?_eq_none_iff, shown.slots, Past.slot?, Option.map_eq_none_iff,
      List.getElem?_eq_none_iff]
  have := none_iff d.slots.size
  have := none_iff h.written.length
  unfold Draft.next
  omega

/-- No jump behind the end of the code was given a target. -/
theorem lookup_length (shown : Shows h d) : h.given.lookup h.written.length = none := by
  rw [List.lookup_eq_none_iff]
  rintro ⟨slot, target⟩ mem
  obtain ⟨kind, origin, there⟩ := shown.jumps _ mem
  have inside := (List.getElem?_eq_some_iff.mp there).1
  simp only [bne_iff_ne, ne_eq] at inside ⊢
  omega

/-- Writing behind the end of the code. -/
theorem write (shown : Shows h d) (e : Entry) :
    Shows { h with written := h.written ++ [e] } ⟨d.slots.push (e.slot none)⟩ := by
  have size : d.slots.size = h.written.length := shown.next
  refine ⟨fun k => ?_, fun p mem => ?_, shown.once⟩
  · rw [Array.getElem?_push, size, shown.slots, Past.slot?, Past.slot?, List.getElem?_append]
    by_cases hk : k = h.written.length
    · simp [hk, shown.lookup_length]
    · by_cases inside : k < h.written.length
      · simp [hk, inside]
      · have beyond : k - h.written.length ≠ 0 := by omega
        simp [hk, inside, beyond]
  · obtain ⟨kind, origin, there⟩ := shown.jumps p mem
    have inside := (List.getElem?_eq_some_iff.mp there).1
    exact ⟨kind, origin, by rw [List.getElem?_append_left inside, there]⟩

/-- A jump that waits is given its target, and nothing else changes. -/
theorem resolve (shown : Shows h d) (waits : h.waits slot = true) (target : Nat) :
    ∃ kind origin, h.written[slot]? = some (.jump kind origin) ∧
      Draft.resolve slot target d =
        .ok () ⟨d.slots.setIfInBounds slot (.filled (kind.instruction target))⟩ ∧
      Shows (h.give slot target)
        ⟨d.slots.setIfInBounds slot (.filled (kind.instruction target))⟩ := by
  obtain ⟨⟨kind, origin, jump⟩, fresh⟩ := Past.waits_iff.mp waits
  have there : d.slots[slot]? = some (.reserved kind origin) := by
    simp [shown.slots, Past.slot?, jump, fresh, Entry.slot]
  refine ⟨kind, origin, jump, by simp only [Draft.resolve, there], fun k => ?_, fun p mem => ?_, ?_⟩
  · have inside := (Array.getElem?_eq_some_iff.mp there).1
    rw [Array.getElem?_setIfInBounds, Past.slot?_give fresh jump, shown.slots]
    by_cases hk : k = slot
    · simp [hk, inside]
    · simp [hk, Ne.symm hk]
  · rcases List.mem_append.mp mem with old | new
    · exact shown.jumps p old
    · rw [List.mem_singleton.mp new]
      exact ⟨kind, origin, jump⟩
  · rw [Past.give, List.map_append, List.nodup_append]
    refine ⟨shown.once, by simp, ?_⟩
    intro a ha b hb same
    obtain ⟨p, mem, rfl⟩ := List.mem_map.mp ha
    obtain rfl : b = slot := by simpa using hb
    have := List.lookup_eq_none_iff.mp fresh p mem
    simp [same] at this

/-- Nothing else can be given a target. -/
theorem resolve_of_not_waits (shown : Shows h d) (idle : h.waits slot = false) :
    Draft.resolve slot target d = .error (.notReserved slot) d := by
  have there := shown.slots slot
  unfold Draft.resolve
  split
  case h_1 kind origin reserved =>
    obtain ⟨e, written, same⟩ := Option.map_eq_some_iff.mp (there.symm.trans reserved)
    cases e with
    | instruction i => cases same
    | jump kind' origin' =>
      cases fresh : h.given.lookup slot with
      | some t =>
        rw [fresh] at same
        cases same
      | none =>
        rw [Past.waits_iff.mpr ⟨⟨kind', origin', written⟩, fresh⟩] at idle
        cases idle
  case h_2 => rfl

theorem resolveAll_cons (slot target : Nat) (rest : List Nat) (d : Draft) :
    Draft.resolveAll (slot :: rest) target d =
      match Draft.resolve slot target d with
      | .ok () d' => Draft.resolveAll rest target d'
      | .error m d' => .error m d' := by
  simp only [Draft.resolveAll, Bind.bind, EStateM.bind]
  cases Draft.resolve slot target d <;> rfl

/-- Slots are given a target up to the first that cannot be. -/
theorem resolveAll (shown : Shows h d) (target : Nat) (slots : List Nat) :
    Shows (h.giveAll target slots) (finalState (Draft.resolveAll slots target d)) := by
  induction slots generalizing h d with
  | nil => exact shown
  | cons slot rest ih =>
    rw [Past.giveAll, resolveAll_cons]
    by_cases waits : h.waits slot = true
    · obtain ⟨kind, origin, -, resolved, later⟩ := shown.resolve waits target
      rw [if_pos waits, resolved]
      exact ih later
    · rw [if_neg waits, shown.resolve_of_not_waits (Bool.eq_false_iff.mpr waits)]
      exact shown

theorem perform (shown : Shows h d) (r : Request) :
    Shows (h.note r) (finalState (r.perform d)) := by
  cases r with
  | emit i => exact shown.write (.instruction i)
  | reserve kind origin => exact shown.write (.jump kind origin)
  | resolve slot target =>
    have one := shown.resolveAll target [slot]
    rw [resolveAll_cons] at one
    simp only [Past.note, Request.perform]
    cases hr : Draft.resolve slot target d <;> rw [hr] at one <;> exact one
  | resolveAll slots target => exact shown.resolveAll target slots

/-- A target can be given to all of some slots if each of them holds a jump that waits, and none is
listed twice. -/
theorem resolveAll_ok_iff (shown : Shows h d) (slots : List Nat) :
    (∃ d', Draft.resolveAll slots target d = .ok () d') ↔
      slots.Nodup ∧ ∀ s ∈ slots, h.waits s = true := by
  induction slots generalizing h d with
  | nil => exact ⟨fun _ => ⟨List.nodup_nil, by nofun⟩, fun _ => ⟨d, rfl⟩⟩
  | cons slot rest ih =>
    rw [resolveAll_cons]
    by_cases waits : h.waits slot = true
    · obtain ⟨kind, origin, -, resolved, later⟩ := shown.resolve waits target
      rw [resolved, List.nodup_cons, List.forall_mem_cons]
      refine (ih later).trans ?_
      simp only [Past.waits_give, waits, true_and]
      constructor
      · rintro ⟨nodup, others⟩
        exact ⟨⟨fun mem => (others slot mem).1 rfl, nodup⟩, fun s mem => (others s mem).2⟩
      · rintro ⟨⟨fresh, nodup⟩, others⟩
        exact ⟨nodup, fun s mem => ⟨fun same => fresh (same ▸ mem), others s mem⟩⟩
    · rw [shown.resolve_of_not_waits (Bool.eq_false_iff.mpr waits)]
      refine iff_of_false (by rintro ⟨d', ⟨⟩⟩) ?_
      exact fun all => waits (all.2 slot List.mem_cons_self)

/-- If giving a target fails, it is for a slot that holds no jump that waits when its turn comes, and
the slots before it were given the target. -/
theorem resolveAll_error (shown : Shows h d) {slots : List Nat} {m : Mistake} {d' : Draft}
    (failed : Draft.resolveAll slots target d = .error m d') :
    ∃ front slot back, slots = front ++ slot :: back ∧ m = .notReserved slot ∧
      (h.waits slot = false ∨ slot ∈ front) ∧ Draft.resolveAll front target d = .ok () d' := by
  induction slots generalizing h d with
  | nil => cases failed
  | cons slot rest ih =>
    rw [resolveAll_cons] at failed
    by_cases waits : h.waits slot = true
    · obtain ⟨kind, origin, -, resolved, later⟩ := shown.resolve waits target
      rw [resolved] at failed
      obtain ⟨front, s, back, rfl, rfl, idle, done⟩ := ih later failed
      refine ⟨slot :: front, s, back, rfl, rfl, ?_, ?_⟩
      · by_cases same : s = slot
        · exact .inr (by simp [same])
        · refine idle.imp (fun idle => ?_) fun mem => List.mem_cons_of_mem slot mem
          rw [Bool.eq_false_iff, ne_eq, Past.waits_give] at idle
          exact Bool.eq_false_iff.mpr fun waits => idle ⟨same, waits⟩
      · rw [resolveAll_cons, resolved]
        exact done
    · have idle := Bool.eq_false_iff.mpr waits
      rw [shown.resolve_of_not_waits idle] at failed
      cases failed
      exact ⟨[], slot, rest, rfl, rfl, .inl idle, rfl⟩

end Shows

theorem shows_after (rs : List Request) : Shows (.ofRequests rs) (after rs) := by
  have from_ : ∀ (rs : List Request) {h : Past} {d : Draft}, Shows h d →
      Shows (rs.foldl Past.note h) (rs.foldl (fun d r => finalState (r.perform d)) d) := by
    intro rs
    induction rs with
    | nil => exact fun shown => shown
    | cons r rs ih => exact fun shown => ih (shown.perform r)
  exact from_ rs ⟨fun _ => rfl, by nofun, List.nodup_nil⟩

/-! ## Finished code -/

/-- Finishing fails at the first jump that has no target. -/
theorem finishFrom_error {index : Nat} {ss : List Slot} {m : Mistake}
    (failed : finishFrom index ss = .error m) :
    ∃ k kind origin, m = .noTarget (index + k) origin ∧ ss[k]? = some (.reserved kind origin) ∧
      ∀ j < k, ∃ i, ss[j]? = some (.filled i) := by
  induction ss generalizing index with
  | nil => cases failed
  | cons s rest ih =>
    cases s with
    | reserved kind origin =>
      cases failed
      exact ⟨0, kind, origin, rfl, rfl, by nofun⟩
    | filled i =>
      rw [finishFrom] at failed
      cases later : finishFrom (index + 1) rest with
      | ok is =>
        rw [later] at failed
        cases failed
      | error m' =>
        rw [later] at failed
        cases failed
        obtain ⟨k, kind, origin, rfl, there, before⟩ := ih later
        refine ⟨k + 1, kind, origin, by rw [Nat.add_assoc, Nat.add_comm 1], there, fun j hj => ?_⟩
        cases j with
        | zero => exact ⟨i, rfl⟩
        | succ j => exact before j (by omega)

/-- Finished code is what was filled. -/
theorem finishFrom_ok {index : Nat} {ss : List Slot} {is : List Instruction}
    (finished : finishFrom index ss = .ok is) : ss = is.map .filled := by
  induction ss generalizing index is with
  | nil =>
    cases finished
    rfl
  | cons s rest ih =>
    cases s with
    | reserved kind origin => cases finished
    | filled i =>
      rw [finishFrom] at finished
      cases later : finishFrom (index + 1) rest with
      | error m =>
        rw [later] at finished
        cases finished
      | ok is' =>
        rw [later] at finished
        cases finished
        rw [ih later]
        rfl

/-- The code is exactly what its past says, and answers every request as its past says. -/
structure Exact (h : Past) (d : Draft) : Prop where
  /-- The next index is behind everything that was written. -/
  next : d.next = h.written.length
  /-- A jump is given one target only, and nothing else is given one. -/
  once : (h.given.map Prod.fst).Nodup
  jumps : ∀ p ∈ h.given, ∃ kind origin, h.written[p.1]? = some (.jump kind origin)
  /-- The code can be finished if and only if no jump waits for a target. -/
  finish_ok_iff : (∃ code, d.finish = .ok code) ↔ ∀ slot, h.waits slot = false
  /-- Finished code has everything at the index at which it was written, each jump with its target. -/
  size : ∀ code, d.finish = .ok code → code.size = h.written.length
  filled : ∀ code, d.finish = .ok code → ∀ (k : Nat) i, h.written[k]? = some (.instruction i) →
    code[k]? = some i
  patched : ∀ code, d.finish = .ok code → ∀ (k : Nat) kind origin,
    h.written[k]? = some (.jump kind origin) →
    ∃ target, (k, target) ∈ h.given ∧ code[k]? = some (kind.instruction target)
  /-- Otherwise the first jump that waits is named, with what it was written for. -/
  finish_error : ∀ m, d.finish = .error m →
    ∃ slot kind origin, m = .noTarget slot origin ∧
      h.written[slot]? = some (.jump kind origin) ∧ h.waits slot = true ∧
      ∀ k < slot, h.waits k = false
  /-- A jump that waits can be given a target; in any other slot that fails and changes nothing. -/
  resolve_ok : ∀ slot target, h.waits slot = true →
    ∃ kind origin, h.written[slot]? = some (.jump kind origin) ∧
      Draft.resolve slot target d =
        .ok () ⟨d.slots.setIfInBounds slot (.filled (kind.instruction target))⟩
  resolve_error : ∀ slot target, h.waits slot = false →
    Draft.resolve slot target d = .error (.notReserved slot) d
  /-- Several slots can be given a target if all of them wait and none is listed twice; otherwise the
  slots in front of the first that does not wait when its turn comes are given the target. -/
  resolveAll_ok_iff : ∀ slots target, (∃ d', Draft.resolveAll slots target d = .ok () d') ↔
    slots.Nodup ∧ ∀ s ∈ slots, h.waits s = true
  resolveAll_error : ∀ slots target m d', Draft.resolveAll slots target d = .error m d' →
    ∃ front slot back, slots = front ++ slot :: back ∧ m = .notReserved slot ∧
      (h.waits slot = false ∨ slot ∈ front) ∧ Draft.resolveAll front target d = .ok () d'

section Finish

variable {h : Past} {d : Draft}

theorem finish_ok {code : Array Instruction} (finished : d.finish = .ok code) (k : Nat) :
    d.slots[k]? = code[k]?.map .filled := by
  rw [finish] at finished
  cases all : finishFrom 0 d.slots.toList with
  | error m =>
    rw [all] at finished
    cases finished
  | ok is =>
    rw [all] at finished
    cases finished
    rw [← Array.getElem?_toList, finishFrom_ok all, List.getElem?_map]
    simp

theorem finish_error {m : Mistake} (failed : d.finish = .error m) :
    ∃ (k : Nat) (kind : JumpKind) (origin : String), m = .noTarget k origin ∧
      d.slots[k]? = some (.reserved kind origin) ∧
      ∀ j < k, ∃ i, d.slots[j]? = some (.filled i) := by
  rw [finish] at failed
  cases all : finishFrom 0 d.slots.toList with
  | ok is =>
    rw [all] at failed
    cases failed
  | error m' =>
    rw [all] at failed
    cases failed
    obtain ⟨k, kind, origin, rfl, there, before⟩ := finishFrom_error all
    simp only [Array.getElem?_toList] at there before
    exact ⟨k, kind, origin, by rw [Nat.zero_add], there, before⟩

/-- A jump waits where its slot is still reserved. -/
theorem Shows.waits_iff (shown : Shows h d) (slot : Nat) :
    h.waits slot = true ↔ ∃ kind origin, d.slots[slot]? = some (.reserved kind origin) := by
  rw [Past.waits_iff, shown.slots, Past.slot?]
  cases h.written[slot]? with
  | none => simp
  | some e =>
    cases e with
    | instruction i => simp [Entry.slot]
    | jump kind origin => cases h.given.lookup slot <;> simp [Entry.slot]

theorem Shows.finish_ok_iff (shown : Shows h d) :
    (∃ code, d.finish = .ok code) ↔ ∀ slot, h.waits slot = false := by
  constructor
  · rintro ⟨code, finished⟩ slot
    rw [Bool.eq_false_iff, ne_eq, shown.waits_iff]
    rintro ⟨kind, origin, reserved⟩
    rw [finish_ok finished, Option.map_eq_some_iff] at reserved
    obtain ⟨i, -, ⟨⟩⟩ := reserved
  · intro none
    cases hf : d.finish with
    | ok code => exact ⟨code, rfl⟩
    | error m =>
      obtain ⟨k, kind, origin, -, reserved, -⟩ := finish_error hf
      have waits := (shown.waits_iff k).mpr ⟨kind, origin, reserved⟩
      rw [none k] at waits
      cases waits

theorem Shows.patched (shown : Shows h d) {code : Array Instruction} (finished : d.finish = .ok code)
    {k : Nat} {kind : JumpKind} {origin : String}
    (written : h.written[k]? = some (.jump kind origin)) :
    ∃ target, (k, target) ∈ h.given ∧ code[k]? = some (kind.instruction target) := by
  have there := (finish_ok finished k).symm.trans (shown.slots k)
  rw [Past.slot?, written] at there
  cases given : h.given.lookup k with
  | none =>
    obtain ⟨i, -, other⟩ := Option.map_eq_some_iff.mp there
    rw [given] at other
    cases other
  | some target =>
    obtain ⟨before, behind, same, -⟩ := List.lookup_eq_some_iff.mp given
    obtain ⟨i, found, filled⟩ := Option.map_eq_some_iff.mp there
    rw [given] at filled
    cases filled
    exact ⟨target, by simp [same], found⟩

theorem Shows.finish_error (shown : Shows h d) {m : Mistake} (failed : d.finish = .error m) :
    ∃ slot kind origin, m = .noTarget slot origin ∧
      h.written[slot]? = some (.jump kind origin) ∧ h.waits slot = true ∧
      ∀ k < slot, h.waits k = false := by
  obtain ⟨k, kind, origin, rfl, reserved, before⟩ := Draft.finish_error failed
  have waits := (shown.waits_iff k).mpr ⟨kind, origin, reserved⟩
  obtain ⟨⟨kind', origin', written⟩, fresh⟩ := Past.waits_iff.mp waits
  have same := (shown.slots k).symm.trans reserved
  rw [Past.slot?, written, fresh] at same
  cases same
  refine ⟨k, kind, origin, rfl, written, waits, fun j hj => ?_⟩
  obtain ⟨i, filled⟩ := before j hj
  rw [Bool.eq_false_iff, ne_eq, shown.waits_iff, filled]
  rintro ⟨kind', origin', ⟨⟩⟩

theorem Shows.exact (shown : Shows h d) : Exact h d where
  next := shown.next
  once := shown.once
  jumps := shown.jumps
  finish_ok_iff := shown.finish_ok_iff
  size code finished := by
    have none_iff (k : Nat) : code.size ≤ k ↔ d.slots.size ≤ k := by
      rw [← Array.getElem?_eq_none_iff, ← Array.getElem?_eq_none_iff, finish_ok finished,
        Option.map_eq_none_iff]
    have := none_iff code.size
    have := none_iff d.slots.size
    have : d.slots.size = h.written.length := shown.next
    omega
  filled code finished k i written := by
    have there := (finish_ok finished k).symm.trans (shown.slots k)
    rw [Past.slot?, written] at there
    obtain ⟨i', found, same⟩ := Option.map_eq_some_iff.mp there
    cases same
    exact found
  patched _ finished _ _ _ written := shown.patched finished written
  finish_error _ failed := shown.finish_error failed
  resolve_ok slot target waits := by
    obtain ⟨kind, origin, written, resolved, -⟩ := shown.resolve waits target
    exact ⟨kind, origin, written, resolved⟩
  resolve_error _ _ idle := shown.resolve_of_not_waits idle
  resolveAll_ok_iff slots _ := shown.resolveAll_ok_iff slots
  resolveAll_error _ _ _ _ failed := shown.resolveAll_error failed

end Finish

/-- Whatever is asked for while code is written, the code is exactly what its past says. -/
theorem patching_exact (rs : List Request) : Exact (.ofRequests rs) (after rs) :=
  (shows_after rs).exact

end Threefold.Bytecode.Draft
