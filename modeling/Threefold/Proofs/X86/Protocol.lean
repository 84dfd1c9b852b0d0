import Threefold.Proofs.Program.Spelling
import Threefold.Proofs.X86.Calling
import Threefold.Proofs.X86.Checking
import Threefold.Proofs.X86.Recursion

/-!
# The protocol of calls

A call gives its operands to the callee and gets its result and maybe an exception, and the caller
finds everything else as it was (`Honours`). `call_protocol` says it of every call of every native run
of a program. It holds as long as the stack does not grow down to the global words: below them, an
exception is handed over in the middle of a frame (`call_overruns`).
-/

namespace Threefold

namespace X86

open Machine (Awaited Visit)
open Directive (codeOf)
open View (Receives)

/-! ## What is asked of a call -/

/-- The code of an instruction of a routine comes to its end: at the first visit of the same activation
at which the code of the next instruction begins. -/
structure Machine.Visit.Completes (b : Bytecode) (image : Image) (r : Bytecode.Routine) (k n : Nat)
    (x y : Visit) : Prop where
  steps : x.Steps image n y
  awaited : y.awaited = x.awaited
  next : ∃ st, image.Begins b r (k + 1) st y.index
  first : ∀ j < n, ∀ z, x.Steps image j z → z.awaited = x.awaited → z.index ≠ y.index

/-- From where the code of a call begins to where it has come to its end. The operands are those that the
callee sees, the result is what the callee comes back with, and but for that and an exception that it
hands over, everything is as it was. -/
structure Honours (b : Bytecode) (image : Image) (r : Bytecode.Routine) (s : Operands)
    (callee : Bytecode.Callee) (n : Nat) (x y : Visit) (o : Outcome) : Prop where
  enough : callee.arity ≤ s.depth
  count : o.operands.length = callee.arity
  operands : ∀ i raw, o.operands[i]? = some raw →
    x.machine.Reads image ((Context.ofRoutine b r).placeWords (s.depth - callee.arity + i)) raw
  answers : Answers b image x n callee o
  base : y.machine.registers.ebp = x.machine.registers.ebp
  homes : ∀ v ws, v ≠ .thrown → v ≠ .thrownData → (Context.ofRoutine b r).words v = .ok ws →
    ∃ raw, x.machine.Reads image ws raw ∧ y.machine.Reads image ws raw
  below : ∀ d < s.depth - callee.arity, ∃ raw,
    x.machine.Reads image ((Context.ofRoutine b r).placeWords d) raw ∧
      y.machine.Reads image ((Context.ofRoutine b r).placeWords d) raw
  pushed : y.machine.Reads image
    ((Context.ofRoutine b r).placeWords (s.depth - callee.arity)) o.result
  number : b.canThrow callee = true → ∃ ws, (Context.ofRoutine b r).words .thrown = .ok ws ∧
    Machine.read image ws.value y.machine = .ok o.number y.machine
  payload : b.canThrow callee = true → ∀ e, o.thrown = some e →
    y.machine.Reads image (Frame.homeWords .payload) e.payload

/-! ## The code of a call as a whole -/

section Calls

variable {b : Bytecode} {image : Image} {L : Level} {x y : Visit} {s : Stage} {v : View}
  {items : List Item} {callee : Bytecode.Callee} {k n : Nat}

/-- Everything that is made behind the call up to its end is in the words above the operands that are
left, but for the number of an exception. -/
theorem View.Receives.denotes {r : Bytecode.Routine} {home bound : Nat} {handler : Option Nat}
    {id : Int32} {v' : View} {raw : Raw} {name : Bytecode.Variable} {ws : Words}
    (h : Receives home bound handler id v v') (ebp : v.registers.ebp = heightWord home)
    (ebp' : v'.registers.ebp = heightWord home)
    (low : 2 * (Context.ofRoutine b r).frame.parameters.length + 2 ≤ home)
    (high : (Context.ofRoutine b r).bottom home ≤ bound) (inside : bound ≤ v.height)
    (inside' : bound ≤ v'.height) (room : v.height ≤ room) (room' : v'.height ≤ X86.room)
    (caught : ∀ i, handler = some i → (Context.ofRoutine b r).frame.home? .thrown = some (.inner i))
    (thrown : name ≠ .thrown) (payload : name ≠ .thrownData)
    (words : (Context.ofRoutine b r).words name = .ok ws) (denotes : v.Denotes image ws raw) :
    v'.Denotes image ws raw := by
  have bottom : (Context.ofRoutine b r).bottom home =
      home + 2 * (Context.ofRoutine b r).frame.inner.length := rfl
  obtain ⟨place, found, rfl⟩ := words_eq_ok words
  have inner := home?_bound found
  cases place with
  | payload => exact absurd (Option.some.inj (Frame.resident?_home? found)).symm payload
  | parameter i =>
    have inner : i < (Context.ofRoutine b r).frame.parameters.length := inner
    obtain ⟨value, tag⟩ := View.read_parameter image (i := i) ebp (by omega) (by omega) room
    obtain ⟨value', tag'⟩ := View.read_parameter image (i := i) ebp' (by omega) (by omega) room'
    have same {j : Nat} (hj : j ≤ home) : v'.cell j = v.cell j :=
      h.cell j (by omega) fun _ _ => by omega
    exact ⟨(value'.trans (same (by omega))).trans (value.symm.trans denotes.value),
      (tag'.trans (same (by omega))).trans (tag.symm.trans denotes.tag)⟩
  | inner i =>
    have inner : i < (Context.ofRoutine b r).frame.inner.length := inner
    obtain ⟨value, tag⟩ := View.read_inner image (i := i) ebp (by omega) room
    obtain ⟨value', tag'⟩ := View.read_inner image (i := i) ebp' (by omega) room'
    have other (j : Nat) (hj : handler = some j) : i ≠ j := by
      rintro rfl
      exact thrown (Frame.home?_injective found (caught i hj))
    refine ⟨(value'.trans (h.cell _ (by omega) fun j hj => ?_)).trans (value.symm.trans denotes.value),
      (tag'.trans (h.cell _ (by omega) fun j _ => by omega)).trans (tag.symm.trans denotes.tag)⟩
    have := other j hj
    omega

/-- Where a call is, as long as its code is executed from the first instruction on. -/
theorem Disciplined.cameBack (hi : image.Carries b)
    (withdraws : ∀ r ∈ b.routines, Withdraws r) {c : Visit} {s₁ : Stage} {v₁ : View}
    {symbol : Symbol} {handler : Option Nat} (H : Disciplined b image c L s₁ v₁)
    (before : x.Steps image k c) (awaited : c.awaited = x.awaited) (above : c.StaysAbove image n)
    (steps : c.Steps image n y) (later : c.index < y.index) (level : y.awaited = x.awaited)
    (here : image.code[c.index]? = some (.call symbol))
    (target : Lowering.target (L.context b) callee = .ok symbol) (other : callee ≠ .routine b.entry)
    (throws : handler.isSome = b.canThrow callee) (base : v.registers.ebp = heightWord (L.base b))
    (enough : callee.arity ≤ items.length)
    (passes : v.Passes handler.isSome items callee.arity v₁) :
    ∃ m z v' o, m ≤ k + n ∧
      CameBack b image L x v callee items handler m (c.index + 1) z v' o := by
  cases steps with
  | refl => exact absurd later (Nat.lt_irrefl _)
  | @next n _ start _ first rest =>
    cases callee with
    | intrinsic i =>
      cases target
      obtain ⟨v', o, came⟩ := H.served hi before awaited above.now enough passes here throws first
      exact ⟨k + 1, start, v', o, by omega, came⟩
    | routine signature =>
      have aboveStart := above.later (.one first) (Nat.le_add_left 1 n)
      rw [Nat.add_sub_cancel] at aboveStart
      unfold Lowering.target at target
      dsimp only at target
      split at target
      · rename_i known
        cases target
        obtain ⟨r, found⟩ := Option.isSome_iff_exists.mp known
        have mem : r ∈ b.routines := List.mem_of_find?_eq_some found
        have there := List.find?_some found
        obtain rfl : r.signature = signature := of_decide_eq_true there
        obtain ⟨p, m, index, awaited', H', suspended⟩ := H.moves_into hi above.now mem here first
        have marked : b.canThrow (.routine r.signature) = r.canThrow := by
          simp only [Bytecode.canThrow, hi.regular.routine?_eq mem, Option.map_some, Option.getD_some]
        have host : (Context.ofRoutine b r).isEntry = false :=
          decide_eq_false fun same => other (congrArg Bytecode.Callee.routine same)
        rw [awaited] at awaited' suspended
        obtain ⟨j, z, v', o, less, came⟩ := H'.activated hi suspended awaited' index rfl
          (before.trans (.one first)) aboveStart rest level host (withdraws r mem)
          (throws.trans marked) base enough passes
        exact ⟨j, z, v', o, by omega, came⟩
      · cases target

/-- Where the code of the next instruction begins. -/
theorem Level.Lives.index_next (lives : L.Lives b image) {j : Nat} {st : Lowering.Step}
    (h : image.Begins b L.routine j st y.index) : y.index = L.plan.pos j := by
  obtain ⟨ss, start, steps, function, -, pos⟩ := h.place
  rw [← lives.plans.planAt steps function] at pos
  exact pos.symm

theorem Level.Lives.parameters_le (lives : L.Lives b image) (modest : (L.context b).Modest) :
    2 * (L.context b).frame.parameters.length + 2 ≤ L.base b := by
  have given := lives.given
  have base : L.base b = L.top + (L.context b).kept.length := rfl
  cases host : (L.context b).isEntry with
  | true =>
    have kept : (L.context b).kept = [.ebp, .edi, .esi, .ebx] := if_pos host
    rw [base, modest.entry host, kept]
    simp
  | false =>
    have kept : (L.context b).kept = [.ebp] := if_neg (Bool.eq_false_iff.mp host)
    unfold Context.given at given
    rw [if_neg (Bool.eq_false_iff.mp host)] at given
    rw [base, kept, List.length_singleton]
    omega

/-- What holds at the end of a call that has come back. -/
theorem CameBack.honours (hi : image.Carries b) {h m index : Nat} {z : Visit} {v' v'' : View}
    {o : Outcome} {front back : Code} {symbol : Symbol} {handler : Option Nat} {owned : Bool}
    (came : CameBack b image L x v callee items handler m index z v' o)
    (H : Disciplined b image x L (.standing h) v) (hh : 2 * (L.context b).frame.inner.length ≤ h)
    (S : x.machine.Shows v) (stands : v.Stands (L.context b) (L.base b) items)
    (parts : CallCode image b L.routine callee items front symbol back handler) (fewer : m ≤ n)
    (S' : y.machine.Shows v'')
    (stands' : v''.Stands (L.context b) (L.base b) (⟨o.result, owned⟩ :: items.drop callee.arity))
    (globals : v''.globals = v'.globals)
    (receives : Receives (L.base b) ((L.context b).bottom (L.base b) +
      spilledWords (items.length - callee.arity)) handler o.number v v'') :
    Honours b image L.routine ⟨items.map Item.owned⟩ callee n x y o := by
  have depth : Operands.depth ⟨items.map Item.owned⟩ = items.length := depth_shape items
  have length : (items.drop callee.arity).length = items.length - callee.arity := List.length_drop
  have reverse : (⟨o.result, owned⟩ :: items.drop callee.arity).reverse =
      (items.drop callee.arity).reverse ++ [⟨o.result, owned⟩] := List.reverse_cons
  have high : (L.context b).bottom (L.base b) + spilledWords (items.length - callee.arity) ≤
      v.height := by
    rw [stands.height]
    exact Nat.add_le_add_left (View.spilledWords_mono (Nat.sub_le _ _)) _
  have high' : (L.context b).bottom (L.base b) + spilledWords (items.length - callee.arity) ≤
      v''.height := by
    rw [stands'.height, List.length_cons, length]
    exact Nat.add_le_add_left (View.spilledWords_mono (Nat.le_succ _)) _
  have bottom : (L.context b).bottom (L.base b) =
      L.base b + 2 * (L.context b).frame.inner.length := rfl
  have modest : (L.context b).Modest := hi.modest _ H.lives.plans.routine
  have written : Written v.cell v.height := by
    obtain ⟨height, -, -, -, written⟩ := H.shown
    rw [height]
    exact written
  have handler_of (throws : b.canThrow callee = true) : ∃ i, handler = some i :=
    Option.isSome_iff_exists.mp (parts.throws.trans throws)
  exact {
    enough := depth ▸ parts.enough
    count := by rw [came.operands, length_operandsOf parts.enough]
    operands i raw hraw := by
      rw [came.operands] at hraw
      obtain ⟨o, there, rfl⟩ := operandsOf_get hraw
      rw [depth]
      exact S.reads hi.globals (stands.denotes image S.room there)
    answers := came.answers.mono fewer
    base := by rw [S.registers, S'.registers, stands.ebp, stands'.ebp]
    homes name ws thrown payload words := by
      obtain ⟨raw, denotes⟩ := ((H.ready S).framed H.shown).denotes written (hi.literals L.routine)
        (writable_words modest.entry hh words).readable
      exact ⟨raw, S.reads hi.globals denotes, S'.reads hi.globals (receives.denotes stands.ebp
        stands'.ebp (H.lives.parameters_le modest) (Nat.le_add_right _ _) high high' S.room S'.room
        (fun i hi => (parts.caught i hi).2) thrown payload words denotes)⟩
    below d hd := by
      rw [depth] at hd
      have inside : d < items.reverse.length := by
        rw [List.length_reverse]
        omega
      have there : items.reverse[d]? = some items.reverse[d] := List.getElem?_eq_getElem inside
      refine ⟨items.reverse[d].raw, S.reads hi.globals (stands.denotes image S.room there),
        S'.reads hi.globals (stands'.denotes image S'.room ?_)⟩
      rw [reverse, List.getElem?_append_left (by rw [List.length_reverse]; omega), reverse_drop_get hd]
      exact there
    pushed := by
      rw [depth]
      refine S'.reads hi.globals (stands'.denotes (o := ⟨o.result, owned⟩) image S'.room ?_)
      rw [reverse, List.getElem?_append_right (by rw [List.length_reverse]; omega),
        List.length_reverse, length, Nat.sub_self]
      rfl
    number throws := by
      obtain ⟨i, rfl⟩ := handler_of throws
      obtain ⟨inside, place⟩ := parts.caught i rfl
      have inside : i < (L.context b).frame.inner.length := inside
      have words : (Context.ofRoutine b L.routine).words .thrown = .ok (Frame.innerWords i) := by
        simp only [Context.words, Frame.words?, place, Option.map_some]
        rfl
      obtain ⟨value, -⟩ := View.read_inner image (i := i) stands'.ebp (by omega) S'.room
      exact ⟨_, words, S'.read hi.globals (value.trans (receives.handler i rfl))⟩
    payload throws e he := by
      obtain ⟨i, rfl⟩ := handler_of throws
      obtain ⟨word, tag⟩ := came.payload rfl e he
      refine S'.reads hi.globals ⟨?_, ?_⟩
      · exact congrArg some ((congrFun globals .payload).trans word)
      · exact congrArg some ((congrFun globals .payloadTag).trans tag) }

/-- What the code of a call does from its first instruction to its last one. -/
theorem Disciplined.honours (hi : image.Carries b)
    (withdraws : ∀ r ∈ b.routines, Withdraws r) (H : Disciplined b image x L s v)
    (above : x.StaysAbove image n) {r : Bytecode.Routine} (hr : r ∈ b.routines)
    {st : Lowering.Step} (begins : image.Begins b r k st x.index)
    (call : r.code[k]? = some (.call callee)) (other : callee ≠ .routine b.entry)
    (completes : x.Completes b image r k n y) :
    ∃ o, Honours b image r st.operands callee n x y o := by
  have S := H.near.shows_of_above above.now
  obtain ⟨rfl, hk, pos, shape, rfl⟩ := H.begins hi hr begins
  obtain ⟨ds, after, lowered, located, behind, -⟩ := H.lives.plans.follows.code k _ call
  rw [shape] at lowered
  generalize st.operands = operands at lowered H ⊢
  obtain ⟨items, rfl, stands⟩ := H.shown.stands S.top
  obtain ⟨⟨code, after'⟩, called, lowered⟩ := Program.ok_of_bind lowered
  cases lowered
  rw [Directive.codeOf_map, pos] at located behind
  obtain ⟨front, symbol, back, handler, rfl, parts⟩ := callCode_of_lowering hi.library called
  obtain ⟨locatedFront, locatedCall, locatedBack⟩ := Machine.Located.append.mp located
  obtain ⟨st', next⟩ := completes.next
  have final : y.index = x.index + front.length + 1 + back.length := by
    rw [H.lives.index_next next, behind, List.length_append, List.length_append]
    exact (Nat.add_assoc _ _ _).symm.trans (Nat.add_assoc _ _ _).symm
  -- Up to the call.
  obtain ⟨less, c, s₁, v₁, toCall, fromCall, place, level, Hc, passes⟩ :=
    H.through hi above locatedFront (parts.enters stands S.room) completes.steps (.inl (by omega))
  obtain ⟨m, z, v', o, fewer, came⟩ := Hc.cameBack hi withdraws toCall level
    (above.later toCall less) fromCall (by omega) completes.awaited (place ▸ locatedCall) parts.target
    other parts.throws stands.ebp parts.enough passes
  rw [Nat.add_sub_cancel' less] at fewer
  -- From behind the call to the end.
  have aboveBack := above.later came.steps fewer
  obtain ⟨s', Hz⟩ := came.disciplined
  have Sz := Hz.near.shows_of_above aboveBack.now
  have index : z.index = x.index + front.length + 1 := came.index.trans (congrArg (· + 1) place)
  have locatedEnd : Machine.Located image z.index back := index ▸ locatedBack
  obtain ⟨rest, u, s'', v'', toEnd, -, last, level', Hu, stands', globals, receives⟩ :=
    Hz.through hi aboveBack locatedEnd
      (parts.resumes stands S.room came.returned Sz.room came.tag)
      (completes.steps.between came.steps fewer) (.inl (by omega))
  have whole := came.steps.trans toEnd
  obtain rfl : u = y := by
    rcases Nat.lt_or_ge (m + back.length) n with early | late
    · exact absurd (by omega) (completes.first _ early u whole (level'.trans came.awaited))
    · obtain rfl : m + back.length = n := by omega
      exact whole.unique completes.steps
  have S' := Hu.near.shows_of_above (above n (Nat.le_refl n) u completes.steps)
  exact ⟨o, came.honours hi H (Nat.le_add_right _ _) S stands parts fewer S' stands' globals receives⟩

end Calls

/-! ## Native runs -/

theorem Machine.Visited.steps {image : Image} {start : Machine} {m n : Nat} {x y : Visit}
    (h : Machine.Visited image start m x) (steps : x.Steps image n y) (above : x.StaysAbove image n) :
    Machine.Visited image start (m + n) y := by
  induction steps generalizing m with
  | refl => exact h
  | @next n x z y first rest ih =>
    have later := above.later (.one first) (Nat.le_add_left 1 n)
    rw [Nat.add_sub_cancel] at later
    obtain ⟨i, here, done, awaited⟩ := first
    obtain ⟨index, machine, calls⟩ := z
    obtain rfl : calls = _ := awaited
    rw [Nat.add_comm n, ← Nat.add_assoc]
    exact ih (h.next above.now here done) later

/-- A call of the bytecode in a native run: the first visit of the run, the one at which the code of the
call begins, and the one at which it has come to its end. The host calls the entry, no program does. -/
structure NativeCall (b : Bytecode) (image : Image) (heap : Heap) (input : List Int32)
    (r : Bytecode.Routine) (k : Nat) (st : Lowering.Step) (callee : Bytecode.Callee) (m n : Nat)
    (start x y : Visit) : Prop where
  entered : Machine.enter (.start image.words heap input) = .ok () start.machine
  main : image.functions.get? Symbol.main = some start.index
  awaited : start.awaited = [⟨none, Machine.stackTop.toInt32, 0⟩]
  reached : start.Steps image m x
  routine : r ∈ b.routines
  begins : image.Begins b r k st x.index
  call : r.code[k]? = some (.call callee)
  other : callee ≠ .routine b.entry
  completes : x.Completes b image r k n y

theorem Machine.Visit.completes_of_checked? {b : Bytecode} {image : Image} {r : Bytecode.Routine}
    {k n : Nat} {x y : Visit} (h : x.checked? image (x.within y.index) n = some y)
    (awaited : y.awaited = x.awaited) (next : ∃ st, image.Begins b r (k + 1) st y.index) :
    x.Completes b image r k n y := by
  obtain ⟨steps, passed⟩ := Machine.Visit.steps_of_checked? h
  refine ⟨steps, awaited, next, fun j hj z hz same index => ?_⟩
  have apart := passed j hj z hz
  simp only [within, same, index, bne_self_eq_false, Bool.or_false, Bool.and_false] at apart
  exact absurd apart Bool.false_ne_true

section Extension

variable {b : Bytecode} {image : Image} {r : Bytecode.Routine} {k n : Nat} {x x' y : Visit}
  {rest : List Awaited}

/-- A run that stays inside does so from every prefix on. -/
theorem Machine.Visit.StaysInside.mono {m : Nat} (h : x.StaysInside image n) (hm : m ≤ n) :
    x.StaysInside image m :=
  fun k hk => h k (Nat.le_trans hk hm)

/-- Where the code of an instruction comes to its end, it does so with more memory. -/
theorem Machine.Visit.Completes.extends (h : x.Completes b image r k n y) (e : x.Extends x' rest)
    (inside : x.StaysInside image n) (nonempty : x.awaited ≠ []) :
    ∃ y', x'.Completes b image r k n y' ∧ y.Extends y' rest := by
  obtain ⟨y', steps, e'⟩ := h.steps.extends e inside nonempty
  refine ⟨y', ⟨steps, ?_, e'.index ▸ h.next, fun j hj z' hz' same => ?_⟩, e'⟩
  · rw [e'.awaited, e.awaited, h.awaited]
  · obtain ⟨z, hz, -⟩ := h.steps.split (Nat.le_of_lt hj)
    obtain ⟨z'', hz'', e''⟩ := hz.extends e (inside.mono (Nat.le_of_lt hj)) nonempty
    obtain rfl := hz'.unique hz''
    rw [e''.awaited, e.awaited] at same
    rw [e''.index, e'.index]
    exact h.first j hj z hz (List.append_cancel_right same)

end Extension

end X86

namespace Program

open X86

variable {file source : String} {p : Program}

theorem regular_of_load (h : load file source entryName = .ok p) : Regular p.bytecode := by
  have linked := linked_of_load h
  have signatures : p.bytecode.routines.map Bytecode.Routine.signature = p.signatures := by
    unfold bytecode Program.signatures
    rw [List.map_map]
    rfl
  refine ⟨signatures ▸ linked.distinct, fun r hr => ?_, entry_of_load h⟩
  obtain ⟨f, -, rfl⟩ := List.mem_map.mp hr
  rfl

/-- Once it has handed over an exception, a function returns. -/
theorem withdraws_bytecode {r : Bytecode.Routine} (hr : r ∈ p.bytecode.routines) :
    X86.Withdraws r := by
  obtain ⟨f, -, rfl⟩ := List.mem_map.mp hr
  intro k h
  have code : (Bytecode.Compilation.routineOf p.compilation f).code =
    (Bytecode.Compilation.bodyCode p.compilation f.body).toArray := rfl
  rw [code, List.getElem?_toArray] at h ⊢
  exact Bytecode.Compilation.getElem?_bodyCode_transfer h

/-- A call sees its operands, and but for its result and an exception that it hands over, the caller finds
everything as it was: as long as the stack stays above the global words, and as long as the numbers in
the code are words of the machine. -/
theorem call_protocol (h : load file source entryName = .ok p) :
    ∃ b a image heap, p.compile = .ok b ∧ b.lower = .ok a ∧ a.load = .ok (image, heap) ∧
      (image.Addressable b → ∀ input r k st callee m n start x y,
        NativeCall b image heap input r k st callee m n start x y →
        start.StaysAbove image (m + n) → ∃ o, Honours b image r st.operands callee n x y o) := by
  obtain ⟨a, compiled, lowered⟩ := lowered_of_load h
  have regular := regular_of_load h
  obtain ⟨image, heap, loading, loaded⟩ := X86.loaded_of_lower regular lowered
  refine ⟨p.bytecode, a, image, heap, compiled, lowered, loading, ?_⟩
  intro addressable input r k st callee m n start x y native above
  have carries := loaded.carries regular addressable
  have starts : image.Starts p.bytecode :=
    ⟨carries, (X86.Lowering.parts_of_lower lowered).1, loaded.words⟩
  have visited : X86.Machine.Visited image (.start image.words heap input) 0 start := by
    obtain ⟨index, machine, awaited⟩ := start
    obtain rfl : awaited = _ := native.awaited
    exact .host native.entered native.main
  obtain ⟨L, s, v, H⟩ :=
    (visited.steps native.reached (above.mono (Nat.le_add_right m n))).holds starts
  have later := above.later native.reached (Nat.le_add_right m n)
  rw [Nat.add_sub_cancel_left] at later
  exact H.honours carries (fun _ => withdraws_bytecode) later native.routine native.begins native.call
    native.other native.completes

open Machine (Visit)

/-- A program that catches the exception of a call. -/
def caught : String :=
  "fun g(n) begin throw (A n) end
try g(7) catch (A w) write(w) yrt"

set_option maxRecDepth 4000 in
theorem caught_computed : (inMemory? "caught" caught).any (fun t =>
    addressable? t.1 t.2.1 && (t.2.1.first? t.2.2 []).any fun start =>
    (t.2.1.site? t.1 ⟨"main", 0⟩ 1).any fun s =>
    (start.checked? t.2.1 (fun _ => true) 16).any fun x =>
    (x.checked? t.2.1 (x.within s.2.2.2) 76).any fun y =>
      decide (x.index = s.2.2.1) && decide (y.index = s.2.2.2) && decide (y.awaited = x.awaited) &&
        (start.checked? t.2.1 (fun z => z.machine.Above) (16 + 76)).any (fun z => z.machine.Above) &&
        decide (s.1.code[1]? = some (.call (.routine ⟨"g", 1⟩))) && decide (t.1.entry ≠ ⟨"g", 1⟩) &&
        t.1.canThrow (.routine ⟨"g", 1⟩)) = true := by
  decide +kernel

theorem call_protocol_caught :
    ∃ p b a image heap, load "caught" caught entryName = .ok p ∧ p.compile = .ok b ∧
      b.lower = .ok a ∧ a.load = .ok (image, heap) ∧
      ∃ r k st callee m n start x y, NativeCall b image heap [] r k st callee m n start x y ∧
        b.canThrow callee = true ∧ ∃ o, Honours b image r st.operands callee n x y o := by
  obtain ⟨⟨b, image, heap⟩, found, computed⟩ := Option.any_eq_true _ _ |>.mp caught_computed
  obtain ⟨small, computed⟩ := Bool.and_eq_true_iff.mp computed
  obtain ⟨start, first, computed⟩ := Option.any_eq_true _ _ |>.mp computed
  obtain ⟨⟨r, st, i, j⟩, site, computed⟩ := Option.any_eq_true _ _ |>.mp computed
  obtain ⟨x, front, computed⟩ := Option.any_eq_true _ _ |>.mp computed
  obtain ⟨y, toEnd, computed⟩ := Option.any_eq_true _ _ |>.mp computed
  simp only [Bool.and_eq_true, decide_eq_true_eq] at computed
  obtain ⟨⟨⟨⟨⟨⟨rfl, rfl⟩, back⟩, above⟩, call⟩, other⟩, throws⟩ := computed
  obtain ⟨z, path, last⟩ := Option.any_eq_true _ _ |>.mp above
  obtain ⟨p, a, loaded, compiled, lowered, inMemory, -⟩ := inMemory?_eq_some found
  obtain ⟨entered, main, awaited⟩ := entered_of_first? first
  obtain ⟨routine, begins, next⟩ := Image.begins_of_site? site
  have native : NativeCall b image heap [] r 1 st (.routine ⟨"g", 1⟩) 16 76 start x y :=
    ⟨entered, main, awaited, (Visit.steps_of_checked? front).1, routine, begins, call,
      fun same => other (Bytecode.Callee.routine.inj same).symm,
      Visit.completes_of_checked? toEnd back next⟩
  obtain ⟨b', a', image', heap', compiled', lowered', inMemory', protocol⟩ := call_protocol loaded
  cases compiled.symm.trans compiled'
  cases lowered.symm.trans lowered'
  cases inMemory.symm.trans inMemory'
  exact ⟨p, b, a, image, heap, loaded, compiled, lowered, inMemory, r, 1, st, _, 16, 76, start, x, y,
    native, throws, protocol (addressable_of_addressable? small) [] r 1 st _ 16 76 start x y native
      (Visit.staysAbove_of_checked? path (of_decide_eq_true last))⟩

/-! ## A stack that reaches the payload -/

/-- A function that calls itself until the words of the payload are those of its variable. -/
def descent : String :=
  "fun g(n) begin throw (A n) end
fun f(n) begin if n then f(n - 1) else v := 1; try g(7) catch (A w) write(v) yrt fi end
x := 1 + f(230338)"

/-- The height at which the last activation of the function begins. -/
def deepest : Nat :=
  21 + (10 + 7) * (230337 + 1)

/-- What is computed where the run of the program comes to the function for the first time. -/
def Descends (image : Image) (down : Visit) : Prop :=
  image.functions.get? Symbol.retain = none ∧
    image.functions.get? "f_1" = some down.index ∧
    Machine.Located image down.index (Recursion.code 10 "f_1" ⟨"f_1", 18⟩) ∧
    down.machine.registers.esp = heightWord 21 ∧
    down.machine.memory[(heightWord (21 - 1)).toUInt32]? = some (.ofNat (230337 + 1)) ∧
    down.machine.memory[(heightWord (21 - 2)).toUInt32]? = some 0 ∧
    ∀ a ∈ [Global.payload, .payloadTag, .uncaught], (down.machine.memory[a.address]?).isSome = true

/-- What is computed of the call in the last activation, from its beginning to its end. -/
def Overruns (b : Bytecode) (r : Bytecode.Routine) (x y : Visit) : Prop :=
  r.code[21]? = some (.call (.routine ⟨"g", 1⟩)) ∧ b.entry ≠ ⟨"g", 1⟩ ∧
    ((Context.ofRoutine b r).words (.named "v")).toOption = some (Frame.homeWords (.inner 3)) ∧
    (x.machine.registers.ebp = heightWord (deepest + 1) ∧
      x.machine.memory[(heightWord (deepest + 9)).toUInt32]? = some 1) ∧
    y.machine.registers.ebp = heightWord (deepest + 1) ∧
      y.machine.memory[(heightWord (deepest + 9)).toUInt32]? = some 7

instance (image : Image) (down : Visit) : Decidable (Descends image down) :=
  inferInstanceAs (Decidable (_ ∧ _ ∧ _ ∧ _ ∧ _ ∧ _ ∧ _))

instance (b : Bytecode) (r : Bytecode.Routine) (x y : Visit) : Decidable (Overruns b r x y) :=
  inferInstanceAs (Decidable (_ ∧ _ ∧ _ ∧ _ ∧ _ ∧ _))

set_option maxRecDepth 4000 in
theorem descent_computed : (inMemory? "descent" descent).any (fun t =>
    addressable? t.1 t.2.1 && (t.2.1.first? t.2.2 []).any fun start =>
    (t.2.1.site? t.1 ⟨"f", 1⟩ 21).any fun s =>
    (start.checked? t.2.1 (fun _ => true) 26).any fun down => Descends t.2.1 down &&
    ((Recursion.bottom 10 down.index deepest down.machine.registers.ebx
      down.machine.world).checked? t.2.1 (fun z => 1 ≤ z.awaited.length) 44).any fun x =>
    (x.checked? t.2.1 (x.within s.2.2.2) 76).any fun y =>
      decide (x.index = s.2.2.1) && decide (y.index = s.2.2.2) && decide (x.awaited.length = 1) &&
        decide (y.awaited = x.awaited) && Overruns t.1 s.1 x y) = true := by
  decide +kernel

/-- A call that changes a variable of its caller does not honour the protocol. -/
theorem Overruns.not_honours {b : Bytecode} {image : Image} {r : Bytecode.Routine} {s : Operands}
    {callee : Bytecode.Callee} {n : Nat} {x y x' y' : Visit} (h : Overruns b r x y)
    (before : x.machine.Extends x'.machine) (after : y.machine.Extends y'.machine) (o : X86.Outcome) :
    ¬Honours b image r s callee n x' y' o := by
  intro honours
  obtain ⟨-, -, words, ⟨base, one⟩, base', seven⟩ := h
  obtain ⟨raw, reads, reads'⟩ := honours.homes (.named "v") _ (by simp) (by simp) (eq_ok_of_toOption words)
  have place : 4 * ((deepest + 9 : Nat) : Int) = 4 * ((deepest + 1 : Nat) : Int) - (-32) := by omega
  have value := (Machine.read_frame (before.registers ▸ base) place).mp reads.value
  have value' := (Machine.read_frame (after.registers ▸ base') place).mp reads'.value
  have same := (before.memory _ _ one).symm.trans value
  have same' := (after.memory _ _ seven).symm.trans value'
  have equal : (1 : Int32) = 7 := Option.some.inj (same.trans same'.symm)
  exact absurd equal (by decide)

/-- What is computed, taken apart. -/
theorem exists_descent : ∃ b image heap start r st i j down x y,
    inMemory? "descent" descent = some (b, image, heap) ∧ addressable? b image = true ∧
      image.first? heap [] = some start ∧ image.site? b ⟨"f", 1⟩ 21 = some (r, st, i, j) ∧
      start.checked? image (fun _ => true) 26 = some down ∧ Descends image down ∧
      (Recursion.bottom 10 down.index deepest down.machine.registers.ebx
        down.machine.world).checked? image (fun z => 1 ≤ z.awaited.length) 44 = some x ∧
      x.checked? image (x.within j) 76 = some y ∧ x.index = i ∧ y.index = j ∧
      x.awaited.length = 1 ∧ y.awaited = x.awaited ∧ Overruns b r x y := by
  obtain ⟨⟨b, image, heap⟩, found, computed⟩ := Option.any_eq_true _ _ |>.mp descent_computed
  obtain ⟨small, computed⟩ := Bool.and_eq_true_iff.mp computed
  obtain ⟨start, first, computed⟩ := Option.any_eq_true _ _ |>.mp computed
  obtain ⟨⟨r, st, i, j⟩, site, computed⟩ := Option.any_eq_true _ _ |>.mp computed
  obtain ⟨down, front, computed⟩ := Option.any_eq_true _ _ |>.mp computed
  obtain ⟨descends, computed⟩ := Bool.and_eq_true_iff.mp computed
  obtain ⟨x, toCall, computed⟩ := Option.any_eq_true _ _ |>.mp computed
  obtain ⟨y, toEnd, computed⟩ := Option.any_eq_true _ _ |>.mp computed
  simp only [Bool.and_eq_true, decide_eq_true_eq] at computed
  obtain ⟨⟨⟨⟨begins, ends⟩, inner⟩, back⟩, overruns⟩ := computed
  exact ⟨b, image, heap, start, r, st, i, j, down, x, y, found, small, first, site, front,
    of_decide_eq_true descends, toCall, toEnd, begins, ends, inner, back, overruns⟩

/-- Without room on the stack, a call changes a variable of its caller. -/
theorem call_overruns :
    ∃ p b a image heap, load "descent" descent entryName = .ok p ∧ p.compile = .ok b ∧
      b.lower = .ok a ∧ a.load = .ok (image, heap) ∧ image.Addressable b ∧
      ∃ r k st callee m n start x y, NativeCall b image heap [] r k st callee m n start x y ∧
        ∀ o, ¬Honours b image r st.operands callee n x y o := by
  obtain ⟨b, image, heap, start, r, st, _, _, down, x, y, found, small, first, site, front, descends,
    toCall, toEnd, rfl, rfl, inner, back, overruns⟩ := exists_descent
  obtain ⟨p, a, loaded, compiled, lowered, inMemory, hasGlobals⟩ := inMemory?_eq_some found
  obtain ⟨library, function, located, top, number, tag, globals⟩ := descends
  obtain ⟨entered, main, awaited⟩ := entered_of_first? first
  obtain ⟨routine, begins, next⟩ := Image.begins_of_site? site
  -- Down the stack, whatever is in memory.
  obtain ⟨z, calls, dive, bottom⟩ := Recursion.dives ⟨hasGlobals, library, function, located⟩ rfl top
    (by decide) number tag (fun g => globals g (by cases g <;> simp)) (by decide)
  -- From there on as on the machine of which only a few words are known.
  have inside : (Recursion.bottom 10 down.index deepest down.machine.registers.ebx
      down.machine.world).StaysInside image 44 :=
    Visit.staysInside_of_checked? (fun _ h => of_decide_eq_true h) toCall (Nat.le_of_eq inner.symm)
  obtain ⟨x', arrives, more⟩ :=
    (Visit.steps_of_checked? toCall).1.extends bottom inside (List.cons_ne_nil _ _)
  have nonempty : x.awaited ≠ [] := by
    intro none
    rw [none] at inner
    cases inner
  obtain ⟨y', completes, more'⟩ := (Visit.completes_of_checked? toEnd back next).extends more
    (Visit.staysInside_of_checked? (fun _ => Visit.inside_of_within) toEnd
      (Nat.le_of_eq (congrArg List.length back.symm))) nonempty
  have reached := ((Visit.steps_of_checked? front).1.trans dive).trans arrives
  have native : NativeCall b image heap [] r 21 st (.routine ⟨"g", 1⟩) _ 76 start x' y' :=
    ⟨entered, main, awaited, reached, routine, more.index ▸ begins, overruns.1,
      fun same => overruns.2.1 (Bytecode.Callee.routine.inj same).symm, completes⟩
  exact ⟨p, b, a, image, heap, loaded, compiled, lowered, inMemory, addressable_of_addressable? small,
    r, 21, st, _, _, _, start, x', y', native,
    fun o => overruns.not_honours more.machine more'.machine o⟩

end Program

end Threefold
