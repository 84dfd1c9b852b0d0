import Threefold.Proofs.Heap.Catalogue
import Threefold.Proofs.X86.Handover
import Threefold.Proofs.X86.Passing

/-!
# Calls

What a call does from the first instruction of its code up to where the code behind the return begins:
the callee is given the operands, and control comes back (`CameBack`), with the result in two registers
and with the number of an exception in the word that was left for it.

* `callCode_of_lowering` takes the code of a call apart.
* `Disciplined.served` is about built-in functions, which answer at once.
* `Disciplined.activated` is about routines, which come back once their activation has ended.
-/

namespace Threefold

namespace Intrinsic

open X86 (Raw Thrown)

/-! ## Answers of built-in functions -/

/-- The words with which a built-in function comes back. -/
def Reply.raw : Reply → Raw
  | .returned v => .ofValue v
  | .outOfBounds _ => .scalar 0

/-- The exception that the caller of a built-in function finds. -/
def Reply.thrown? : Reply → Option Thrown
  | .returned _ => none
  | .outOfBounds n => some ⟨Exceptions.outOfBounds, .scalar n⟩

/-- The tag that is known of the results of a built-in function beforehand is the one with which it
comes back. -/
theorem code_of_call {i : Intrinsic} {t : Tag} {arguments : List Value} {w w' : World} {reply : Reply}
    (known : i.resultTag? = some t) (called : i.call arguments w = .ok reply w') :
    reply.raw.code = t.code := by
  have comes := call_comes i arguments w
  rw [called] at comes
  cases reply with
  | returned v => exact congrArg Tag.code (comes.tag_eq known)
  | outOfBounds n =>
    obtain ⟨-, throws, -⟩ := comes.misses_of_outOfBounds
    cases i <;> cases throws <;> cases known <;> rfl

end Intrinsic

namespace X86

open Machine (Awaited Visit)
open Directive (codeOf)
open View (Runs Stands Passes Returned Receives savedWords)
open Leads (thrownWords)

/-! ## Operands -/

/-- The words of the operand at a depth. -/
def Context.placeWords (c : Context) (d : Nat) : Words :=
  c.slotWords ⟨.atDepth d, false⟩

/-- Whatever words there are, they are those of operands. -/
theorem exists_holds {word : Register → Int32} {cell : Nat → Option Int32} {bottom : Nat}
    (flags : List Bool) (written : ∀ k, bottom < k → k ≤ bottom + spilledWords flags.length →
      (cell k).isSome) :
    ∃ items : List Item, items.map Item.owned = flags ∧ Holds word cell bottom items := by
  induction flags with
  | nil => exact ⟨[], rfl, trivial⟩
  | cons owned flags ih =>
    rw [List.length_cons] at written
    have less : spilledWords flags.length ≤ spilledWords (flags.length + 1) :=
      View.spilledWords_mono (Nat.le_succ _)
    obtain ⟨items, same, holds⟩ := ih fun k low high => written k low (by omega)
    have length : items.length = flags.length := by rw [← same, List.length_map]
    obtain ⟨r, place⟩ : ∃ r, InPlace word cell bottom (.atDepth items.length) r := by
      rw [length]
      match h : flags.length with
      | 0 => exact ⟨⟨word .ecx, word .edx⟩, rfl, rfl⟩
      | 1 => exact ⟨⟨word .esi, word .edi⟩, rfl, rfl⟩
      | n + 2 =>
        have high : spilledWords (flags.length + 1) = 2 * n + 2 := by
          unfold spilledWords
          omega
        obtain ⟨w, value⟩ := Option.isSome_iff_exists.mp
          (written (bottom + 2 * n + 2) (by omega) (by omega))
        obtain ⟨code, tag⟩ := Option.isSome_iff_exists.mp
          (written (bottom + 2 * n + 1) (by omega) (by omega))
        exact ⟨⟨w, code⟩, value, tag⟩
    exact ⟨⟨r, owned⟩ :: items, congrArg (owned :: ·) same, place, holds⟩

/-- Between two instructions of the bytecode, the frame stands with operands in their places. -/
theorem Stage.Shown.stands {c : Context} {kept : Register → Int32} {top : Nat} {v : View}
    {s : Operands} (h : (Stage.standing (c.extent s)).Shown c kept top v) (topped : v.Topped) :
    ∃ items : List Item, s = ⟨items.map Item.owned⟩ ∧ v.Stands c (top + c.kept.length) items := by
  obtain ⟨height, -, base, -, written⟩ := h
  obtain ⟨flags⟩ := s
  have extent : c.extent ⟨flags⟩ = 2 * c.frame.inner.length + spilledWords flags.length := rfl
  have bottom : c.bottom (top + c.kept.length) = top + c.kept.length + 2 * c.frame.inner.length := rfl
  obtain ⟨items, rfl, holds⟩ := @exists_holds v.registers.get v.cell
    (c.bottom (top + c.kept.length)) flags
    fun k low high => written k (by omega) (by omega)
  refine ⟨items, rfl, base, ?_, topped, holds⟩
  rw [List.length_map] at extent
  omega

/-- The operands of a frame, the lowest first, are where they belong. -/
theorem Holds.get {word : Register → Int32} {cell : Nat → Option Int32} {bottom d : Nat}
    {items : List Item} {o : Item} (h : Holds word cell bottom items)
    (there : items.reverse[d]? = some o) : InPlace word cell bottom (.atDepth d) o.raw := by
  induction items with
  | nil => cases there
  | cons o' below ih =>
    rw [List.reverse_cons] at there
    by_cases inside : d < below.length
    · rw [List.getElem?_append_left (by rwa [List.length_reverse])] at there
      exact ih h.2 there
    · rw [List.getElem?_append_right (by rw [List.length_reverse]; omega), List.length_reverse] at there
      obtain rfl : d = below.length := by
        have := (List.getElem?_eq_some_iff.mp there).1
        rw [List.length_singleton] at this
        omega
      rw [Nat.sub_self] at there
      cases there
      exact h.1

theorem View.Stands.denotes {c : Context} {home d : Nat} {items : List Item} {v : View} {o : Item}
    (S : v.Stands c home items) (image : Image) (inside : v.height ≤ room)
    (there : items.reverse[d]? = some o) : v.Denotes image (c.placeWords d) o.raw := by
  have high := (List.getElem?_eq_some_iff.mp there).1
  rw [List.length_reverse] at high
  exact S.denotes_place image (Nat.le_trans inside room_le_ceiling) false high (S.operands.get there)

theorem length_operandsOf {items : List Item} {n : Nat} (h : n ≤ items.length) :
    (operandsOf items n).length = n := by
  simp [operandsOf, h]

theorem operandsOf_get {items : List Item} {n i : Nat} {r : Raw}
    (h : (operandsOf items n)[i]? = some r) :
    ∃ o, items.reverse[items.length - n + i]? = some o ∧ o.raw = r := by
  have same : operandsOf items n = (items.reverse.drop (items.length - n)).map Item.raw := by
    unfold operandsOf
    rw [← List.map_reverse, List.reverse_take]
  rw [same, List.getElem?_map, List.getElem?_drop] at h
  obtain ⟨o, there, raw⟩ := Option.map_eq_some_iff.mp h
  exact ⟨o, there, raw⟩

theorem reverse_drop_get {items : List Item} {n d : Nat} (h : d < items.length - n) :
    (items.drop n).reverse[d]? = items.reverse[d]? := by
  rw [List.reverse_drop, List.getElem?_take, if_pos h]

/-! ## The code of a call -/

section Code

variable {b : Bytecode} {r : Bytecode.Routine} {callee : Bytecode.Callee} {items : List Item}

/-- The parts of the code of a call, and what they do to a view. -/
structure CallCode (image : Image) (b : Bytecode) (r : Bytecode.Routine) (callee : Bytecode.Callee)
    (items : List Item) (front : Code) (symbol : Symbol) (back : Code) (handler : Option Nat) :
    Prop where
  enough : callee.arity ≤ items.length
  target : Lowering.target (.ofRoutine b r) callee = .ok symbol
  throws : handler.isSome = b.canThrow callee
  caught : ∀ i, handler = some i → i < (Context.ofRoutine b r).frame.inner.length ∧
    (Context.ofRoutine b r).frame.home? .thrown = some (.inner i)
  enters : ∀ {v : View} {home : Nat}, v.Stands (.ofRoutine b r) home items → v.height ≤ room →
    v.Runs image front (v.Passes handler.isSome items callee.arity) fun _ _ => True
  resumes : ∀ {v v' : View} {home : Nat} {id : Int32} {result : Raw},
    v.Stands (.ofRoutine b r) home items → v.height ≤ room →
    v.Returned handler.isSome items.length callee.arity id result v' → v'.height ≤ room →
    (∀ t, Lowering.knownTag? callee = some t → result.code = t.code) →
    v'.Runs image back (fun v'' =>
      v''.Stands (.ofRoutine b r) home
        (⟨result, Lowering.isOwned callee⟩ :: items.drop callee.arity) ∧
      v''.globals = v'.globals ∧
      Receives home ((Context.ofRoutine b r).bottom home + spilledWords (items.length - callee.arity))
        handler id v v'') fun _ _ => True

theorem exists_handler {word : Option Operand}
    (h : Lowering.thrownWord (.ofRoutine b r) callee = .ok word) :
    ∃ handler : Option Nat, word = handler.map (fun i => (Frame.innerWords i).value) ∧
      handler.isSome = b.canThrow callee ∧
      ∀ i, handler = some i → i < (Context.ofRoutine b r).frame.inner.length ∧
        (Context.ofRoutine b r).frame.home? .thrown = some (.inner i) := by
  unfold Lowering.thrownWord at h
  split at h
  · rename_i throws
    obtain ⟨ws, found, h⟩ := Program.ok_of_bind h
    cases h
    obtain ⟨i, inside, place, rfl⟩ := words_inner found nofun nofun
    refine ⟨some i, rfl, throws.symm, fun j hj => ?_⟩
    cases hj
    exact ⟨inside, place⟩
  · rename_i never
    cases h
    exact ⟨none, rfl, (Bool.eq_false_iff.mpr never).symm, nofun⟩

/-- The code of a call has these parts. -/
theorem callCode_of_lowering {image : Image} (library : image.LeavesLibrary) {code : Code}
    {after : Operands}
    (h : Lowering.call (.ofRoutine b r) ⟨items.map Item.owned⟩ callee = .ok (code, after)) :
    ∃ front symbol back handler, code = front ++ ([.call symbol] ++ back) ∧
      CallCode image b r callee items front symbol back handler := by
  obtain ⟨symbol, target, h⟩ := Program.ok_of_bind h
  obtain ⟨⟨arguments, below⟩, popped, h⟩ := Program.ok_of_bind h
  obtain ⟨word, thrown, h⟩ := Program.ok_of_bind h
  cases h
  obtain ⟨enough, rfl, rfl⟩ := popMany_eq_ok popped
  obtain ⟨handler, rfl, throws, place⟩ := exists_handler thrown
  have same : (Context.ofRoutine b r).bytecode.canThrow callee = handler.isSome := throws.symm
  rw [depth_shape, depth_shape, same]
  refine ⟨_, symbol, _, handler, ?_, enough, target, throws, place,
    fun S inside => Runs.enter S inside enough handler.isSome,
    fun S inside back inside' known => Runs.resume S inside enough back inside'
      (View.counts_retain (library _ _ rfl)) (View.counts_release (library _ _ rfl)) _ known
      (fun i hi => (place i hi).1) (Lowering.isRetained callee) _⟩
  unfold Code.enter
  simp only [List.append_assoc]

end Code

/-! ## What a callee does -/

/-- What a call comes to: the operands that the callee sees, the words with which it comes back, and the
exception that it hands over. -/
structure Outcome where
  operands : List Raw
  result : Raw
  thrown : Option Thrown

/-- The number that the caller of a function finds in the word for the number of an exception. -/
def Outcome.number (o : Outcome) : Int32 :=
  o.thrown.elim 0 Thrown.number

/-- A built-in function serves a call within a number of instructions. It finds its arguments on top of
the stack. -/
inductive Serves (image : Image) (x : Visit) (n : Nat) (i : Intrinsic) : Outcome → Prop
  | intro {k : Nat} {c : Visit} {values : List Value} {reply : Intrinsic.Reply} {w : World}
    (less : k < n) (steps : x.Steps image k c) (awaited : c.awaited = x.awaited)
    (here : image.code[c.index]? = some (.call i.nativeSymbol))
    (given : (List.range i.arity).mapM (Machine.argument c.machine.registers.esp.toUInt32) c.machine =
      .ok values c.machine)
    (called : i.call values c.machine.world = .ok reply w) :
    Serves image x n i ⟨values.map Raw.ofValue, reply.raw, reply.thrown?⟩

/-- What an activation of a routine hands over until it returns. -/
def Machine.Visit.Throws (b : Bytecode) (image : Image) (r : Bytecode.Routine) (start : Visit) (n : Nat) :
    Option Thrown → Prop
  | none => ∀ k ≤ n, ∀ t, start.Steps image k t → t.awaited = start.awaited →
    ¬ image.BeginsAt b r .transfer t.index
  | some e => ∃ k ≤ n, ∃ t, start.Steps image k t ∧ t.awaited = start.awaited ∧
    t.HandsOver b image r e

/-- A routine that is called comes back within a number of instructions. Once it has set its base
pointer, it finds the operands in the words of its parameters. -/
inductive Activates (b : Bytecode) (image : Image) (x : Visit) (n : Nat) (r : Bytecode.Routine)
    (o : Outcome) : Prop
  | intro {k j : Nat} {start seen leaving back : Visit} {a : Awaited}
    (total : k + (j + 1) ≤ n) (call : x.Steps image k start)
    (function : image.functions.get? (Context.ofRoutine b r).symbol = some start.index)
    (inner : start.awaited = a :: x.awaited) (framed : start.Steps image 2 seen)
    (given : ∀ i raw, o.operands[i]? = some raw →
      seen.machine.Reads image (Frame.parameterWords i) raw)
    (run : start.Steps image j leaving)
    (inside : ∀ k ≤ j, ∀ t, start.Steps image k t → x.awaited.length < t.awaited.length)
    (ret : image.code[leaving.index]? = some .ret) (next : leaving.Next image back)
    (awaited : back.awaited = x.awaited)
    (result : o.result = ⟨back.machine.registers.eax, back.machine.registers.ebx⟩)
    (thrown : r.canThrow = true → start.Throws b image r j o.thrown)

/-- A call that is made within a number of instructions comes to an outcome. -/
def Answers (b : Bytecode) (image : Image) (x : Visit) (n : Nat) : Bytecode.Callee → Outcome → Prop
  | .intrinsic i, o => Serves image x n i o
  | .routine s, o => ∃ r ∈ b.routines, r.signature = s ∧ Activates b image x n r o

theorem Serves.mono {image : Image} {x : Visit} {m n : Nat} {i : Intrinsic} {o : Outcome}
    (h : Serves image x m i o) (less : m ≤ n) : Serves image x n i o := by
  obtain ⟨before, steps, awaited, here, given, called⟩ := h
  exact ⟨Nat.lt_of_lt_of_le before less, steps, awaited, here, given, called⟩

theorem Activates.mono {b : Bytecode} {image : Image} {x : Visit} {m n : Nat} {r : Bytecode.Routine}
    {o : Outcome} (h : Activates b image x m r o) (less : m ≤ n) : Activates b image x n r o := by
  obtain ⟨total, call, function, inner, framed, given, run, inside, ret, next, awaited, result,
    thrown⟩ := h
  exact ⟨Nat.le_trans total less, call, function, inner, framed, given, run, inside, ret, next, awaited,
    result, thrown⟩

theorem Answers.mono {b : Bytecode} {image : Image} {x : Visit} {m n : Nat} {callee : Bytecode.Callee}
    {o : Outcome} (h : Answers b image x m callee o) (less : m ≤ n) : Answers b image x n callee o := by
  cases callee with
  | intrinsic i => exact Serves.mono h less
  | routine s =>
    obtain ⟨r, mem, signature, activates⟩ := h
    exact ⟨r, mem, signature, activates.mono less⟩

/-! ## Built-in functions -/

theorem Tag.code_of_ofCode? {n : Int32} {t : Tag} (h : Tag.ofCode? n = some t) : n = t.code := by
  unfold Tag.ofCode? at h
  split at h
  · rename_i zero
    cases h
    exact zero
  · split at h
    · rename_i one
      cases h
      exact one
    · split at h
      · rename_i two
        cases h
        exact two
      · cases h

namespace Library

theorem values_ok {rs : List Raw} {k : Nat} {w w' : World} {vs : List Value}
    (h : values k rs w = .ok vs w') : w' = w ∧ rs = vs.map Raw.ofValue := by
  induction rs generalizing k vs w' with
  | nil =>
    cases h
    exact ⟨rfl, rfl⟩
  | cons r rs ih =>
    simp only [values, value, Bind.bind, EStateM.bind] at h
    cases tag : Tag.ofCode? r.code with
    | none => simp [tag] at h
    | some t =>
      simp only [tag] at h
      cases rest : values (k + 1) rs w with
      | error t w => simp [rest] at h
      | ok vs' w₁ =>
        simp only [rest, Pure.pure, EStateM.pure] at h
        cases h
        obtain ⟨rfl, rfl⟩ := ih rest
        refine ⟨rfl, congrArg (· :: _) ?_⟩
        obtain ⟨word, code⟩ := r
        exact congrArg (Raw.mk word) (Tag.code_of_ofCode? tag)

theorem call_ok {i : Intrinsic} {rs : List Raw} {w w' : World} {reply : Intrinsic.Reply}
    (h : call i rs w = .ok reply w') :
    ∃ vs, values 0 rs w = .ok vs w ∧ rs = vs.map Raw.ofValue ∧ i.call vs w = .ok reply w' := by
  simp only [call, Bind.bind, EStateM.bind] at h
  split at h
  · rename_i vs w₁ found
    obtain ⟨rfl, rfl⟩ := values_ok found
    unfold lift at h
    split at h
    · rename_i called
      cases h
      exact ⟨vs, found, rfl, called⟩
    · cases h
  · cases h

end Library

theorem intrinsic?_nativeSymbol (i : Intrinsic) : Machine.intrinsic? i.nativeSymbol = some i := by
  cases i <;> decide

theorem nativeSymbol_ne (i : Intrinsic) :
    i.nativeSymbol ≠ Symbol.retain ∧ i.nativeSymbol ≠ Symbol.release := by
  cases i <;> decide

namespace View

variable {image : Image} {v v' : View} {rs : List Raw} {i : Intrinsic}

/-- Behind the answer of a built-in function, whose caller has left a word for the number of an exception
above the arguments. -/
structure Answered (i : Intrinsic) (reply : Intrinsic.Reply) (v v' : View) : Prop where
  height : v'.height = v.height
  topped : v'.Topped
  base : v'.registers.ebp = v.registers.ebp
  cell : ∀ k, reply.thrown? = none ∨ k ≠ v.height - 2 * i.arity → v'.cell k = v.cell k
  value : v'.registers.eax = reply.raw.word
  tag : v'.registers.ebx = reply.raw.code
  thrown : ∀ e, reply.thrown? = some e → v'.cell (v.height - 2 * i.arity) = some e.number ∧
    v'.globals .payload = e.payload.word ∧ v'.globals .payloadTag = e.payload.code

theorem answered {reply : Intrinsic.Reply} (topped : v.Topped) (h : v.answer i reply = some v') :
    v.Answered i reply v'.spoil := by
  cases reply with
  | returned x =>
    cases h
    refine ⟨rfl, topped, rfl, fun _ _ => rfl, rfl, rfl, ?_⟩
    rintro e ⟨⟩
  | outOfBounds n =>
    simp only [answer] at h
    split at h
    · cases h
      refine ⟨rfl, topped, rfl, fun k hk => if_neg (hk.resolve_left (Option.some_ne_none _)), rfl, rfl, ?_⟩
      rintro e ⟨⟩
      exact ⟨if_pos rfl, rfl, rfl⟩
    · cases h

theorem mapM_argument? {k : Nat} (h : ∀ (j : Nat) (r : Raw), rs[j]? = some r → v.argument? (k + j) = some r) :
    (List.range' k rs.length).mapM v.argument? = some rs := by
  induction rs generalizing k with
  | nil => rfl
  | cons r rs ih =>
    have first : v.argument? k = some r := h 0 r rfl
    have rest := ih (k := k + 1) fun j r hr => by
      rw [Nat.add_assoc, Nat.add_comm 1]
      exact h (j + 1) r hr
    rw [List.length_cons, List.range'_succ, List.mapM_cons, first, rest]
    rfl

/-- A built-in function sees the values that are on top of the stack. -/
theorem arguments_of_offers (offers : Offers v.cell v.height rs) (enough : 2 * rs.length ≤ v.height) :
    (List.range rs.length).mapM v.argument? = some rs := by
  rw [List.range_eq_range']
  refine mapM_argument? fun j r hr => ?_
  obtain ⟨word, code⟩ := offers.get hr
  have inside := (List.getElem?_eq_some_iff.mp hr).1
  have below : v.height - 2 * j - 1 = v.height - 1 - 2 * j := by omega
  unfold argument?
  rw [Nat.zero_add, if_pos (by omega), below, word, code]

theorem serves_of_exec {m : Machine} (S : m.Shows v) (library : image.functions.get? i.nativeSymbol = none)
    (offers : Offers v.cell v.height rs) (length : rs.length = i.arity)
    (enough : 2 * i.arity ≤ v.height) (topped : v.Topped)
    (h : v.exec image (.call i.nativeSymbol) = some (.ok v')) :
    ∃ values reply w,
      (List.range i.arity).mapM (Machine.argument m.registers.esp.toUInt32) m = .ok values m ∧
        rs = values.map Raw.ofValue ∧ i.call values m.world = .ok reply w ∧ v.Answered i reply v' := by
  obtain ⟨retain, release⟩ := nativeSymbol_ne i
  have found := arguments_of_offers offers (length ▸ enough)
  rw [length] at found
  simp only [exec, library, serve, if_neg retain, if_neg release, intrinsic?_nativeSymbol, found,
    perform] at h
  cases called : Library.call i rs v.world with
  | error t w =>
    simp only [called] at h
    cases h
  | ok reply w =>
    simp only [called] at h
    obtain ⟨v'', answer, same⟩ := Option.map_eq_some_iff.mp h
    cases same
    obtain ⟨values, decoded, raws, ok⟩ := Library.call_ok called
    refine ⟨values, reply, w, ?_, raws, ?_, ?_⟩
    · have arguments := S.arguments (List.range_eq_range' ▸ found)
      have top : m.registers.esp = heightWord v.height := S.near.top
      rw [List.range_eq_range', top, arguments]
      unfold Machine.perform
      rw [S.world, decoded]
      rw [← S.world]
    · rw [S.world]
      exact ok
    · have behind := answered (v := { v with world := w }) topped answer
      exact ⟨behind.height, behind.topped, behind.base, behind.cell, behind.value, behind.tag,
        behind.thrown⟩

end View

/-! ## Back from a call -/

/-- A call has come back to its caller with an outcome. -/
structure CameBack (b : Bytecode) (image : Image) (L : Level) (x : Visit) (v : View)
    (callee : Bytecode.Callee) (items : List Item) (handler : Option Nat) (n index : Nat) (z : Visit)
    (v' : View) (o : Outcome) : Prop where
  steps : x.Steps image n z
  index : z.index = index
  awaited : z.awaited = x.awaited
  disciplined : ∃ s, Disciplined b image z L s v'
  operands : o.operands = operandsOf items callee.arity
  answers : Answers b image x n callee o
  returned : v.Returned handler.isSome items.length callee.arity o.number o.result v'
  tag : ∀ t, Lowering.knownTag? callee = some t → o.result.code = t.code
  payload : handler.isSome = true → ∀ e, o.thrown = some e →
    v'.globals .payload = e.payload.word ∧ v'.globals .payloadTag = e.payload.code

section Back

variable {b : Bytecode} {image : Image} {L : Level} {x c z : Visit} {s : Stage} {v v₁ : View}
  {items : List Item} {handler : Option Nat} {k : Nat}

theorem View.Answered.returned {i : Intrinsic} {reply : Intrinsic.Reply} {v' : View} {o : Outcome}
    (behind : v₁.Answered i reply v') (passes : v.Passes handler.isSome items i.arity v₁)
    (result : o.result = reply.raw) (thrown : o.thrown = reply.thrown?)
    (quiet : handler.isSome = false → reply.thrown? = none) :
    v.Returned handler.isSome items.length i.arity o.number o.result v' := by
  have height := passes.height
  have words : handler.isSome = true → thrownWords handler.isSome = 1 := fun h => if_pos h
  -- The word for the number of an exception is above the saved registers.
  have below {j : Nat} (hj : j ≤ v.height + savedWords items.length) : v'.cell j = v₁.cell j := by
    refine behind.cell j ?_
    cases throws : handler.isSome with
    | false => exact .inl (quiet throws)
    | true =>
      have one := words throws
      exact .inr (by omega)
  refine ⟨behind.height.trans height, behind.topped,
    behind.base.trans (passes.grown.registers .ebp (by decide)), fun j hj => ?_,
    passes.saved.imp fun j _ hj => below hj, fun throws => ?_, ?_, ?_⟩
  · exact (below (by omega)).trans (passes.grown.cell j hj)
  · have one := words throws
    have slot : v₁.height - 2 * i.arity = v.height + savedWords items.length + 1 := by omega
    unfold Outcome.number
    rw [thrown, ← slot]
    cases found : reply.thrown? with
    | none =>
      rw [behind.cell _ (.inl found), slot]
      exact passes.slot throws
    | some e => exact (behind.thrown e found).1
  · rw [result, behind.value]
  · rw [result, behind.tag]

/-- A built-in function comes back with its answer. -/
theorem Disciplined.served (hi : image.Carries b) {i : Intrinsic} (H : Disciplined b image c L s v₁)
    (before : x.Steps image k c) (awaited : c.awaited = x.awaited) (above : c.machine.Above)
    (enough : i.arity ≤ items.length) (passes : v.Passes handler.isSome items i.arity v₁)
    (here : image.code[c.index]? = some (.call i.nativeSymbol)) (throws : handler.isSome = i.canThrow)
    (next : c.Next image z) :
    ∃ v' o, CameBack b image L x v (.intrinsic i) items handler (k + 1) (c.index + 1) z v' o := by
  have library : image.functions.get? i.nativeSymbol = none :=
    hi.library _ _ (libraryWords?_nativeSymbol i)
  have S := H.near.shows_of_above above
  cases H.moves hi above next with
  | inner inner H' =>
    obtain ⟨j, there, advances⟩ := inner.advances
    obtain rfl := Option.some.inj (there.symm.trans here)
    cases advances with
    | works worked index =>
      have height := passes.height
      obtain ⟨values, reply, w, given, raws, called, answered⟩ := View.serves_of_exec S library
        passes.offers (length_operandsOf enough) (by omega) passes.grown.topped worked
      refine ⟨_, ⟨values.map Raw.ofValue, reply.raw, reply.thrown?⟩, before.trans (.one next), index,
        inner.awaited.trans awaited, ⟨_, H'⟩, raws.symm, ?_, ?_, fun t known => ?_, fun _ e thrown => ?_⟩
      · exact .intro (Nat.lt_succ_self k) before awaited here given called
      · refine answered.returned passes rfl rfl fun never => ?_
        obtain ⟨value, rfl⟩ := Intrinsic.call_answers (throws ▸ never) called
        rfl
      · exact Intrinsic.code_of_call known called
      · exact (answered.thrown e thrown).2
    | jumps jump => rcases jump with jump | ⟨_, jump⟩ <;> cases jump
  | enters _ _ there plans =>
    have same := Option.some.inj (here.symm.trans there)
    injection same with same
    have function := plans.follows.function
    rw [← same, library] at function
    cases function
  | returns there => cases here.symm.trans there

/-! ### Routines -/

theorem Regular.routine?_eq (hb : Regular b) {r : Bytecode.Routine} (hr : r ∈ b.routines) :
    b.routine? r.signature = some r := by
  obtain ⟨r', found⟩ : ∃ r', b.routine? r.signature = some r' := by
    refine Option.isSome_iff_exists.mp (List.find?_isSome.mpr ⟨r, hr, ?_⟩)
    exact decide_eq_true rfl
  have mem : r' ∈ b.routines := List.mem_of_find?_eq_some found
  have there := List.find?_some found
  have signature : r'.signature = r.signature := of_decide_eq_true there
  rw [found, List.inj_on_of_nodup_map hb.distinct mem hr signature]

/-- A call of a routine starts an activation of it. -/
theorem Disciplined.moves_into (hi : image.Carries b) (H : Disciplined b image c L s v)
    (above : c.machine.Above) {r : Bytecode.Routine} (mem : r ∈ b.routines)
    (here : image.code[c.index]? = some (.call (Symbol.ofSignature b.entry r.signature)))
    (next : c.Next image z) :
    ∃ p m, z.index = p.start ∧
      z.awaited = ⟨some (c.index + 1), heightWord (L.base b + m), v.registers.ebp⟩ :: c.awaited ∧
      Disciplined b image z ⟨r, p, v.height + 1, v.registers.get⟩ (.entering [])
        (v.push (.ofNat (c.index + 1))) ∧
      Suspended b image (v.push (.ofNat (c.index + 1))).cell
        ⟨r, p, v.height + 1, v.registers.get⟩ L m (c.index + 1) c.awaited := by
  obtain ⟨p, plans⟩ := hi.plans r mem
  have function : image.functions.get? (Symbol.ofSignature b.entry r.signature) = some p.start :=
    plans.follows.function
  have entry : b.entry.name = Symbol.main := congrArg Signature.name hi.regular.entry
  cases H.moves hi above next with
  | inner inner =>
    obtain ⟨i, there, advances⟩ := inner.advances
    obtain rfl := Option.some.inj (there.symm.trans here)
    cases advances with
    | works worked =>
      simp only [View.exec, function] at worked
      cases worked
    | jumps jump => rcases jump with jump | ⟨_, jump⟩ <;> cases jump
  | @enters r' p' m mem' _ there _ index awaited H' suspended =>
    have same := Option.some.inj (here.symm.trans there)
    injection same with same
    obtain rfl : r = r' := List.inj_on_of_nodup_map hi.regular.distinct mem mem'
      (Symbol.ofSignature_inj entry same)
    exact ⟨p', m, index, awaited, H', suspended⟩
  | returns there => cases here.symm.trans there

/-- What a callee that has come back leaves to its caller. -/
theorem Comeback.returned {M : Level} {n index arity j : Nat} {y w : Visit} {address : Int32}
    {v' : View} {o : Outcome} {throws : Bool}
    (comes : Comeback b image L M n index j y (v₁.push address) w v' z)
    (top : L.top = v₁.height + 1) (given : (L.context b).given = 2 * arity + thrownWords throws)
    (passes : v.Passes throws items arity v₁) (base : v.registers.ebp = heightWord (M.base b))
    (slot : throws = true → v'.cell (L.top - 1 - 2 * arity) = some o.number)
    (result : o.result = ⟨z.machine.registers.eax, z.machine.registers.ebx⟩) :
    v.Returned throws items.length arity o.number o.result (v'.moveTop (L.top - 1)) := by
  have height := passes.height
  have leaving : v'.height = L.top := comes.leaving.shown.1
  -- The words below the arguments are those of the caller.
  have cells {k : Nat} (hk : k ≤ v.height + savedWords items.length) :
      (v'.moveTop (L.top - 1)).cell k = v₁.cell k := by
    rw [View.cell_moveTop_of_le v' (by omega), comes.path.spares k (.inl (by omega)),
      View.cell_push_of_le v₁ address (by omega)]
  have resumed : (v'.moveTop (L.top - 1)).registers.ebp = heightWord (M.base b) :=
    comes.resumed.shown.2.2.1
  refine ⟨?_, View.topped_moveTop _ _, resumed.trans base.symm, fun k hk => ?_,
    passes.saved.imp fun k _ hk => cells hk, fun thrown => ?_, ?_, ?_⟩
  · show L.top - 1 = _
    omega
  · exact (cells (by omega)).trans (passes.grown.cell k hk)
  · have one : thrownWords throws = 1 := if_pos thrown
    have place : v.height + savedWords items.length + 1 = L.top - 1 - 2 * arity := by omega
    rw [place, View.cell_moveTop_of_le v' (by omega)]
    exact slot thrown
  · rw [result, ← comes.shows.registers]
  · rw [result, ← comes.shows.registers]

theorem View.Runs.raise {n : Nat} {w : View} {E : Trap → World → Prop} (height : w.height = n + 1)
    (cells : ∀ k ≤ n, w.cell k = v₁.cell k) :
    w.Runs image [.push Register.ebp, .mov Register.esp Register.ebp] (fun v' =>
      v'.registers.ebp = heightWord (n + 2) ∧ v'.height = n + 2 ∧ ∀ k ≤ n, v'.cell k = v₁.cell k) E := by
  have high : (w.push w.registers.ebp).height = n + 2 := by rw [View.height_push, height]
  have top : (w.push w.registers.ebp).registers.get .esp = heightWord (n + 2) := by
    rw [← high]
    exact View.topped_push w _
  refine .push (n := w.registers.ebp) rfl
    (.movRegister (by decide) (congrArg some top) (.nil ⟨rfl, high, fun k hk => ?_⟩))
  have below : k ≤ w.height := by omega
  have same : (w.push w.registers.ebp).cell k = w.cell k := View.cell_push_of_le w _ below
  exact same.trans (cells k hk)

/-- Once it has set its base pointer, a routine finds its arguments in the words of its parameters. -/
theorem Disciplined.finds (hi : image.Carries b) {y u : Visit} {N : Nat} {address : Int32}
    {rs : List Raw} (H : Disciplined b image y L s (v₁.push address)) (index : y.index = L.plan.start)
    (host : (L.context b).isEntry = false) (above : y.StaysAbove image N) (steps : y.Steps image N u)
    (left : u.awaited ≠ y.awaited) (offers : Offers v₁.cell v₁.height rs)
    (enough : 2 * rs.length ≤ v₁.height) :
    ∃ seen, y.Steps image 2 seen ∧ ∀ i r, rs[i]? = some r →
      seen.machine.Reads image (Frame.parameterWords i) r := by
  have raise : (v₁.push address).Runs image [.push Register.ebp, .mov Register.esp Register.ebp]
      (fun v' => v'.registers.ebp = heightWord (v₁.height + 2) ∧ v'.height = v₁.height + 2 ∧
        ∀ k ≤ v₁.height, v'.cell k = v₁.cell k) fun _ _ => True :=
    .raise (View.height_push v₁ address) fun k hk => View.cell_push_of_le v₁ address hk
  have prologue : Machine.Located image y.index
      [.push Register.ebp, .mov Register.esp Register.ebp] := by
    have whole := H.lives.plans.follows.prologue
    have other : (Context.ofRoutine b L.routine).isEntry = false := host
    unfold Code.prologue at whole
    rw [other, if_neg Bool.false_ne_true, List.nil_append, ← index] at whole
    exact ((Machine.Located.append.mp (Machine.Located.append.mp
      (Machine.Located.append.mp whole).1).1).1)
  obtain ⟨less, seen, s', v', reach, -, -, -, H', ebp, height, cells⟩ :=
    H.through hi above prologue raise steps (.inr left)
  have S := H'.near.shows_of_above (above 2 less seen reach)
  refine ⟨seen, reach, fun i r hr => S.reads hi.globals ?_⟩
  have inside := (List.getElem?_eq_some_iff.mp hr).1
  obtain ⟨word, code⟩ := offers.get hr
  obtain ⟨value, tag⟩ := View.read_parameter image (i := i) ebp (by omega) (by omega) S.room
  refine ⟨value.trans ?_, tag.trans ?_⟩
  · rw [cells _ (by omega)]
    exact word
  · have place : v₁.height + 2 - 3 - 2 * i = v₁.height - 1 - 2 * i := by omega
    rw [place, cells _ (by omega)]
    exact code

/-- A callee that can throw hands over at most one exception, and its caller finds it. -/
theorem Comeback.throws (hi : image.Carries b) {M : Level} {n index j arity : Nat} {y w : Visit}
    {address : Int32} {v' : View}
    (comes : Comeback b image L M n index j y (v₁.push address) w v' z)
    (H : Disciplined b image y L (.entering []) (v₁.push address)) (entry : y.index = L.plan.start)
    (above : y.StaysAbove image (j + 1)) (top : L.top = v₁.height + 1)
    (parameters : (L.context b).frame.parameters.length = arity)
    (host : (L.context b).isEntry = false) (throws : L.routine.canThrow = true)
    (withdraws : Withdraws L.routine) (passes : v.Passes true items arity v₁) :
    ∃ thrown : Option Thrown, y.Throws b image L.routine j thrown ∧
      v'.cell (L.top - 1 - 2 * arity) = some (thrown.elim 0 Thrown.number) ∧
      ∀ e, thrown = some e →
        v'.globals .payload = e.payload.word ∧ v'.globals .payloadTag = e.payload.code := by
  by_cases handed : ∃ i ≤ j, ∃ t, y.Steps image i t ∧ t.awaited = y.awaited ∧ L.Hands t
  · obtain ⟨i, before, t, reach, same, hands⟩ := handed
    obtain ⟨e, leaves, slot, payload⟩ :=
      comes.handed hi H above before reach same hands throws host withdraws
    rw [parameters] at slot
    refine ⟨some e, ⟨i, before, t, reach, same, leaves⟩, slot, fun e' he => ?_⟩
    cases he
    exact payload
  · have quiet : ∀ i ≤ j, ∀ t, y.Steps image i t → t.awaited = y.awaited → ¬ L.Hands t :=
      fun i hi t reach same hands => handed ⟨i, hi, t, reach, same, hands⟩
    obtain ⟨ss, steps, -⟩ := H.lives.plans.steps
    have calm := calm_of_start hi H.lives entry H.shown (Lowering.size_pos_of_routineSteps steps)
    have spares := calm.path hi comes.path (above.mono (Nat.le_succ j)) quiet
    have height : v₁.height = v.height + savedWords items.length + 1 + 2 * arity := passes.height
    have place : L.top - 1 - 2 * arity = v.height + savedWords items.length + 1 := by omega
    refine ⟨none, fun i hi t reach same begins => ?_, ?_, nofun⟩
    · exact quiet i hi t reach same (H.lives.hands_iff.mpr begins)
    · rw [place, spares.sealed (by omega), View.cell_push_of_le v₁ address (by omega)]
      exact passes.slot rfl

/-- A routine that is called comes back. -/
theorem Disciplined.activated (hi : image.Carries b) {M : Level} {start y : Visit} {m index N : Nat}
    {address : Int32} {a : Awaited}
    (H : Disciplined b image start L (.entering []) (v₁.push address))
    (suspended : Suspended b image (v₁.push address).cell L M m index x.awaited)
    (inner : start.awaited = a :: x.awaited) (entry : start.index = L.plan.start)
    (top : L.top = v₁.height + 1) (call : x.Steps image k start) (above : start.StaysAbove image N)
    (steps : start.Steps image N y) (level : y.awaited = x.awaited)
    (host : (L.context b).isEntry = false) (withdraws : Withdraws L.routine)
    (throws : handler.isSome = L.routine.canThrow) (base : v.registers.ebp = heightWord (M.base b))
    (enough : L.routine.signature.arity ≤ items.length)
    (passes : v.Passes handler.isSome items L.routine.signature.arity v₁) :
    ∃ n z v' o, n ≤ k + N ∧
      CameBack b image M x v (.routine L.routine.signature) items handler n index z v' o := by
  have mem := H.lives.plans.routine
  have parameters : (L.context b).frame.parameters.length = L.routine.signature.arity := by
    show (Frame.ofRoutine b L.routine).parameters.length = _
    rw [Frame.parameters_ofRoutine, List.length_map, hi.regular.arity _ mem]
  have given : (L.context b).given =
      2 * L.routine.signature.arity + thrownWords handler.isSome := by
    unfold Context.given
    rw [if_neg (Bool.eq_false_iff.mp host), parameters, throws]
    rfl
  have height := passes.height
  have length : start.awaited.length = x.awaited.length + 1 := by rw [inner, List.length_cons]
  obtain ⟨seen, framed, found⟩ := H.finds hi entry host above steps
    (fun same => by rw [← same, level] at length; omega) passes.offers
    (by rw [length_operandsOf enough]; omega)
  obtain ⟨j, leaving, v', z, less, back, comes⟩ := H.comeback hi suspended inner above steps
    (Nat.le_of_eq (congrArg List.length level))
  obtain ⟨thrown, throw, slot, payload⟩ : ∃ thrown : Option Thrown,
      (L.routine.canThrow = true → start.Throws b image L.routine j thrown) ∧
      (handler.isSome = true →
        v'.cell (L.top - 1 - 2 * L.routine.signature.arity) = some (thrown.elim 0 Thrown.number)) ∧
      (handler.isSome = true → ∀ e, thrown = some e →
        v'.globals .payload = e.payload.word ∧ v'.globals .payloadTag = e.payload.code) := by
    cases marked : L.routine.canThrow with
    | false =>
      rw [marked] at throws
      rw [throws]
      simp only [Bool.false_eq_true, false_implies, and_true, exists_const]
    | true =>
      rw [throws, marked] at passes
      obtain ⟨thrown, throw, slot, payload⟩ := comes.throws hi H entry (above.mono less) top parameters
        host marked withdraws passes
      exact ⟨thrown, fun _ => throw, fun _ => slot, fun _ => payload⟩
  let o : Outcome := ⟨operandsOf items L.routine.signature.arity,
    ⟨z.machine.registers.eax, z.machine.registers.ebx⟩, thrown⟩
  refine ⟨k + (j + 1), z, _, o, by omega, call.trans (comes.path.steps.trans (.one comes.next)),
    comes.index, back, ⟨_, comes.resumed⟩, rfl, ⟨L.routine, mem, rfl, ?_⟩,
    comes.returned top given passes base slot rfl, nofun, payload⟩
  exact .intro (Nat.le_refl _) call (entry ▸ H.lives.plans.follows.function) inner framed found
    comes.path.steps (fun i hi t reach => back ▸ comes.inside i hi t reach) comes.here comes.next back
    rfl throw

end Back

end X86

end Threefold
