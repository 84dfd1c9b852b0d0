import Threefold.Proofs.Evaluation.Unwinding
import Threefold.Proofs.X86.Loading
import Threefold.Proofs.X86.Pieces

/-!
# Stages of a routine

A routine first keeps registers of its caller on the machine stack, then its frame stands, and in
the end it takes the registers back and returns. A `Stage` says how far it has come and how many
words it has put on the stack. What one instruction of generated code does to the stage is a
relation (`Takes`), which says of the operands only that they are words of the frame, words that the
caller has left for the routine, or global words.

* `Works.exec` says that an instruction that takes a routine from one stage to another does that to
  every view in which the words on the stack have been written. It leaves alone the words of the
  caller and the registers that are kept.
-/

namespace Threefold.X86

/-! ## Stages -/

/-- How far the execution of a routine has come. -/
inductive Stage
  /-- These registers have been put on the stack, the last one first. -/
  | entering (kept : List Register)
  /-- The frame has a number of words, of which the first ones have been written. -/
  | inside (size filled : Nat)
  /-- These registers are still to be taken back. -/
  | leaving (kept : List Register)
  /-- Control has left the code. -/
  | gone

/-- The stage in which the frame has a number of words. -/
abbrev Stage.standing (n : Nat) : Stage :=
  .inside n n

theorem Stage.standing_ne_gone {n : Nat} : Stage.standing n ≠ .gone := by
  rintro ⟨⟩

namespace Context

/-- The registers that a routine keeps for its caller, the last one first. -/
def kept (c : Context) : List Register :=
  if c.isEntry then [.ebp, .edi, .esi, .ebx] else [.ebp]

/-- The number of words that the caller leaves for the routine above the return address. The entry
has no parameters, and hands exceptions over to the host. -/
def given (c : Context) : Nat :=
  if c.isEntry then 0
  else 2 * c.frame.parameters.length + if c.routine.canThrow then 1 else 0

/-- The number of words of the frame between two instructions of the bytecode. -/
def extent (c : Context) (s : Operands) : Nat :=
  2 * c.frame.inner.length + 2 * (s.depth - 2)

/-- An instruction of the routine jumps to an index. -/
def IsTarget (c : Context) (t : Nat) : Prop :=
  ∃ (index : Nat) (i : Bytecode.Instruction), c.routine.code[index]? = some i ∧ i.target? = some t

theorem ne_esp_of_mem_kept {c : Context} {r : Register} (h : r ∈ c.kept) : r ≠ .esp := by
  unfold kept at h
  rintro rfl
  split at h <;> revert h <;> decide

end Context

/-- The stage in which the code of an instruction of the bytecode begins. -/
def Plan.stage (p : Plan) (c : Context) (index : Nat) : Stage :=
  .standing (c.extent (p.shape index))

/-- The number of words that a function of the run-time library uses, with that for the number of an
exception. -/
def libraryWords? (s : Symbol) : Option Nat :=
  if s = Symbol.retain ∨ s = Symbol.release then some 2
  else (Machine.intrinsic? s).map fun i => 2 * i.arity + if i.canThrow then 1 else 0

/-! ## Operands -/

section Rules

variable (c : Context) (n : Nat)

/-- The words of a frame of a given size, and those above the return address. -/
inductive InFrame : Operand → Prop
  | own {k : Nat} (low : 1 ≤ k) (high : k ≤ n) : InFrame (.frame (-4 * k))
  | given {k : Nat} (h : k < c.given) : InFrame (.frame (8 + 4 * k))

/-- The operands that the code of a routine reads. -/
inductive Readable : Operand → Prop
  | immediate (w : Int32) : Readable (.immediate w)
  | literal {i : Nat} (h : i < c.bytecode.literals.length) : Readable (.address (.ofLiteral i))
  | register (r : Register) : Readable r
  | frame {o : Operand} (h : InFrame c n o) : Readable o
  | global (g : Global) : Readable (.global g.symbol)

/-- The operands that the code of a routine writes. -/
inductive Writable : Operand → Prop
  | register {r : Register} (top : r ≠ .esp) (base : r ≠ .ebp) : Writable r
  | frame {o : Operand} (h : InFrame c n o) : Writable o
  | global (g : Global) : Writable (.global g.symbol)

/-- The instructions that leave the stack as high as it is. -/
inductive Plain : Instruction → Prop
  | mov {s d : Operand} (hs : Readable c n s) (hd : Writable c n d) : Plain (.mov s d)
  | movzbl {b : ByteRegister} {r : Register} (hr : Writable c n r) : Plain (.movzbl b r)
  | add {s d : Operand} (hs : Readable c n s) (hd : Writable c n d) : Plain (.add s d)
  | sub {s d : Operand} (hs : Readable c n s) (hd : Writable c n d) : Plain (.sub s d)
  | imul {s : Operand} {r : Register} (hs : Readable c n s) (hr : Writable c n r) :
    Plain (.imul s r)
  | and {s d : Operand} (hs : Readable c n s) (hd : Writable c n d) : Plain (.and s d)
  | or {s d : Operand} (hs : Readable c n s) (hd : Writable c n d) : Plain (.or s d)
  | cmp {s d : Operand} (hs : Readable c n s) (hd : Readable c n d) : Plain (.cmp s d)
  | test {s d : Operand} (hs : Readable c n s) (hd : Readable c n d) : Plain (.test s d)
  | set (condition : Condition) (b : ByteRegister) : Plain (.set condition b)
  | cltd : Plain .cltd
  | idiv {d : Operand} (hd : Readable c n d) : Plain (.idiv d)

end Rules

section Rules

variable {c : Context} {m n : Nat} {o : Operand}

theorem InFrame.mono (h : InFrame c m o) (hn : m ≤ n) : InFrame c n o := by
  cases h with
  | own low high => exact .own low (Nat.le_trans high hn)
  | given h => exact .given h

theorem Readable.mono (h : Readable c m o) (hn : m ≤ n) : Readable c n o := by
  cases h with
  | immediate w => exact .immediate w
  | literal h => exact .literal h
  | register r => exact .register r
  | frame h => exact .frame (h.mono hn)
  | global g => exact .global g

theorem Writable.readable (h : Writable c n o) : Readable c n o := by
  cases h with
  | register => exact .register _
  | frame h => exact .frame h
  | global g => exact .global g

theorem InFrame.not_entry_of_given {k : Nat} (h : k < c.given) : c.kept = [.ebp] := by
  unfold Context.given at h
  unfold Context.kept
  split at h
  · exact absurd h (Nat.not_lt_zero k)
  · rename_i entry
    rw [if_neg entry]

end Rules

/-! ## Instructions -/

/-- What an instruction that neither jumps nor leaves does to the stage of a routine. -/
inductive Works (c : Context) : Instruction → Stage → Stage → Prop
  | plain {i : Instruction} {n : Nat} (h : Plain c n i) : Works c i (.standing n) (.standing n)
  | push {s : Operand} {n : Nat} (h : Readable c n s) :
    Works c (.push s) (.standing n) (.standing (n + 1))
  | pop {d : Operand} {n : Nat} (h : Writable c n d) :
    Works c (.pop d) (.standing (n + 1)) (.standing n)
  | drop {n k : Nat} :
    Works c (.add (.immediate (.ofNat (4 * k))) Register.esp) (.standing (n + k)) (.standing n)
  | reserve {k : Nat} (h : 4 * k < 2 ^ 31) :
    Works c (.sub (.immediate (.ofNat (4 * k))) Register.esp) (.standing 0) (.inside k 0)
  | clear {n k : Nat} (h : k < n) :
    Works c (.mov (.immediate 0) (.frame (-4 * (k + 1)))) (.inside n k) (.inside n (k + 1))
  | library {s : Symbol} {n k : Nat} (hs : libraryWords? s = some k) (h : k ≤ n) :
    Works c (.call s) (.standing n) (.standing n)
  | keep {r : Register} {ks : List Register} (h : r ∈ c.kept) :
    Works c (.push r) (.entering ks) (.entering (r :: ks))
  | raise : Works c (.mov Register.esp Register.ebp) (.entering c.kept) (.standing 0)
  | fold {n : Nat} : Works c (.mov Register.ebp Register.esp) (.standing n) (.leaving c.kept)
  | restore {r : Register} {ks : List Register} (h : r ∈ c.kept) :
    Works c (.pop r) (.leaving (r :: ks)) (.leaving ks)

/-- What an instruction does to the stage of a routine. A call of another routine comes back to the
same stage. -/
inductive Takes (c : Context) (p : Plan) : Instruction → Stage → Stage → Prop
  | works {i : Instruction} {s s' : Stage} (h : Works c i s s') : Takes c p i s s'
  | routine {r : Bytecode.Routine} {n : Nat} (hr : r ∈ c.bytecode.routines)
    (h : (Context.ofRoutine c.bytecode r).given ≤ n) :
    Takes c p (.call (Context.ofRoutine c.bytecode r).symbol) (.standing n) (.standing n)
  | branch {condition : Condition} {t : Nat} (h : c.IsTarget t) :
    Takes c p (.jcc condition (c.label t)) (p.stage c t) (p.stage c t)
  | jump {t : Nat} (h : c.IsTarget t) :
    Takes c p (.jmp (c.label t)) (p.stage c t) .gone
  | ret : Takes c p .ret (.leaving []) .gone

/-- What a piece of code of a routine does to its stage. -/
inductive Leads (c : Context) (p : Plan) : Code → Stage → Stage → Prop
  | nil (s : Stage) : Leads c p [] s s
  | cons {i : Instruction} {is : Code} {s s₁ s₂ : Stage} (first : Takes c p i s s₁)
    (rest : Leads c p is s₁ s₂) : Leads c p (i :: is) s s₂

namespace Leads

variable {c : Context} {p : Plan} {is js : Code} {s s₁ s₂ : Stage}

theorem one {i : Instruction} (h : Takes c p i s s₁) : Leads c p [i] s s₁ :=
  .cons h (.nil s₁)

theorem works {i : Instruction} (h : Works c i s s₁) (rest : Leads c p is s₁ s₂) :
    Leads c p (i :: is) s s₂ :=
  .cons (.works h) rest

theorem append (h : Leads c p is s s₁) (h' : Leads c p js s₁ s₂) :
    Leads c p (is ++ js) s s₂ := by
  induction h with
  | nil s => exact h'
  | cons first _ ih => exact .cons first (ih h')

/-- Instructions that leave the stack as high as it is. -/
theorem plain {n : Nat} (h : ∀ i ∈ is, Plain c n i) :
    Leads c p is (.standing n) (.standing n) := by
  induction is with
  | nil => exact .nil _
  | cons i is ih =>
    have first := h i List.mem_cons_self
    exact .cons (.works (.plain first)) (ih fun j hj => h j (List.mem_cons_of_mem i hj))

end Leads

/-! ## Views of a stage -/

/-- The words of registers are on the stack above a height, the first one on top. -/
def Stored (cell : Nat → Option Int32) (kept : Register → Int32) (top : Nat) :
    List Register → Prop
  | [] => True
  | r :: ks => cell (top + ks.length + 1) = some (kept r) ∧ Stored cell kept top ks

/-- All words of the stack up to a height have been written. -/
def Written (cell : Nat → Option Int32) (k : Nat) : Prop :=
  ∀ j, 1 ≤ j → j ≤ k → (cell j).isSome

/-- A view shows a stage of a routine whose return address is at a height and whose caller had
certain words in its registers. -/
def Stage.Shown (c : Context) (kept : Register → Int32) (top : Nat) (v : View) : Stage → Prop
  | .entering ks =>
    v.height = top + ks.length ∧ Stored v.cell kept top ks ∧
      (∀ r ∈ c.kept, v.registers.get r = kept r) ∧ Written v.cell v.height
  | .inside size filled =>
    v.height = top + c.kept.length + size ∧ filled ≤ size ∧
      v.registers.ebp = heightWord (top + c.kept.length) ∧ Stored v.cell kept top c.kept ∧
      Written v.cell (top + c.kept.length + filled)
  | .leaving ks =>
    v.height = top + ks.length ∧ Stored v.cell kept top ks ∧
      (∀ r ∈ c.kept, r ∉ ks → v.registers.get r = kept r) ∧ Written v.cell v.height
  | .gone => False

/-- A height that the code of a routine may write to while its frame has a number of words. -/
def Owns (c : Context) (top n k : Nat) : Prop :=
  top + c.kept.length < k ∧ k ≤ top + c.kept.length + n ∨ k < top ∧ top ≤ k + c.given

theorem Stored.congr {cell cell' : Nat → Option Int32} {kept : Register → Int32} {top : Nat}
    {ks : List Register} (h : Stored cell kept top ks)
    (same : ∀ k, top < k → k ≤ top + ks.length → cell' k = cell k) :
    Stored cell' kept top ks := by
  induction ks with
  | nil => trivial
  | cons r ks ih =>
    rw [List.length_cons] at same
    refine ⟨(same _ (by omega) (by omega)).trans h.1, ih h.2 fun k low high => ?_⟩
    exact same k low (by omega)

namespace View

/-- A view with other words in places that a routine owns. -/
structure Alters (own : Nat → Prop) (v v' : View) : Prop where
  height : v'.height = v.height
  base : v'.registers.ebp = v.registers.ebp
  cell : ∀ k, ¬ own k → v'.cell k = v.cell k
  written : ∀ k, (v.cell k).isSome → (v'.cell k).isSome

namespace Alters

variable {own : Nat → Prop} {v v' v'' : View}

theorem refl (v : View) : Alters own v v :=
  ⟨rfl, rfl, fun _ _ => rfl, fun _ h => h⟩

theorem trans (a : Alters own v v') (b : Alters own v' v'') : Alters own v v'' :=
  ⟨b.height.trans a.height, b.base.trans a.base, fun k hk => (b.cell k hk).trans (a.cell k hk),
    fun k hk => b.written k (a.written k hk)⟩

theorem set (v : View) {r : Register} (hr : r ≠ .ebp) (w : Int32) : Alters own v (v.set r w) := by
  refine ⟨rfl, ?_, fun _ _ => rfl, fun _ h => h⟩
  have kept := Registers.get_set v.registers r .ebp w
  rw [if_neg hr.symm] at kept
  exact kept

theorem put (v : View) {k : Nat} (hk : own k) (w : Int32) : Alters own v (v.put k w) := by
  refine ⟨rfl, rfl, fun j hj => ?_, fun j hj => ?_⟩
  · refine if_neg fun (same : j = k) => hj ?_
    rw [same]
    exact hk
  · show (if j = k then some w else v.cell j).isSome
    split
    · rfl
    · exact hj

theorem setGlobal (v : View) (g : Global) (w : Int32) : Alters own v (v.setGlobal g w) :=
  ⟨rfl, rfl, fun _ _ => rfl, fun _ h => h⟩

theorem flagged (v : View) (w : Int32) (overflow : Bool) : Alters own v (v.flagged w overflow) :=
  ⟨rfl, rfl, fun _ _ => rfl, fun _ h => h⟩

theorem spoil (v : View) : Alters own v v.spoil :=
  (set v (by decide) _).trans (set _ (by decide) _)

end Alters

end View

/-! ## Operands of a view -/

/-- The literals of a program have addresses. -/
def Image.HasLiterals (image : Image) (c : Context) : Prop :=
  ∀ i < c.bytecode.literals.length, (image.data.get? (Symbol.ofLiteral i)).isSome

section Operands

variable {c : Context} {image : Image} {v : View} {n top : Nat} {o : Operand}

/-- A view in which the words of a frame can be used. -/
structure Framed (c : Context) (top n : Nat) (v : View) : Prop where
  base : v.registers.ebp = heightWord (top + c.kept.length)
  height : v.height = top + c.kept.length + n
  room : v.height ≤ room
  given : c.given < top

theorem Framed.at (F : Framed c top n v) {k : Nat} {w : Int}
    (hw : 4 * (k : Int) = 4 * ((top + c.kept.length : Nat) : Int) - w) (low : 1 ≤ k)
    (high : k ≤ v.height) : v.place? (v.registers.get .ebp + .ofInt w) = some k := by
  have address : v.registers.get .ebp + .ofInt w = heightWord k := by
    show v.registers.ebp + _ = _
    rw [F.base, heightWord_add hw]
  unfold View.place?
  rw [address, heightOf?_heightWord (Nat.le_trans high (Nat.le_trans F.room room_le_ceiling))]
  exact if_pos ⟨low, high⟩

theorem Framed.place (F : Framed c top n v) {m : Nat} (h : InFrame c m o) (hm : m ≤ n) :
    ∃ r w k, o = .memory r w ∧ v.place? (v.registers.get r + w) = some k ∧ Owns c top m k := by
  have height := F.height
  have low := F.given
  cases h with
  | @own k first last =>
    refine ⟨_, _, top + c.kept.length + k, rfl, F.at ?_ ?_ ?_, .inl ⟨?_, ?_⟩⟩ <;> omega
  | @given k h =>
    have one : c.kept.length = 1 := by rw [InFrame.not_entry_of_given h]; rfl
    refine ⟨_, _, top - 1 - k, rfl, F.at ?_ ?_ ?_, .inr ⟨?_, ?_⟩⟩ <;> omega

theorem Framed.read (F : Framed c top n v) (hw : Written v.cell v.height)
    (hl : image.HasLiterals c) (h : Readable c n o) : ∃ w, v.read image o = some w := by
  cases h with
  | immediate w => exact ⟨w, rfl⟩
  | literal h => exact Option.isSome_iff_exists.mp (hl _ h)
  | register r => exact ⟨v.registers.get r, rfl⟩
  | frame h =>
    obtain ⟨r, w, k, rfl, place, -⟩ := F.place h (Nat.le_refl n)
    obtain ⟨-, low, high⟩ := Machine.place?_eq_some place
    obtain ⟨x, hx⟩ := Option.isSome_iff_exists.mp (hw k low high)
    refine ⟨x, ?_⟩
    show (v.place? _).bind v.cell = some x
    rw [place]
    exact hx
  | global g =>
    refine ⟨v.globals g, ?_⟩
    show (Global.ofSymbol? g.symbol).map v.globals = some _
    rw [Global.ofSymbol?_symbol]
    rfl

theorem Framed.write (F : Framed c top n v) {m : Nat} (h : Writable c m o) (hm : m ≤ n)
    (x : Int32) : ∃ v', v.write o x = some v' ∧ v.Alters (Owns c top m) v' := by
  cases h with
  | @register r hr hr' =>
    refine ⟨v.set r x, ?_, .set v hr' x⟩
    cases r <;> first | rfl | exact absurd rfl hr
  | frame h =>
    obtain ⟨r, w, k, rfl, place, own⟩ := F.place h hm
    refine ⟨v.put k x, ?_, .put v own x⟩
    show (v.place? _).map _ = some _
    rw [place]
    rfl
  | global g =>
    refine ⟨v.setGlobal g x, ?_, .setGlobal v g x⟩
    show (Global.ofSymbol? g.symbol).map _ = some _
    rw [Global.ofSymbol?_symbol]
    rfl

end Operands

/-! ## Instructions of a view -/

/-- Whether a trap is a mistake of the program: in its arithmetic, or in a call of the run-time
library. -/
def Trap.isMistake : Trap → Bool
  | .fault f => f.isRuntime
  | .divisionByZero | .quotientOverflow _ _ | .invalidTag _ _ _ => true
  | .outsideCode _ | .noMain | .stepLimit _ | .ranPast _ | .undefinedData _ | .uninitialised _ |
    .notWritable _ | .undefinedLabel _ | .badReturn _ | .undefinedSymbol _ | .unbalancedStack _ _ |
    .lostRegister _ => false

theorem Trap.isMistake_of_isRuntime {t : Trap} (h : Library.isRuntime t = true) :
    t.isMistake = true := by
  cases t <;> first | exact h | cases h

/-- An instruction leads to a view of a kind, or the program has made a mistake. -/
def View.Effect.Meets (P : View → Prop) : View.Effect → Prop
  | .ok v => P v
  | .error (t, _) => t.isMistake = true

theorem View.Effect.Meets.imp {P Q : View → Prop} {e : View.Effect} (h : e.Meets P)
    (hq : ∀ v, P v → Q v) : e.Meets Q := by
  cases e with
  | ok v => exact hq v h
  | error e => exact h

section Instructions

variable {c : Context} {image : Image} {v : View} {n top : Nat}

/-- What a call of the run-time library needs to know of a view. -/
theorem View.argument?_isSome (hw : Written v.cell v.height) {i : Nat} (hi : 2 * i + 2 ≤ v.height) :
    ∃ x, v.argument? i = some x := by
  obtain ⟨w, value⟩ := Option.isSome_iff_exists.mp
    (hw (v.height - 2 * i) (by omega) (Nat.sub_le _ _))
  obtain ⟨t, tag⟩ := Option.isSome_iff_exists.mp
    (hw (v.height - 2 * i - 1) (by omega) (by omega))
  refine ⟨⟨w, t⟩, ?_⟩
  unfold argument?
  rw [if_pos hi, value, tag]

theorem View.arguments_isSome (hw : Written v.cell v.height) {k m : Nat}
    (hk : 2 * (k + m) ≤ v.height) : ∃ xs, (List.range' k m).mapM v.argument? = some xs := by
  induction m generalizing k with
  | zero => exact ⟨[], rfl⟩
  | succ m ih =>
    obtain ⟨x, hx⟩ := argument?_isSome hw (show 2 * k + 2 ≤ v.height by omega)
    obtain ⟨xs, hxs⟩ := ih (show 2 * (k + 1 + m) ≤ v.height by omega)
    refine ⟨x :: xs, ?_⟩
    rw [List.range'_succ, List.mapM_cons, hx, Option.bind_eq_bind, Option.bind_some, hxs]
    rfl

/-- Work on the world leaves the rest of a view as it is. -/
theorem View.perform_meets {α : Type} {op : Library.Op α} (ha : Library.AddsTo op) (own : Nat → Prop)
    (v : View) : match v.perform op with
      | .ok (_, v') => v.Alters own v'
      | .error (t, _) => t.isMistake = true := by
  have traps := (ha v.world).2
  unfold perform
  cases h : op v.world with
  | ok a w => exact ⟨rfl, rfl, fun _ _ => rfl, fun _ h => h⟩
  | error t w => exact Trap.isMistake_of_isRuntime (traps t w h)

theorem View.perform_spoil {op : Library.Op Unit} (ha : Library.AddsTo op) (own : Nat → Prop)
    (v : View) : Effect.Meets (v.Alters own) ((v.perform op).map fun r => r.2.spoil) := by
  have met := perform_meets ha own v
  cases h : v.perform op with
  | ok r =>
    rw [h] at met
    exact met.trans (.spoil _)
  | error e =>
    rw [h] at met
    exact met

/-- Only a built-in function that can throw finds an index out of bounds. -/
theorem Library.canThrow_of_outOfBounds {i : Intrinsic} {xs : List Raw} {w w' : World} {x : Int32}
    (h : Library.call i xs w = .ok (.outOfBounds x) w') : i.canThrow = true := by
  unfold Library.call at h
  simp only [Bind.bind, EStateM.bind] at h
  split at h
  · rename_i vs w₁ _
    unfold Library.lift at h
    split at h
    · rename_i r w₂ called
      cases h
      cases throws : i.canThrow with
      | true => rfl
      | false =>
        obtain ⟨y, hy⟩ := Intrinsic.call_answers throws called
        cases hy
    · cases h
  · cases h

theorem View.canThrow_of_perform {i : Intrinsic} {xs : List Raw} {v v' : View} {x : Int32}
    (h : v.perform (Library.call i xs) = .ok (.outOfBounds x, v')) : i.canThrow = true := by
  unfold perform at h
  cases called : Library.call i xs v.world with
  | ok a w =>
    rw [called] at h
    cases h
    exact Library.canThrow_of_outOfBounds called
  | error t w =>
    rw [called] at h
    cases h

theorem View.answer_alters {i : Intrinsic} {r : Intrinsic.Reply} {own : Nat → Prop} {v : View}
    (h : ∀ x, r = .outOfBounds x → 2 * i.arity + 1 ≤ v.height ∧ own (v.height - 2 * i.arity)) :
    ∃ v', v.answer i r = some v' ∧ v.Alters own v' := by
  cases r with
  | returned x =>
    exact ⟨_, rfl, (Alters.set v (by decide) _).trans (.set _ (by decide) _)⟩
  | outOfBounds x =>
    obtain ⟨room, slot⟩ := h x rfl
    have answered : v.answer i (.outOfBounds x) = some _ := if_pos room
    refine ⟨_, answered, (Alters.put v slot Exceptions.outOfBounds).trans ?_⟩
    exact (Alters.setGlobal _ .payload _).trans ((Alters.setGlobal _ .payloadTag _).trans
      ((Alters.set _ (by decide) _).trans (.set _ (by decide) _)))

/-- A call of the run-time library only writes to the word for the number of an exception. -/
theorem View.serve_meets {s : Symbol} {k : Nat} (hs : libraryWords? s = some k)
    (hw : Written v.cell v.height) (hk : k ≤ v.height) (own : Nat → Prop)
    (ho : ∀ j, v.height - k < j → j ≤ v.height → own j) :
    ∃ e, v.serve s = some e ∧ e.Meets (v.Alters own) := by
  unfold libraryWords? at hs
  unfold serve
  by_cases retain : s = Symbol.retain
  · rw [if_pos (.inl retain)] at hs
    cases hs
    obtain ⟨x, hx⟩ := argument?_isSome hw (i := 0) hk
    rw [if_pos retain, hx]
    exact ⟨_, rfl, perform_spoil (Library.retain_adds x) own v⟩
  by_cases release : s = Symbol.release
  · rw [if_pos (.inr release)] at hs
    cases hs
    obtain ⟨x, hx⟩ := argument?_isSome hw (i := 0) hk
    rw [if_neg retain, if_pos release, hx]
    exact ⟨_, rfl, perform_spoil (Library.release_adds x) own v⟩
  rw [if_neg (by rintro (h | h) <;> contradiction)] at hs
  obtain ⟨i, hi, rfl⟩ := Option.map_eq_some_iff.mp hs
  have enough : 2 * i.arity ≤ v.height := by omega
  obtain ⟨xs, hxs⟩ := arguments_isSome hw (k := 0) (m := i.arity) (by omega)
  rw [← List.range_eq_range'] at hxs
  rw [if_neg retain, if_neg release, hi]
  simp only [hxs]
  have met := perform_meets (Library.call_adds i xs) own v
  cases h : v.perform (Library.call i xs) with
  | error e =>
    rw [h] at met
    exact ⟨_, rfl, met⟩
  | ok r =>
    obtain ⟨reply, v'⟩ := r
    rw [h] at met
    have height : v'.height = v.height := met.height
    have slot : ∀ x, reply = .outOfBounds x →
        2 * i.arity + 1 ≤ v'.height ∧ own (v'.height - 2 * i.arity) := by
      rintro x rfl
      have throws := canThrow_of_perform h
      rw [if_pos throws] at hk ho
      exact ⟨by omega, ho _ (by omega) (by omega)⟩
    obtain ⟨v'', answered, altered⟩ := answer_alters slot
    refine ⟨.ok v''.spoil, ?_, met.trans (altered.trans (.spoil v''))⟩
    show (v'.answer i reply).map _ = _
    rw [answered]
    rfl

theorem View.exec_mov {v' : View} {s d : Operand} {x : Int32} (hs : v.read image s = some x)
    (hd : v.write d x = some v') : v.exec image (.mov s d) = some (.ok v') := by
  simp only [exec, hs, Option.bind_eq_bind, Option.bind_some, hd]
  rfl

section Plain

theorem Framed.moves (F : Framed c top n v) {d : Operand} (hd : Writable c n d) (x : Int32) :
    ∃ e : View.Effect, (v.write d x).map .ok = some e ∧ e.Meets (v.Alters (Owns c top n)) := by
  obtain ⟨v', written, altered⟩ := F.write hd (Nat.le_refl n) x
  exact ⟨.ok v', by rw [written]; rfl, altered⟩

/-- A result is kept or not, and the flags are set for it. -/
theorem Framed.flags (F : Framed c top n v) {d : Operand} {keep : Bool}
    (hd : keep = true → Writable c n d) (x : Int32) (overflow : Bool) :
    ∃ e : View.Effect, ((if keep then v.write d x else some v).map fun v =>
      .ok (v.flagged x overflow)) = some e ∧ e.Meets (v.Alters (Owns c top n)) := by
  cases keep with
  | false => exact ⟨_, rfl, .flagged v x overflow⟩
  | true =>
    obtain ⟨v', written, altered⟩ := F.write (hd rfl) (Nat.le_refl n) x
    refine ⟨.ok (v'.flagged x overflow), ?_, altered.trans (.flagged v' x overflow)⟩
    rw [if_pos rfl, written]
    rfl

variable (F : Framed c top n v) (hw : Written v.cell v.height) (hl : image.HasLiterals c)
include F hw hl

theorem Framed.arithmetic {s d : Operand} (op : Int → Int → Int) (hs : Readable c n s)
    (hd : Readable c n d) {keep : Bool} (hk : keep = true → Writable c n d) :
    ∃ e, v.arithmetic image op s d keep = some e ∧ e.Meets (v.Alters (Owns c top n)) := by
  obtain ⟨x, hx⟩ := F.read hw hl hs
  obtain ⟨y, hy⟩ := F.read hw hl hd
  unfold View.arithmetic
  rw [hy, hx]
  exact F.flags hk _ _

theorem Framed.bitwise {s d : Operand} (op : Int32 → Int32 → Int32) (hs : Readable c n s)
    (hd : Readable c n d) {keep : Bool} (hk : keep = true → Writable c n d) :
    ∃ e, v.bitwise image op s d keep = some e ∧ e.Meets (v.Alters (Owns c top n)) := by
  obtain ⟨x, hx⟩ := F.read hw hl hs
  obtain ⟨y, hy⟩ := F.read hw hl hd
  unfold View.bitwise
  rw [hy, hx]
  exact F.flags hk _ _

omit F hw hl in
theorem View.divide_meets (own : Nat → Prop) (v : View) (x : Int32) :
    (v.divide x).Meets (v.Alters own) := by
  unfold divide
  dsimp only
  split
  · rfl
  · split
    · rfl
    · exact (Alters.set v (by decide) _).trans (.set _ (by decide) _)

/-- An instruction that leaves the stack as high as it is only writes to what the routine owns. -/
theorem Framed.exec {i : Instruction} (h : Plain c n i) :
    ∃ e, v.exec image i = some e ∧ e.Meets (v.Alters (Owns c top n)) := by
  cases h with
  | mov hs hd =>
    obtain ⟨x, hx⟩ := F.read hw hl hs
    obtain ⟨v', written, altered⟩ := F.write hd (Nat.le_refl n) x
    exact ⟨.ok v', View.exec_mov hx written, altered⟩
  | movzbl hr => exact F.moves hr _
  | add hs hd => exact F.arithmetic hw hl _ hs hd.readable fun _ => hd
  | sub hs hd => exact F.arithmetic hw hl _ hs hd.readable fun _ => hd
  | @imul s r hs hr =>
    obtain ⟨x, hx⟩ := F.read hw hl hs
    obtain ⟨v', written, altered⟩ := F.write hr (Nat.le_refl n) (v.registers.get r * x)
    refine ⟨.ok v', ?_, altered⟩
    simp only [View.exec, hx, Option.bind_eq_bind, Option.bind_some, written]
    rfl
  | and hs hd => exact F.bitwise hw hl _ hs hd.readable fun _ => hd
  | or hs hd => exact F.bitwise hw hl _ hs hd.readable fun _ => hd
  | cmp hs hd => exact F.arithmetic hw hl _ hs hd fun h => by cases h
  | test hs hd => exact F.bitwise hw hl _ hs hd fun h => by cases h
  | set condition b =>
    have destination : Writable c n b.full := .register (by cases b <;> decide) (by cases b <;> decide)
    exact F.moves destination _
  | cltd => exact ⟨_, rfl, .set v (by decide) _⟩
  | idiv hd =>
    obtain ⟨x, hx⟩ := F.read hw hl hd
    refine ⟨v.divide x, ?_, View.divide_meets _ v x⟩
    simp only [View.exec, hx, Option.map_some]

end Plain

/-- A view that has the words of the caller of a routine, and the return address. -/
def View.Spares (c : Context) (top : Nat) (v v' : View) : Prop :=
  ∀ k, k + c.given < top ∨ k = top → v'.cell k = v.cell k

/-- What is asked of a view in which a routine is at a stage, whatever the stage. -/
structure View.Ready (c : Context) (top : Nat) (v : View) : Prop where
  topped : v.Topped
  room : v.height ≤ room
  given : c.given < top

variable {kept : Register → Int32}

theorem View.Ready.framed (R : v.Ready c top) {f : Nat}
    (h : (Stage.inside n f).Shown c kept top v) : Framed c top n v :=
  ⟨h.2.2.1, h.1, R.room, R.given⟩

/-- What a routine does to the words that it owns leaves its stage as it is. -/
theorem Stage.Shown.alters {f m : Nat} {v' : View} (h : (Stage.inside n f).Shown c kept top v)
    (a : v.Alters (Owns c top m) v') : (Stage.inside n f).Shown c kept top v' := by
  obtain ⟨height, filled, base, stored, written⟩ := h
  refine ⟨a.height.trans height, filled, a.base.trans base, stored.congr fun k low high => ?_,
    fun k low high => a.written k (written k low high)⟩
  refine a.cell k ?_
  rintro (above | below) <;> omega

theorem View.Alters.spares {m : Nat} {v' : View} (a : v.Alters (Owns c top m) v') :
    v.Spares c top v' := by
  intro k hk
  refine a.cell k ?_
  rintro (above | below) <;> omega

/-- Arithmetic on the stack pointer. -/
theorem View.arithmetic_top (image : Image) (op : Int → Int → Int) {w : Int32} {k : Nat} (ht : v.Topped)
    (hk : k ≤ ceiling) (moved : op (heightWord v.height).toInt w.toInt = 0x00f00000 - 4 * (k : Int)) :
    ∃ x o, v.arithmetic image op (.immediate w) Register.esp true =
      some (.ok ((v.moveTop k).flagged x o)) := by
  have top : v.registers.get .esp = heightWord v.height := ht
  have place : heightOf? (.ofInt (op (heightWord v.height).toInt w.toInt)) = some k := by
    rw [moved]
    exact heightOf?_heightWord hk
  refine ⟨.ofInt (op (heightWord v.height).toInt w.toInt),
    !fits (op (heightWord v.height).toInt w.toInt), ?_⟩
  simp only [arithmetic, View.read, top, Option.bind_eq_bind, Option.bind_some, if_true,
    write, place, Option.map_some]

/-! ## Stages of a view -/

theorem View.cell_moveTop_of_le (v : View) {j k : Nat} (h : j ≤ v.height) :
    (v.moveTop k).cell j = v.cell j :=
  if_pos h

theorem View.spares_push (v : View) (x : Int32) (h : top ≤ v.height) :
    v.Spares c top (v.push x) :=
  fun _ hk => cell_push_of_le v x (by omega)

theorem View.spares_moveTop (v : View) (k : Nat) (h : top ≤ v.height) :
    v.Spares c top (v.moveTop k) :=
  fun _ hk => cell_moveTop_of_le v (by omega)

theorem View.written_push (x : Int32) (h : Written v.cell v.height) :
    Written (v.push x).cell (v.height + 1) := by
  intro k low high
  by_cases last : k = v.height + 1
  · rw [last, cell_push]
    rfl
  · rw [cell_push_of_le v x (by omega)]
    exact h k low (by omega)

theorem View.written_moveTop {j k : Nat} (h : Written v.cell j) (hj : j ≤ v.height) :
    Written (v.moveTop k).cell j := by
  intro i low high
  rw [cell_moveTop_of_le v (Nat.le_trans high hj)]
  exact h i low high

theorem Stored.moveTop {ks : List Register} (h : Stored v.cell kept top ks) (k : Nat)
    (hv : top + ks.length ≤ v.height) : Stored (v.moveTop k).cell kept top ks :=
  h.congr fun _ _ high => View.cell_moveTop_of_le v (Nat.le_trans high hv)

theorem Stored.push {ks : List Register} (h : Stored v.cell kept top ks) (x : Int32)
    (hv : top + ks.length ≤ v.height) : Stored (v.push x).cell kept top ks :=
  h.congr fun _ _ high => View.cell_push_of_le v x (Nat.le_trans high hv)

theorem Stage.Shown.push (h : (Stage.standing n).Shown c kept top v) (x : Int32) :
    (Stage.standing (n + 1)).Shown c kept top (v.push x) := by
  obtain ⟨height, -, base, stored, written⟩ := h
  rw [← height] at written
  refine ⟨?_, Nat.le_refl _, ?_, stored.push x (by omega), ?_⟩
  · rw [View.height_push, height, Nat.add_assoc]
  · exact (View.get_push v x (r := .ebp) (by decide)).trans base
  · have all := View.written_push x written
    rw [height, Nat.add_assoc] at all
    exact all

/-- The stack pointer moves down to fewer words of the frame. -/
theorem Stage.Shown.drop {m : Nat} (h : (Stage.standing m).Shown c kept top v) (hn : n ≤ m) :
    (Stage.standing n).Shown c kept top (v.moveTop (top + c.kept.length + n)) := by
  obtain ⟨height, -, base, stored, written⟩ := h
  refine ⟨rfl, Nat.le_refl _, ?_, ?_, ?_⟩
  · exact (View.get_moveTop v _ (r := .ebp) (by decide)).trans base
  · exact stored.moveTop _ (by omega)
  · refine View.written_moveTop (fun k low high => ?_) (by omega)
    exact written k low (by omega)

/-- The stack pointer moves up for words that are not written yet. -/
theorem Stage.Shown.reserve (h : (Stage.standing 0).Shown c kept top v) (k : Nat) :
    (Stage.inside k 0).Shown c kept top (v.moveTop (top + c.kept.length + k)) := by
  obtain ⟨height, -, base, stored, written⟩ := h
  refine ⟨rfl, Nat.zero_le k, ?_, stored.moveTop _ (by omega), ?_⟩
  · exact (View.get_moveTop v _ (r := .ebp) (by decide)).trans base
  · exact View.written_moveTop written (by omega)

/-- One more word of the frame is written. -/
theorem Stage.Shown.clear {k : Nat} (h : (Stage.inside n k).Shown c kept top v) (hk : k < n)
    (x : Int32) :
    (Stage.inside n (k + 1)).Shown c kept top (v.put (top + c.kept.length + (k + 1)) x) := by
  obtain ⟨height, -, base, stored, written⟩ := h
  refine ⟨height, hk, base, stored.congr fun j low high => if_neg (by omega), fun j low high => ?_⟩
  show (if j = top + c.kept.length + (k + 1) then some x else v.cell j).isSome
  split
  · rfl
  · exact written j low (by omega)

theorem Stage.Shown.keep {r : Register} {ks : List Register}
    (h : (Stage.entering ks).Shown c kept top v) (hr : r ∈ c.kept) :
    (Stage.entering (r :: ks)).Shown c kept top (v.push (v.registers.get r)) := by
  obtain ⟨height, stored, registers, written⟩ := h
  have there : (v.push (v.registers.get r)).cell (v.height + 1) = some (kept r) := by
    rw [View.cell_push, registers r hr]
  rw [height] at there
  refine ⟨?_, ⟨there, stored.push _ (by omega)⟩, ?_, ?_⟩
  · rw [View.height_push, height, List.length_cons, Nat.add_assoc]
  · intro q hq
    rw [View.get_push v _ (Context.ne_esp_of_mem_kept hq)]
    exact registers q hq
  · rw [View.height_push]
    exact View.written_push _ written

theorem Stage.Shown.restore {r : Register} {ks : List Register}
    (h : (Stage.leaving (r :: ks)).Shown c kept top v) :
    (Stage.leaving ks).Shown c kept top ((v.moveTop (v.height - 1)).set r (kept r)) := by
  obtain ⟨height, ⟨-, stored⟩, registers, written⟩ := h
  rw [List.length_cons] at height
  have lower : v.height - 1 = top + ks.length := by omega
  refine ⟨lower, stored.moveTop (v.height - 1) (by omega), ?_, ?_⟩
  · intro q hq notMem
    rw [View.get_set]
    split
    · rename_i same
      rw [same]
    · rename_i other
      rw [View.get_moveTop v _ (Context.ne_esp_of_mem_kept hq)]
      refine registers q hq fun mem => ?_
      rcases List.mem_cons.mp mem with same | mem
      · exact other same
      · exact notMem mem
  · refine View.written_moveTop (k := v.height - 1) (fun k low high => ?_) (Nat.sub_le _ _)
    exact written k low (Nat.le_trans high (Nat.sub_le _ _))

/-- The functions of the run-time library are not in the module. -/
def Image.LeavesLibrary (image : Image) : Prop :=
  ∀ s k, libraryWords? s = some k → image.functions.get? s = none

/-- An instruction of a routine does to a view what it does to the stage, or the program has made a
mistake. -/
theorem Works.exec {i : Instruction} {s s' : Stage} (h : Works c i s s') (R : v.Ready c top)
    (hl : image.HasLiterals c) (hf : image.LeavesLibrary) (shown : s.Shown c kept top v) :
    ∃ e, v.exec image i = some e ∧
      e.Meets fun v' => s'.Shown c kept top v' ∧ v.Spares c top v' := by
  have high := R.room
  have ceiling : X86.room + 2 ^ 29 ≤ ceiling := by decide
  cases h with
  | @plain i n h =>
    have written : Written v.cell v.height := shown.1 ▸ shown.2.2.2.2
    obtain ⟨e, done, met⟩ := (R.framed shown).exec written hl h
    exact ⟨e, done, met.imp fun v' a => ⟨shown.alters a, a.spares⟩⟩
  | @push o n h =>
    have written : Written v.cell v.height := shown.1 ▸ shown.2.2.2.2
    obtain ⟨x, hx⟩ := (R.framed shown).read written hl h
    refine ⟨.ok (v.push x), ?_, shown.push x, v.spares_push x ?_⟩
    · simp only [View.exec, hx, Option.map_some]
    · have := shown.1
      omega
  | @pop d n h =>
    have height := shown.1
    have written : Written v.cell v.height := shown.1 ▸ shown.2.2.2.2
    have lower : v.height - 1 = top + c.kept.length + n := by omega
    have positive : 1 ≤ v.height := height ▸ Nat.le_add_left 1 (top + c.kept.length + n)
    have shown' := shown.drop (Nat.le_succ n)
    rw [← lower] at shown'
    have R' : (v.moveTop (v.height - 1)).Ready c top :=
      ⟨View.topped_moveTop v _, Nat.le_trans (Nat.sub_le _ _) R.room, R.given⟩
    obtain ⟨x, hx⟩ := Option.isSome_iff_exists.mp (written v.height positive (Nat.le_refl _))
    obtain ⟨v', moved, altered⟩ := (R'.framed shown').write h (Nat.le_refl n) x
    have popped : v.pop? = some (x, v.moveTop (v.height - 1)) := by
      unfold View.pop?
      rw [if_pos positive, hx]
      rfl
    refine ⟨.ok v', ?_, shown'.alters altered, fun k hk => ?_⟩
    · simp only [View.exec, popped, Option.bind_eq_bind, Option.bind_some, moved]
      rfl
    · exact (altered.spares k hk).trans (v.spares_moveTop (v.height - 1) (by omega) k hk)
  | @drop n k =>
    have height := shown.1
    obtain ⟨x, o, done⟩ := View.arithmetic_top image (· + ·)
      (w := .ofNat (4 * k)) (k := top + c.kept.length + n) R.topped (by omega) (by
        rw [toInt_heightWord (by omega), Int32.toInt_ofNat_of_lt (by unfold X86.room at high; omega)]
        omega)
    refine ⟨_, done, ?_, ?_⟩
    · exact shown.drop (Nat.le_add_right n k)
    · exact v.spares_moveTop (top + c.kept.length + n) (by omega)
  | @reserve k small =>
    have height := shown.1
    obtain ⟨x, o, done⟩ := View.arithmetic_top image (· - ·)
      (w := .ofNat (4 * k)) (k := top + c.kept.length + k) R.topped (by omega) (by
        rw [toInt_heightWord (by omega), Int32.toInt_ofNat_of_lt small]
        omega)
    exact ⟨_, done, shown.reserve k, v.spares_moveTop (top + c.kept.length + k) (by omega)⟩
  | @clear n k h =>
    have height := shown.1
    have place := (R.framed shown).at (k := top + c.kept.length + (k + 1)) (w := -4 * (k + 1))
      (by omega) (Nat.le_add_left 1 (top + c.kept.length + k)) (by omega)
    have moved : v.write (.frame (-4 * (k + 1))) 0 =
        some (v.put (top + c.kept.length + (k + 1)) 0) := by
      simp only [View.write, Operand.frame, place, Option.map_some]
    refine ⟨.ok _, View.exec_mov rfl moved, shown.clear h 0, fun j hj => if_neg (by omega)⟩
  | @library s n k hs h =>
    have height := shown.1
    have written : Written v.cell v.height := shown.1 ▸ shown.2.2.2.2
    obtain ⟨e, served, met⟩ := View.serve_meets hs written (by omega) (Owns c top n)
      fun j low high => .inl ⟨by omega, by omega⟩
    refine ⟨e, ?_, met.imp fun v' a => ⟨shown.alters a, a.spares⟩⟩
    simp only [View.exec, hf s k hs]
    exact served
  | @keep r ks h =>
    refine ⟨.ok _, rfl, shown.keep h, v.spares_push _ ?_⟩
    have := shown.1
    omega
  | raise =>
    obtain ⟨height, stored, registers, written⟩ := shown
    refine ⟨.ok _, rfl, ⟨height, Nat.le_refl 0, ?_, stored, height ▸ written⟩, fun _ _ => rfl⟩
    rw [← height]
    exact R.topped
  | @fold n =>
    obtain ⟨height, -, base, stored, written⟩ := shown
    have place : heightOf? v.registers.ebp = some (top + c.kept.length) := by
      rw [base]
      exact heightOf?_heightWord (by omega)
    have moved : v.write Register.esp v.registers.ebp =
        some (v.moveTop (top + c.kept.length)) := by
      simp only [View.write, place, Option.map_some]
    refine ⟨.ok _, View.exec_mov rfl moved, ⟨rfl, ?_, ?_, ?_⟩, v.spares_moveTop _ (by omega)⟩
    · exact stored.moveTop _ (by omega)
    · exact fun r hr notMem => absurd hr notMem
    · refine View.written_moveTop (j := top + c.kept.length) (fun k low high => ?_) (by omega)
      exact written k low (by omega)
  | @restore r ks h =>
    have height := shown.1
    rw [List.length_cons] at height
    have there : v.cell v.height = some (kept r) := by
      rw [height]
      exact shown.2.1.1
    have positive : 1 ≤ v.height := height ▸ Nat.le_add_left 1 (top + ks.length)
    have popped : v.pop? = some (kept r, v.moveTop (v.height - 1)) := by
      unfold View.pop?
      rw [if_pos positive, there]
      rfl
    refine ⟨.ok _, ?_, shown.restore, v.spares_moveTop (v.height - 1) (by omega)⟩
    simp only [View.exec, popped, Option.bind_eq_bind, Option.bind_some,
      View.write_register (Context.ne_esp_of_mem_kept h)]
    rfl

end Instructions

end Threefold.X86
