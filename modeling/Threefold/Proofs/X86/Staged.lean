import Threefold.Proofs.X86.Stages

/-!
# The stages of generated code

The code of every piece that lowering puts together takes a routine from one stage to another, and
the stage behind the code of an instruction of the bytecode follows from the operands there alone.

* `leads_prologue` is about the code in front of a routine.
* `leads_code` is about the code of an instruction. Behind it the frame has the words of the
  variables and of the operands that are left, unless control goes elsewhere.
-/

namespace Threefold.X86

open View (savedWords save_add_two restore_add_two)
open Directive (codeOf)

section Words

variable {c : Context} {m n : Nat} {ws : Words}

/-- Two words that the code of a routine reads. -/
structure ReadableWords (c : Context) (n : Nat) (ws : Words) : Prop where
  value : Readable c n ws.value
  tag : Readable c n ws.tag

/-- Two words that the code of a routine writes. -/
structure WritableWords (c : Context) (n : Nat) (ws : Words) : Prop where
  value : Writable c n ws.value
  tag : Writable c n ws.tag

theorem ReadableWords.mono (h : ReadableWords c m ws) (hn : m ≤ n) : ReadableWords c n ws :=
  ⟨h.value.mono hn, h.tag.mono hn⟩

theorem Writable.mono {o : Operand} (h : Writable c m o) (hn : m ≤ n) : Writable c n o := by
  cases h with
  | register top base => exact .register top base
  | frame h => exact .frame (h.mono hn)
  | global g => exact .global g

theorem WritableWords.readable (h : WritableWords c n ws) : ReadableWords c n ws :=
  ⟨h.value.readable, h.tag.readable⟩

theorem InFrame.of_own {k : Nat} {x : Int} (hx : x = -4 * k) (low : 1 ≤ k) (high : k ≤ n) :
    InFrame c n (.frame x) :=
  hx ▸ .own low high

theorem InFrame.of_given {k : Nat} {x : Int} (hx : x = 8 + 4 * k) (h : k < c.given) :
    InFrame c n (.frame x) :=
  hx ▸ .given h

/-- The registers in which results are. -/
theorem writable_result : WritableWords c n Code.result :=
  ⟨.register (by decide) (by decide), .register (by decide) (by decide)⟩

theorem writable_inner {i : Nat} (h : i < c.frame.inner.length)
    (hn : 2 * c.frame.inner.length ≤ n) : WritableWords c n (Frame.innerWords i) := by
  refine ⟨.frame (.of_own (k := 2 * i + 2) ?_ ?_ ?_), .frame (.of_own (k := 2 * i + 1) ?_ ?_ ?_)⟩ <;>
    omega

theorem writable_parameter (entry : c.isEntry = true → c.frame.parameters = []) {i : Nat}
    (h : i < c.frame.parameters.length) : WritableWords c n (Frame.parameterWords i) := by
  have given : 2 * c.frame.parameters.length ≤ c.given := by
    unfold Context.given
    split
    · rename_i host
      rw [entry host]
      exact Nat.le_refl 0
    · omega
  refine ⟨.frame (.of_given (k := 2 * i) ?_ ?_), .frame (.of_given (k := 2 * i + 1) ?_ ?_)⟩ <;> omega

/-- The words of a variable. -/
theorem writable_words (entry : c.isEntry = true → c.frame.parameters = [])
    (hn : 2 * c.frame.inner.length ≤ n) {x : Bytecode.Variable} (h : c.words x = .ok ws) :
    WritableWords c n ws := by
  unfold Context.words at h
  cases found : c.frame.words? x with
  | none => simp [found] at h
  | some ws' =>
    simp only [found, Except.ok.injEq] at h
    subst h
    obtain ⟨home, place, rfl⟩ := Option.map_eq_some_iff.mp found
    unfold Frame.home? at place
    split at place
    · split at place
      · cases place
        exact ⟨.global .payload, .global .payloadTag⟩
      · cases place
    · cases parameter : c.frame.parameters.idxOf? x with
      | some i =>
        rw [parameter] at place
        cases place
        exact writable_parameter entry (List.idxOf?_eq_some_iff.mp parameter).1
      | none =>
        rw [parameter] at place
        obtain ⟨i, inner, rfl⟩ := Option.map_eq_some_iff.mp place
        exact writable_inner (List.idxOf?_eq_some_iff.mp inner).1 hn

/-- The words of an operand. -/
theorem writable_place {s : Operands} {slot : Slot} {d : Nat} (hs : slot.place = .atDepth d)
    (hd : d < s.depth) : WritableWords c (c.extent s) (c.slotWords slot) := by
  unfold Context.slotWords
  rw [hs]
  match d, hd with
  | 0, _ => exact ⟨.register (by decide) (by decide), .register (by decide) (by decide)⟩
  | 1, _ => exact ⟨.register (by decide) (by decide), .register (by decide) (by decide)⟩
  | k + 2, hd =>
    have extent : c.extent s = 2 * c.frame.inner.length + 2 * (s.depth - 2) := rfl
    have size : c.frame.size = 8 * c.frame.inner.length := rfl
    refine ⟨.frame (.of_own (k := 2 * c.frame.inner.length + 2 * k + 2) ?_ ?_ ?_),
      .frame (.of_own (k := 2 * c.frame.inner.length + 2 * k + 1) ?_ ?_ ?_)⟩ <;> omega

end Words

namespace Leads

variable {c : Context} {p : Plan} {n : Nat} {ws : Words} {code : Code}

/-! ## Words on the stack -/

theorem push {o : Operand} (h : Readable c n o) :
    Leads c p [.push o] (.standing n) (.standing (n + 1)) :=
  .one (.works (.push h))

theorem pop {o : Operand} (h : Writable c n o) :
    Leads c p [.pop o] (.standing (n + 1)) (.standing n) :=
  .one (.works (.pop h))

theorem pushWords (h : ReadableWords c n ws) :
    Leads c p [.push ws.tag, .push ws.value] (.standing n) (.standing (n + 2)) :=
  (push h.tag).append (push (h.value.mono (Nat.le_succ n)))

theorem drop (k : Nat) : Leads c p (Code.drop k) (.standing (n + 2 * k)) (.standing n) := by
  unfold Code.drop
  split
  · rename_i zero
    rw [zero]
    exact .nil _
  · have bytes : 8 * k = 4 * (2 * k) := by omega
    rw [bytes]
    exact .one (.works .drop)

theorem save (d : Nat) : Leads c p (Code.save d) (.standing n) (.standing (n + savedWords d)) := by
  have register (r : Register) (m : Nat) : Leads c p [.push r] (.standing m) (.standing (m + 1)) :=
    push (.register r)
  match d with
  | 0 => exact .nil _
  | 1 => exact (register .ecx n).append (register .edx (n + 1))
  | d + 2 =>
    rw [save_add_two]
    exact (register .ecx n).append ((register .edx (n + 1)).append
      ((register .esi (n + 2)).append (register .edi (n + 3))))

theorem restore (d : Nat) :
    Leads c p (Code.restore d) (.standing (n + savedWords d)) (.standing n) := by
  have register {r : Register} (hr : r ≠ .esp) (hr' : r ≠ .ebp) (m : Nat) :
      Leads c p [.pop r] (.standing (m + 1)) (.standing m) :=
    pop (.register hr hr')
  match d with
  | 0 => exact .nil _
  | 1 =>
    exact (register (r := .edx) (by decide) (by decide) (n + 1)).append
      (register (r := .ecx) (by decide) (by decide) n)
  | d + 2 =>
    rw [restore_add_two]
    exact (register (r := .edi) (by decide) (by decide) (n + 3)).append
      ((register (r := .esi) (by decide) (by decide) (n + 2)).append
        ((register (r := .edx) (by decide) (by decide) (n + 1)).append
          (register (r := .ecx) (by decide) (by decide) n)))

/-- A result is kept on the stack while other code runs. -/
theorem parked (h : Leads c p code (.standing (n + 2)) (.standing (n + 2))) :
    Leads c p (Code.parked code) (.standing n) (.standing n) := by
  have first : Leads c p [.push Register.ebx, .push Register.eax] (.standing n)
      (.standing (n + 2)) :=
    (push (.register .ebx)).append (push (.register .eax))
  have last : Leads c p [.pop Register.eax, .pop Register.ebx] (.standing (n + 2))
      (.standing n) :=
    (pop (.register (by decide) (by decide))).append (pop (.register (by decide) (by decide)))
  exact (first.append h).append last

/-! ## Counting references -/

theorem count {s : Symbol} (hs : libraryWords? s = some 2) (h : ReadableWords c n ws) (d : Nat) :
    Leads c p (Code.count s ws d) (.standing n) (.standing n) := by
  have argument := pushWords (p := p) (h.mono (Nat.le_add_right n (savedWords d)))
  have called : Leads c p [.call s] (.standing (n + savedWords d + 2))
      (.standing (n + savedWords d + 2)) :=
    .one (.works (.library hs (Nat.le_add_left 2 _)))
  exact (((save d).append (argument.append called)).append (drop 1)).append (restore d)

theorem retain (h : ReadableWords c n ws) (d : Nat) :
    Leads c p (Code.retain ws d) (.standing n) (.standing n) :=
  count (if_pos (.inl rfl)) h d

theorem release (h : ReadableWords c n ws) (d : Nat) :
    Leads c p (Code.release ws d) (.standing n) (.standing n) :=
  count (if_pos (.inr rfl)) h d

/-- The same is done for each of some words. -/
theorem flatMap {α : Type} {xs : List α} {f : α → Code}
    (h : ∀ x ∈ xs, Leads c p (f x) (.standing n) (.standing n)) :
    Leads c p (xs.flatMap f) (.standing n) (.standing n) := by
  induction xs with
  | nil => exact .nil _
  | cons x xs ih =>
    rw [List.flatMap_cons]
    exact (h x List.mem_cons_self).append (ih fun y hy => h y (List.mem_cons_of_mem x hy))

/-! ## Moving words -/

theorem move {s d : Operand} (hs : Readable c n s) (hd : Writable c n d) :
    Leads c p (Code.move s d) (.standing n) (.standing n) := by
  have eax : Writable c n Register.eax := .register (by decide) (by decide)
  unfold Code.move
  split
  · exact works (.plain (.mov hs eax)) (.one (.works (.plain (.mov eax.readable hd))))
  · exact .one (.works (.plain (.mov hs hd)))

theorem moveWords {ws' : Words} (h : ReadableWords c n ws) (h' : WritableWords c n ws') :
    Leads c p (Code.moveWords ws ws') (.standing n) (.standing n) :=
  (move h.value h'.value).append (move h.tag h'.tag)

/-- A value becomes the operand on top. -/
theorem pushAt {s : Operands} {owned : Bool} (h : ReadableWords c (c.extent s) ws) :
    Leads c p (Code.pushAt s.depth ws) (.standing (c.extent s))
      (.standing (c.extent (s.push owned))) := by
  have extent : c.extent s = 2 * c.frame.inner.length + 2 * (s.depth - 2) := rfl
  have extent' : c.extent (s.push owned) = 2 * c.frame.inner.length + 2 * (s.depth + 1 - 2) := rfl
  unfold Code.pushAt
  match hd : s.depth with
  | 0 =>
    have same : c.extent (s.push owned) = c.extent s := by omega
    rw [same]
    exact works (.plain (.mov h.value (.register (by decide) (by decide))))
      (.one (.works (.plain (.mov h.tag (.register (by decide) (by decide))))))
  | 1 =>
    have same : c.extent (s.push owned) = c.extent s := by omega
    rw [same]
    exact works (.plain (.mov h.value (.register (by decide) (by decide))))
      (.one (.works (.plain (.mov h.tag (.register (by decide) (by decide))))))
  | k + 2 =>
    have more : c.extent (s.push owned) = c.extent s + 2 := by omega
    rw [more]
    exact pushWords h

end Leads

/-! ## Operands that are used up -/

/-- Operands from the top of others, and those below them. -/
structure Taken (s : Operands) (slots : List Slot) (below : Operands) : Prop where
  place : ∀ slot ∈ slots, ∃ d < s.depth, slot.place = .atDepth d
  spilled : slots.countP (·.place.isSpilled) = (s.depth - 2) - (below.depth - 2)
  depth : below.depth + slots.length = s.depth

section Taken

variable {s below : Operands} {slots : List Slot} {slot : Slot} {origin : String} {n : Nat}

theorem place_of_mem_slotsOf {flags : List Bool} (h : slot ∈ Operands.slotsOf flags) :
    ∃ d < flags.length, slot.place = .atDepth d := by
  induction flags with
  | nil => cases h
  | cons o flags ih =>
    rcases List.mem_cons.mp h with rfl | later
    · exact ⟨flags.length, Nat.lt_succ_self _, rfl⟩
    · obtain ⟨d, hd, place⟩ := ih later
      exact ⟨d, Nat.lt_succ_of_lt hd, place⟩

theorem taken_of_popMany (h : Lowering.popMany s n origin = .ok (slots, below)) :
    Taken s slots below := by
  obtain ⟨length, depth⟩ := Lowering.length_of_popMany h
  unfold Lowering.popMany Operands.popMany? at h
  split at h
  · rename_i popped
    cases h
    split at popped
    · cases popped
      have top : s.slots.drop (s.depth - n) = ((Operands.slotsOf s.owned).take n).reverse := by
        rw [List.reverse_take, Operands.length_slotsOf]
        rfl
      refine ⟨fun slot h => ?_, ?_, by rw [length]; exact depth⟩
      · rw [top, List.mem_reverse] at h
        exact place_of_mem_slotsOf (List.mem_of_mem_take h)
      · rw [top, List.countP_reverse, Operands.countP_isSpilled]
        simp only [Operands.depth, List.length_drop]
    · cases popped
  · cases h

theorem taken_of_pop (h : Lowering.pop s origin = .ok (slot, below)) : Taken s [slot] below := by
  unfold Lowering.pop Operands.pop? at h
  obtain ⟨owned⟩ := s
  cases owned with
  | nil => cases h
  | cons o rest =>
    cases h
    have spilled := Operands.countP_isSpilled (o :: rest) 1
    refine ⟨fun slot h => ?_, spilled, rfl⟩
    rw [List.mem_singleton.mp h]
    exact ⟨rest.length, Nat.lt_succ_self _, rfl⟩

end Taken

namespace Leads

variable {c : Context} {p : Plan} {n : Nat} {s below : Operands} {slots : List Slot}

theorem readable_of_mem (T : Taken s slots below) (hn : c.extent s ≤ n) {slot : Slot}
    (h : slot ∈ slots) : ReadableWords c n (c.slotWords slot) := by
  obtain ⟨d, hd, place⟩ := T.place slot h
  exact (writable_place place hd).readable.mono hn

theorem releaseOwned (T : Taken s slots below) (hn : c.extent s ≤ n) (d : Nat) :
    Leads c p (Code.releaseOwned c slots d) (.standing n) (.standing n) := by
  refine flatMap fun slot h => release (readable_of_mem T hn ?_) d
  exact List.mem_reverse.mp (List.mem_filter.mp h).1

theorem dropSpilled (T : Taken s slots below) :
    Leads c p (Code.dropSpilled slots) (.standing (c.extent s)) (.standing (c.extent below)) := by
  have depth := T.depth
  have spilled := T.spilled
  have extent : c.extent s = c.extent below + 2 * ((s.depth - 2) - (below.depth - 2)) := by
    unfold Context.extent
    omega
  unfold Code.dropSpilled
  rw [extent, spilled]
  exact drop _

theorem discard (T : Taken s slots below) (d : Nat) :
    Leads c p (Code.discard c slots d) (.standing (c.extent s)) (.standing (c.extent below)) := by
  refine append (?_ : Leads c p _ _ (.standing (c.extent s))) (dropSpilled T)
  split
  · refine ((push (.register .eax)).append (releaseOwned T (Nat.le_succ _) d)).append ?_
    exact pop (.register (by decide) (by decide))
  · exact .nil _

/-! ## Operators -/

variable {left right : Operand}

theorem compare (hl : Readable c n left) (hr : Readable c n right) (condition : Condition) :
    Leads c p (Code.compare left right condition) (.standing n) (.standing n) := by
  have eax : Writable c n Register.eax := .register (by decide) (by decide)
  exact works (.plain (.mov hl eax)) (works (.plain (.cmp hr eax.readable))
    (works (.plain (.set condition .al)) (.one (.works (.plain (.movzbl eax))))))

theorem normalise (h : Readable c n left) (b : ByteRegister) :
    Leads c p (Code.normalise left b) (.standing n) (.standing n) := by
  have byte : Writable c n b.full := .register (by cases b <;> decide) (by cases b <;> decide)
  exact works (.plain (.mov h byte)) (works (.plain (.cmp (.immediate 0) byte.readable))
    (works (.plain (.set .notEqual b)) (.one (.works (.plain (.movzbl byte))))))

theorem divide (hl : Readable c n left) (hr : Readable c n right) {result : Code}
    (h : Leads c p result (.standing (n + 1)) (.standing (n + 1))) :
    Leads c p (Code.divide left right result) (.standing n) (.standing n) := by
  have ebx : Writable c n Register.ebx := .register (by decide) (by decide)
  have eax : Writable c n Register.eax := .register (by decide) (by decide)
  have front : Leads c p [.mov right Register.ebx, .mov left Register.eax, .push Register.edx,
      .cltd, .idiv Register.ebx] (.standing n) (.standing (n + 1)) :=
    works (.plain (.mov hr ebx)) (works (.plain (.mov hl eax)) (works (.push (.register .edx))
      (works (.plain .cltd) (.one (.works (.plain (.idiv (.register .ebx))))))))
  exact (front.append h).append (pop (.register (by decide) (by decide)))

theorem binary (hl : Readable c n left) (hr : Readable c n right) (op : BinaryOp) :
    Leads c p (Code.binary op left right) (.standing n) (.standing n) := by
  have eax (m : Nat) : Writable c m Register.eax := .register (by decide) (by decide)
  have both : Leads c p (Code.normalise left .al ++ Code.normalise right .bl) (.standing n)
      (.standing n) :=
    (normalise hl .al).append (normalise hr .bl)
  cases op with
  | plus => exact works (.plain (.mov hl (eax n))) (.one (.works (.plain (.add hr (eax n)))))
  | minus => exact works (.plain (.mov hl (eax n))) (.one (.works (.plain (.sub hr (eax n)))))
  | times => exact works (.plain (.mov hl (eax n))) (.one (.works (.plain (.imul hr (eax n)))))
  | div => exact divide hl hr (.nil _)
  | rem => exact divide hl hr (.one (.works (.plain (.mov (.register .edx) (eax _)))))
  | and => exact both.append (.one (.works (.plain (.and (.register .ebx) (eax n)))))
  | or => exact both.append (.one (.works (.plain (.or (.register .ebx) (eax n)))))
  | eq => exact compare hl hr .equal
  | ne => exact compare hl hr .notEqual
  | gt => exact compare hl hr .greater
  | lt => exact compare hl hr .less
  | le => exact compare hl hr .lessOrEqual
  | ge => exact compare hl hr .greaterOrEqual

/-! ## Storing -/

theorem storeCounted {source destination : Words} (hs : ReadableWords c n source)
    (hd : WritableWords c n destination) (owned : Bool) (d : Nat) :
    Leads c p (Code.storeCounted source destination owned d) (.standing n) (.standing n) := by
  have old := hd.readable
  refine (((release old d).append (moveWords hs hd)).append (retain old d)).append ?_
  split
  · exact release old d
  · exact .nil _

/-! ## Calls -/

/-- Values are put on the stack one after the other. -/
theorem pushAll {α : Type} {xs : List α} {f : α → Words}
    (h : ∀ x ∈ xs, ReadableWords c n (f x)) :
    Leads c p (xs.flatMap fun x => [.push (f x).tag, .push (f x).value]) (.standing n)
      (.standing (n + 2 * xs.length)) := by
  induction xs generalizing n with
  | nil => exact .nil _
  | cons x xs ih =>
    have rest := ih fun y hy => (h y (List.mem_cons_of_mem x hy)).mono (Nat.le_add_right n 2)
    have count : n + 2 + 2 * xs.length = n + 2 * (x :: xs).length := by
      rw [List.length_cons]
      omega
    rw [count] at rest
    exact (pushWords (h x List.mem_cons_self)).append rest

/-- The word for the number of an exception. -/
def thrownWords (throws : Bool) : Nat :=
  if throws then 1 else 0

theorem enter (T : Taken s slots below) (symbol : Symbol) (throws : Bool) (d : Nat)
    (called : Leads c p [.call symbol]
      (.standing (c.extent s + savedWords d + thrownWords throws + 2 * slots.length))
      (.standing (c.extent s + savedWords d + thrownWords throws + 2 * slots.length))) :
    Leads c p (Code.enter c symbol throws slots d) (.standing (c.extent s))
      (.standing (c.extent s + savedWords d + thrownWords throws + 2 * slots.length)) := by
  have zero (m : Nat) : Leads c p (if throws then [.push (.immediate 0)] else []) (.standing m)
      (.standing (m + thrownWords throws)) := by
    cases throws with
    | true => exact push (.immediate 0)
    | false => exact .nil _
  have arguments (m : Nat) (hm : c.extent s ≤ m) :
      Leads c p (slots.reverse.flatMap fun s => [.push (c.slotWords s).tag,
        .push (c.slotWords s).value]) (.standing m) (.standing (m + 2 * slots.length)) := by
    rw [← List.length_reverse]
    exact pushAll fun slot h => readable_of_mem T hm (List.mem_reverse.mp h)
  exact (((save d).append (zero _)).append (arguments _ (by omega))).append called

theorem resume (T : Taken s slots below) (tag : Option Tag) {thrown : Option Operand}
    (hthrown : ∀ o, thrown = some o → Writable c (c.extent s) o) (retained : Bool) (d : Nat) :
    Leads c p (Code.resume c tag thrown retained slots d)
      (.standing (c.extent s + savedWords d + thrownWords thrown.isSome + 2 * slots.length))
      (.standing (c.extent below)) := by
  have tagged (m : Nat) : Leads c p (tag.elim [] fun t => [.mov (.immediate t.code) Register.ebx])
      (.standing m) (.standing m) := by
    cases tag with
    | none => exact .nil _
    | some t =>
      exact .one (.works (.plain (.mov (.immediate _) (.register (by decide) (by decide)))))
  have handed (m : Nat) (hm : c.extent s ≤ m) : Leads c p (thrown.elim [] fun o => [.pop o])
      (.standing (m + thrownWords thrown.isSome)) (.standing m) := by
    cases thrown with
    | none => exact .nil _
    | some o => exact pop ((hthrown o rfl).mono hm)
  have result : Leads c p (if retained then Code.parked (Code.retain Code.result d) else [])
      (.standing (c.extent s)) (.standing (c.extent s)) := by
    split
    · exact parked (retain writable_result.readable d)
    · exact .nil _
  have owned : Leads c p (if slots.any (·.owned) then Code.parked (Code.releaseOwned c slots d)
      else []) (.standing (c.extent s)) (.standing (c.extent s)) := by
    split
    · exact parked (releaseOwned T (Nat.le_add_right _ 2) d)
    · exact .nil _
  exact ((((((tagged _).append (drop slots.length)).append (handed _ (Nat.le_add_right _ _))).append
    (restore d)).append result).append owned).append (dropSpilled T)

end Leads

/-! ## Calls of routines and of the run-time library -/

/-- What is asked of a routine: the entry has no parameters, and the words of the variables can be
counted in a word. -/
structure Context.Modest (c : Context) : Prop where
  entry : c.isEntry = true → c.frame.parameters = []
  small : 4 * (2 * c.frame.inner.length) < 2 ^ 31

theorem Frame.parameters_place (f : Frame) (x : Bytecode.Variable) :
    (f.place x).parameters = f.parameters := by
  unfold place
  split
  · rfl
  · split <;> rfl

theorem Frame.parameters_ofRoutine (b : Bytecode) (r : Bytecode.Routine) :
    (ofRoutine b r).parameters = r.parameters.map .named := by
  have kept (xs : List Bytecode.Variable) (f : Frame) :
      (xs.foldl place f).parameters = f.parameters := by
    induction xs generalizing f with
    | nil => rfl
    | cons x xs ih => rw [List.foldl_cons, ih, parameters_place]
  unfold ofRoutine
  rw [kept]

theorem libraryWords?_nativeSymbol (i : Intrinsic) :
    libraryWords? i.nativeSymbol = some (2 * i.arity + Leads.thrownWords i.canThrow) := by
  cases i <;> decide

/-- The operands of a call are all that the callee uses. -/
theorem leads_call {b : Bytecode} {r : Bytecode.Routine} {p : Plan} (hb : Regular b)
    {callee : Bytecode.Callee} {symbol : Symbol}
    (h : Lowering.target (.ofRoutine b r) callee = .ok symbol) {n : Nat}
    (hn : Leads.thrownWords (b.canThrow callee) + 2 * callee.arity ≤ n) :
    Leads (.ofRoutine b r) p [.call symbol] (.standing n) (.standing n) := by
  cases callee with
  | intrinsic i =>
    cases h
    have arity : (Bytecode.Callee.intrinsic i).arity = i.arity := rfl
    have throws : b.canThrow (.intrinsic i) = i.canThrow := rfl
    rw [arity, throws] at hn
    exact .one (.works (.library (libraryWords?_nativeSymbol i) (by omega)))
  | routine s =>
    unfold Lowering.target at h
    dsimp only at h
    cases found : (Context.ofRoutine b r).bytecode.routine? s with
    | none => simp [found] at h
    | some r' =>
      have isSome : ((Context.ofRoutine b r).bytecode.routine? s).isSome := by
        rw [found]
        rfl
      rw [if_pos isSome] at h
      cases h
      have mem : r' ∈ b.routines := List.mem_of_find?_eq_some found
      have signature : r'.signature = s := by
        have there := List.find?_some found
        exact of_decide_eq_true there
      have throws : b.canThrow (.routine s) = r'.canThrow := by
        have routine : b.routine? s = some r' := found
        simp only [Bytecode.canThrow, routine, Option.map_some, Option.getD_some]
      have arity : (Bytecode.Callee.routine s).arity = r'.parameters.length := by
        rw [← hb.arity r' mem, signature]
        rfl
      have parameters : (Context.ofRoutine b r').frame.parameters.length = r'.parameters.length := by
        show (Frame.ofRoutine b r').parameters.length = _
        rw [Frame.parameters_ofRoutine, List.length_map]
      have given : (Context.ofRoutine b r').given ≤ n := by
        rw [throws, arity] at hn
        unfold Context.given
        rw [parameters]
        unfold Leads.thrownWords at hn
        split
        · exact Nat.zero_le n
        · have routine : (Context.ofRoutine b r').routine = r' := rfl
          rw [routine]
          omega
      rw [← signature]
      exact .one (.routine mem given)

/-! ## The two ends of a routine -/

namespace Leads

variable {c : Context} {p : Plan} {n : Nat}

/-- Zeros for the words of the variables. -/
theorem clear {j m : Nat} :
    Leads c p ((List.range' j m).map fun (k : Nat) =>
      .mov (.immediate 0) (.frame (-4 * (k + 1)))) (.inside (j + m) j) (.standing (j + m)) := by
  induction m generalizing j with
  | zero => exact .nil _
  | succ m ih =>
    have rest := ih (j := j + 1)
    have total : j + 1 + m = j + (m + 1) := by omega
    rw [total] at rest
    rw [List.range'_succ, List.map_cons]
    exact works (.clear (by omega)) rest

theorem prologue (hc : c.Modest) :
    Leads c p (Code.prologue c) (.entering []) (.standing (2 * c.frame.inner.length)) := by
  have kept : Leads c p
      ((if c.isEntry then [.push Register.ebx, .push Register.esi, .push Register.edi] else []) ++
        [.push Register.ebp, .mov Register.esp Register.ebp]) (.entering []) (.standing 0) := by
    have host : c.isEntry = true → c.kept = [.ebp, .edi, .esi, .ebx] := fun h => if_pos h
    have raised := Leads.one (p := p) (.works (Works.raise (c := c)))
    cases h : c.isEntry with
    | true =>
      rw [host h] at raised
      have keep (r : Register) (ks : List Register) (hr : r ∈ [Register.ebp, .edi, .esi, .ebx]) :
          Works c (.push r) (.entering ks) (.entering (r :: ks)) :=
        .keep (by rw [host h]; exact hr)
      exact works (keep .ebx [] (by decide)) (works (keep .esi _ (by decide))
        (works (keep .edi _ (by decide)) (works (keep .ebp _ (by decide)) raised)))
    | false =>
      have alone : c.kept = [.ebp] := by
        unfold Context.kept
        rw [h]
        rfl
      rw [alone] at raised
      exact works (.keep (by rw [alone]; decide)) raised
  have reserved : Leads c p (if c.frame.size = 0 then []
      else [.sub (.immediate (.ofNat c.frame.size)) Register.esp]) (.standing 0)
      (.inside (2 * c.frame.inner.length) 0) := by
    have size : c.frame.size = 4 * (2 * c.frame.inner.length) := by
      unfold Frame.size
      omega
    split
    · have none : 2 * c.frame.inner.length = 0 := by omega
      rw [none]
      exact .nil _
    · rw [size]
      exact .one (.works (.reserve hc.small))
  have cleared : Leads c p (c.frame.innerCells.map fun cell => .mov (.immediate 0) cell)
      (.inside (2 * c.frame.inner.length) 0) (.standing (2 * c.frame.inner.length)) := by
    have zeros := clear (c := c) (p := p) (j := 0) (m := 2 * c.frame.inner.length)
    rw [Nat.zero_add] at zeros
    unfold Frame.innerCells
    rw [List.map_map, List.range_eq_range']
    exact zeros
  have retained : Leads c p (c.frame.parameterSlots.flatMap fun ws => Code.retain ws 0)
      (.standing (2 * c.frame.inner.length)) (.standing (2 * c.frame.inner.length)) := by
    refine flatMap fun ws h => retain (WritableWords.readable ?_) 0
    obtain ⟨i, hi, rfl⟩ := List.mem_map.mp h
    exact writable_parameter hc.entry (List.mem_range.mp hi)
  exact ((kept.append reserved).append cleared).append retained

theorem sweep (hc : c.Modest) (hn : 2 * c.frame.inner.length ≤ n) :
    Leads c p (Code.sweep c) (.standing n) (.standing n) := by
  refine flatMap fun ws h => release (WritableWords.readable ?_) 0
  rcases List.mem_append.mp h with parameter | inner
  · obtain ⟨i, hi, rfl⟩ := List.mem_map.mp parameter
    exact writable_parameter hc.entry (List.mem_range.mp hi)
  · obtain ⟨⟨x, i⟩, hx, rfl⟩ := List.mem_map.mp inner
    have there := List.mem_zipIdx (List.mem_filter.mp hx).1
    exact writable_inner (by omega) hn

theorem epilogue : Leads c p (Code.epilogue c) (.standing n) .gone := by
  have left : Leads c p [.ret] (.leaving []) .gone := .one .ret
  have restore {r : Register} (ks : List Register) (hr : r ∈ c.kept) :
      Works c (.pop r) (.leaving (r :: ks)) (.leaving ks) := .restore hr
  have folded := Works.fold (c := c) (n := n)
  cases h : c.isEntry with
  | true =>
    have host : c.kept = [.ebp, .edi, .esi, .ebx] := if_pos h
    have mem (r : Register) (hr : r ∈ [Register.ebp, .edi, .esi, .ebx]) : r ∈ c.kept := by
      rw [host]
      exact hr
    rw [host] at folded
    have code : Code.epilogue c = [.mov Register.ebp Register.esp, .pop Register.ebp,
        .pop Register.edi, .pop Register.esi, .pop Register.ebx, .ret] := by
      unfold Code.epilogue
      rw [h]
      rfl
    rw [code]
    exact works folded (works (restore _ (mem _ (by decide))) (works (restore _ (mem _ (by decide)))
      (works (restore _ (mem _ (by decide))) (works (restore _ (mem _ (by decide))) left))))
  | false =>
    have alone : c.kept = [.ebp] := by
      unfold Context.kept
      rw [h]
      rfl
    rw [alone] at folded
    have code : Code.epilogue c = [.mov Register.ebp Register.esp, .pop Register.ebp, .ret] := by
      unfold Code.epilogue
      rw [h]
      rfl
    rw [code]
    exact works folded (works (restore _ (by rw [alone]; decide)) left)

theorem returnValue (hc : c.Modest) (hn : 2 * c.frame.inner.length ≤ n) :
    Leads c p (Code.returnValue c) (.standing n) .gone := by
  have swept : Leads c p (if c.frame.swept.isEmpty then [] else Code.parked (Code.sweep c))
      (.standing n) (.standing n) := by
    split
    · exact .nil _
    · exact parked (sweep hc (Nat.le_add_right_of_le hn))
  have success : Leads c p (if c.isEntry then [.mov (.immediate 0) Register.eax] else [])
      (.standing n) (.standing n) := by
    split
    · exact .one (.works (.plain (.mov (.immediate 0) (.register (by decide) (by decide)))))
    · exact .nil _
  exact (swept.append success).append epilogue

theorem returnZero (hc : c.Modest) (hn : 2 * c.frame.inner.length ≤ n) :
    Leads c p (Code.returnZero c) (.standing n) .gone := by
  have zero : Leads c p [.mov (.immediate 0) Register.eax, .mov (.immediate 0) Register.ebx]
      (.standing n) (.standing n) :=
    works (.plain (.mov (.immediate 0) (.register (by decide) (by decide))))
      (.one (.works (.plain (.mov (.immediate 0) (.register (by decide) (by decide))))))
  exact ((sweep hc hn).append zero).append epilogue

end Leads

/-! ## Instructions of the bytecode -/

section Instructions

variable {b : Bytecode} {r : Bytecode.Routine} {p : Plan}

theorem leads_transfer {c : Context} (hc : c.Modest) {s : Operands} {ds : List Directive}
    (h : Lowering.transfer c = .ok ds) :
    Leads c p (codeOf ds) (.standing (c.extent s)) (.standing (c.extent s)) := by
  have own : 2 * c.frame.inner.length ≤ c.extent s := Nat.le_add_right _ _
  unfold Lowering.transfer at h
  split at h
  · cases h
    exact .nil _
  · rename_i throws
    obtain ⟨exception, hx, h⟩ := Program.ok_of_bind h
    obtain ⟨payload, hy, h⟩ := Program.ok_of_bind h
    cases h
    rw [Directive.codeOf_map]
    have number := (writable_words hc.entry own hx).readable
    have data := (writable_words hc.entry own hy).readable
    refine (Leads.move number.value ?_).append
      (Leads.moveWords data ⟨.global .payload, .global .payloadTag⟩)
    split
    · exact .global .uncaught
    · rename_i host
      refine .frame (.of_given (k := 2 * c.frame.parameters.length) (by omega) ?_)
      have marked : c.routine.canThrow = true := by
        cases hr : c.routine.canThrow with
        | true => rfl
        | false => simp [host, hr] at throws
      unfold Context.given
      rw [if_neg host, if_pos marked]
      exact Nat.lt_succ_self _

/-- The code of a call, with its result on top of the operands that are left. -/
theorem leads_lowerCall (hb : Regular b) (hc : (Context.ofRoutine b r).Modest) {s after : Operands}
    {callee : Bytecode.Callee} {code : Code}
    (h : Lowering.call (.ofRoutine b r) s callee = .ok (code, after)) :
    Leads (.ofRoutine b r) p code (.standing ((Context.ofRoutine b r).extent s))
      (.standing ((Context.ofRoutine b r).extent after)) := by
  obtain ⟨symbol, target, h⟩ := Program.ok_of_bind h
  obtain ⟨⟨arguments, below⟩, popped, h⟩ := Program.ok_of_bind h
  obtain ⟨thrown, handed, h⟩ := Program.ok_of_bind h
  cases h
  have taken := taken_of_popMany popped
  have length := (Lowering.length_of_popMany popped).1
  have word : thrown.isSome = b.canThrow callee ∧ ∀ o, thrown = some o →
      Writable (.ofRoutine b r) ((Context.ofRoutine b r).extent s) o := by
    unfold Lowering.thrownWord at handed
    split at handed
    · rename_i throws
      obtain ⟨ws, hws, handed⟩ := Program.ok_of_bind handed
      cases handed
      refine ⟨throws.symm, fun o ho => ?_⟩
      cases ho
      exact (writable_words hc.entry (Nat.le_add_right _ _) hws).value
    · rename_i never
      cases handed
      exact ⟨(Bool.eq_false_iff.mpr never).symm, fun o ho => by cases ho⟩
  have resumed := Leads.resume (p := p) taken (Lowering.knownTag? callee) word.2
    (Lowering.isRetained callee) s.depth
  rw [word.1] at resumed
  refine ((Leads.enter taken symbol _ s.depth (leads_call hb target ?_)).append resumed).append ?_
  · rw [length]
    omega
  · exact .pushAt writable_result.readable

/-- The stage behind an instruction. -/
def stageBehind (c : Context) (i : Bytecode.Instruction) (after : Operands) : Stage :=
  if i.endsFlow then .gone else .standing (c.extent after)

/-- The code of an instruction of the bytecode. -/
theorem leads_code (hb : Regular b) (hc : (Context.ofRoutine b r).Modest) {index : Nat}
    {s after : Operands} {i : Bytecode.Instruction} {ds : List Directive}
    (h : Lowering.code (.ofRoutine b r) index s i = .ok (ds, after))
    (jumps : ∀ t, i.target? = some t → p.shape t = after ∧
      (Context.ofRoutine b r).IsTarget t) :
    Leads (.ofRoutine b r) p (codeOf ds) (.standing ((Context.ofRoutine b r).extent s))
      (stageBehind (.ofRoutine b r) i after) := by
  have own : 2 * (Context.ofRoutine b r).frame.inner.length ≤
      (Context.ofRoutine b r).extent s := Nat.le_add_right _ _
  have operand (slot : Slot) {slots : List Slot} {below : Operands} (taken : Taken s slots below)
      (h : slot ∈ slots) : ReadableWords (.ofRoutine b r) ((Context.ofRoutine b r).extent s)
        ((Context.ofRoutine b r).slotWords slot) :=
    Leads.readable_of_mem taken (Nat.le_refl _) h
  cases i with
  | push n =>
    cases h
    rw [Directive.codeOf_map]
    exact .pushAt ⟨.immediate n, .immediate 0⟩
  | pushLiteral n =>
    simp only [Lowering.code] at h
    split at h
    · rename_i inside
      cases h
      rw [Directive.codeOf_map]
      exact .pushAt ⟨.literal inside, .immediate 0⟩
    · cases h
  | load x =>
    obtain ⟨ws, hws, h⟩ := Program.ok_of_bind h
    cases h
    rw [Directive.codeOf_map]
    exact .pushAt (writable_words hc.entry own hws).readable
  | store x =>
    obtain ⟨⟨slot, below⟩, popped, h⟩ := Program.ok_of_bind h
    obtain ⟨home, hws, h⟩ := Program.ok_of_bind h
    cases h
    rw [Directive.codeOf_map]
    have taken := taken_of_pop popped
    have source := operand slot taken (List.mem_singleton_self slot)
    have destination := writable_words hc.entry own hws
    refine .append ?_ (.dropSpilled taken)
    split
    · exact .moveWords source destination
    · exact .storeCounted source destination _ _
  | pop =>
    obtain ⟨⟨slot, below⟩, popped, h⟩ := Program.ok_of_bind h
    cases h
    rw [Directive.codeOf_map]
    have taken := taken_of_pop popped
    exact (Leads.releaseOwned taken (Nat.le_refl _) _).append (.dropSpilled taken)
  | unary op =>
    cases op
    obtain ⟨⟨slot, below⟩, popped, h⟩ := Program.ok_of_bind h
    cases h
    rw [Directive.codeOf_map]
    have taken := taken_of_pop popped
    have words := operand slot taken (List.mem_singleton_self slot)
    exact ((Leads.compare words.value (.immediate 0) .equal).append (.discard taken _)).append
      (.pushAt ⟨.register .eax, .immediate 0⟩)
  | binary op =>
    obtain ⟨⟨slots, below⟩, popped, h⟩ := Program.ok_of_bind h
    have taken := taken_of_popMany popped
    have two : slots.length = 2 := (Lowering.length_of_popMany popped).1
    obtain ⟨left, right, rfl⟩ : ∃ left right, slots = [left, right] := by
      rcases slots with _ | ⟨left, _ | ⟨right, _ | ⟨_, _⟩⟩⟩ <;> cases two
      exact ⟨left, right, rfl⟩
    cases h
    rw [Directive.codeOf_map]
    have first := operand left taken (by simp)
    have second := operand right taken (by simp)
    exact ((Leads.binary first.value second.value op).append (.discard taken _)).append
      (.pushAt ⟨.register .eax, .immediate 0⟩)
  | jumpIfZero t =>
    obtain ⟨⟨slot, below⟩, popped, h⟩ := Program.ok_of_bind h
    cases h
    rw [Directive.codeOf_map]
    obtain ⟨shape, inside⟩ := jumps t rfl
    have taken := taken_of_pop popped
    have words := operand slot taken (List.mem_singleton_self slot)
    have moved : Leads (.ofRoutine b r) p
        [.mov ((Context.ofRoutine b r).slotWords slot).value Register.eax]
        (.standing ((Context.ofRoutine b r).extent s))
        (.standing ((Context.ofRoutine b r).extent s)) :=
      .one (.works (.plain (.mov words.value (.register (by decide) (by decide)))))
    have stage : p.stage (.ofRoutine b r) t = .standing ((Context.ofRoutine b r).extent after) := by
      unfold Plan.stage
      rw [shape]
    have branch : Takes (.ofRoutine b r) p (.jcc .equal ((Context.ofRoutine b r).label t))
        (p.stage (.ofRoutine b r) t) (p.stage (.ofRoutine b r) t) := .branch inside
    rw [stage] at branch
    refine (moved.append (.discard taken _)).append (.works (.plain ?_) (.one branch))
    exact .test (.register .eax) (.register .eax)
  | jump t =>
    cases h
    rw [Directive.codeOf_map]
    obtain ⟨shape, inside⟩ := jumps t rfl
    have jump := Takes.jump (c := .ofRoutine b r) (p := p) inside
    unfold Plan.stage at jump
    rw [shape] at jump
    exact .one jump
  | call callee =>
    obtain ⟨⟨code, after'⟩, called, h⟩ := Program.ok_of_bind h
    cases h
    rw [Directive.codeOf_map]
    exact leads_lowerCall hb hc called
  | returnValue =>
    obtain ⟨⟨slot, below⟩, popped, h⟩ := Program.ok_of_bind h
    cases h
    rw [Directive.codeOf_map]
    have taken := taken_of_pop popped
    have words := operand slot taken (List.mem_singleton_self slot)
    have eax : Writable (.ofRoutine b r) ((Context.ofRoutine b r).extent s) Register.eax :=
      .register (by decide) (by decide)
    have ebx : Writable (.ofRoutine b r) ((Context.ofRoutine b r).extent s) Register.ebx :=
      .register (by decide) (by decide)
    have result : Leads (.ofRoutine b r) p
        [.mov ((Context.ofRoutine b r).slotWords slot).value Register.eax,
          .mov ((Context.ofRoutine b r).slotWords slot).tag Register.ebx]
        (.standing ((Context.ofRoutine b r).extent s))
        (.standing ((Context.ofRoutine b r).extent s)) :=
      .works (.plain (.mov words.value eax)) (.one (.works (.plain (.mov words.tag ebx))))
    exact (result.append (.dropSpilled taken)).append (.returnValue hc (Nat.le_add_right _ _))
  | returnZero =>
    cases h
    rw [Directive.codeOf_map]
    exact .returnZero hc own
  | transfer =>
    obtain ⟨ds', hds, h⟩ := Program.ok_of_bind h
    cases h
    exact leads_transfer hc hds

end Instructions

end Threefold.X86
