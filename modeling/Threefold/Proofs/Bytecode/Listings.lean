import Threefold.Proofs.Bytecode.Harmless
import Threefold.Proofs.Bytecode.Notes

/-!
# Code that goes on as its notes say

A listing is the code of a routine with notes. `Safe` looks at one listing alone: whatever values
its calls yield and whatever they hand over, a number of instructions can be executed, and at each
place what is noted there holds. `Continues` says so for every activation with a property, and has a
rule for each kind of instruction and for blocks of instructions. The rules are applied from the end
of some code to its beginning, and lead from what is known behind the code to what is enough in
front of it.

Functions that cannot throw have a coarser notion of their own, with which nothing is handed over at
all. It is used here for what their callers need not expect (`Delivers`).

Several statements may begin at one place. The notes on it are those on a part of the code and some
in front, which come from the statements around that part (`Placed`).
-/

namespace Threefold.Bytecode

namespace Machine.Frame

open Compilation (Note)

/-- Put a value on top of the operands. -/
def push (f : Frame) (v : Value) : Frame :=
  { f with operands := v :: f.operands }

/-- Replace the operands. -/
def put (f : Frame) (ops : List Value) : Frame :=
  { f with operands := ops }

/-- Give a value to a variable. -/
def assign (f : Frame) (x : Variable) (v : Value) : Frame :=
  { f with store := f.store.set x v }

/-- Leave an exception that was handed over where the code looks for it. -/
def receive (f : Frame) : Option Transferred → Frame
  | none => f
  | some (n, payload) => (f.assign .thrown n).assign .thrownData payload

@[simp]
theorem seeAll_singleton (f : Frame) (m : Note) : f.seeAll [m] = f.see m := rfl

@[simp]
theorem see_enters (f : Frame) (n : Nat) : f.see (.enters n) =
    { f with watch := ⟨none, fun k => if k = n then f.watch.under else f.watch.kept k⟩ } := rfl

theorem see_returns {f : Frame} {v : Value} {vs : List Value} (h : f.operands = v :: vs) :
    f.see .returns = f.raise (.returning v) := by
  obtain ⟨store, operands, watch⟩ := f
  subst h
  rfl

theorem see_throws {f : Frame} {n : Int32} {v : Value} {vs : List Value}
    (h : f.operands = v :: vs) : f.see (.throws n) = f.raise (.thrown n v) := by
  obtain ⟨store, operands, watch⟩ := f
  subst h
  rfl

/-- What there is to note changes nothing but the watch. -/
theorem see_eq (f : Frame) (m : Note) : f.see m = ⟨f.store, f.operands, (f.see m).watch⟩ := by
  obtain ⟨store, operands, watch⟩ := f
  cases m <;> cases operands <;> rfl

theorem seeAll_eq (f : Frame) (ns : List Note) :
    f.seeAll ns = ⟨f.store, f.operands, (f.seeAll ns).watch⟩ := by
  induction ns generalizing f with
  | nil => rfl
  | cons m ns ih =>
    have seen := ih (f.see m)
    rw [congrArg store (see_eq f m), congrArg operands (see_eq f m)] at seen
    exact seen

end Machine.Frame

namespace Underway

open Machine (Frame Holds Harmless Transferred moveAll?)
open Compilation (Context Goal Mark Note CodeAt code plain begins bodyCode bodyNotes)
open Evaluation (OwnNumber)

/-! ## Code with notes -/

/-- The code of a routine, with notes, and the functions of the program that can throw. -/
structure Listing where
  code : Array Instruction
  notes : Nat → List Note
  throwing : List Signature

/-- The code of a function with its notes. -/
def Listing.ofBody (cx : Context) (s : Stmt) : Listing :=
  ⟨(bodyCode cx s).toArray, fun i => (bodyNotes cx s)[i]?.getD [], cx.throwing⟩

/-- There are these notes from an index on, and some more in front of the first ones. -/
def NotedAt (notes : Nat → List Note) : List Note → Nat → List (List Note) → Prop
  | _, _, [] => True
  | front, pos, ns :: rest => notes pos = front ++ ns ∧ NotedAt notes [] (pos + 1) rest

/-- There is this code with these notes from an index on. -/
structure Placed (L : Listing) (targets : Goal → Nat) (front : List Note) (pos : Nat)
    (ms : List Mark) (ns : List (List Note)) : Prop where
  code : CodeAt L.code targets pos ms
  notes : NotedAt L.notes front pos ns

section Placed

variable {L : Listing} {targets : Goal → Nat} {front : List Note} {pos : Nat} {ms ms' : List Mark}
  {ns ns' : List (List Note)}

theorem notedAt_append {notes : Nat → List Note} :
    NotedAt notes front pos (ns ++ ns') ↔
      NotedAt notes front pos ns ∧
        NotedAt notes (if ns = [] then front else []) (pos + ns.length) ns' := by
  induction ns generalizing front pos with
  | nil => simp [NotedAt]
  | cons n ns ih =>
    have shift : pos + 1 + ns.length = pos + (ns.length + 1) := by omega
    simp [NotedAt, ih, shift, and_assoc]

/-- The notes of a list are there. -/
theorem notedAt_getElem? (before after : List (List Note)) :
    NotedAt (fun i => (before ++ after)[i]?.getD []) [] before.length after := by
  induction after generalizing before with
  | nil => trivial
  | cons ns rest ih =>
    refine ⟨by simp, ?_⟩
    have shifted := ih (before ++ [ns])
    rw [List.append_assoc, List.length_append] at shifted
    exact shifted

namespace Placed

theorem head {m : Mark} {n : List Note} (h : Placed L targets front pos (m :: ms) (n :: ns)) :
    L.code[pos]? = some (m.instruction targets) ∧ L.notes pos = front ++ n :=
  ⟨h.code.1, h.notes.1⟩

theorem tail {m : Mark} {n : List Note} (h : Placed L targets front pos (m :: ms) (n :: ns)) :
    Placed L targets [] (pos + 1) ms ns :=
  ⟨h.code.2, h.notes.2⟩

theorem cast (h : Placed L targets front pos ms ns) {pos' : Nat} (hp : pos = pos') :
    Placed L targets front pos' ms ns :=
  hp ▸ h

/-- Behind some code nothing is in front of the notes. -/
theorem append (h : Placed L targets front pos (ms ++ ms') (ns ++ ns'))
    (size : ns.length = ms.length) (some : ms ≠ []) :
    Placed L targets front pos ms ns ∧ Placed L targets [] (pos + ms.length) ms' ns' := by
  obtain ⟨code, code'⟩ := Compilation.codeAt_append.mp h.code
  obtain ⟨notes, notes'⟩ := notedAt_append.mp h.notes
  have more : ns ≠ [] := by
    rintro rfl
    exact some (List.eq_nil_of_length_eq_zero size.symm)
  rw [if_neg more, size] at notes'
  exact ⟨⟨code, notes⟩, ⟨code', notes'⟩⟩

theorem append₃ {ms'' : List Mark} {ns'' : List (List Note)}
    (h : Placed L targets front pos (ms ++ ms' ++ ms'') (ns ++ ns' ++ ns''))
    (size : ns.length = ms.length) (size' : ns'.length = ms'.length) (some : ms ≠ []) :
    Placed L targets front pos ms ns ∧ Placed L targets [] (pos + ms.length) ms' ns' ∧
      Placed L targets [] (pos + ms.length + ms'.length) ms'' ns'' := by
  obtain ⟨first, last⟩ := h.append (by simp [size, size']) (by simp [some])
  rw [List.length_append, ← Nat.add_assoc] at last
  exact ⟨(first.append size some).1, (first.append size some).2, last⟩

/-- Behind code that may be empty there may still be the notes in front. -/
theorem append_front (h : Placed L targets front pos (ms ++ ms') (ns ++ ns'))
    (size : ns.length = ms.length) :
    Placed L targets front pos ms ns ∧
      ∃ front' ⊆ front, Placed L targets front' (pos + ms.length) ms' ns' := by
  obtain ⟨code, code'⟩ := Compilation.codeAt_append.mp h.code
  obtain ⟨notes, notes'⟩ := notedAt_append.mp h.notes
  rw [size] at notes'
  refine ⟨⟨code, notes⟩, _, ?_, ⟨code', notes'⟩⟩
  split
  · exact List.Subset.refl _
  · exact List.nil_subset _

/-- A jump goes where the goal goes. -/
theorem settled {goal : Goal} {target : Nat}
    (h : Placed L targets front pos (ms.map (.settle goal target)) ns) :
    Placed L (Compilation.redirect goal target targets) front pos ms ns :=
  ⟨Compilation.codeAt_settle.mp h.code, h.notes⟩

/-- Where a statement begins there is one more note in front. -/
theorem begun {covered : Bool} (h : Placed L targets front pos ms (begins covered ns)) :
    ∃ front', (∀ m ∈ front', m ∈ front ∨ m = .start covered) ∧
      Placed L targets front' pos ms ns := by
  cases ns with
  | nil => exact ⟨front, fun m hm => .inl hm, h⟩
  | cons n ns =>
    refine ⟨front ++ [.start covered], fun m hm => ?_, h.code, ?_, h.notes.2⟩
    · exact (List.mem_append.mp hm).imp_right List.mem_singleton.mp
    · rw [h.notes.1, List.append_assoc]
      rfl

end Placed

end Placed

/-! ## Code that goes on as its notes say -/

/-- An exception that is handed over has a number of its own. -/
def Handed : Option Transferred → Prop
  | none => True
  | some (n, _) => ∃ k, OwnNumber k ∧ n = .scalar k

/-- What a call may hand over. -/
def Delivers (throwing : List Signature) (c : Callee) (t : Option Transferred) : Prop :=
  Handed t ∧ (Harmless throwing c → t = none)

/-- An instruction leads only to what is safe. A fault ends the routine. -/
def SafeStep (throwing : List Signature) (behind : Nat → Frame → Prop) (pos : Nat) (f : Frame) :
    Instruction → Prop
  | .push k => behind (pos + 1) (f.push (.scalar k))
  | .pushLiteral _ => ∀ k, behind (pos + 1) (f.push (.scalar k))
  | .load x => behind (pos + 1) (f.push (f.store.load x))
  | .store x => ∀ v vs, f.operands = v :: vs → behind (pos + 1) ((f.put vs).assign x v)
  | .unary op => ∀ v vs, f.operands = v :: vs →
    behind (pos + 1) (f.put (.scalar (op.eval v.word) :: vs))
  | .binary op => ∀ r l vs k, f.operands = r :: l :: vs → op.eval? l.word r.word = some k →
    behind (pos + 1) (f.put (.scalar k :: vs))
  | .jump t => behind t f
  | .jumpIfZero t => ∀ v vs, f.operands = v :: vs →
    behind (if v.word = 0 then t else pos + 1) (f.put vs)
  | .call c => ∀ v t, Delivers throwing c t →
    behind (pos + 1) (((f.put (f.operands.drop c.arity)).receive t).push v)
  | .pop => ∀ v vs, f.operands = v :: vs → behind (pos + 1) (f.put vs)
  | .returnValue => True
  | .returnZero => True
  | .transfer => (∃ k, OwnNumber k ∧ f.store.load .pending = .scalar k) ∧ behind (pos + 1) f

/-- From an index on, a number of instructions can be executed, whatever calls yield and hand over,
and at each place what is noted there holds. An exception that is handed over has a number of its
own. -/
def Safe (L : Listing) : Nat → Nat → Frame → Prop
  | 0, _, _ => True
  | n + 1, pos, f =>
    (∀ m ∈ L.notes pos, Holds f m) ∧ ∀ i, L.code[pos]? = some i →
      SafeStep L.throwing (Safe L n) pos (f.seeAll (L.notes pos)) i

/-- From an index on, at most a number of instructions are safe, if the activation has a
property. -/
def Continues (L : Listing) (n pos : Nat) (P : Frame → Prop) : Prop :=
  ∀ m ≤ n, ∀ f, P f → Safe L m pos f

/-- The notes in front of those on a place only say that statements begin, and they hold. -/
def Opens (P : Frame → Prop) (front : List Note) : Prop :=
  ∀ m ∈ front, ∃ covered, m = .start covered ∧ ∀ f, P f → f.Between covered

section Continues

variable {L : Listing} {targets : Goal → Nat} {front : List Note} {n pos : Nat} {ms : List Mark}
  {ns : List Note} {nss : List (List Note)} {P Q R : Frame → Prop}

theorem SafeStep.imp {throwing : List Signature} {behind behind' : Nat → Frame → Prop} {f : Frame}
    {i : Instruction} (h : SafeStep throwing behind pos f i)
    (hb : ∀ q f, behind q f → behind' q f) : SafeStep throwing behind' pos f i := by
  cases i with
  | pushLiteral _ => exact fun k => hb _ _ (h k)
  | store _ => exact fun v vs hv => hb _ _ (h v vs hv)
  | unary _ => exact fun v vs hv => hb _ _ (h v vs hv)
  | binary _ => exact fun r l vs k hv hk => hb _ _ (h r l vs k hv hk)
  | jumpIfZero _ => exact fun v vs hv => hb _ _ (h v vs hv)
  | call _ => exact fun v t ht => hb _ _ (h v t ht)
  | pop => exact fun v vs hv => hb _ _ (h v vs hv)
  | transfer => exact ⟨h.1, hb _ _ h.2⟩
  | returnValue => trivial
  | returnZero => trivial
  | push _ => exact hb _ _ h
  | load _ => exact hb _ _ h
  | jump _ => exact hb _ _ h

/-- Instructions that only move values lead to a property. -/
def Moves (is : List Instruction) (Q : Frame → Prop) (f : Frame) : Prop :=
  ∃ b ops, moveAll? is (f.store, f.operands) = some (b, ops) ∧ Q ⟨b, ops, f.watch⟩

theorem Moves.nil {f : Frame} (h : Moves [] Q f) : Q f := by
  obtain ⟨b, ops, moved, hf⟩ := h
  cases moved
  exact hf

theorem Moves.step {f : Frame} {i : Instruction} {is : List Instruction} (h : Moves (i :: is) Q f)
    {throwing : List Signature} :
    SafeStep throwing (fun q f' => q = pos + 1 ∧ Moves is Q f') pos f i := by
  obtain ⟨b, ops, moved, hf⟩ := h
  obtain ⟨⟨b₁, ops₁⟩, first, rest⟩ := Option.bind_eq_some_iff.mp moved
  obtain ⟨store, operands, watch⟩ := f
  cases i with
  | push k =>
    cases first
    exact ⟨rfl, b, ops, rest, hf⟩
  | load x =>
    cases first
    exact ⟨rfl, b, ops, rest, hf⟩
  | store x =>
    rintro v vs rfl
    cases first
    exact ⟨rfl, b, ops, rest, hf⟩
  | pop =>
    rintro v vs rfl
    cases first
    exact ⟨rfl, b, ops, rest, hf⟩
  | _ => cases first

namespace Opens

theorem nil : Opens P [] :=
  fun _ hm => absurd hm List.not_mem_nil

theorem mono (h : Opens P front) {front' : List Note} (sub : front' ⊆ front) : Opens P front' :=
  fun m hm => h m (sub hm)

theorem holds (h : Opens P front) {f : Frame} (hf : P f) : ∀ m ∈ front, Holds f m := by
  intro m hm
  obtain ⟨covered, rfl, between⟩ := h m hm
  exact between f hf

/-- A watch does not go by where statements begin. -/
theorem seeAll (h : Opens P front) (f : Frame) (ns : List Note) :
    f.seeAll (front ++ ns) = f.seeAll ns := by
  rw [Frame.seeAll, List.foldl_append]
  congr 1
  induction front with
  | nil => rfl
  | cons m front ih =>
    obtain ⟨covered, rfl, -⟩ := h m List.mem_cons_self
    exact ih fun m hm => h m (List.mem_cons_of_mem _ hm)

end Opens

/-- Where nothing is noted nothing is to hold. -/
theorem holds_nil (f : Frame) (_ : P f) : ∀ m ∈ [], Holds f m :=
  fun _ hm => absurd hm List.not_mem_nil

theorem holds_singleton {m : Note} (h : ∀ f, P f → Holds f m) (f : Frame) (hf : P f) :
    ∀ m' ∈ [m], Holds f m' := by
  intro m' hm
  obtain rfl := List.mem_singleton.mp hm
  exact h f hf

namespace Continues

theorem mono (h : Continues L n pos P) {m : Nat} (hm : m ≤ n) : Continues L m pos P :=
  fun k hk => h k (Nat.le_trans hk hm)

theorem imp (h : Continues L n pos Q) (hPQ : ∀ f, P f → Q f) : Continues L n pos P :=
  fun m hm f hP => h m hm f (hPQ f hP)

theorem cast (h : Continues L n pos P) {pos' : Nat} (hp : pos = pos') : Continues L n pos' P :=
  hp ▸ h

/-- One instruction, with the notes on it. What it leads to has one instruction less to go. -/
theorem instruction {m : Mark} (behind : Nat → Frame → Prop)
    (placed : Placed L targets front pos (m :: ms) (ns :: nss)) (opens : Opens P front)
    (holds : ∀ f, P f → ∀ m ∈ ns, Holds f m)
    (step : ∀ f, P f →
      SafeStep L.throwing behind pos (f.seeAll ns) (m.instruction targets))
    (safe : ∀ q f, behind q f → ∀ m ≤ n, Safe L m q f) : Continues L (n + 1) pos P := by
  intro m hm f hP
  cases m with
  | zero => trivial
  | succ m =>
    obtain ⟨code, notes⟩ := placed.head
    refine ⟨fun note mem => ?_, fun i' hi => ?_⟩
    · rw [notes] at mem
      exact (List.mem_append.mp mem).elim (opens.holds hP note) (holds f hP note)
    · obtain rfl := Option.some.inj (code.symm.trans hi)
      rw [notes, opens.seeAll]
      exact (step f hP).imp fun q f' hq => safe q f' hq m (Nat.le_of_succ_le_succ hm)

/-- An instruction that leads to the next one. -/
theorem noted {i : Instruction} (placed : Placed L targets front pos (.done i :: ms) (ns :: nss))
    (opens : Opens P front) (holds : ∀ f, P f → ∀ m ∈ ns, Holds f m)
    (step : ∀ f, P f → SafeStep L.throwing (fun q f' => q = pos + 1 ∧ Q f') pos (f.seeAll ns) i)
    (h : Continues L n (pos + 1) Q) : Continues L n pos P := by
  refine (instruction _ placed opens holds step ?_).mono (Nat.le_succ n)
  rintro q f ⟨rfl, hf⟩ m hm
  exact h m hm f hf

/-- An instruction about which there is nothing to note. -/
theorem next {i : Instruction} (placed : Placed L targets front pos (.done i :: ms) ([] :: nss))
    (opens : Opens P front)
    (step : ∀ f, P f → SafeStep L.throwing (fun q f' => q = pos + 1 ∧ Q f') pos f i)
    (h : Continues L n (pos + 1) Q) : Continues L n pos P :=
  noted placed opens holds_nil step h

/-- Where the routine returns nothing more is executed. -/
theorem ends {i : Instruction} (placed : Placed L targets front pos (.done i :: ms) (ns :: nss))
    (opens : Opens P front) (holds : ∀ f, P f → ∀ m ∈ ns, Holds f m)
    (he : i = .returnValue ∨ i = .returnZero) : Continues L n pos P := by
  refine (instruction (fun _ _ => False) placed opens holds (fun f hf => ?_)
    fun _ _ h => h.elim).mono (Nat.le_succ n)
  rcases he with rfl | rfl <;> trivial

/-- A jump takes one instruction, so less is left of the code that it goes to. -/
theorem goto {m : Mark} {t : Nat} (placed : Placed L targets front pos (m :: ms) (ns :: nss))
    (leads : m.instruction targets = .jump t) (opens : Opens P front)
    (holds : ∀ f, P f → ∀ m ∈ ns, Holds f m) (unseen : ∀ f : Frame, f.seeAll ns = f)
    (h : Continues L n t P) : Continues L (n + 1) pos P := by
  refine instruction (fun q f => q = t ∧ P f) placed opens holds (fun f hf => ?_) ?_
  · rw [leads, unseen]
    exact ⟨rfl, hf⟩
  · rintro q f ⟨rfl, hf⟩ m hm
    exact h m hm f hf

theorem jump {t : Nat} (placed : Placed L targets front pos (.done (.jump t) :: ms) ([] :: nss))
    (opens : Opens P front) (h : Continues L n t P) : Continues L (n + 1) pos P :=
  goto placed rfl opens holds_nil (fun _ => rfl) h

/-- A jump to where exceptions go. -/
theorem raise {origin : String}
    (placed : Placed L targets front pos (.raise origin :: ms) ([] :: nss)) (opens : Opens P front)
    (h : Continues L n (targets .handler) P) : Continues L n pos P :=
  (goto placed rfl opens holds_nil (fun _ => rfl) h).mono
    (Nat.le_succ n)

/-- A jump to where a statement ends. -/
theorem exit {origin : String}
    (placed : Placed L targets front pos (.exit origin :: ms) ([] :: nss)) (opens : Opens P front)
    (h : Continues L n (targets .exit) P) : Continues L n pos P :=
  (goto placed rfl opens holds_nil (fun _ => rfl) h).mono (Nat.le_succ n)

/-- Every time round a loop takes an instruction, so the number of them is what decreases. -/
theorem rounds (round : ∀ k < n, Continues L k pos P → Continues L (k + 1) pos P) :
    Continues L n pos P := by
  induction n with
  | zero =>
    intro m hm f _
    rw [Nat.le_zero.mp hm]
    trivial
  | succ n ih =>
    exact round n (Nat.lt_succ_self n) (ih fun k hk => round k (Nat.lt_succ_of_lt hk))

/-- Control goes on or elsewhere, as the value on top says. -/
theorem branch {t : Nat}
    (placed : Placed L targets front pos (.done (.jumpIfZero t) :: ms) ([] :: nss))
    (opens : Opens P front)
    (split : ∀ f v vs, P f → f.operands = v :: vs →
      if v.word = 0 then Q (f.put vs) else R (f.put vs))
    (zero : Continues L n t Q) (other : Continues L n (pos + 1) R) : Continues L n pos P := by
  refine (instruction (fun q f => q = t ∧ Q f ∨ q = pos + 1 ∧ R f) placed opens
    holds_nil (fun f hf v vs hv => ?_) ?_).mono (Nat.le_succ n)
  · have next := split f v vs hf hv
    by_cases hz : v.word = 0
    · rw [if_pos hz] at next ⊢
      exact .inl ⟨rfl, next⟩
    · rw [if_neg hz] at next ⊢
      exact .inr ⟨rfl, next⟩
  · rintro q f (⟨rfl, hf⟩ | ⟨rfl, hf⟩) m hm
    · exact zero m hm f hf
    · exact other m hm f hf

/-! ### Blocks -/

/-- A variable is tested for zero. -/
theorem test {x : Variable} {t : Nat}
    (placed : Placed L targets front pos (.done (.load x) :: .done (.jumpIfZero t) :: ms)
      ([] :: [] :: nss))
    (opens : Opens P front) (zero : Continues L n t fun f => P f ∧ (f.store.load x).word = 0)
    (other : Continues L n (pos + 2) fun f => P f ∧ (f.store.load x).word ≠ 0) :
    Continues L n pos P := by
  refine next (Q := fun f => ∃ f₀, P f₀ ∧ f = f₀.push (f₀.store.load x)) placed opens
    (fun f hf => ⟨rfl, f, hf, rfl⟩) (branch placed.tail .nil ?_ zero other)
  rintro _ v vs ⟨f, hf, rfl⟩ top
  cases top
  by_cases hz : (f.store.load x).word = 0
  · rw [if_pos hz]
    exact ⟨hf, hz⟩
  · rw [if_neg hz]
    exact ⟨hf, hz⟩

/-- A variable is compared with a number. -/
theorem compare {x : Variable} {c : Int32} {t : Nat}
    (placed : Placed L targets front pos
      (.done (.load x) :: .done (.push c) :: .done (.binary .eq) :: .done (.jumpIfZero t) :: ms)
      (ns :: [] :: [] :: [] :: nss))
    (opens : Opens P front) (holds : ∀ f, P f → ∀ m ∈ ns, Holds f m)
    (unseen : ∀ f : Frame, f.seeAll ns = f)
    (same : Continues L n (pos + 4) fun f => P f ∧ (f.store.load x).word = c)
    (other : Continues L n t fun f => P f ∧ (f.store.load x).word ≠ c) : Continues L n pos P := by
  refine noted (Q := fun f => ∃ f₀, P f₀ ∧ f = f₀.push (f₀.store.load x)) placed opens holds
    (fun f hf => ?_) ?_
  · rw [unseen]
    exact ⟨rfl, f, hf, rfl⟩
  refine next (Q := fun f => ∃ f₀, P f₀ ∧ f = (f₀.push (f₀.store.load x)).push (.scalar c))
    placed.tail .nil ?_ ?_
  · rintro _ ⟨f, hf, rfl⟩
    exact ⟨rfl, f, hf, rfl⟩
  refine next (Q := fun f => ∃ f₀, P f₀ ∧
    f = f₀.push (.scalar (truth ((f₀.store.load x).word == c)))) placed.tail.tail .nil ?_ ?_
  · rintro _ ⟨f, hf, rfl⟩ r l vs k operands value
    cases operands
    cases value
    exact ⟨rfl, f, hf, rfl⟩
  refine branch placed.tail.tail.tail .nil ?_ other same
  rintro _ v vs ⟨f, hf, rfl⟩ top
  cases top
  by_cases equal : (f.store.load x).word = c
  · rw [if_neg (by simp [equal, Value.scalar, truth])]
    exact ⟨hf, equal⟩
  · rw [if_pos (by simp [equal, Value.scalar, truth])]
    exact ⟨hf, equal⟩

/-- Code that only moves values. -/
theorem moves {is : List Instruction}
    (placed : Placed L targets [] pos (code is) (plain is.length))
    (h : Continues L n (pos + is.length) Q) : Continues L n pos (Moves is Q) := by
  induction is generalizing pos with
  | nil => exact h.imp fun f hf => hf.nil
  | cons i is ih =>
    have shift : pos + (i :: is).length = pos + 1 + is.length := by
      rw [List.length_cons]
      omega
    exact next placed .nil (fun f hf => hf.step) (ih placed.tail (h.cast shift))

/-- Code that only moves values, with notes on its first instruction. -/
theorem block {i : Instruction} {is : List Instruction} {size : Nat}
    (placed : Placed L targets front pos (code (i :: is)) (ns :: plain size))
    (all : size = is.length) (opens : Opens P front) (holds : ∀ f, P f → ∀ m ∈ ns, Holds f m)
    (moved : ∀ f, P f → Moves (i :: is) Q (f.seeAll ns))
    (h : Continues L n (pos + (is.length + 1)) Q) : Continues L n pos P := by
  subst all
  have shift : pos + (is.length + 1) = pos + 1 + is.length := by omega
  exact noted placed opens holds (fun f hf => (moved f hf).step) (moves placed.tail (h.cast shift))

end Continues

end Continues

end Underway

end Threefold.Bytecode
