import Threefold.Proofs.Heap.References

/-!
# A client of the heap

A client of a heap that counts holds some references to arrays. It may take one more reference to an
array that it holds, or to the element that it just read, give back one that it holds, and call built-in
functions with numbers and with arrays that it holds; a new array belongs to it (`Request`).

* `call_exact` says of a call that the counts are exact afterwards if they were before.
* `references_exact` says of every sequence of requests that the counts stay exact, and that nothing is
  used after it was reclaimed, save through a string function that is given the handle of an array as a
  plain number. Since handles of strings are plain numbers, such a function looks up whatever it is
  given (`strLen_of_reclaimed`).
-/

namespace Threefold

/-- Whether a fault says that something was used after it had been reclaimed. -/
def Fault.isUseAfterFree : Fault → Bool
  | .reclaimed .. | .retainedReclaimed _ => true
  | _ => false

theorem Fault.not_isUseAfterFree {f : Fault} (plain : f.isLookup = false) :
    f.isUseAfterFree = false := by
  cases f <;> first | rfl | cases plain

namespace Intrinsic

open Heap

theorem retainsResult_eq_false {i : Intrinsic} (owned : i.returnsOwned = true) :
    i.retainsResult = false := by
  cases i <;> simp [returnsOwned, retainsResult] at owned ⊢

/-- The references that a call leaves to the caller. -/
def gained (i : Intrinsic) : Reply → Multiset Value
  | .returned v => if i.returnsOwned then {v} else 0
  | .outOfBounds _ => 0

/-- A string function was given the handle of a reclaimed array as a plain number. -/
def Strays (h : Heap) (i : Intrinsic) (arguments : List Value) (f : Fault) : Prop :=
  i.readsStrings = true ∧ ∃ v ∈ arguments, v.tag = .scalar ∧ ∃ k c,
    h.index? v.word = some k ∧ h.cells[k]? = some c ∧ c.object.isArray = true ∧ c.freed = true ∧
      f = .reclaimed c.object.kind v.word

/-- What a call comes to if the caller holds some references: exact counts, a result that is held by
somebody if it is an array, and no use of what is gone but by a stray string function. -/
def Settles (h : Heap) (held : Multiset Value) (i : Intrinsic) (arguments : List Value) :
    EStateM.Result Fault Heap Reply → Prop
  | .ok r h' => h'.Fits → h'.CountsFit → h'.Exact (i.gained r + held) ∧
      ∀ v, i.retainsResult = true → r = .returned v → v.tag.isCounted = true → v ∈ h'.embedded
  | .error f h' => h'.Exact held ∧ (f.isUseAfterFree = true → Strays h i arguments f)

variable {h h' : Heap} {held : Multiset Value} {i : Intrinsic} {arguments : List Value}

theorem Cause.settles {f : Fault} (cause : Cause h i arguments f) (exact : h.Exact held)
    (holds : ∀ v ∈ arguments, v.tag.isCounted = true → v ∈ held) :
    Settles h held i arguments (.error f h) := by
  refine ⟨exact, fun gone => ?_⟩
  cases cause with
  | absent => cases gone
  | string => cases gone
  | other plain =>
    rw [Fault.not_isUseAfterFree plain] at gone
    cases gone
  | @reclaimed v k c mem looks index cell freed =>
    -- what is held is not reclaimed
    have uncounted : ¬v.tag.isCounted = true := by
      intro counted
      obtain ⟨j, d, index', cell', live, -⟩ :=
        exact.live (Multiset.mem_add.mpr (.inl (holds v mem counted))) counted
      obtain rfl := Option.some.inj (index.symm.trans index')
      obtain rfl := Option.some.inj (cell.symm.trans cell')
      rw [freed] at live
      cases live
    have scalar : v.tag = .scalar := by
      generalize v.tag = t at uncounted
      cases t with
      | scalar => rfl
      | scalarArray => exact absurd rfl uncounted
      | boxedArray => exact absurd rfl uncounted
    have array : c.object.isArray = true := by
      by_contra string
      have live := exact.strings k c cell (by simpa using string)
      rw [freed] at live
      cases live
    exact ⟨looks.resolve_right fun looks => uncounted looks.2, v, mem, scalar, k, c, index, cell,
      array, freed, rfl⟩

/-- A plain number as an answer leaves the counts exact. -/
theorem Settles.scalar (exact : h'.CountsFit → h'.Exact held) (n : Int32) :
    Settles h held i arguments (.ok (.scalar n) h') := by
  refine fun _ fit => ⟨?_, fun v _ hv counted => ?_⟩
  · simp only [gained, Reply.scalar]
    split
    · rw [Multiset.singleton_add]
      exact (Exact.cons_uncounted rfl).mpr (exact fit)
    · rw [zero_add]
      exact exact fit
  · cases hv
    cases counted

/-- A new array belongs to whoever asked for it. -/
theorem Settles.owned {v : Value} (owned : i.returnsOwned = true)
    (exact : h'.Fits → h'.CountsFit → h'.Exact (v ::ₘ held)) :
    Settles h held i arguments (.ok (.returned v) h') := by
  refine fun fits fit => ⟨?_, fun u retains _ _ => ?_⟩
  · rw [gained, if_pos owned, Multiset.singleton_add]
    exact exact fits fit
  · rw [retainsResult_eq_false owned] at retains
    cases retains

/-- What a call with arrays that are held does leaves the counts exact. -/
theorem Effect.settles {op : Heap.Op Reply} (effect : Effect h i arguments op) (exact : h.Exact held)
    (holds : ∀ v ∈ arguments, v.tag.isCounted = true → v ∈ held) :
    Settles h held i arguments (op h) := by
  cases effect with
  | answer i arguments n => exact .scalar (fun _ => exact) n
  | outOfBounds i arguments n =>
    exact fun _ _ => ⟨by rwa [gained, zero_add], fun v _ hv => by cases hv⟩
  | fail cause => exact cause.settles exact holds
  | newString i arguments bytes => exact .scalar (fun _ => pushString_exact exact rfl) _
  | @setByte i arguments k p b inside =>
    obtain ⟨h', run, exact'⟩ := modifyObject_exact exact (harmless_setByte h p b)
      (Array.getElem?_eq_getElem inside) (by cases h.cells[k].object <;> rfl)
    simp only [Bind.bind, EStateM.bind, run]
    exact .scalar (fun _ => exact') 0
  | make n v size =>
    refine .owned rfl fun fits _ => pushArray_exact (o := .scalars _) (t := .scalarArray)
      ?_ rfl (fun v hv => by cases hv) rfl fits
    rwa [show (HeapObject.scalars _).held = [] from rfl, Multiset.coe_nil, zero_add]
  | makeBoxed n v size lt =>
    obtain ⟨h', run, taken⟩ := retainTimes_exact lt exact fun counted =>
      Multiset.mem_add.mpr (.inl (holds v (by simp) counted))
    simp only [Bind.bind, EStateM.bind, run]
    refine .owned rfl fun fits fit => ?_
    have exact' := taken (countsFit_of_push fit)
    refine pushArray_exact (o := .boxed _) (t := .boxedArray) ?_ rfl ?_ rfl fits
    · refine exact'.of_mentions (fun u hu => ?_) fun j => ?_
      · obtain mem | mem := Multiset.mem_add.mp hu
        · rw [Multiset.mem_coe, HeapObject.held_eq, List.mem_filter] at mem
          exact exact'.known u (Multiset.mem_add.mpr (.inl (by
            simpa [HeapObject.elements, Multiset.mem_replicate] using mem.1)))
        · exact exact'.known u (Multiset.mem_add.mpr (.inr mem))
      · rw [mentions_add, mentions_add, mentions_held, HeapObject.elements, Array.toList_replicate]
        rfl
    · intro u hu
      exact exact'.known u (Multiset.mem_add.mpr (.inl (by
        simpa [HeapObject.elements, Multiset.mem_replicate] using hu)))
  | @get a n k p c counted index cell live inside =>
    refine fun _ _ => ⟨by rwa [gained, if_neg (by decide), zero_add], fun v _ hv counted => ?_⟩
    cases hv
    refine mem_embedded cell live ?_ counted
    cases object : c.object with
    | string bytes => rw [object] at counted; cases counted
    | scalars words => rw [object] at counted; cases counted
    | boxed values =>
      rw [object] at inside
      simp only [HeapObject.size] at inside
      simp [element, HeapObject.elements, inside]
  | @set a n v k p c counted index cell live inside =>
    obtain ⟨h', run, exact'⟩ := storeAt_exact exact (holds v (by simp)) cell live inside
    simp only [Bind.bind, EStateM.bind, run]
    exact .scalar exact' 0

/-- A call with arrays that the caller holds leaves the counts exact. -/
theorem call_exact {w : World} (exact : w.heap.Exact held)
    (holds : ∀ v ∈ arguments, v.tag.isCounted = true → v ∈ held) :
    Settles w.heap held i arguments (World.heapResult (i.call arguments w)) := by
  obtain ⟨op, effect, same⟩ := call_effect i arguments w
  rw [same]
  exact effect.settles exact holds

end Intrinsic

/-! ## Requests -/

/-- A client holds some references. It remembers the element that it has just read. -/
structure Client where
  holdings : Multiset Value
  fetched : Option Value
  deriving DecidableEq

/-- What a client may ask for. -/
inductive Request
  | retain (v : Value)
  | release (v : Value)
  | call (i : Intrinsic) (arguments : List Value)

namespace Request

/-- A client may give back references that it holds, call functions with arrays that it holds, and take
references to these and to an element that it has just read. -/
def Allowed (c : Client) : Request → Prop
  | retain v => v ∈ c.holdings ∨ c.fetched = some v
  | release v => v ∈ c.holdings
  | call _ arguments => ∀ v ∈ arguments, v.tag.isCounted = true → v ∈ c.holdings

instance (c : Client) : DecidablePred (Allowed c)
  | retain v => inferInstanceAs (Decidable (v ∈ c.holdings ∨ c.fetched = some v))
  | release v => inferInstanceAs (Decidable (v ∈ c.holdings))
  | call _ arguments =>
    inferInstanceAs (Decidable (∀ v ∈ arguments, v.tag.isCounted = true → v ∈ c.holdings))

/-- The operation that is asked for. -/
def op : Request → World.Op (Option Intrinsic.Reply)
  | retain v => do
    World.onHeap (Heap.retain v)
    return none
  | release v => do
    World.onHeap (Heap.release v)
    return none
  | call i arguments => return some (← i.call arguments)

end Request

namespace Client

/-- The client after it got a reference. Plain numbers are none. -/
def hold (c : Client) (v : Value) : Client :=
  if v.tag.isCounted then ⟨v ::ₘ c.holdings, none⟩ else ⟨c.holdings, none⟩

/-- The client after a request was granted. -/
def after (c : Client) : Request → Option Intrinsic.Reply → Client
  | .retain v, _ => c.hold v
  | .release v, _ => ⟨c.holdings.erase v, none⟩
  | .call i _, some (.returned v) =>
    if i.returnsOwned then c.hold v
    else if i.retainsResult then ⟨c.holdings, some v⟩
    else ⟨c.holdings, none⟩
  | .call _ _, _ => ⟨c.holdings, none⟩

end Client

/-- A client and the world. -/
structure Session where
  client : Client
  world : World

namespace Session

/-- A session after a request, and the fault if it failed. -/
def perform (s : Session) (r : Request) : Session × Option Fault :=
  match r.op s.world with
  | .ok reply w => (⟨s.client.after r reply, w⟩, none)
  | .error f w => (⟨⟨s.client.holdings, none⟩, w⟩, some f)

/-- The sessions that begin with nothing on a heap that counts and in which no count has wrapped
around. -/
inductive Reached : Session → Prop
  | start (console : Console) : Reached ⟨⟨0, none⟩, ⟨.empty true, console⟩⟩
  | step {s : Session} {r : Request} : Reached s → r.Allowed s.client →
    (s.perform r).1.world.heap.CountsFit → Reached (s.perform r).1

/-- The counts on the heap are exact, and the element that was just read is held by an array. -/
structure Exact (s : Session) : Prop where
  exact : s.world.heap.Exact s.client.holdings
  fetched : ∀ v, s.client.fetched = some v → v.tag.isCounted = true → v ∈ s.world.heap.embedded

open Heap Intrinsic

/-- A string function that a client called with the handle of a reclaimed array as a plain number. -/
def Strays (s : Session) : Request → Fault → Prop
  | .call i arguments, f => Intrinsic.Strays s.world.heap i arguments f
  | _, _ => False

variable {s : Session} {r : Request}

theorem perform_ok {reply : Option Reply} {w : World} (run : r.op s.world = .ok reply w) :
    s.perform r = (⟨s.client.after r reply, w⟩, none) := by
  rw [perform, run]

theorem perform_error {f : Fault} {w : World} (run : r.op s.world = .error f w) :
    s.perform r = (⟨⟨s.client.holdings, none⟩, w⟩, some f) := by
  rw [perform, run]

theorem exact_hold {c : Client} {w : World} {v : Value} (exact : w.heap.Exact (v ::ₘ c.holdings)) :
    Exact ⟨c.hold v, w⟩ := by
  unfold Client.hold
  split
  · exact ⟨exact, fun u hu => by cases hu⟩
  · rename_i counted
    exact ⟨(Heap.Exact.cons_uncounted (by simpa using counted)).mp exact, fun u hu => by cases hu⟩

/-- A client gains what a call leaves to it, and remembers an element that it read. -/
theorem exact_call {c : Client} {w : World} {i : Intrinsic} {arguments : List Value} {reply : Reply}
    (exact : w.heap.Exact (i.gained reply + c.holdings))
    (result : ∀ v, i.retainsResult = true → reply = .returned v → v.tag.isCounted = true →
      v ∈ w.heap.embedded) : Exact ⟨c.after (.call i arguments) (some reply), w⟩ := by
  cases reply with
  | outOfBounds n =>
    rw [gained, zero_add] at exact
    exact ⟨exact, fun u hu => by cases hu⟩
  | returned v =>
    simp only [gained] at exact
    simp only [Client.after]
    split at exact
    case isTrue owned =>
      rw [if_pos owned]
      rw [Multiset.singleton_add] at exact
      exact exact_hold exact
    case isFalse owned =>
      rw [if_neg owned]
      rw [zero_add] at exact
      split
      case isTrue retains =>
        refine ⟨exact, fun u hu => ?_⟩
        cases hu
        exact result v retains rfl
      case isFalse => exact ⟨exact, fun u hu => by cases hu⟩

/-- Whatever a client may ask for leaves the counts exact, and uses nothing that is gone unless it is a
stray string function. -/
theorem perform_exact (exact : s.Exact) (allowed : r.Allowed s.client) :
    ((s.perform r).1.world.heap.Fits → (s.perform r).1.world.heap.CountsFit →
      (s.perform r).1.Exact) ∧
      ∀ f, (s.perform r).2 = some f → f.isUseAfterFree = true → s.Strays r f := by
  obtain ⟨⟨holdings, fetched⟩, ⟨heap, console⟩⟩ := s
  cases r with
  | retain v =>
    obtain ⟨h', run, exact'⟩ := retain_exact (v := v) exact.exact fun counted =>
      Multiset.mem_add.mpr (allowed.imp_right fun hf => exact.fetched v hf counted)
    have run' : (Request.retain v).op ⟨heap, console⟩ = .ok none ⟨h', console⟩ := by
      simp only [Request.op, Bind.bind, EStateM.bind, World.onHeap, run]
      rfl
    rw [perform_ok run']
    exact ⟨fun _ fit => exact_hold (exact' fit), fun f hf => by cases hf⟩
  | release v =>
    obtain ⟨rest, hrest⟩ := Multiset.exists_cons_of_mem allowed
    simp only at hrest
    subst hrest
    obtain ⟨h', run, exact'⟩ := release_exact exact.exact
    have run' : (Request.release v).op ⟨heap, console⟩ = .ok none ⟨h', console⟩ := by
      simp only [Request.op, Bind.bind, EStateM.bind, World.onHeap, run]
      rfl
    rw [perform_ok run']
    refine ⟨fun _ _ => ⟨?_, fun u hu => by cases hu⟩, fun f hf => by cases hf⟩
    simpa [Client.after] using exact'
  | call i arguments =>
    have settles := call_exact (w := ⟨heap, console⟩) (i := i) exact.exact allowed
    cases hc : i.call arguments ⟨heap, console⟩ with
    | error f w =>
      have run : (Request.call i arguments).op ⟨heap, console⟩ = .error f w := by
        simp only [Request.op, Bind.bind, EStateM.bind, hc]
      rw [hc] at settles
      rw [perform_error run]
      refine ⟨fun _ _ => ⟨settles.1, fun u hu => by cases hu⟩, fun g hg gone => ?_⟩
      cases hg
      exact settles.2 gone
    | ok reply w =>
      have run : (Request.call i arguments).op ⟨heap, console⟩ = .ok (some reply) w := by
        simp only [Request.op, Bind.bind, EStateM.bind, hc]
        rfl
      rw [hc] at settles
      rw [perform_ok run]
      exact ⟨fun fits fit => exact_call (settles fits fit).1 (settles fits fit).2,
        fun f hf => by cases hf⟩

/-- Nothing is counted before the first request. -/
theorem start_exact (console : Console) : Exact ⟨⟨0, none⟩, ⟨.empty true, console⟩⟩ := by
  refine ⟨⟨rfl, ?_, ?_, ?_, ?_, rfl⟩, fun v hv => by cases hv⟩
  · intro i o ho
    simp [objectAt?, empty] at ho
  · exact fun v hv => absurd hv (Multiset.notMem_zero v)
  · intro i c cell
    simp [empty] at cell
  · intro i c cell
    simp [empty] at cell

/-- Requests only add to the heap. -/
theorem perform_grows (s : Session) (r : Request) :
    s.world.heap.Grows (s.perform r).1.world.heap := by
  have adds : Adds World.heap Fault.isRuntime r.op := by
    cases r with
    | retain v => exact .bind (.onHeap (retain_adds v)) fun _ => .pure _
    | release v => exact .bind (.onHeap (release_adds v)) fun _ => .pure _
    | call i arguments => exact .bind (call_adds i arguments) fun _ => .pure _
  have grows := (adds s.world).1
  unfold perform
  cases hr : r.op s.world <;> rw [hr] at grows <;> exact grows

theorem Reached.exact (reached : s.Reached) (fits : s.world.heap.Fits) : s.Exact := by
  induction reached with
  | start console => exact start_exact console
  | @step s r _ allowed fit ih =>
    exact (perform_exact (ih (fits_of_grows (perform_grows s r) fits)) allowed).1 fits fit

/-- However a client begins with nothing on a heap that counts and whatever it asks for, as long as the
handles of all objects are words and no count wraps around: an array that is there is referred to as often
as the client holds it and as it stands in boxed arrays that are there, and at least once; an array that
was reclaimed is neither held nor stands in one of these; no reference is given back twice; and no request
uses what was reclaimed, except that a string function that gets the handle of a reclaimed array as a
plain number may find it there. -/
theorem references_exact (reached : s.Reached) (fits : s.world.heap.Fits) :
    (∀ i c, s.world.heap.cells[i]? = some c → c.object.isArray = true →
      (c.freed = false →
        c.references.toInt =
            ((mentions s.client.holdings i + mentions s.world.heap.embedded i : Nat) : Int) ∧
          1 ≤ c.references) ∧
      (c.freed = true → mentions s.client.holdings i = 0 ∧ mentions s.world.heap.embedded i = 0)) ∧
    s.world.heap.underflows = 0 ∧
    ∀ r f, r.Allowed s.client → (s.perform r).2 = some f → f.isUseAfterFree = true →
      s.Strays r f := by
  have exact := reached.exact fits
  refine ⟨fun i c cell array => ?_, exact.exact.underflows,
    fun r f allowed => (perform_exact exact allowed).2 f⟩
  obtain ⟨references, freed⟩ := exact.exact.right i c cell array
  rw [mentions_add] at references
  refine ⟨fun live => ⟨references, ?_⟩, fun gone => ?_⟩
  · rw [← Bool.not_eq_true, freed, mentions_add] at live
    rw [Int32.le_iff_toInt_le, references, Int32.toInt_one]
    omega
  · have none := freed.mp gone
    rw [mentions_add] at none
    omega

/-- A client makes an array of a number. -/
def made : Session :=
  (perform ⟨⟨0, none⟩, ⟨.empty true, ⟨[], #[]⟩⟩⟩ (.call .arrMake [.scalar 1, .scalar 0])).1

/-- It puts the array into a boxed array twice and keeps only that. -/
def shared : Session :=
  (perform (perform made (.call .arrMakeBoxed [.scalar 2, ⟨handle 0, .scalarArray⟩])).1
    (.release ⟨handle 0, .scalarArray⟩)).1

/-- Or it gives the array back. -/
def reclaimed : Session :=
  (perform made (.release ⟨handle 0, .scalarArray⟩)).1

theorem reached_made : made.Reached :=
  .step (.start ⟨[], #[]⟩) (by decide) (by decide +kernel)

theorem reached_shared : shared.Reached :=
  .step (.step reached_made (by decide) (by decide +kernel)) (by decide +kernel) (by decide +kernel)

theorem reached_reclaimed : reclaimed.Reached :=
  .step reached_made (by decide) (by decide +kernel)

theorem references_exact_shared :
    mentions shared.client.holdings 0 = 0 ∧ mentions shared.world.heap.embedded 0 = 2 ∧
      ∃ c, shared.world.heap.cells[0]? = some c ∧ c.references = 2 := by
  have held : mentions shared.client.holdings 0 = 0 := by decide +kernel
  have embedded : mentions shared.world.heap.embedded 0 = 2 := by decide +kernel
  have exact := (references_exact reached_shared (by decide +kernel)).1
  obtain ⟨c, cell, array, live⟩ : ∃ c, shared.world.heap.cells[0]? = some c ∧
      c.object.isArray = true ∧ c.freed = false :=
    ⟨⟨.scalars #[0], 2, false⟩, by decide +kernel, by decide, rfl⟩
  have references := ((exact 0 c cell array).1 live).1
  rw [held, embedded] at references
  exact ⟨held, embedded, c, cell, Int32.toInt_inj.mp references⟩

/-- A string function that gets the handle of a reclaimed array as a plain number looks it up all the
same, although it was given no array. -/
theorem strLen_of_reclaimed :
    ¬∀ s r f, Reached s → s.world.heap.Fits → Request.Allowed s.client r →
      (s.perform r).2 = some f → f.isUseAfterFree = false := by
  intro never
  have fault : (perform reclaimed (.call .strLen [.scalar (handle 0)])).2 =
      some (.reclaimed .scalarArray (handle 0)) := by decide +kernel
  have plain := never reclaimed _ _ reached_reclaimed (by decide +kernel) (by decide +kernel) fault
  cases plain

end Session

end Threefold
