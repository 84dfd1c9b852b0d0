import Mathlib.Algebra.Group.Int.Defs
import Threefold.Proofs.Heap.Effects

/-!
# The kinds of arrays on a heap

An object keeps its kind for as long as the heap exists, and a value with the tag of an array is the
handle of an array of that kind (`Heap.Vouches`). The built-in functions preserve this for the elements
of boxed arrays (`Heap.Sound`) and for what they return (`call_sound`), as long as handles are words.
-/

namespace Threefold

/-- The kind of array that a tag stands for. -/
def Tag.kind? : Tag → Option ObjectKind
  | scalar => none
  | scalarArray => some .scalarArray
  | boxedArray => some .boxedArray

theorem Tag.kind?_isSome (t : Tag) : t.kind?.isSome = t.isCounted := by
  cases t <;> rfl

namespace Heap

/-- The handles of all cells are words that name them. -/
def Fits (h : Heap) : Prop :=
  base + h.cells.size ≤ 2 ^ 31

instance (h : Heap) : Decidable h.Fits :=
  inferInstanceAs (Decidable (base + h.cells.size ≤ 2 ^ 31))

theorem index?_eq_some {h : Heap} {n : Int32} {i : Nat} :
    h.index? n = some i ↔ i < h.cells.size ∧ n.toInt = base + i := by
  simp only [index?]
  split
  case isTrue inside =>
    simp only [Option.some.injEq]
    omega
  case isFalse outside =>
    simp only [reduceCtorEq, false_iff, not_and]
    omega

theorem toInt_handle {i : Nat} (hi : base + i < 2 ^ 31) : (handle i).toInt = base + i := by
  rw [handle, Int32.toInt_ofNat_of_lt hi]
  rfl

theorem Fits.index?_handle {h : Heap} (fits : h.Fits) {i : Nat} (hi : i < h.cells.size) :
    h.index? (handle i) = some i :=
  index?_eq_some.mpr ⟨hi, toInt_handle (by simp only [Fits] at fits; omega)⟩

/-- A heap whose handles are words had no more objects before. -/
theorem fits_of_grows {h h' : Heap} (grows : h.Grows h') (fits : h'.Fits) : h.Fits := by
  have := grows.size
  simp only [Fits] at fits ⊢
  omega

/-- The kind of the object in a cell. -/
def kindAt? (h : Heap) (i : Nat) : Option ObjectKind :=
  (h.objectAt? i).map HeapObject.kind

theorem objectAt?_lt {h : Heap} {i : Nat} {o : HeapObject} (ho : h.objectAt? i = some o) :
    i < h.cells.size := by
  simp only [objectAt?, Option.map_eq_some_iff] at ho
  obtain ⟨c, hc, -⟩ := ho
  exact (Array.getElem?_eq_some_iff.mp hc).1

theorem kindAt?_lt {h : Heap} {i : Nat} {k : ObjectKind} (hk : h.kindAt? i = some k) :
    i < h.cells.size := by
  simp only [kindAt?, Option.map_eq_some_iff] at hk
  obtain ⟨o, ho, -⟩ := hk
  exact objectAt?_lt ho

/-- The tag of a value says what its word is: an array tag comes with the handle of an array of that
kind. -/
def Vouches (h : Heap) (v : Value) : Prop :=
  ∀ k, v.tag.kind? = some k → ∃ i, h.index? v.word = some i ∧ h.kindAt? i = some k

theorem vouches_scalar (h : Heap) (n : Int32) : h.Vouches (.scalar n) :=
  fun _ hk => by cases hk

theorem vouches_of_uncounted {h : Heap} {v : Value} (hv : v.tag.isCounted = false) : h.Vouches v := by
  intro k hk
  rw [← Tag.kind?_isSome, hk] at hv
  cases hv

/-- The elements of all boxed arrays are what their tags say. -/
def Sound (h : Heap) : Prop :=
  ∀ i o, h.objectAt? i = some o → ∀ v ∈ o.elements, h.Vouches v

/-- Objects stay where they are and of the kind that they are. -/
def KeepsKinds (h h' : Heap) : Prop :=
  ∀ i k, h.kindAt? i = some k → h'.kindAt? i = some k

theorem KeepsKinds.refl (h : Heap) : h.KeepsKinds h :=
  fun _ _ hk => hk

theorem KeepsKinds.trans {h h' h'' : Heap} (a : h.KeepsKinds h') (b : h'.KeepsKinds h'') :
    h.KeepsKinds h'' :=
  fun i k hk => b i k (a i k hk)

theorem Vouches.mono {h h' : Heap} {v : Value} (hv : h.Vouches v) (keeps : h.KeepsKinds h') :
    h'.Vouches v := by
  intro k hk
  obtain ⟨i, index, kind⟩ := hv k hk
  have kind' := keeps i k kind
  exact ⟨i, index?_eq_some.mpr ⟨kindAt?_lt kind', (index?_eq_some.mp index).2⟩, kind'⟩

/-! ## Operations that only count -/

/-- Two heaps with the same objects. -/
def SameObjects (h h' : Heap) : Prop :=
  ∀ i, h'.objectAt? i = h.objectAt? i

theorem SameObjects.refl (h : Heap) : h.SameObjects h :=
  fun _ => rfl

theorem SameObjects.trans {h h' h'' : Heap} (a : h.SameObjects h') (b : h'.SameObjects h'') :
    h.SameObjects h'' :=
  fun i => (b i).trans (a i)

theorem SameObjects.keepsKinds {h h' : Heap} (same : h.SameObjects h') : h.KeepsKinds h' := by
  intro i k hk
  rw [kindAt?, same i]
  exact hk

theorem SameObjects.sound {h h' : Heap} (same : h.SameObjects h') (sound : h.Sound) : h'.Sound := by
  intro i o ho v hv
  rw [same i] at ho
  exact (sound i o ho v hv).mono same.keepsKinds

/-- A change to a cell that leaves its object alone. -/
theorem sameObjects_modify {h h' : Heap} {i : Nat} {f : Cell → Cell}
    (cells : h'.cells = h.cells.modify i f) (hf : ∀ c, (f c).object = c.object) :
    h.SameObjects h' := by
  intro j
  rw [objectAt?, objectAt?, cells, Array.getElem?_modify]
  split
  · rw [Option.map_map]
    exact congrArg (Option.map · _) (funext hf)
  · rfl

theorem retain_sameObjects (v : Value) (h : Heap) : h.SameObjects (finalState (retain v h)) := by
  unfold retain
  split
  · exact .refl h
  · cases h.index? v.word with
    | none => exact .refl h
    | some i =>
      dsimp only
      split
      · exact .refl h
      · exact sameObjects_modify (f := Cell.take) rfl fun _ => rfl

theorem retainTimes_sameObjects (v : Value) (n : Nat) (h : Heap) :
    h.SameObjects (finalState (retainTimes v n h)) := by
  induction n generalizing h with
  | zero => exact .refl h
  | succ n ih =>
    have first := retain_sameObjects v h
    simp only [retainTimes, Bind.bind, EStateM.bind]
    cases hr : retain v h with
    | ok u h' =>
      rw [hr] at first
      exact first.trans (ih h')
    | error e h' =>
      rw [hr] at first
      exact first

theorem drop_sameObjects (h : Heap) (i : Nat) (hi : i < h.cells.size) :
    h.SameObjects (h.drop i hi).1 := by
  unfold drop
  dsimp only
  split
  · exact fun _ => rfl
  · exact sameObjects_modify (f := Cell.drop) rfl fun _ => rfl

theorem releaseAll_sameObjects (h : Heap) (pending : List Value) :
    h.SameObjects (finalState (releaseAll h pending)) := by
  fun_induction releaseAll h pending with
  | case1 h => exact .refl h
  | case2 h v rest none => exact .refl h
  | case3 h v rest i found ih => exact (drop_sameObjects h i _).trans ih

theorem release_sameObjects (v : Value) (h : Heap) : h.SameObjects (finalState (release v h)) := by
  unfold release
  split
  · exact .refl h
  · exact releaseAll_sameObjects h [v]

/-- A value with the tag of an array names a cell. -/
theorem Vouches.index {h : Heap} {v : Value} (hv : h.Vouches v) (counted : v.tag.isCounted = true) :
    ∃ i k, h.index? v.word = some i ∧ h.kindAt? i = some k ∧ v.tag.kind? = some k := by
  rw [← Tag.kind?_isSome, Option.isSome_iff_exists] at counted
  obtain ⟨k, hk⟩ := counted
  obtain ⟨i, index, kind⟩ := hv k hk
  exact ⟨i, k, index, kind, hk⟩

/-- What is given back on account of a cell names arrays again. -/
theorem drop_vouches {h : Heap} (sound : h.Sound) {i : Nat} (hi : i < h.cells.size) :
    ∀ v ∈ (h.drop i hi).2, v.tag.isCounted = true ∧ h.Vouches v := by
  intro v hv
  unfold drop at hv
  dsimp only at hv
  split at hv
  · cases hv
  · split at hv
    · rw [List.mem_reverse, HeapObject.held_eq, List.mem_filter] at hv
      refine ⟨hv.2, sound i h.cells[i].object ?_ v hv.1⟩
      rw [objectAt?, Array.getElem?_eq_getElem hi]
      rfl
    · cases hv

/-- Arrays can always be given back. -/
theorem releaseAll_ok {h : Heap} {pending : List Value} (sound : h.Sound)
    (known : ∀ v ∈ pending, v.tag.isCounted = true ∧ h.Vouches v) :
    ∃ h', releaseAll h pending = .ok () h' := by
  fun_induction releaseAll h pending with
  | case1 h => exact ⟨h, rfl⟩
  | case2 h v rest none =>
    obtain ⟨counted, vouches⟩ := known v (by simp)
    obtain ⟨i, k, index, -⟩ := vouches.index counted
    rw [none] at index
    cases index
  | case3 h v rest i found ih =>
    have same := drop_sameObjects h i (index?_lt found)
    refine ih (same.sound sound) fun u hu => ?_
    obtain held | mem := List.mem_append.mp hu
    · obtain ⟨counted, vouches⟩ := drop_vouches sound (index?_lt found) u held
      exact ⟨counted, vouches.mono same.keepsKinds⟩
    · obtain ⟨counted, vouches⟩ := known u (List.mem_cons_of_mem v mem)
      exact ⟨counted, vouches.mono same.keepsKinds⟩

theorem release_ok {h : Heap} {v : Value} (sound : h.Sound) (hv : h.Vouches v) :
    ∃ h', release v h = .ok () h' := by
  unfold release
  split
  · exact ⟨h, rfl⟩
  · rename_i counts
    simp only [Bool.or_eq_true, Bool.not_eq_true', not_or, Bool.not_eq_false] at counts
    exact releaseAll_ok sound fun u hu => by
      rw [List.mem_singleton.mp hu]
      exact ⟨counts.2, hv⟩

/-- An array can be retained unless it is gone. -/
theorem retain_error {h h' : Heap} {v : Value} {f : Fault} (hv : h.Vouches v)
    (he : retain v h = .error f h') : f = .retainedReclaimed v.word := by
  unfold retain at he
  split at he
  · cases he
  · rename_i counts
    simp only [Bool.or_eq_true, Bool.not_eq_true', not_or, Bool.not_eq_false] at counts
    obtain ⟨i, k, index, -⟩ := hv.index counts.2
    rw [index] at he
    dsimp only at he
    split at he
    · cases he
      rfl
    · cases he

/-! ## Operations that change an object -/

theorem kindAt?_push {h h' : Heap} {c : Cell} (cells : h'.cells = h.cells.push c) :
    h'.kindAt? h.cells.size = some c.object.kind := by
  simp [kindAt?, objectAt?, cells]

theorem keepsKinds_push {h h' : Heap} {c : Cell} (cells : h'.cells = h.cells.push c) :
    h.KeepsKinds h' := by
  intro i k hk
  have hi := kindAt?_lt hk
  rw [kindAt?, objectAt?, cells, Array.getElem?_push_lt hi]
  rw [kindAt?, objectAt?, Array.getElem?_eq_getElem hi] at hk
  exact hk

/-- A new object with elements that are what they seem. -/
theorem sound_push {h h' : Heap} {c : Cell} (cells : h'.cells = h.cells.push c) (sound : h.Sound)
    (elements : ∀ v ∈ c.object.elements, h.Vouches v) : h'.Sound := by
  intro i o ho v hv
  refine Vouches.mono ?_ (keepsKinds_push cells)
  simp only [objectAt?, cells, Array.getElem?_push] at ho
  split at ho
  · cases ho
    exact elements v hv
  · exact sound i o ho v hv

/-- The result of putting an array on the heap. -/
theorem vouches_push {h h' : Heap} {c : Cell} {t : Tag} (cells : h'.cells = h.cells.push c)
    (fits : h'.Fits) (kind : t.kind? = some c.object.kind) : h'.Vouches ⟨handle h.cells.size, t⟩ := by
  intro k hk
  refine ⟨h.cells.size, fits.index?_handle (by rw [cells]; simp), ?_⟩
  rw [kindAt?_push cells, ← kind, ← hk]

/-- What a change does to objects is harmless if it keeps their kind and gives them only elements that
are what they seem. -/
structure Harmless (h : Heap) (f : HeapObject → HeapObject) : Prop where
  kind : ∀ o, (f o).kind = o.kind
  elements : ∀ o, ∀ v ∈ (f o).elements, v ∈ o.elements ∨ h.Vouches v

theorem objectAt?_modifyObject (i j : Nat) (f : HeapObject → HeapObject) (h : Heap) :
    (finalState (modifyObject i f h)).objectAt? j =
      if i = j then (h.objectAt? j).map f else h.objectAt? j := by
  simp only [finalState, modifyObject, objectAt?, Array.getElem?_modify]
  split <;> simp [Function.comp_def]

theorem Harmless.keepsKinds {h : Heap} {f : HeapObject → HeapObject} (harmless : h.Harmless f)
    (i : Nat) : h.KeepsKinds (finalState (modifyObject i f h)) := by
  intro j k hk
  rw [kindAt?, objectAt?_modifyObject]
  split
  · rw [Option.map_map, show HeapObject.kind ∘ f = HeapObject.kind from funext harmless.kind]
    exact hk
  · exact hk

theorem Harmless.sound {h : Heap} {f : HeapObject → HeapObject} (harmless : h.Harmless f)
    (sound : h.Sound) (i : Nat) : (finalState (modifyObject i f h)).Sound := by
  intro j o ho v hv
  refine Vouches.mono ?_ (harmless.keepsKinds i)
  rw [objectAt?_modifyObject] at ho
  split at ho
  · obtain ⟨o', ho', rfl⟩ := Option.map_eq_some_iff.mp ho
    exact (harmless.elements o' v hv).elim (sound j o' ho' v) id
  · exact sound j o ho v hv

theorem harmless_setByte (h : Heap) (p : Nat) (b : UInt8) :
    h.Harmless (Intrinsic.setByte p b) := by
  refine ⟨fun o => ?_, fun o v hv => .inl ?_⟩
  · cases o <;> rfl
  · cases o <;> exact hv

theorem harmless_setElement {h : Heap} {v : Value} (hv : h.Vouches v) (p : Nat) :
    h.Harmless (Intrinsic.setElement p v) := by
  refine ⟨fun o => ?_, fun o u hu => ?_⟩
  · cases o <;> rfl
  · cases o with
    | string bytes => exact .inl hu
    | scalars words => exact .inl hu
    | boxed values =>
      simp only [Intrinsic.setElement, HeapObject.elements, Array.toList_setIfInBounds] at hu
      obtain old | rfl := List.mem_or_eq_of_mem_set hu
      · exact .inl old
      · exact .inr hv

theorem storeAt_sound {h : Heap} {v : Value} (sound : h.Sound) (hv : h.Vouches v) (i : Nat)
    (o : HeapObject) (p : Nat) :
    h.KeepsKinds (finalState (storeAt i o p v h)) ∧ (finalState (storeAt i o p v h)).Sound := by
  have harmless := harmless_setElement hv p
  have keeps := harmless.keepsKinds i
  have sound' := harmless.sound sound i
  cases o with
  | string bytes => exact ⟨keeps, sound'⟩
  | scalars words => exact ⟨keeps, sound'⟩
  | boxed values =>
    simp only [storeAt, Bind.bind, EStateM.bind]
    generalize hm : modifyObject i (Intrinsic.setElement p v) h = r at keeps sound'
    cases r with
    | error e h₁ => exact ⟨keeps, sound'⟩
    | ok u h₁ =>
      dsimp only [finalState] at keeps sound' ⊢
      have retained := retain_sameObjects v h₁
      cases hr : retain v h₁ with
      | error e h₂ =>
        rw [hr] at retained
        exact ⟨keeps.trans retained.keepsKinds, retained.sound sound'⟩
      | ok u h₂ =>
        rw [hr] at retained
        have released := release_sameObjects (values.getD p (.scalar 0)) h₂
        exact ⟨(keeps.trans retained.keepsKinds).trans released.keepsKinds,
          released.sound (retained.sound sound')⟩

/-- A value can be stored in an array unless it is an array that is gone. -/
theorem storeAt_error {h h' : Heap} {v : Value} {i p : Nat} {o : HeapObject} {f : Fault}
    (sound : h.Sound) (hv : h.Vouches v) (ho : h.objectAt? i = some o)
    (he : storeAt i o p v h = .error f h') : f = .retainedReclaimed v.word := by
  have harmless := harmless_setElement hv p
  have keeps := harmless.keepsKinds i
  have sound' := harmless.sound sound i
  cases o with
  | string bytes => cases he
  | scalars words => cases he
  | boxed values =>
    have previous : h.Vouches (values.getD p (.scalar 0)) := by
      by_cases inside : p < values.size
      · exact sound i _ ho _ (by simp [HeapObject.elements, inside])
      · simpa [inside] using vouches_scalar h 0
    simp only [storeAt, Bind.bind, EStateM.bind] at he
    generalize hm : modifyObject i (Intrinsic.setElement p v) h = r at he keeps sound'
    cases r with
    | error e h₁ => cases hm
    | ok u h₁ =>
      dsimp only [finalState] at he keeps sound'
      have retained := retain_sameObjects v h₁
      cases hr : retain v h₁ with
      | error e h₂ =>
        rw [hr] at he
        cases he
        exact retain_error (hv.mono keeps) hr
      | ok u h₂ =>
        rw [hr] at he retained
        dsimp only [finalState] at he retained
        have keeps' := keeps.trans retained.keepsKinds
        obtain ⟨h₃, released⟩ := release_ok (retained.sound sound') (previous.mono keeps')
        rw [released] at he
        cases he

end Heap

namespace Intrinsic

open Heap

/-- What a call leaves behind: objects of the kinds that they were, elements of boxed arrays that are
what their tags say, and a result that is as long as handles are words. -/
structure Faithful (h : Heap) (r : EStateM.Result Fault Heap Reply) : Prop where
  keeps : h.KeepsKinds (finalState r)
  sound : (finalState r).Sound
  result : ∀ v h', r = .ok (.returned v) h' → h'.Fits → h'.Vouches v

theorem Faithful.unchanged {h : Heap} {r : Reply} (sound : h.Sound)
    (result : ∀ v, r = .returned v → h.Vouches v) : Faithful h (.ok r h) := by
  refine ⟨.refl h, sound, fun v h' hr _ => ?_⟩
  cases hr
  exact result v rfl

theorem Effect.faithful {h : Heap} {i : Intrinsic} {arguments : List Value} {op : Heap.Op Reply}
    (effect : Effect h i arguments op) (sound : h.Sound)
    (known : ∀ v ∈ arguments, h.Vouches v) : Faithful h (op h) := by
  cases effect with
  | answer i arguments n =>
    refine .unchanged sound fun v hv => ?_
    cases hv
    exact h.vouches_scalar n
  | outOfBounds i arguments n => exact .unchanged sound fun v hv => by cases hv
  | fail cause => exact ⟨.refl h, sound, fun v h' hr => by cases hr⟩
  | newString i arguments bytes =>
    refine ⟨keepsKinds_push rfl, sound_push rfl sound (fun v hv => by cases hv), ?_⟩
    intro v h' hr _
    cases hr
    exact vouches_scalar _ _
  | @setByte i arguments k p b inside =>
    have harmless := harmless_setByte h p b
    refine ⟨harmless.keepsKinds k, harmless.sound sound k, ?_⟩
    intro v h' hr _
    cases hr
    exact vouches_scalar _ _
  | make n v size =>
    refine ⟨keepsKinds_push rfl, sound_push rfl sound (fun v hv => by cases hv), ?_⟩
    intro v h' hr fits
    cases hr
    exact vouches_push rfl fits rfl
  | makeBoxed n v size lt =>
    have hv := known v (by simp)
    have retained := retainTimes_sameObjects v size h
    simp only [Bind.bind, EStateM.bind]
    cases hr : retainTimes v size h with
    | error e h' =>
      rw [hr] at retained
      exact ⟨retained.keepsKinds, retained.sound sound, fun v h' hr => by cases hr⟩
    | ok u h' =>
      rw [hr] at retained
      refine ⟨retained.keepsKinds.trans (keepsKinds_push rfl),
        sound_push rfl (retained.sound sound) fun u hu => ?_, ?_⟩
      · simp only [HeapObject.elements, Array.toList_replicate, List.mem_replicate] at hu
        rw [hu.2]
        exact hv.mono retained.keepsKinds
      · intro u h'' hu fits
        cases hu
        exact vouches_push rfl fits rfl
  | @get a n k p c counted index cell live inside =>
    refine .unchanged sound fun v hv => ?_
    cases hv
    obtain ⟨o, references, freed⟩ := c
    cases o with
    | string bytes => exact vouches_scalar _ _
    | scalars words => exact vouches_scalar _ _
    | boxed values =>
      refine sound k (.boxed values) (by rw [objectAt?, cell]; rfl) _ ?_
      simp only [HeapObject.size] at inside
      simp [element, HeapObject.elements, inside]
  | @set a n v k p c counted index cell live inside =>
    have stored := storeAt_sound sound (known v (by simp)) k c.object p
    simp only [Bind.bind, EStateM.bind]
    cases hs : storeAt k c.object p v h with
    | error e h' =>
      rw [hs] at stored
      exact ⟨stored.1, stored.2, fun v h' hr => by cases hr⟩
    | ok u h' =>
      rw [hs] at stored
      refine ⟨stored.1, stored.2, fun v h' hr _ => ?_⟩
      cases hr
      exact vouches_scalar _ _

/-- A built-in function that is called with values that are what their tags say leaves the heap sound,
keeps the kinds of the objects on it and returns a value that is what its tag says. -/
theorem call_sound (i : Intrinsic) {arguments : List Value} {w : World} (sound : w.heap.Sound)
    (known : ∀ v ∈ arguments, w.heap.Vouches v) :
    Faithful w.heap (World.heapResult (i.call arguments w)) := by
  obtain ⟨op, effect, same⟩ := call_effect i arguments w
  rw [same]
  exact effect.faithful sound known

/-- An element of an array that is tagged as one of plain numbers is a plain number. -/
theorem arrGet_scalar {a n v : Value} {w w' : World} (vouches : w.heap.Vouches a)
    (tag : a.tag = .scalarArray) (hc : arrGet.call [a, n] w = .ok (.returned v) w') :
    v.tag = .scalar := by
  obtain ⟨op, effect, same⟩ := call_effect .arrGet [a, n] w
  rw [hc] at same
  simp only [World.heapResult] at same
  generalize w'.heap = h' at same
  cases effect with
  | answer i arguments n => cases same; rfl
  | outOfBounds i arguments n => cases same
  | fail cause => cases same
  | newString i arguments bytes => cases same; rfl
  | setByte => cases same; rfl
  | @get a n k p c counted index cell live inside =>
    cases same
    obtain ⟨i, found, kind⟩ := vouches .scalarArray (by rw [tag]; rfl)
    obtain rfl : k = i := Option.some.inj (index.symm.trans found)
    obtain ⟨o, references, freed⟩ := c
    simp only [kindAt?, objectAt?, cell, Option.map_some, Option.some.injEq] at kind
    cases o with
    | scalars words => rfl
    | string bytes => cases kind
    | boxed values => cases kind

/-- The array functions find an array under every handle that comes with the tag of one. -/
theorem call_finds_array {i : Intrinsic} {arguments : List Value} {w w' : World} {f : Fault}
    (reads : i.readsArray = true) (sound : w.heap.Sound) (known : ∀ v ∈ arguments, w.heap.Vouches v)
    (hc : i.call arguments w = .error f w') :
    (∀ n, f ≠ .notAHandle n) ∧ ∀ j, f ≠ .stringForArray j := by
  obtain ⟨op, effect, same⟩ := call_effect i arguments w
  rw [hc] at same
  simp only [World.heapResult] at same
  generalize w'.heap = h' at same
  cases effect with
  | answer => cases same
  | outOfBounds => cases same
  | newString => cases same
  | setByte => cases same
  | make => cases reads
  | makeBoxed => cases reads
  | get => cases same
  | fail cause =>
    cases same
    cases cause with
    | absent mem looks none =>
      exfalso
      obtain strings | ⟨-, counted⟩ := looks
      · rw [readsStrings_eq_false reads] at strings
        cases strings
      · obtain ⟨k, _, index, -⟩ := (known _ mem).index counted
        rw [none] at index
        cases index
    | reclaimed => exact ⟨by simp, by simp⟩
    | string mem counted index object =>
      exfalso
      obtain ⟨k, kind, index', hk, tag⟩ := (known _ mem).index counted
      obtain rfl := Option.some.inj (index.symm.trans index')
      simp only [kindAt?, object, Option.map_some, Option.some.injEq] at hk
      subst hk
      generalize Value.tag _ = t at tag
      cases t <;> cases tag
    | other plain =>
      constructor
      · rintro n rfl
        cases plain
      · rintro j rfl
        cases plain
  | @set a n v k p c counted index cell live inside =>
    simp only [Bind.bind, EStateM.bind] at same
    split at same
    · cases same
    · rename_i hs
      cases same
      rw [storeAt_error sound (known v (by simp)) (by rw [objectAt?, cell]; rfl) hs]
      exact ⟨by simp, by simp⟩

end Intrinsic

end Threefold
