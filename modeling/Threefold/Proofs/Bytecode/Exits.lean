import Mathlib.Data.List.Perm.Basic
import Threefold.Bytecode.Scopes

/-!
# Where the jumps out of nested scopes are listed

The parts of a function are opened and closed while jumps are added to them. What has happened so far
tells, without the parts themselves, which of them are open (`openParts`), which of them an exception
goes to (`receiver?`), and so which jumps each of them must list (`throwsOf`, `exitsOf`).

`exits_exact` says that the parts list just these jumps, be they open still or closed: no jump is lost,
listed twice or given to another part, and a part that is closed lists what it is going to list for ever.
-/

namespace Threefold.Bytecode.Scopes

/-- Something that has happened to the open parts. -/
inductive Event
  | opened (id : Nat) (kind : ScopeKind) (catches : Bool)
  /-- The part with this number was closed, and this is what was found in it. -/
  | closed (id : Nat) (part : Scope)
  | thrown (slot : Nat)
  | left (id slot : Nat)

/-- An operation that succeeds. -/
inductive Step : Scopes → Event → Scopes → Prop
  | push (s : Scopes) (kind : ScopeKind) (catches : Bool) :
    Step s (.opened s.next kind catches) (s.push kind catches)
  | pop {s s' : Scopes} {id : Nat} {part : Scope} :
    Scopes.pop id s = .ok part s' → Step s (.closed id part) s'
  | addThrow {s s' : Scopes} {slot : Nat} :
    Scopes.addThrow slot s = .ok () s' → Step s (.thrown slot) s'
  | addExit {s s' : Scopes} {id slot : Nat} :
    Scopes.addExit id slot s = .ok () s' → Step s (.left id slot) s'

/-- What has happened since no part was open, the last event in front. -/
inductive Run : List Event → Scopes → Prop
  | start : Run [] .empty
  | step {es : List Event} {s s' : Scopes} {e : Event} : Run es s → Step s e s' → Run (e :: es) s'

/-! ## What events tell -/

/-- The numbers of all parts, the last one in front. -/
def ids : List Event → List Nat
  | [] => []
  | .opened id _ _ :: past => id :: ids past
  | _ :: past => ids past

/-- The parts that are open, the innermost in front, with whether exceptions end in them. -/
def openParts : List Event → List (Nat × Bool)
  | [] => []
  | .opened id _ catches :: past => (id, catches) :: openParts past
  | .closed _ _ :: past => (openParts past).tail
  | _ :: past => openParts past

/-- The parts that were closed, as they were found, the last one in front. -/
def closedParts : List Event → List Scope
  | [] => []
  | .closed _ part :: past => part :: closedParts past
  | _ :: past => closedParts past

/-- The innermost open part in which exceptions end. -/
def receiver? (es : List Event) : Option Nat :=
  ((openParts es).find? (·.2)).map (·.1)

/-- The jumps of exceptions, in the order in which they were added. -/
def thrown : List Event → List Nat
  | [] => []
  | .thrown slot :: past => thrown past ++ [slot]
  | _ :: past => thrown past

/-- The jumps of exceptions that went to a part when they were added. -/
def throwsOf (id : Nat) : List Event → List Nat
  | [] => []
  | .thrown slot :: past =>
    if receiver? past = some id then throwsOf id past ++ [slot] else throwsOf id past
  | _ :: past => throwsOf id past

/-- The jumps that leave parts because they are done, in the order in which they were added. -/
def left : List Event → List Nat
  | [] => []
  | .left _ slot :: past => left past ++ [slot]
  | _ :: past => left past

/-- The jumps that leave a part because it is done. -/
def exitsOf (id : Nat) : List Event → List Nat
  | [] => []
  | .left id' slot :: past => if id' = id then exitsOf id past ++ [slot] else exitsOf id past
  | _ :: past => exitsOf id past

/-- An event adds a jump to a part or closes it. -/
def Event.Concerns (es : List Event) (id : Nat) : Event → Prop
  | .opened _ _ _ => False
  | .closed id' _ => id' = id
  | .thrown _ => receiver? es = some id
  | .left id' _ => id' = id

/-! ## Jumps of either kind -/

/-- Why a jump leaves a part. -/
inductive Reason
  | exception
  /-- The part is done. -/
  | done
  deriving DecidableEq

/-- The jumps that an open part lists for a reason. -/
def Reason.listed : Reason → Scope → List Nat
  | exception, c => c.throws
  | done, c => c.exits

/-- An open part that lists one more jump. -/
def Reason.add (slot : Nat) : Reason → Scope → Scope
  | exception, c => { c with throws := c.throws ++ [slot] }
  | done, c => { c with exits := c.exits ++ [slot] }

/-- All jumps for a reason, in the order in which they were added. -/
def jumps : Reason → List Event → List Nat
  | .exception => thrown
  | .done => left

/-- The jumps for a reason that went to a part. -/
def jumpsOf : Reason → Nat → List Event → List Nat
  | .exception => throwsOf
  | .done => exitsOf

/-- The jump that an event adds: the reason, the part that the jump goes to, and its slot. -/
def Event.jump? (past : List Event) : Event → Option (Reason × Option Nat × Nat)
  | .thrown slot => some (.exception, receiver? past, slot)
  | .left id slot => some (.done, some id, slot)
  | _ => none

section Jumps

variable {es : List Event} {e : Event} {r r' : Reason} {goal : Option Nat} {id slot : Nat}

theorem Reason.listed_add {c : Scope} :
    r.listed (r'.add slot c) = if r' = r then r.listed c ++ [slot] else r.listed c := by
  cases r <;> cases r' <;> rfl

theorem Reason.add_keeps (r : Reason) (slot : Nat) (c : Scope) :
    (r.add slot c).id = c.id ∧ (r.add slot c).catches = c.catches := by
  cases r <;> exact ⟨rfl, rfl⟩

/-- A jump neither opens nor closes a part. -/
theorem parts_of_jump? (adds : e.jump? es = some (r', goal, slot)) :
    ids (e :: es) = ids es ∧ openParts (e :: es) = openParts es ∧
      closedParts (e :: es) = closedParts es := by
  cases e with
  | opened id kind catches => cases adds
  | closed id part => cases adds
  | thrown slot => exact ⟨rfl, rfl, rfl⟩
  | left id slot => exact ⟨rfl, rfl, rfl⟩

theorem jumps_of_none (adds : e.jump? es = none) : jumps r (e :: es) = jumps r es := by
  cases r <;> cases e <;> first | rfl | cases adds

theorem jumpsOf_of_none (adds : e.jump? es = none) : jumpsOf r id (e :: es) = jumpsOf r id es := by
  cases r <;> cases e <;> first | rfl | cases adds

theorem jumps_of_some (adds : e.jump? es = some (r', goal, slot)) :
    jumps r (e :: es) = if r' = r then jumps r es ++ [slot] else jumps r es := by
  cases r <;> cases e <;> cases adds <;> rfl

theorem jumpsOf_of_some (adds : e.jump? es = some (r', goal, slot)) :
    jumpsOf r id (e :: es) =
      if r' = r ∧ goal = some id then jumpsOf r id es ++ [slot] else jumpsOf r id es := by
  cases r <;> cases e <;> cases adds <;> simp [jumpsOf, throwsOf, exitsOf]

end Jumps

/-! ## The first part with a property -/

theorem change?_eq_none_iff {p : Scope → Bool} {f : Scope → Scope} {ss : List Scope} :
    change? p f ss = none ↔ ∀ c ∈ ss, p c = false := by
  induction ss with
  | nil => exact iff_of_true rfl (by nofun)
  | cons s ss ih =>
    by_cases hs : p s = true
    · simp [change?, hs]
    · simp [change?, hs, ih]

theorem change?_eq_some {p : Scope → Bool} {f : Scope → Scope} {ss ss' : List Scope}
    (h : change? p f ss = some ss') :
    ∃ front c back, ss = front ++ c :: back ∧ ss' = front ++ f c :: back ∧ p c = true ∧
      ∀ x ∈ front, p x = false := by
  induction ss generalizing ss' with
  | nil => cases h
  | cons s ss ih =>
    by_cases hs : p s = true
    · simp only [change?, hs, if_true, Option.some.injEq] at h
      exact ⟨[], s, ss, rfl, h.symm, hs, by nofun⟩
    · simp only [change?, hs, Bool.false_eq_true, if_false, Option.map_eq_some_iff] at h
      obtain ⟨rest, changed, rfl⟩ := h
      obtain ⟨front, c, back, rfl, rfl, hc, before⟩ := ih changed
      refine ⟨s :: front, c, back, rfl, rfl, hc, ?_⟩
      exact List.forall_mem_cons.mpr ⟨Bool.eq_false_iff.mpr hs, before⟩

/-! ## The parts show what has happened -/

/-- The number of a part and whether exceptions end in it. -/
def outline (c : Scope) : Nat × Bool :=
  (c.id, c.catches)

/-- All parts that there are, open or closed, list their jumps; each has a number of its own, and no
jump goes to a part that there is not. -/
structure Shows (es : List Event) (s : Scopes) : Prop where
  outlined : s.opened.map outline = openParts es
  parts : ((s.opened ++ closedParts es).map Scope.id).Perm (ids es)
  below : ∀ id ∈ ids es, id < s.next
  distinct : (ids es).Nodup
  lists : ∀ r : Reason, ∀ c ∈ s.opened ++ closedParts es, r.listed c = jumpsOf r c.id es
  unheard : ∀ r, ∀ id ∉ ids es, jumpsOf r id es = []

namespace Shows

variable {es : List Event} {s s' : Scopes} {id slot : Nat}

theorem empty : Shows [] .empty where
  outlined := rfl
  parts := .refl _
  below := by nofun
  distinct := .nil
  lists := by nofun
  unheard := by
    intro r _ _
    cases r <;> rfl

theorem mem_ids (h : Shows es s) {c : Scope} (mem : c ∈ s.opened ++ closedParts es) : c.id ∈ ids es :=
  h.parts.mem_iff.mp (List.mem_map_of_mem mem)

theorem fresh (h : Shows es s) : s.next ∉ ids es :=
  fun mem => Nat.lt_irrefl _ (h.below _ mem)

theorem push (h : Shows es s) (kind : ScopeKind) (catches : Bool) :
    Shows (.opened s.next kind catches :: es) (s.push kind catches) where
  outlined := congrArg _ h.outlined
  parts := h.parts.cons _
  below := by
    intro id mem
    obtain rfl | mem := List.mem_cons.mp mem
    · exact Nat.lt_succ_self _
    · exact Nat.lt_succ_of_lt (h.below id mem)
  distinct := List.nodup_cons.mpr ⟨h.fresh, h.distinct⟩
  lists := by
    intro r c mem
    rw [jumpsOf_of_none rfl]
    obtain rfl | mem := List.mem_cons.mp mem
    · rw [h.unheard r _ h.fresh]
      cases r <;> rfl
    · exact h.lists r c mem
  unheard := by
    intro r id mem
    rw [jumpsOf_of_none rfl]
    exact h.unheard r id (List.not_mem_of_not_mem_cons mem)

end Shows

/-- The part that is closed is the innermost one. -/
theorem pop_eq_ok {s s' : Scopes} {id : Nat} {c : Scope} (h : pop id s = .ok c s') :
    c.id = id ∧ s.opened = c :: s'.opened ∧ s'.next = s.next := by
  unfold pop at h
  split at h
  case h_1 => cases h
  case h_2 inner rest opened =>
    split at h
    case isTrue hid =>
      cases h
      exact ⟨hid, opened, rfl⟩
    case isFalse => cases h

theorem addThrow_eq_ok {s s' : Scopes} {slot : Nat} (h : addThrow slot s = .ok () s') :
    ∃ front c back, s.opened = front ++ c :: back ∧ c.catches = true ∧
      (∀ x ∈ front, x.catches = false) ∧
      s' = { s with opened := front ++ { c with throws := c.throws ++ [slot] } :: back } := by
  unfold addThrow at h
  split at h
  case h_1 opened changed =>
    cases h
    obtain ⟨front, c, back, whole, rfl, hc, before⟩ := change?_eq_some changed
    exact ⟨front, c, back, whole, hc, before, rfl⟩
  case h_2 => cases h

theorem addExit_eq_ok {s s' : Scopes} {id slot : Nat} (h : addExit id slot s = .ok () s') :
    ∃ front c back, s.opened = front ++ c :: back ∧ c.id = id ∧
      s' = { s with opened := front ++ { c with exits := c.exits ++ [slot] } :: back } := by
  unfold addExit at h
  split at h
  case h_1 opened changed =>
    cases h
    obtain ⟨front, c, back, whole, rfl, hc, -⟩ := change?_eq_some changed
    exact ⟨front, c, back, whole, of_decide_eq_true hc, rfl⟩
  case h_2 => cases h

namespace Shows

variable {es : List Event} {s s' : Scopes} {id slot : Nat}

theorem pop (h : Shows es s) {c : Scope} (step : Scopes.pop id s = .ok c s') :
    Shows (.closed id c :: es) s' := by
  obtain ⟨-, opened, next⟩ := pop_eq_ok step
  have same : (s'.opened ++ c :: closedParts es).Perm (s.opened ++ closedParts es) := by
    rw [opened]
    exact List.perm_middle
  exact {
    outlined := by
      rw [openParts, ← h.outlined, opened]
      rfl
    parts := (same.map _).trans h.parts
    below := next ▸ h.below
    distinct := h.distinct
    lists := fun r x mem => (h.lists r x (same.mem_iff.mp mem)).trans (jumpsOf_of_none rfl).symm
    unheard := fun r id mem => (jumpsOf_of_none rfl).trans (h.unheard r id mem) }

/-- Each part after a change to one of them is that one, or it is as it was and has another number. -/
theorem changed (h : Shows es s) {front back : List Scope} {c c' : Scope}
    (opened : s.opened = front ++ c :: back) {x : Scope}
    (mem : x ∈ (front ++ c' :: back) ++ closedParts es) :
    x = c' ∨ x ∈ s.opened ++ closedParts es ∧ x.id ≠ c.id := by
  have distinct := h.parts.nodup_iff.mpr h.distinct
  have whole : ∀ y, ((front ++ y :: back) ++ closedParts es).Perm
      (y :: (front ++ back ++ closedParts es)) := fun _ => List.perm_middle.append_right _
  rw [opened] at distinct ⊢
  have apart := (List.nodup_cons.mp (((whole c).map Scope.id).nodup_iff.mp distinct)).1
  obtain rfl | mem := List.mem_cons.mp ((whole c').mem_iff.mp mem)
  · exact .inl rfl
  · refine .inr ⟨(whole c).mem_iff.mpr (List.mem_cons_of_mem _ mem), ?_⟩
    intro same
    exact apart (same ▸ List.mem_map_of_mem mem)

/-- The numbers of the parts stay after a change to one of them that keeps its number. -/
theorem parts_changed (h : Shows es s) {front back : List Scope} {c c' : Scope}
    (opened : s.opened = front ++ c :: back) (same : c'.id = c.id) :
    (((front ++ c' :: back) ++ closedParts es).map Scope.id).Perm (ids es) := by
  have parts := h.parts
  rw [opened] at parts
  simpa [same] using parts

theorem receiver?_eq (h : Shows es s) {front back : List Scope} {c : Scope}
    (opened : s.opened = front ++ c :: back) (catches : c.catches = true)
    (before : ∀ x ∈ front, x.catches = false) : receiver? es = some c.id := by
  have none : (front.map outline).find? (·.2) = none := by simpa [outline] using before
  rw [receiver?, ← h.outlined, opened, List.map_append, List.find?_append, none]
  simp [outline, catches]

/-- One more jump for an open part. -/
theorem add (h : Shows es s) {front back : List Scope} {c : Scope} {e : Event} {r : Reason}
    (adds : e.jump? es = some (r, some c.id, slot)) (opened : s.opened = front ++ c :: back) :
    Shows (e :: es) { s with opened := front ++ r.add slot c :: back } := by
  obtain ⟨ids, openParts, closedParts⟩ := parts_of_jump? adds
  obtain ⟨id, catches⟩ := r.add_keeps slot c
  have here : c ∈ s.opened ++ Scopes.closedParts es := by simp [opened]
  exact {
    outlined := by
      rw [openParts, ← h.outlined, opened]
      simp [outline, id, catches]
    parts := by
      rw [ids, closedParts]
      exact h.parts_changed opened id
    below := ids ▸ h.below
    distinct := ids ▸ h.distinct
    lists := by
      intro r' x mem
      rw [closedParts] at mem
      rw [jumpsOf_of_some adds]
      obtain rfl | ⟨mem, other⟩ := h.changed opened mem
      · simp [Reason.listed_add, id, h.lists r' c here]
      · simp [h.lists r' x mem, other.symm]
    unheard := by
      intro r' id absent
      rw [ids] at absent
      have other : c.id ≠ id := fun same => absent (same ▸ h.mem_ids here)
      simpa [jumpsOf_of_some adds, other] using h.unheard r' id absent }

theorem addThrow (h : Shows es s) (step : Scopes.addThrow slot s = .ok () s') :
    Shows (.thrown slot :: es) s' := by
  obtain ⟨front, c, back, opened, catches, before, rfl⟩ := addThrow_eq_ok step
  have adds : Event.jump? es (.thrown slot) = some (.exception, some c.id, slot) := by
    rw [Event.jump?, h.receiver?_eq opened catches before]
  exact h.add adds opened

theorem addExit (h : Shows es s) (step : Scopes.addExit id slot s = .ok () s') :
    Shows (.left id slot :: es) s' := by
  obtain ⟨front, c, back, opened, rfl, rfl⟩ := addExit_eq_ok step
  have adds : Event.jump? es (.left c.id slot) = some (.done, some c.id, slot) := rfl
  exact h.add adds opened

theorem step (h : Shows es s) {e : Event} (step : Step s e s') : Shows (e :: es) s' := by
  cases step with
  | push kind catches => exact h.push kind catches
  | pop step => exact h.pop step
  | addThrow step => exact h.addThrow step
  | addExit step => exact h.addExit step

/-- A jump goes to a part that was opened. -/
theorem exists_goal (h : Shows es s) {e : Event} (step : Step s e s') {r : Reason} {goal : Option Nat}
    (adds : e.jump? es = some (r, goal, slot)) : ∃ id ∈ ids es, goal = some id := by
  cases step with
  | push kind catches => cases adds
  | pop step => cases adds
  | addThrow step =>
    obtain ⟨front, c, back, opened, catches, before, -⟩ := addThrow_eq_ok step
    cases adds
    exact ⟨c.id, h.mem_ids (by simp [opened]), h.receiver?_eq opened catches before⟩
  | addExit step =>
    obtain ⟨front, c, back, opened, rfl, -⟩ := addExit_eq_ok step
    cases adds
    exact ⟨c.id, h.mem_ids (by simp [opened]), rfl⟩

end Shows

theorem Run.shows {es : List Event} {s : Scopes} (run : Run es s) : Shows es s := by
  induction run with
  | start => exact .empty
  | step _ step ih => exact ih.step step

/-! ## Every jump is listed once -/

/-- Something that is added to one of several lists is added once to all of them together. -/
theorem perm_flatMap_add {l : List Nat} {id : Nat} (distinct : l.Nodup) (mem : id ∈ l)
    (f : Nat → List Nat) (slot : Nat) :
    (l.flatMap fun k => if id = k then f k ++ [slot] else f k).Perm (l.flatMap f ++ [slot]) := by
  induction l with
  | nil => cases mem
  | cons k l ih =>
    obtain ⟨apart, distinct⟩ := List.nodup_cons.mp distinct
    by_cases here : id = k
    · subst here
      have rest : (l.flatMap fun k => if id = k then f k ++ [slot] else f k) = l.flatMap f := by
        apply List.flatMap_congr
        intro k mem
        rw [if_neg]
        rintro rfl
        exact apart mem
      rw [List.flatMap_cons, List.flatMap_cons, if_pos rfl, rest, List.append_assoc, List.append_assoc]
      exact List.perm_append_comm.append_left _
    · have mem := (List.mem_cons.mp mem).resolve_left here
      rw [List.flatMap_cons, List.flatMap_cons, if_neg here, List.append_assoc]
      exact (ih distinct mem).append_left _

theorem Run.perm_jumps {es : List Event} {s : Scopes} (run : Run es s) (r : Reason) :
    ((ids es).flatMap (jumpsOf r · es)).Perm (jumps r es) := by
  induction run with
  | start => cases r <;> exact .refl _
  | @step es s s' e run step ih =>
    cases adds : e.jump? es with
    | some jump =>
      obtain ⟨r', goal, slot⟩ := jump
      obtain ⟨id, mem, rfl⟩ := run.shows.exists_goal step adds
      simp only [(parts_of_jump? adds).1, jumps_of_some adds, jumpsOf_of_some adds]
      by_cases same : r' = r
      · have one := perm_flatMap_add run.shows.distinct mem (jumpsOf r · es) slot
        simpa [same] using one.trans (ih.append_right _)
      · simpa [same] using ih
    | none =>
      simp only [jumps_of_none adds, jumpsOf_of_none adds]
      cases step with
      | push kind catches => simpa [ids, run.shows.unheard r _ run.shows.fresh] using ih
      | pop step => exact ih
      | addThrow step => cases adds
      | addExit step => cases adds

theorem jumpsOf_sublist (r : Reason) (id : Nat) (es : List Event) :
    (jumpsOf r id es).Sublist (jumps r es) := by
  induction es with
  | nil => cases r <;> exact .refl _
  | cons e es ih =>
    cases adds : e.jump? es with
    | none => rwa [jumpsOf_of_none adds, jumps_of_none adds]
    | some jump =>
      obtain ⟨r', goal, slot⟩ := jump
      rw [jumpsOf_of_some adds, jumps_of_some adds]
      by_cases same : r' = r
      · by_cases here : goal = some id
        · simpa [same, here] using ih
        · simpa [same, here] using ih.trans (List.sublist_append_left _ _)
      · simpa [same] using ih

/-! ## What an operation leaves alone -/

theorem addThrow_error_eq {s s' : Scopes} {slot : Nat} {m : Mistake}
    (h : addThrow slot s = .error m s') : s' = s := by
  unfold addThrow at h
  split at h
  case h_1 => cases h
  case h_2 =>
    cases h
    rfl

theorem addThrow_error_iff {s : Scopes} {slot : Nat} :
    (∃ m s', addThrow slot s = .error m s') ↔ ∀ c ∈ s.opened, c.catches = false := by
  rw [← change?_eq_none_iff (f := fun c => { c with throws := c.throws ++ [slot] }), addThrow]
  split
  case h_1 opened changed => simp [changed]
  case h_2 unchanged => simp [unchanged]

theorem pop_ok_iff {s : Scopes} {id : Nat} :
    (∃ c s', pop id s = .ok c s') ↔ s.opened.head?.map Scope.id = some id := by
  obtain ⟨opened, next⟩ := s
  cases opened with
  | nil => simp [pop]
  | cons inner rest => by_cases hid : inner.id = id <;> simp [pop, hid]

theorem mem_of_mem_middle {front back : List Scope} {c c' x : Scope} (mem : x ∈ front ++ c :: back)
    (other : x ≠ c) : x ∈ front ++ c' :: back := by
  simp only [List.mem_append, List.mem_cons] at mem ⊢
  exact mem.imp_right fun mem => .inr (mem.resolve_left other)

/-- An open part stays as it is when something happens that does not concern it. -/
theorem Shows.mem_opened_of_step {es : List Event} {s s' : Scopes} {e : Event} (h : Shows es s)
    (step : Step s e s') {c : Scope} (mem : c ∈ s.opened) (apart : ¬ e.Concerns es c.id) :
    c ∈ s'.opened := by
  cases step with
  | push kind catches => exact List.mem_cons_of_mem _ mem
  | pop step =>
    obtain ⟨hid, opened, -⟩ := pop_eq_ok step
    rw [opened] at mem
    refine (List.mem_cons.mp mem).resolve_left ?_
    rintro rfl
    exact apart hid.symm
  | addThrow step =>
    obtain ⟨front, c, back, opened, catches, before, rfl⟩ := addThrow_eq_ok step
    refine mem_of_mem_middle (opened ▸ mem) ?_
    rintro rfl
    exact apart (h.receiver?_eq opened catches before)
  | addExit step =>
    obtain ⟨front, c, back, opened, hid, rfl⟩ := addExit_eq_ok step
    refine mem_of_mem_middle (opened ▸ mem) ?_
    rintro rfl
    exact apart hid.symm

/-! ## No jump is lost -/

/-- The parts are what has happened to them: a number is given once, the parts nest, and each lists the
jumps that were added to it, in order, and no others. -/
structure Exact (es : List Event) (s : Scopes) : Prop where
  distinct : (ids es).Nodup
  fresh : s.next ∉ ids es
  opened : s.opened.map outline = openParts es
  parts : ((s.opened ++ closedParts es).map Scope.id).Perm (ids es)
  /-- Only the innermost part can be closed. -/
  pop_ok_iff : ∀ id, (∃ c s', pop id s = .ok c s') ↔ (openParts es).head?.map Prod.fst = some id
  throws : ∀ c ∈ s.opened ++ closedParts es, c.throws = throwsOf c.id es
  exits : ∀ c ∈ s.opened ++ closedParts es, c.exits = exitsOf c.id es
  all_throws : ((ids es).flatMap (throwsOf · es)).Perm (thrown es)
  all_exits : ((ids es).flatMap (exitsOf · es)).Perm (left es)
  throws_in_order : ∀ id, (throwsOf id es).Sublist (thrown es)
  exits_in_order : ∀ id, (exitsOf id es).Sublist (left es)
  addThrow_error_iff : ∀ slot,
    (∃ m s', addThrow slot s = .error m s') ↔ ∀ p ∈ openParts es, p.2 = false
  addThrow_error : ∀ slot m s', addThrow slot s = .error m s' → s' = s
  untouched : ∀ e s', Step s e s' → ∀ c ∈ s.opened, ¬ e.Concerns es c.id → c ∈ s'.opened

/-- Whatever succeeds, in whatever order: each jump is listed once, by the part that was the innermost
one to which exceptions go when it was added, or by the part that was named. -/
theorem exits_exact {es : List Event} {s : Scopes} (run : Run es s) : Exact es s where
  distinct := run.shows.distinct
  fresh := run.shows.fresh
  opened := run.shows.outlined
  parts := run.shows.parts
  pop_ok_iff := by
    intro id
    rw [pop_ok_iff, ← run.shows.outlined, List.head?_map, Option.map_map]
    rfl
  throws := run.shows.lists .exception
  exits := run.shows.lists .done
  all_throws := run.perm_jumps .exception
  all_exits := run.perm_jumps .done
  throws_in_order := fun id => jumpsOf_sublist .exception id es
  exits_in_order := fun id => jumpsOf_sublist .done id es
  addThrow_error_iff := by
    intro slot
    rw [addThrow_error_iff, ← run.shows.outlined, List.forall_mem_map]
    rfl
  addThrow_error := fun _ _ _ => addThrow_error_eq
  untouched := fun _ _ step _ mem apart => run.shows.mem_opened_of_step step mem apart

/-- An exception passes the inner part, and the outer part lists its jump. -/
theorem exits_exact_around_cleanup :
    Run [.closed 1 ⟨1, .cleanup, false, [], [9]⟩, .left 1 9, .thrown 3,
        .opened 1 .cleanup false, .opened 0 .body true] ⟨[⟨0, .body, true, [3], []⟩], 2⟩ ∧
      Exact [.closed 1 ⟨1, .cleanup, false, [], [9]⟩, .left 1 9, .thrown 3,
        .opened 1 .cleanup false, .opened 0 .body true] ⟨[⟨0, .body, true, [3], []⟩], 2⟩ := by
  refine ⟨?run, exits_exact ?run⟩
  have opened : Run [.opened 1 .cleanup false, .opened 0 .body true] _ :=
    .step (.step .start (.push .empty .body true)) (.push _ .cleanup false)
  exact .step (.step (.step opened (.addThrow rfl)) (.addExit rfl)) (.pop rfl)

end Threefold.Bytecode.Scopes
