import Mathlib.Algebra.Group.Nat.Defs
import Mathlib.Data.List.Basic
import Threefold.Bytecode.Compilation

/-!
# The numbers of exceptions

Which exceptions a program numbers, and in which order, follows from the places where its text names
them. A place is the way from a program to one of its parts: the number of the function, and then at
each statement the number of the part that is entered. Two places are in the order of the text if they
are in the order of words in a dictionary, part by part.

* `Stmt.listed` says that the exceptions of a statement are listed in the order of their places.
* `exceptions_numbered` says what the numbers are. That they count the exceptions holds as long as they
  are words of the machine.
-/

namespace Threefold

/-! ## Numbers by first occurrence -/

namespace Numbering

theorem nodup_add {names : List String} (h : names.Nodup) (x : String) : (add names x).Nodup := by
  unfold add
  split
  · exact h
  · rename_i fresh
    refine List.nodup_append.mpr ⟨h, by simp, fun y hy z hz => ?_⟩
    rw [List.mem_singleton.mp hz]
    rintro rfl
    exact fresh hy

theorem nodup_addAll {names : List String} (h : names.Nodup) (xs : List String) :
    (addAll names xs).Nodup := by
  induction xs generalizing names with
  | nil => exact h
  | cons x xs ih => exact ih (nodup_add h x)

/-- Names keep their numbers when more of them occur. -/
theorem prefix_addAll (names xs : List String) : names <+: addAll names xs := by
  induction xs generalizing names with
  | nil => exact List.prefix_rfl
  | cons x xs ih =>
    refine List.IsPrefix.trans ?_ (ih (add names x))
    unfold add
    split
    · exact List.prefix_rfl
    · exact List.prefix_append _ _

theorem idxOf_of_isInitial {names more : List String} {x : String} (h : names <+: more)
    (hx : x ∈ names) : more.idxOf x = names.idxOf x := by
  obtain ⟨rest, rfl⟩ := h
  rw [List.idxOf_append, if_pos hx]

/-- Of two names that are new, the one that occurs first has the smaller number. -/
theorem idxOf_addAll_lt {names xs : List String} {x y : String} (hx : x ∉ names) (hy : y ∉ names)
    (mx : x ∈ xs) (my : y ∈ xs) :
    (addAll names xs).idxOf x < (addAll names xs).idxOf y ↔ xs.idxOf x < xs.idxOf y := by
  induction xs generalizing names with
  | nil => cases mx
  | cons z xs ih =>
    rw [addAll_cons]
    -- The first name takes the next number, unless it has one.
    have first {w : String} (hw : w ∉ names) :
        (addAll (add names w) xs).idxOf w = names.length := by
      have there : w ∈ add names w := mem_add.mpr (.inr rfl)
      rw [idxOf_of_isInitial (prefix_addAll _ _) there, add, if_neg hw, List.idxOf_append, if_neg hw]
      simp
    have later {v w : String} (hv : v ∉ names) (hw : w ∉ names) (other : v ≠ w) :
        names.length < (addAll (add names v) xs).idxOf w := by
      obtain ⟨rest, same⟩ := prefix_addAll (add names v) xs
      rw [← same, add, if_neg hv, List.append_assoc, List.idxOf_append, if_neg hw,
        List.singleton_append, List.idxOf_cons_ne _ other]
      omega
    by_cases hzx : z = x
    · subst hzx
      by_cases same : z = y
      · simp [same]
      · simp [List.idxOf_cons_ne _ same, first hx, later hx hy same]
    · by_cases hzy : z = y
      · subst hzy
        have := later hy hx hzx
        simp only [first hy, List.idxOf_cons_self]
        omega
      · have mx : x ∈ xs := (List.mem_cons.mp mx).resolve_left (Ne.symm hzx)
        have my : y ∈ xs := (List.mem_cons.mp my).resolve_left (Ne.symm hzy)
        have apart {w : String} (hw : w ∉ names) (other : z ≠ w) : w ∉ add names z :=
          fun there => (mem_add.mp there).elim hw fun same => other same.symm
        rw [ih (apart hx hzx) (apart hy hzy) mx my]
        simp [List.idxOf_cons_ne _ hzx, List.idxOf_cons_ne _ hzy]

end Numbering

/-! ## Places in the text -/

/-- A place in a program: the number of a function, and then that of a part of each statement on the
way. -/
abbrev Place := List Nat

/-- A statement names a type of exception at a place, to throw it or to catch it. The type of a catch
branch stands in front of its body. -/
inductive Stmt.Names (x : String) : Stmt → Place → Prop
  | throwing {e : Expr} : Names x (.throwing x e) []
  | yes {c : Expr} {yes no : Stmt} {place : Place} : Names x yes place →
    Names x (.branch c yes no) (0 :: place)
  | no {c : Expr} {yes no : Stmt} {place : Place} : Names x no place →
    Names x (.branch c yes no) (1 :: place)
  | loop {c : Expr} {body : Stmt} {place : Place} : Names x body place →
    Names x (.loop c body) (0 :: place)
  | first {s t : Stmt} {place : Place} : Names x s place → Names x (.chain s t) (0 :: place)
  | second {s t : Stmt} {place : Place} : Names x t place → Names x (.chain s t) (1 :: place)
  | attempted {body : Stmt} {catches : List Catch} {cleanup : Option Stmt} {place : Place} :
    Names x body place → Names x (.attempt body catches cleanup) (0 :: place)
  | caught {body : Stmt} {catches : List Catch} {cleanup : Option Stmt} {k : Nat} {c : Catch} :
    catches[k]? = some c → c.exception = x → Names x (.attempt body catches cleanup) [1, k, 0]
  | handling {body : Stmt} {catches : List Catch} {cleanup : Option Stmt} {k : Nat} {c : Catch}
    {place : Place} : catches[k]? = some c → Names x c.body place →
    Names x (.attempt body catches cleanup) (1 :: k :: 1 :: place)
  | cleanup {body s : Stmt} {catches : List Catch} {place : Place} : Names x s place →
    Names x (.attempt body catches (some s)) (2 :: place)

/-- A program names a type of exception at a place. -/
def Program.Names (p : Program) (x : String) : Place → Prop
  | [] => False
  | k :: place => ∃ f, p.functions[k]? = some f ∧ f.body.Names x place

/-- Names are listed in the order of the places at which they stand. -/
def Listed (names : List String) (stands : Place → String → Prop) : Prop :=
  ∃ occurrences : List (Place × String), occurrences.map Prod.snd = names ∧
    occurrences.Pairwise (fun a b => a.1 < b.1) ∧
    ∀ place x, (place, x) ∈ occurrences ↔ stands place x

namespace Listed

variable {names more : List String} {stands stands' : Place → String → Prop}

theorem congr (h : Listed names stands) (same : ∀ place x, stands place x ↔ stands' place x) :
    Listed names stands' := by
  obtain ⟨occurrences, listed, ordered, mem⟩ := h
  exact ⟨occurrences, listed, ordered, fun place x => (mem place x).trans (same place x)⟩

theorem nil (none : ∀ place x, ¬ stands place x) : Listed [] stands :=
  ⟨[], rfl, .nil, fun place x => by simp [none]⟩

theorem one (x : String) : Listed [x] fun place y => place = [] ∧ y = x :=
  ⟨[([], x)], rfl, List.pairwise_singleton _ _, fun place y => by simp⟩

/-- The places of a part, from outside. -/
theorem under (h : Listed names stands) (k : Nat) :
    Listed names fun place x => ∃ inner, place = k :: inner ∧ stands inner x := by
  obtain ⟨occurrences, listed, ordered, mem⟩ := h
  refine ⟨occurrences.map fun o => (k :: o.1, o.2), ?_, ?_, fun place x => ?_⟩
  · rw [List.map_map]
    exact listed
  · rw [List.pairwise_map]
    exact ordered.imp fun before => List.cons_lt_cons_iff.mpr (.inr ⟨rfl, before⟩)
  · simp only [List.mem_map, Prod.exists, Prod.mk.injEq]
    constructor
    · rintro ⟨inner, y, there, rfl, rfl⟩
      exact ⟨inner, rfl, (mem inner y).mp there⟩
    · rintro ⟨inner, rfl, there⟩
      exact ⟨inner, x, (mem inner x).mpr there, rfl, rfl⟩

theorem append (h : Listed names stands) (h' : Listed more stands')
    (before : ∀ a b x y, stands a x → stands' b y → a < b) :
    Listed (names ++ more) fun place x => stands place x ∨ stands' place x := by
  obtain ⟨os, listed, ordered, mem⟩ := h
  obtain ⟨os', listed', ordered', mem'⟩ := h'
  refine ⟨os ++ os', by rw [List.map_append, listed, listed'], ?_, fun place x => ?_⟩
  · refine List.pairwise_append.mpr ⟨ordered, ordered', fun a ha b hb => ?_⟩
    exact before a.1 b.1 a.2 b.2 ((mem _ _).mp ha) ((mem' _ _).mp hb)
  · rw [List.mem_append, mem, mem']

/-- Two parts of a statement, one behind the other. -/
theorem parts (h : Listed names stands) (h' : Listed more stands') {j k : Nat} (before : j < k) :
    Listed (names ++ more) fun place x => (∃ inner, place = j :: inner ∧ stands inner x) ∨
      ∃ inner, place = k :: inner ∧ stands' inner x := by
  refine (h.under j).append (h'.under k) fun a b x y => ?_
  rintro ⟨inner, rfl, -⟩ ⟨inner', rfl, -⟩
  exact List.cons_lt_cons_iff.mpr (.inl before)

/-- The parts in a list, from a number on. -/
theorem all {α : Type} {f : α → List String} {stands : α → Place → String → Prop} {as : List α}
    (h : ∀ a ∈ as, Listed (f a) (stands a)) (n : Nat) :
    Listed (as.flatMap f) fun place x =>
      ∃ k a inner, place = (n + k) :: inner ∧ as[k]? = some a ∧ stands a inner x := by
  induction as generalizing n with
  | nil => exact .nil fun place x => by simp
  | cons a as ih =>
    rw [List.flatMap_cons]
    have first := (h a List.mem_cons_self).under n
    have rest := ih (fun b hb => h b (List.mem_cons_of_mem a hb)) (n + 1)
    refine (first.append rest ?_).congr fun place x => ⟨?_, ?_⟩
    · rintro _ _ x y ⟨inner, rfl, -⟩ ⟨k, b, inner', rfl, -⟩
      exact List.cons_lt_cons_iff.mpr (.inl (by omega))
    · rintro (⟨inner, rfl, there⟩ | ⟨k, b, inner, rfl, found, there⟩)
      · exact ⟨0, a, inner, rfl, rfl, there⟩
      · exact ⟨k + 1, b, inner, by rw [Nat.add_right_comm, Nat.add_assoc], found, there⟩
    · rintro ⟨k, b, inner, rfl, found, there⟩
      cases k with
      | zero =>
        cases found
        exact .inl ⟨inner, rfl, there⟩
      | succ k => exact .inr ⟨k, b, inner, by rw [Nat.add_right_comm, Nat.add_assoc], found, there⟩

end Listed

theorem Catch.exceptions_eq (cs : List Catch) :
    Catch.exceptions cs = cs.flatMap fun c => [c.exception] ++ c.body.exceptions := by
  induction cs with
  | nil => rfl
  | cons c cs ih =>
    obtain ⟨x, target, s⟩ := c
    rw [List.flatMap_cons, ← ih]
    rfl

/-- The type of a catch branch, and what its body names. -/
theorem Catch.listed_branch {c : Catch}
    (h : Listed c.body.exceptions fun place x => c.body.Names x place) :
    Listed ([c.exception] ++ c.body.exceptions) fun place x =>
      (place = [0] ∧ x = c.exception) ∨ ∃ inner, place = 1 :: inner ∧ c.body.Names x inner := by
  refine ((Listed.one c.exception).parts h Nat.zero_lt_one).congr fun place x =>
    or_congr_left ⟨?_, ?_⟩
  · rintro ⟨inner, rfl, rfl, same⟩
    exact ⟨rfl, same⟩
  · rintro ⟨rfl, same⟩
    exact ⟨[], rfl, rfl, same⟩

mutual

/-- The exceptions of a statement are listed in the order of the places where it names them. -/
theorem Stmt.listed : ∀ s : Stmt, Listed s.exceptions fun place x => s.Names x place
  | .skip => .nil fun place x => by rintro ⟨⟩
  | .assign y e => .nil fun place x => by rintro ⟨⟩
  | .leave e => .nil fun place x => by rintro ⟨⟩
  | .perform c => .nil fun place x => by rintro ⟨⟩
  | .throwing y e => (Listed.one y).congr fun place x => by
    constructor
    · rintro ⟨rfl, rfl⟩
      exact .throwing
    · rintro ⟨⟩
      exact ⟨rfl, rfl⟩
  | .branch c yes no => (yes.listed.parts no.listed Nat.zero_lt_one).congr fun place x => by
    constructor
    · rintro (⟨inner, rfl, there⟩ | ⟨inner, rfl, there⟩)
      · exact .yes there
      · exact .no there
    · rintro (_ | there | there)
      · exact .inl ⟨_, rfl, there⟩
      · exact .inr ⟨_, rfl, there⟩
  | .loop c body => (body.listed.under 0).congr fun place x => by
    constructor
    · rintro ⟨inner, rfl, there⟩
      exact .loop there
    · rintro (_ | _ | _ | there)
      exact ⟨_, rfl, there⟩
  | .chain s t => (s.listed.parts t.listed Nat.zero_lt_one).congr fun place x => by
    constructor
    · rintro (⟨inner, rfl, there⟩ | ⟨inner, rfl, there⟩)
      · exact .first there
      · exact .second there
    · intro h
      cases h with
      | first there => exact .inl ⟨_, rfl, there⟩
      | second there => exact .inr ⟨_, rfl, there⟩
  | .attempt body catches cleanup => by
    have branches := Listed.all (fun c hc => Catch.listed_branch (Catch.listed catches c hc)) 0
    rw [← Catch.exceptions_eq] at branches
    have first := (body.listed.parts branches Nat.zero_lt_one)
    have last := (Stmt.listedCleanup cleanup).under 2
    refine (first.append last ?_).congr fun place x => ⟨?_, ?_⟩
    · rintro _ _ x y (⟨inner, rfl, -⟩ | ⟨inner, rfl, -⟩) ⟨inner', rfl, -⟩
      · exact List.cons_lt_cons_iff.mpr (.inl (by decide))
      · exact List.cons_lt_cons_iff.mpr (.inl (by decide))
    · rintro ((⟨inner, rfl, there⟩ | ⟨_, rfl, k, c, inner, rfl, found, there⟩) |
        ⟨inner, rfl, s, rfl, there⟩)
      · exact .attempted there
      · rw [Nat.zero_add]
        obtain ⟨rfl, rfl⟩ | ⟨inner, rfl, there⟩ := there
        · exact .caught found rfl
        · exact .handling found there
      · exact .cleanup there
    · intro h
      cases h with
      | attempted there => exact .inl (.inl ⟨_, rfl, there⟩)
      | @caught _ _ _ k c found same =>
        exact .inl (.inr ⟨_, rfl, k, c, [0], by rw [Nat.zero_add], found, .inl ⟨rfl, same.symm⟩⟩)
      | @handling _ _ _ k c place found there =>
        exact .inl (.inr ⟨_, rfl, k, c, 1 :: place, by rw [Nat.zero_add], found,
          .inr ⟨place, rfl, there⟩⟩)
      | cleanup there => exact .inr ⟨_, rfl, _, rfl, there⟩

/-- The same of the bodies of catch branches. -/
theorem Catch.listed : ∀ cs : List Catch, ∀ c ∈ cs,
    Listed c.body.exceptions fun place x => c.body.Names x place
  | [] => fun c hc => by cases hc
  | .on x target s :: rest => fun c hc => by
    rcases List.mem_cons.mp hc with rfl | hc
    · exact s.listed
    · exact Catch.listed rest c hc

/-- The same of what runs in any case. -/
theorem Stmt.listedCleanup : ∀ cleanup : Option Stmt, Listed (Stmt.cleanupExceptions cleanup)
    fun place x => ∃ s, cleanup = some s ∧ s.Names x place
  | none => .nil fun place x => by simp
  | some s => s.listed.congr fun place x => by simp

end

/-- The exceptions of the bodies of a program are listed in the order of the text. -/
theorem Program.listed (p : Program) :
    Listed (p.functions.flatMap fun f => f.body.exceptions) fun place x => p.Names x place := by
  refine (Listed.all (fun f _ => f.body.listed) 0).congr fun place x => ⟨?_, ?_⟩
  · rintro ⟨k, f, inner, rfl, found, there⟩
    rw [Nat.zero_add]
    exact ⟨f, found, there⟩
  · intro h
    cases place with
    | nil => exact h.elim
    | cons k inner =>
      obtain ⟨f, found, there⟩ := h
      exact ⟨k, f, inner, by rw [Nat.zero_add], found, there⟩

/-- Of two names in a list, the one that occurs first stands at a place in front of all places of the
other. -/
theorem Listed.idxOf_lt {names : List String} {stands : Place → String → Prop}
    (h : Listed names stands) {x y : String} (hx : x ∈ names) (hy : y ∈ names) :
    names.idxOf x < names.idxOf y ↔
      ∃ place, stands place x ∧ ∀ place', stands place' y → place < place' := by
  obtain ⟨os, rfl, ordered, mem⟩ := h
  simp only [← mem]
  clear mem
  induction os with
  | nil => cases hx
  | cons o os ih =>
    obtain ⟨place, z⟩ := o
    obtain ⟨before, ordered⟩ := List.pairwise_cons.mp ordered
    rw [List.map_cons] at hx hy ⊢
    by_cases hzx : z = x
    · subst hzx
      by_cases same : z = y
      · subst same
        refine iff_of_false (Nat.lt_irrefl _) ?_
        rintro ⟨a, ha, first⟩
        exact List.lt_irrefl a (first a ha)
      · rw [List.idxOf_cons_self, List.idxOf_cons_ne _ same]
        refine iff_of_true (Nat.succ_pos _) ⟨place, List.mem_cons_self, fun b hb => ?_⟩
        rcases List.mem_cons.mp hb with head | hb
        · exact absurd (Prod.mk.inj head).2.symm same
        · exact before (b, y) hb
    · by_cases hzy : z = y
      · subst hzy
        rw [List.idxOf_cons_self]
        refine iff_of_false (Nat.not_lt_zero _) ?_
        rintro ⟨a, ha, first⟩
        rcases List.mem_cons.mp ha with head | ha
        · exact hzx (Prod.mk.inj head).2.symm
        · exact List.lt_asymm (before (a, x) ha) (first place List.mem_cons_self)
      · rw [List.idxOf_cons_ne _ hzx, List.idxOf_cons_ne _ hzy, Nat.succ_lt_succ_iff,
          ih ((List.mem_cons.mp hx).resolve_left (Ne.symm hzx))
            ((List.mem_cons.mp hy).resolve_left (Ne.symm hzy)) ordered]
        simp [Ne.symm hzx, Ne.symm hzy]

/-! ## Numbers as words -/

namespace Exceptions

variable {names : List String} {x : String} {n : Int32}

theorem number?_eq_some : number? names x = some n ↔ x ∈ names ∧ n = .ofNat (names.idxOf x + 1) := by
  rw [number?, Option.map_eq_some_iff, List.idxOf_eq_getD_idxOf?]
  constructor
  · rintro ⟨i, found, rfl⟩
    rw [found]
    exact ⟨List.isSome_idxOf?.mp (by rw [found]; rfl), rfl⟩
  · rintro ⟨mem, rfl⟩
    obtain ⟨i, found⟩ := Option.isSome_iff_exists.mp (List.isSome_idxOf?.mpr mem)
    rw [found]
    exact ⟨i, rfl, rfl⟩

theorem isSome_number? : (number? names x).isSome ↔ x ∈ names := by
  rw [number?, Option.isSome_map]
  exact List.isSome_idxOf?

theorem toInt_of_number? (few : names.length < 2 ^ 31) (h : number? names x = some n) :
    n.toInt = names.idxOf x + 1 := by
  obtain ⟨mem, rfl⟩ := number?_eq_some.mp h
  have inside := List.idxOf_lt_length_of_mem mem
  rw [Int32.toInt_ofNat_of_lt (by omega)]
  rfl

theorem listed?_eq_some : listed? names n = some x ↔ 1 ≤ n.toInt ∧ names[n.toInt.toNat - 1]? = some x := by
  rw [listed?]
  split
  case isTrue positive => simp [positive]
  case isFalse negative => simp [negative]

theorem listed?_of_number? (few : names.length < 2 ^ 31) (h : number? names x = some n) :
    listed? names n = some x := by
  have value := toInt_of_number? few h
  obtain ⟨mem, -⟩ := number?_eq_some.mp h
  have inside := List.idxOf_lt_length_of_mem mem
  have index : n.toInt.toNat - 1 = names.idxOf x := by omega
  rw [listed?_eq_some, index, List.getElem?_eq_getElem inside, List.getElem_idxOf]
  exact ⟨by omega, rfl⟩

theorem number?_of_listed? (distinct : names.Nodup) (few : names.length < 2 ^ 31)
    (h : listed? names n = some x) : number? names x = some n := by
  obtain ⟨positive, found⟩ := listed?_eq_some.mp h
  obtain ⟨inside, rfl⟩ := List.getElem?_eq_some_iff.mp found
  refine number?_eq_some.mpr ⟨List.getElem_mem inside, Int32.toInt_inj.mp ?_⟩
  rw [distinct.idxOf_getElem, Int32.toInt_ofNat_of_lt (by omega)]
  omega

end Exceptions

namespace Program

open Exceptions

variable {p : Program}

theorem nodup_exceptions (p : Program) : p.exceptions.Nodup :=
  Numbering.nodup_addAll .nil _

theorem mem_exceptions_iff {x : String} :
    x ∈ p.exceptions ↔ x = Intrinsic.outOfBounds ∨ ∃ place, p.Names x place := by
  obtain ⟨os, listed, -, mem⟩ := p.listed
  rw [exceptions, Numbering.ofList, Numbering.mem_addAll, List.mem_cons, ← listed, List.mem_map]
  simp [mem]

/-- More functions behind the others only add exceptions behind the others. -/
theorem exceptions_append (p : Program) (more : List Function) :
    p.exceptions <+: (Program.mk (p.functions ++ more) p.entry).exceptions := by
  have whole : (Program.mk (p.functions ++ more) p.entry).exceptions =
      Numbering.addAll p.exceptions (more.flatMap fun f => f.body.exceptions) := by
    rw [exceptions, exceptions, Numbering.ofList, Numbering.ofList, ← Numbering.addAll_append,
      List.flatMap_append]
    rfl
  rw [whole]
  exact Numbering.prefix_addAll _ _

/-- Of two exceptions that only the text names, the one that it names first has the smaller number. -/
theorem idxOf_exceptions_lt {x y : String} (hx : x ∈ p.exceptions) (hy : y ∈ p.exceptions)
    (other : x ≠ Intrinsic.outOfBounds) (other' : y ≠ Intrinsic.outOfBounds) :
    p.exceptions.idxOf x < p.exceptions.idxOf y ↔
      ∃ place, p.Names x place ∧ ∀ place', p.Names y place' → place < place' := by
  have named {z : String} (hz : z ∈ p.exceptions) (other : z ≠ Intrinsic.outOfBounds) :
      z ∈ p.functions.flatMap fun f => f.body.exceptions := by
    rw [exceptions, Numbering.ofList, Numbering.mem_addAll, List.mem_cons] at hz
    exact (hz.resolve_left List.not_mem_nil).resolve_left other
  rw [← p.listed.idxOf_lt (named hx other) (named hy other')]
  exact @Numbering.idxOf_addAll_lt [Intrinsic.outOfBounds] _ _ _ (by simpa using other)
    (by simpa using other') (named hx other) (named hy other')

/-- Which types have numbers. The bytecode has the same ones, and so has a longer program. -/
structure NumbersExceptions (p : Program) : Prop where
  /-- The exception of the built-in functions has a number, and every type that is named at some place
  of the text. No other type has one. -/
  named : ∀ x, (number? p.exceptions x).isSome ↔
    x = Intrinsic.outOfBounds ∨ ∃ place, p.Names x place
  builtIn : number? p.exceptions Intrinsic.outOfBounds = some Exceptions.outOfBounds
  /-- The bytecode has the same names for the numbers. -/
  compiled : ∀ b, p.compile = .ok b → ∀ n, b.exceptionName? n = name? p.exceptions n
  /-- Types keep their numbers when functions are declared behind the others. -/
  stable : ∀ more x n, number? p.exceptions x = some n →
    number? (Program.mk (p.functions ++ more) p.entry).exceptions x = some n

/-- The numbers count the exceptions. -/
structure CountsExceptions (p : Program) : Prop where
  /-- The numbers are those from one to the number of types. -/
  gapless : ∀ n : Int32, (∃ x, number? p.exceptions x = some n) ↔
    1 ≤ n.toInt ∧ n.toInt ≤ p.exceptions.length
  /-- The types but that of the built-in functions are numbered in the order in which the text first names
  them. -/
  ordered : ∀ x y m n, number? p.exceptions x = some m → number? p.exceptions y = some n →
    x ≠ Intrinsic.outOfBounds → y ≠ Intrinsic.outOfBounds →
      (m < n ↔ ∃ place, p.Names x place ∧ ∀ place', p.Names y place' → place < place')
  name : ∀ x n, number? p.exceptions x = some n → name? p.exceptions n = some x
  number : ∀ x n, n ≠ returning → name? p.exceptions n = some x → number? p.exceptions x = some n
  injective : ∀ x y n, number? p.exceptions x = some n → number? p.exceptions y = some n → x = y
  /-- Neither the number for no exception nor that for a return is the number of a type. -/
  reserved : ∀ x, number? p.exceptions x ≠ some 0 ∧ number? p.exceptions x ≠ some returning

theorem countsExceptions (few : p.exceptions.length < 2 ^ 31) : p.CountsExceptions where
  gapless n := by
    constructor
    · rintro ⟨x, hx⟩
      have value := toInt_of_number? few hx
      have inside := List.idxOf_lt_length_of_mem (number?_eq_some.mp hx).1
      omega
    · rintro ⟨positive, inside⟩
      have there : n.toInt.toNat - 1 < p.exceptions.length := by omega
      exact ⟨_, number?_of_listed? p.nodup_exceptions few
        (listed?_eq_some.mpr ⟨positive, List.getElem?_eq_getElem there⟩)⟩
  ordered x y m n hx hy other other' := by
    rw [Int32.lt_iff_toInt_lt, toInt_of_number? few hx, toInt_of_number? few hy,
      ← idxOf_exceptions_lt (number?_eq_some.mp hx).1 (number?_eq_some.mp hy).1 other other']
    omega
  name x n hx := by
    have value := toInt_of_number? few hx
    have other : n ≠ returning := by
      rintro rfl
      rw [show returning.toInt = -1 by decide] at value
      omega
    rw [name?, if_neg other]
    exact listed?_of_number? few hx
  number x n other hn := by
    rw [name?, if_neg other] at hn
    exact number?_of_listed? p.nodup_exceptions few hn
  injective x y n hx hy :=
    Option.some.inj ((listed?_of_number? few hx).symm.trans (listed?_of_number? few hy))
  reserved x := by
    refine ⟨fun zero => ?_, fun minus => ?_⟩
    · have value := toInt_of_number? few zero
      rw [show (0 : Int32).toInt = 0 by decide] at value
      omega
    · have value := toInt_of_number? few minus
      rw [show returning.toInt = -1 by decide] at value
      omega

theorem numbersExceptions (p : Program) : p.NumbersExceptions where
  named x := isSome_number?.trans mem_exceptions_iff
  builtIn := by
    have first : [Intrinsic.outOfBounds] <+: p.exceptions :=
      Numbering.prefix_addAll [Intrinsic.outOfBounds] _
    have mem := List.mem_singleton_self Intrinsic.outOfBounds
    refine number?_eq_some.mpr ⟨first.subset mem, ?_⟩
    rw [Numbering.idxOf_of_isInitial first mem]
    rfl
  compiled b hb n := by
    unfold compile at hb
    dsimp only [Bind.bind, Except.bind] at hb
    split at hb
    · cases hb
    · cases hb
      rfl
  stable more x n hx := by
    obtain ⟨mem, rfl⟩ := number?_eq_some.mp hx
    have longer := p.exceptions_append more
    rw [number?_eq_some, Numbering.idxOf_of_isInitial longer mem]
    exact ⟨longer.subset mem, rfl⟩

/-- The exceptions of a program are numbered by their first occurrence in its text, and the numbers count
them as long as they are words of the machine. -/
theorem exceptions_numbered (p : Program) :
    p.NumbersExceptions ∧ (p.exceptions.length < 2 ^ 31 → p.CountsExceptions) :=
  ⟨p.numbersExceptions, countsExceptions⟩

/-- A program that catches and throws types with the names of those that have a meaning of their own. -/
def namesakes : Program :=
  let caught : Stmt := .attempt (.throwing "ReturnNormally" (.const 1))
    [.on "B" "x" (.throwing "A" (.var "x")), .on "IndexOutOfBounds" "y" .skip]
    (some (.throwing "B" (.const 2)))
  ⟨[⟨"main", [], caught, .unknown⟩], ⟨"main", 0⟩⟩

theorem exceptions_numbered_namesakes :
    namesakes.exceptions = ["IndexOutOfBounds", "ReturnNormally", "B", "A"] ∧
      namesakes.exceptions.length < 2 ^ 31 ∧ namesakes.NumbersExceptions ∧
        namesakes.CountsExceptions := by
  have names : namesakes.exceptions = ["IndexOutOfBounds", "ReturnNormally", "B", "A"] := by
    decide +kernel
  have few : namesakes.exceptions.length < 2 ^ 31 := by
    rw [names]
    decide
  obtain ⟨numbers, counts⟩ := exceptions_numbered namesakes
  exact ⟨names, few, numbers, counts few⟩

end Program

end Threefold
