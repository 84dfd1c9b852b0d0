import Threefold.Bytecode.Machine
import Threefold.Evaluation
import Threefold.Proofs.X86.Frames

/-!
# Parameters of one name

Nothing forbids that two parameters of a function have one name. A read of the name then finds one
of two arguments, and which it is depends on who runs the function: evaluation and the bytecode
machine bind the parameters one after the other, so the last one counts, while a frame has one place
for the name, that of the first. They agree on functions whose parameters have different names.

* `load_bind` and `load_start` are about the last parameter of a name, `home?_named` is about the
  first.
* `parameters_agree` puts them together for names that differ.
-/

namespace Threefold

/-- The first place where a name stands. -/
def FirstAt (names : List String) (p : String) (i : Nat) : Prop :=
  names[i]? = some p ∧ ∀ j < i, names[j]? ≠ some p

/-- The last place where a name stands. -/
def LastAt (names : List String) (p : String) (i : Nat) : Prop :=
  names[i]? = some p ∧ ∀ j, i < j → names[j]? ≠ some p

section Setting

variable {κ α : Type} [DecidableEq κ] {key : String → κ} {names : List String} {vs : List α}
  {b : Bindings κ α} {p : String} {i : Nat} {v : α}

theorem get?_foldl_set_of_not_mem (injective : Function.Injective key) (h : p ∉ names) :
    ((names.zip vs).foldl (fun xs q => xs.set (key q.1) q.2) b).get? (key p) = b.get? (key p) := by
  induction names generalizing vs b with
  | nil => rfl
  | cons n names ih =>
    obtain ⟨other, later⟩ := not_or.mp (mt List.mem_cons.mpr h)
    cases vs with
    | nil => rfl
    | cons v vs =>
      rw [List.zip_cons_cons, List.foldl_cons, ih later, Bindings.get?_set,
        if_neg fun same => other (injective same).symm]

/-- Of the values that are set for one key, the last one stays. -/
theorem get?_foldl_set (injective : Function.Injective key) (last : LastAt names p i)
    (given : vs[i]? = some v) :
    ((names.zip vs).foldl (fun xs q => xs.set (key q.1) q.2) b).get? (key p) = some v := by
  obtain ⟨here, later⟩ := last
  induction names generalizing vs b i with
  | nil => simp at here
  | cons n names ih =>
    cases vs with
    | nil => simp at given
    | cons w vs =>
      rw [List.zip_cons_cons, List.foldl_cons]
      cases i with
      | zero =>
        obtain rfl : n = p := Option.some.inj here
        obtain rfl : w = v := Option.some.inj given
        have gone : n ∉ names := fun mem => by
          obtain ⟨j, hj⟩ := List.mem_iff_getElem?.mp mem
          exact later (j + 1) (Nat.succ_pos j) hj
        rw [get?_foldl_set_of_not_mem injective gone, Bindings.get?_set, if_pos rfl]
      | succ i => exact ih given here fun j hj => later (j + 1) (Nat.succ_lt_succ hj)

end Setting

variable {r : Bytecode.Routine} {arguments : List Value} {p : String} {i : Nat} {v : Value}

/-- In evaluation a name stands for the last argument that is given for it. -/
theorem load_bind {parameters : List String} (last : LastAt parameters p i)
    (given : arguments[i]? = some v) :
    (Evaluation.Variables.bind parameters arguments).load p = v := by
  have found := get?_foldl_set (b := .empty) Function.injective_id last given
  exact congrArg (·.getD (.scalar 0)) found

/-- In the bytecode machine a name stands for the last argument that is given for it. -/
theorem load_start (last : LastAt r.parameters p i) (given : arguments[i]? = some v) :
    (Bytecode.Machine.Activation.start r arguments).load (.named p) = v := by
  have injective : Function.Injective Bytecode.Variable.named := fun _ _ same => by
    injection same
  have found := get?_foldl_set (b := .empty) injective last given
  exact congrArg (·.getD (.scalar 0)) found

/-- In a frame a name stands for the first argument that is given for it. -/
theorem home?_named (b : Bytecode) (first : FirstAt r.parameters p i) :
    (X86.Frame.ofRoutine b r).home? (.named p) = some (.parameter i) := by
  obtain ⟨here, before⟩ := first
  have there : (r.parameters.map Bytecode.Variable.named).idxOf? (.named p) = some i := by
    obtain ⟨hi, here⟩ := List.getElem?_eq_some_iff.mp here
    rw [List.idxOf?_eq_some_iff]
    refine ⟨by rwa [List.length_map], by rw [List.getElem_map, here], fun j hj same => ?_⟩
    rw [List.getElem_map] at same
    injection same with same
    exact before j hj (List.getElem?_eq_some_iff.mpr ⟨Nat.lt_trans hj hi, same⟩)
  unfold X86.Frame.home?
  rw [if_neg nofun, X86.Frame.parameters_ofRoutine, there]

theorem exists_firstAt {names : List String} (h : p ∈ names) : ∃ i, FirstAt names p i := by
  obtain ⟨i, found⟩ := Option.isSome_iff_exists.mp (List.isSome_idxOf?.mpr h)
  obtain ⟨hi, here, before⟩ := List.idxOf?_eq_some_iff.mp found
  refine ⟨i, List.getElem?_eq_some_iff.mpr ⟨hi, here⟩, fun j hj same => ?_⟩
  exact before j hj (List.getElem?_eq_some_iff.mp same).choose_spec

theorem exists_lastAt {names : List String} (h : p ∈ names) : ∃ i, LastAt names p i := by
  induction names with
  | nil => exact absurd h List.not_mem_nil
  | cons n names ih =>
    by_cases later : p ∈ names
    · obtain ⟨i, here, after⟩ := ih later
      refine ⟨i + 1, here, fun j hj => ?_⟩
      obtain ⟨j, rfl⟩ : ∃ k, j = k + 1 := ⟨j - 1, by omega⟩
      exact after j (Nat.lt_of_succ_lt_succ hj)
    · refine ⟨0, congrArg some ((List.mem_cons.mp h).resolve_right later).symm, fun j hj => ?_⟩
      obtain ⟨j, rfl⟩ : ∃ k, j = k + 1 := ⟨j - 1, by omega⟩
      exact fun mem => later (List.mem_iff_getElem?.mpr ⟨j, mem⟩)

/-- Whoever runs a function finds one of the arguments that are given for a name, evaluation and the
bytecode machine the same one. -/
theorem parameter_bound (b : Bytecode) (count : arguments.length = r.parameters.length)
    (h : p ∈ r.parameters) :
    ∃ first last, ∃ v, FirstAt r.parameters p first ∧ LastAt r.parameters p last ∧
      arguments[last]? = some v ∧
      (Evaluation.Variables.bind r.parameters arguments).load p = v ∧
      (Bytecode.Machine.Activation.start r arguments).load (.named p) = v ∧
      (X86.Frame.ofRoutine b r).home? (.named p) = some (.parameter first) := by
  obtain ⟨first, isFirst⟩ := exists_firstAt h
  obtain ⟨last, isLast⟩ := exists_lastAt h
  have inside : last < arguments.length :=
    count ▸ (List.getElem?_eq_some_iff.mp isLast.1).choose
  have given := List.getElem?_eq_getElem inside
  exact ⟨first, last, _, isFirst, isLast, given, load_bind isLast given, load_start isLast given,
    home?_named b isFirst⟩

/-- If the parameters have different names, all that run a function find the argument at the place of
the parameter. -/
theorem parameters_agree (b : Bytecode) (distinct : r.parameters.Nodup)
    (hp : r.parameters[i]? = some p) (given : arguments[i]? = some v) :
    (Evaluation.Variables.bind r.parameters arguments).load p = v ∧
      (Bytecode.Machine.Activation.start r arguments).load (.named p) = v ∧
      (X86.Frame.ofRoutine b r).home? (.named p) = some (.parameter i) := by
  obtain ⟨hi, here⟩ := List.getElem?_eq_some_iff.mp hp
  have only {j : Nat} (hj : r.parameters[j]? = some p) : j = i := by
    obtain ⟨inside, there⟩ := List.getElem?_eq_some_iff.mp hj
    exact distinct.getElem_inj_iff.mp (there.trans here.symm)
  have last : LastAt r.parameters p i := ⟨hp, fun j hj same => Nat.ne_of_gt hj (only same)⟩
  have first : FirstAt r.parameters p i := ⟨hp, fun j hj same => Nat.ne_of_lt hj (only same)⟩
  exact ⟨load_bind last given, load_start last given, home?_named b first⟩

example :
    let r : Bytecode.Routine := ⟨⟨"f", 3⟩, ["a", "b", "a"], #[.load (.named "a")], false⟩
    (Bytecode.Machine.Activation.start r [.scalar 1, .scalar 2, .scalar 3]).load (.named "a") = .scalar 3 ∧
      (X86.Frame.ofRoutine ⟨[r], ⟨"main", 0⟩, [], []⟩ r).home? (.named "a") =
        some (.parameter 0) := by
  decide

end Threefold
