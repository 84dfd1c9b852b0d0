import Threefold.Proofs.X86.Pieces

/-!
# What the code of operators computes

The machine compares by subtracting and looking at the flags, makes a truth value of a byte, and
divides a double word. The results are those of the operators on words, and a division traps where
the operator has no result.
-/

namespace Threefold.X86

/-! ## Flags and words -/

/-- What a condition says about two words that were compared. -/
def Condition.compares : Condition → Int32 → Int32 → Bool
  | equal, l, r => l == r
  | notEqual, l, r => l != r
  | less, l, r => l < r
  | lessOrEqual, l, r => l ≤ r
  | greater, l, r => r < l
  | greaterOrEqual, l, r => r ≤ l

theorem fits_iff {n : Int} : fits n = true ↔ -2 ^ 31 ≤ n ∧ n < 2 ^ 31 := by
  have low : Int32.minValue.toInt = -2147483648 := rfl
  have high : Int32.maxValue.toInt = 2147483647 := rfl
  unfold fits
  rw [low, high]
  simp only [Bool.and_eq_true, decide_eq_true_eq]
  omega

theorem zero_of_sub (l r : Int32) : (Int32.ofInt (l.toInt - r.toInt) == 0) = (l == r) := by
  rw [Int32.ofInt_sub, Int32.ofInt_toInt, Int32.ofInt_toInt]
  apply Bool.eq_iff_iff.mpr
  rw [beq_iff_eq, beq_iff_eq]
  constructor
  · intro h
    have sum := congrArg (· + r) h
    rw [Int32.sub_add_cancel, Int32.zero_add] at sum
    exact sum
  · rintro rfl
    simp

/-- A difference is negative, or has overflowed, just in case the first word is less. -/
theorem sign_of_sub (l r : Int32) : (decide (Int32.ofInt (l.toInt - r.toInt) < 0) !=
    !fits (l.toInt - r.toInt)) = decide (l < r) := by
  have low := l.le_toInt
  have high := l.toInt_lt
  have low' := r.le_toInt
  have high' := r.toInt_lt
  have zero : (0 : Int32).toInt = 0 := rfl
  have size : Int32.size = 2 ^ 32 := rfl
  simp only [Int32.lt_iff_toInt_lt, zero]
  by_cases inside : fits (l.toInt - r.toInt) = true
  · obtain ⟨above, below⟩ := fits_iff.mp inside
    rw [Int32.toInt_ofInt_of_le above below, inside]
    by_cases less : l.toInt < r.toInt
    · have negative : l.toInt - r.toInt < 0 := by omega
      simp [less, negative]
    · have negative : ¬ l.toInt - r.toInt < 0 := by omega
      simp [less, negative]
  · have outside : fits (l.toInt - r.toInt) = false := by simpa using inside
    have far : l.toInt - r.toInt < -2 ^ 31 ∨ 2 ^ 31 ≤ l.toInt - r.toInt := by
      have := mt fits_iff.mpr inside
      omega
    rw [outside]
    rcases far with far | far
    · have wrapped : (Int32.ofInt (l.toInt - r.toInt)).toInt = l.toInt - r.toInt + 2 ^ 32 := by
        rw [Int32.toInt_ofInt, size, Int.bmod_def]
        split <;> omega
      have negative : ¬ (Int32.ofInt (l.toInt - r.toInt)).toInt < 0 := by omega
      have less : l.toInt < r.toInt := by omega
      simp only [negative, less, decide_true, decide_false, Bool.not_false]
      rfl
    · have wrapped : (Int32.ofInt (l.toInt - r.toInt)).toInt = l.toInt - r.toInt - 2 ^ 32 := by
        rw [Int32.toInt_ofInt, size, Int.bmod_def]
        split <;> omega
      have negative : (Int32.ofInt (l.toInt - r.toInt)).toInt < 0 := by omega
      have less : ¬ l.toInt < r.toInt := by omega
      simp only [negative, less, decide_true, decide_false, Bool.not_false]
      rfl

theorem beq_eq_not_bne (p q : Bool) : (p == q) = !(p != q) := by
  revert p q
  decide

/-- After two words were compared, a condition holds if it holds of the words. -/
theorem Flags.holds_sub (c : Condition) (l r : Int32) :
    (Flags.ofResult (.ofInt (l.toInt - r.toInt)) (!fits (l.toInt - r.toInt))).holds c =
      c.compares l r := by
  have equal := zero_of_sub l r
  have less := sign_of_sub l r
  have order : l ≤ r ↔ l = r ∨ l < r := by
    rw [Int32.le_iff_lt_or_eq]
    exact or_comm
  have converse : r < l ↔ ¬ l ≤ r := Int32.not_le.symm
  have converse' : r ≤ l ↔ ¬ l < r := Int32.not_lt.symm
  cases c with
  | equal => exact equal
  | notEqual => exact congrArg not equal
  | less => exact less
  | lessOrEqual =>
    simp only [holds, ofResult, Condition.compares, equal, less]
    apply Bool.eq_iff_iff.mpr
    simp [order]
  | greater =>
    simp only [holds, ofResult, Condition.compares, equal]
    rw [beq_eq_not_bne (decide _), less]
    apply Bool.eq_iff_iff.mpr
    have parts : r < l ↔ l ≠ r ∧ ¬ l < r := by
      rw [converse, order, not_or]
    rw [Bool.and_eq_true, decide_eq_true_iff, parts]
    simp only [Bool.not_eq_true', beq_eq_false_iff_ne, decide_eq_false_iff_not]
  | greaterOrEqual =>
    simp only [holds, ofResult, Condition.compares]
    rw [beq_eq_not_bne, less]
    exact (decide_not).symm.trans (decide_eq_decide.mpr converse'.symm)

/-- A truth value that is put in the lowest byte of a word is all that is left of that byte. -/
theorem truth_byte (x : Int32) (p : Bool) : ((x &&& ~~~0xff) ||| truth p) &&& 0xff = truth p := by
  have low : ∀ q : Bool, truth q &&& 0xff = truth q := by decide
  rw [← Int32.toBitVec_inj]
  have byte : (truth p).toBitVec &&& 0xff = (truth p).toBitVec := congrArg Int32.toBitVec (low p)
  simp only [Int32.toBitVec_and, Int32.toBitVec_or, Int32.toBitVec_not]
  show (x.toBitVec &&& ~~~0xff ||| (truth p).toBitVec) &&& 0xff = (truth p).toBitVec
  rw [BitVec.and_or_distrib_right, byte, BitVec.and_assoc, BitVec.not_and_self]
  simp

theorem truth_and (p q : Bool) : truth p &&& truth q = truth (p && q) := by
  revert p q
  decide

theorem truth_or (p q : Bool) : truth p ||| truth q = truth (p || q) := by
  revert p q
  decide

/-- A quotient is a word unless the smallest one is divided by minus one. -/
theorem fits_tdiv {l r : Int32} (hr : r ≠ 0) :
    fits (l.toInt.tdiv r.toInt) = !BinaryOp.traps l r := by
  have low := l.le_toInt
  have high := l.toInt_lt
  have zero : r.toInt ≠ 0 := fun h => hr (Int32.toInt_inj.mp h)
  by_cases overflow : l = Int32.minValue ∧ r = -1
  · obtain ⟨rfl, rfl⟩ := overflow
    rfl
  · have other : l ≠ Int32.minValue ∨ r ≠ -1 := Decidable.not_and_iff_or_not.mp overflow
    have traps : BinaryOp.traps l r = false := by
      unfold BinaryOp.traps
      rw [beq_false_of_ne hr, Bool.false_or, Bool.and_eq_false_iff]
      exact other.imp beq_false_of_ne beq_false_of_ne
    rw [traps]
    apply fits_iff.mpr
    have quotient : (l / r).toInt = l.toInt.tdiv r.toInt := by
      rcases other with other | other
      · exact Int32.toInt_div_of_ne_left l r other
      · exact Int32.toInt_div_of_ne_right l r other
    rw [← quotient]
    exact ⟨(l / r).le_toInt, (l / r).toInt_lt⟩

theorem ofInt_tdiv (l r : Int32) : Int32.ofInt (l.toInt.tdiv r.toInt) = l / r := by
  rw [← Int32.toInt_inj, Int32.toInt_ofInt, Int32.toInt_div]

theorem ofInt_tmod (l r : Int32) : Int32.ofInt (l.toInt.tmod r.toInt) = l % r := by
  rw [← Int32.toInt_mod, Int32.ofInt_toInt]

/-- The double word of a word and its sign. -/
theorem signed_double (n : Int32) :
    (if n < 0 then (-1 : Int32) else 0).toInt * 0x100000000 + n.toUInt32.toNat = n.toInt := by
  have zero : (0 : Int32).toInt = 0 := rfl
  have one : (-1 : Int32).toInt = -1 := rfl
  have high := n.toUInt32.toNat_lt
  have unsigned : n.toInt =
      if 2 * n.toUInt32.toNat < 2 ^ 32 then (n.toUInt32.toNat : Int)
      else n.toUInt32.toNat - (2 ^ 32 : Nat) := BitVec.toInt_eq_toNat_cond _
  by_cases negative : n < 0
  · rw [if_pos negative, one]
    rw [Int32.lt_iff_toInt_lt, zero] at negative
    split at unsigned <;> omega
  · rw [if_neg negative, zero]
    rw [Int32.lt_iff_toInt_lt, zero] at negative
    split at unsigned <;> omega

/-! ## Sources and results -/

/-- The trap of a division. -/
def Trap.ofDivision (left right : Int32) : Trap :=
  if right = 0 then .divisionByZero else .quotientOverflow left.toInt right.toInt

/-- What the code of an operator leaves in the register of a result's tag. -/
def spareAfter (op : BinaryOp) (right spare : Int32) : Int32 :=
  match op with
  | .div | .rem => right
  | .and | .or => truth (right != 0)
  | _ => spare

/-- An operand that does not change with the registers of results. -/
def Operand.IsSource : Operand → Prop
  | .register r => r ≠ .eax ∧ r ≠ .ebx ∧ r ≠ .esp
  | .memory base _ => base = .ebp
  | _ => True

namespace View

variable {image : Image} {v v' : View} {left right : Operand} {l r : Int32} {Q : View → Prop}
  {E : Trap → World → Prop} {is : Code}

theorem read_of_source {o : Operand} (ho : o.IsSource)
    (registers : ∀ x, x ≠ .eax → x ≠ .ebx → x ≠ .esp → v'.registers.get x = v.registers.get x)
    (height : v'.height = v.height) (cell : v'.cell = v.cell) (globals : v'.globals = v.globals) :
    v'.read image o = v.read image o := by
  cases o with
  | immediate n => rfl
  | address s => rfl
  | register x =>
    obtain ⟨eax, ebx, esp⟩ := ho
    simp only [View.read, registers x eax ebx esp]
  | memory base offset =>
    have ebp : base = .ebp := ho
    subst ebp
    have same := registers .ebp (by decide) (by decide) (by decide)
    simp only [View.read, same, place?, height, cell]
  | global s => simp only [View.read, globals]

theorem read_set_of_source {o : Operand} (ho : o.IsSource) {x : Register}
    (hx : x = .eax ∨ x = .ebx) (n : Int32) : (v.set x n).read image o = v.read image o := by
  refine read_of_source ho ?_ rfl rfl rfl
  intro y eax ebx _
  rw [get_set, if_neg]
  rintro rfl
  rcases hx with rfl | rfl
  · exact eax rfl
  · exact ebx rfl

/-- A view that another one turns into while a result is computed, which leaves a word in the
register of a tag as well. -/
abbrev Computed (n spare : Int32) (v v' : View) : Prop :=
  Cut (fun x => if x = .eax then n else if x = .ebx then spare else v.registers.get x) v.height v v'

/-- Compare two words and make a truth value of that. -/
theorem Runs.compare (hl : v.read image left = some l) (hr : v.read image right = some r)
    (source : right.IsSource) (ht : v.Topped) (c : Condition)
    (h : ∀ v', Computed (truth (c.compares l r)) v.registers.ebx v v' → Q v') :
    Runs image (Code.compare left right c) v Q E := by
  let v₁ := v.set .eax l
  have right₁ : v₁.read image right = some r :=
    (read_set_of_source source (.inl rfl) l).trans hr
  have eax : v₁.read image (.register .eax) = some l := rfl
  let v₂ := v₁.flagged (.ofInt (l.toInt - r.toInt)) (!fits (l.toInt - r.toInt))
  have compared : v₁.exec image (.cmp right Register.eax) = some (.ok v₂) := by
    simp only [exec, arithmetic, eax, right₁, Option.bind_eq_bind, Option.bind_some,
      Bool.false_eq_true, if_false, Option.map_some]
    rfl
  have holds : v₂.flags.holds c = c.compares l r := Flags.holds_sub c l r
  let byte := (l &&& ~~~0xff) ||| truth (c.compares l r)
  have set : v₂.exec image (.set c .al) = some (.ok (v₂.set .eax byte)) := by
    simp only [exec, holds]
    rfl
  have last : (v₂.set .eax byte).exec image (.movzbl .al .eax) =
      some (.ok ((v₂.set .eax byte).set .eax (truth (c.compares l r)))) := by
    have value : byte &&& 0xff = truth (c.compares l r) := truth_byte l _
    rw [← value]
    rfl
  refine .movRegister (by decide) hl (.cons compared (.cons set (.cons last (.nil (h _ ?_)))))
  refine ⟨?_, rfl, rfl, rfl, fun _ _ => rfl, ?_⟩
  · intro x _
    cases x <;> rfl
  · exact topped_set (topped_set (v := v₂) (topped_set (v := v) ht (by decide) l) (by decide) byte)
      (by decide) _

/-- Make a truth value of a word. -/
theorem Runs.normalise {o : Operand} {n : Int32} (ho : v.read image o = some n)
    (byte : ByteRegister)
    (h : ∀ f, Runs image is (({ v with flags := f } : View).set byte.full (truth (n != 0))) Q E) :
    Runs image (Code.normalise o byte ++ is) v Q E := by
  have other : byte.full ≠ .esp := by cases byte <;> decide
  let v₁ := v.set byte.full n
  have value : v₁.registers.get byte.full = n := by
    rw [get_set, if_pos rfl]
  have full : v₁.read image (.register byte.full) = some n := congrArg some value
  have zero : v₁.read image (.immediate 0) = some 0 := rfl
  let v₂ := v₁.flagged (.ofInt (n.toInt - (0 : Int32).toInt)) (!fits (n.toInt - (0 : Int32).toInt))
  have compared : v₁.exec image (.cmp (.immediate 0) byte.full) = some (.ok v₂) := by
    simp only [exec, arithmetic, full, zero, Option.bind_eq_bind, Option.bind_some,
      Bool.false_eq_true, if_false, Option.map_some]
    rfl
  have holds : v₂.flags.holds .notEqual = (n != 0) := Flags.holds_sub .notEqual n 0
  let low := (n &&& ~~~0xff) ||| truth (n != 0)
  have set : v₂.exec image (.set .notEqual byte) = some (.ok (v₂.set byte.full low)) := by
    have same : v₂.registers.get byte.full = n := value
    simp only [exec, holds, same, write_register other, Option.map_some]
    rfl
  have last : (v₂.set byte.full low).exec image (.movzbl byte byte.full) =
      some (.ok ((v₂.set byte.full low).set byte.full (truth (n != 0)))) := by
    have bits : low &&& 0xff = truth (n != 0) := truth_byte n _
    have same : (v₂.set byte.full low).registers.get byte.full = low := by
      rw [get_set, if_pos rfl]
    simp only [exec, same, bits, write_register other, Option.map_some]
  have same : (v₂.set byte.full low).set byte.full (truth (n != 0)) =
      ({ v with flags := v₂.flags } : View).set byte.full (truth (n != 0)) := by
    cases byte <;> rfl
  rw [same] at last
  exact .movRegister other ho (.cons compared (.cons set (.cons last (h v₂.flags))))

/-- Take the result of a division, and take back the word of a tag that was in the register of the
remainder. -/
theorem Runs.afterDivision {quotient remainder tag n : Int32} {result : Code}
    (hv : 1 ≤ v.height) (top : v.cell v.height = some tag)
    (hresult : ∀ v₁ : View, v₁.registers.eax = quotient → v₁.registers.edx = remainder →
      ∀ {js : Code}, Runs image js (v₁.set .eax n) Q E → Runs image (result ++ js) v₁ Q E)
    (h : ∀ v', Cut (fun x => if x = .edx then tag else if x = .eax then n else v.registers.get x)
      (v.height - 1) v v' → Q v') :
    Runs image (result ++ [.pop Register.edx]) ((v.set .eax quotient).set .edx remainder) Q E := by
  let v₁ := ((v.set .eax quotient).set .edx remainder).set .eax n
  refine hresult _ rfl rfl (.pop (by decide) hv top (.nil (h _ ?_)))
  have c := (cut_moveTop v₁ (h := v.height - 1) (Nat.sub_le _ _)).set (r := .edx) (by decide) tag
  refine ⟨?_, c.globals, c.world, c.height, c.cell, c.topped⟩
  intro x hx
  refine (c.registers x hx).trans ?_
  cases x <;> rfl

/-- Divide the double word in two registers. -/
theorem Runs.idiv {tag n : Int32} {result : Code} (ebx : v.registers.ebx = r)
    (dividend : v.registers.edx.toInt * 0x100000000 + v.registers.eax.toUInt32.toNat = l.toInt)
    (hv : 1 ≤ v.height) (top : v.cell v.height = some tag)
    (hresult : ∀ v₁ : View, v₁.registers.eax = l / r → v₁.registers.edx = l % r →
      ∀ {js : Code}, Runs image js (v₁.set .eax n) Q E → Runs image (result ++ js) v₁ Q E)
    (h : if BinaryOp.traps l r then E (Trap.ofDivision l r) v.world
      else ∀ v', Cut (fun x => if x = .edx then tag else if x = .eax then n else v.registers.get x)
        (v.height - 1) v v' → Q v') :
    Runs image (.idiv Register.ebx :: (result ++ [.pop Register.edx])) v Q E := by
  have divisor : v.read image (.register .ebx) = some r := congrArg some ebx
  unfold Trap.ofDivision at h
  by_cases zero : r = 0
  · -- There is no quotient.
    have traps : BinaryOp.traps l r = true := by rw [zero]; rfl
    have trap : v.exec image (.idiv Register.ebx) = some (.error (.divisionByZero, v)) := by
      simp only [exec, divisor, View.divide, if_pos zero, Option.map_some]
    rw [traps, if_pos rfl, if_pos zero] at h
    exact .trap trap h
  have divided : v.divide r = if BinaryOp.traps l r then
      .error (.quotientOverflow l.toInt r.toInt, v)
      else .ok ((v.set .eax (l / r)).set .edx (l % r)) := by
    simp only [View.divide, dividend, if_neg zero, fits_tdiv zero, Bool.not_not, ofInt_tdiv,
      ofInt_tmod]
  by_cases traps : BinaryOp.traps l r = true
  · have trap : v.exec image (.idiv Register.ebx) =
        some (.error (.quotientOverflow l.toInt r.toInt, v)) := by
      simp only [exec, divisor, divided, traps, if_true, Option.map_some]
    rw [traps, if_pos rfl, if_neg zero] at h
    exact .trap trap h
  · rw [if_neg traps] at h divided
    have step : v.exec image (.idiv Register.ebx) =
        some (.ok ((v.set .eax (l / r)).set .edx (l % r))) := by
      simp only [exec, divisor, divided, Option.map_some]
    exact .cons step (Runs.afterDivision hv top hresult h)

/-- Divide a word in a register by another one. -/
theorem Runs.divideRegisters {tag n : Int32} {result : Code} (eax : v.registers.eax = l)
    (ebx : v.registers.ebx = r) (hv : 1 ≤ v.height) (top : v.cell v.height = some tag)
    (hresult : ∀ v₁ : View, v₁.registers.eax = l / r → v₁.registers.edx = l % r →
      ∀ {js : Code}, Runs image js (v₁.set .eax n) Q E → Runs image (result ++ js) v₁ Q E)
    (h : if BinaryOp.traps l r then E (Trap.ofDivision l r) v.world
      else ∀ v', Cut (fun x => if x = .edx then tag else if x = .eax then n else v.registers.get x)
        (v.height - 1) v v' → Q v') :
    Runs image (.cltd :: .idiv Register.ebx :: (result ++ [.pop Register.edx])) v Q E := by
  have double := signed_double v.registers.eax
  refine .cons rfl ?_
  generalize (if v.registers.eax < 0 then (-1 : Int32) else 0) = sign at double ⊢
  rw [eax] at double
  have low : (v.set .edx sign).registers.eax = l := eax
  refine Runs.idiv (l := l) (r := r) ebx (by rw [low]; exact double) hv top hresult ?_
  by_cases traps : BinaryOp.traps l r = true
  · rw [if_pos traps] at h ⊢
    exact h
  · rw [if_neg traps] at h ⊢
    intro v' c
    refine h v' ⟨?_, c.globals, c.world, c.height, c.cell, c.topped⟩
    intro x hx
    rw [c.registers x hx]
    cases x <;> rfl

/-- Divide two words. The remainder is for a while in a register that holds the word of a tag. -/
theorem Runs.divide (hl : v.read image left = some l) (hr : v.read image right = some r)
    (source : left.IsSource) {result : Code} {n : Int32}
    (hresult : ∀ v₁ : View, v₁.registers.eax = l / r → v₁.registers.edx = l % r →
      ∀ {js : Code}, Runs image js (v₁.set .eax n) Q E → Runs image (result ++ js) v₁ Q E)
    (h : if BinaryOp.traps l r then E (Trap.ofDivision l r) v.world
      else ∀ v', Computed n r v v' → Q v') :
    Runs image (Code.divide left right result) v Q E := by
  have left₁ : (v.set .ebx r).read image left = some l :=
    (read_set_of_source source (.inr rfl) r).trans hl
  have tag : ((v.set .ebx r).set .eax l).read image (.register .edx) = some v.registers.edx := rfl
  refine .movRegister (by decide) hr (.movRegister (by decide) left₁ (.push tag ?_))
  have g := grown_push ((v.set .ebx r).set .eax l) v.registers.edx
  have high := height_push ((v.set .ebx r).set .eax l) v.registers.edx
  have kept := cell_push ((v.set .ebx r).set .eax l) v.registers.edx
  rw [← high] at kept
  refine Runs.divideRegisters (g.registers .eax (by decide)) (g.registers .ebx (by decide))
    (by rw [high]; exact Nat.succ_le_succ (Nat.zero_le _)) kept hresult ?_
  rw [high, g.world]
  by_cases traps : BinaryOp.traps l r = true
  · rw [if_pos traps] at h
    exact (if_pos traps).mpr h
  · rw [if_neg traps] at h
    refine (if_neg traps).mpr fun v' c => h v' ?_
    refine ⟨?_, c.globals.trans g.globals, c.world.trans g.world, c.height, ?_, c.topped⟩
    · intro x hx
      rw [c.registers x hx, g.registers x hx]
      cases x <;> rfl
    · intro k hk
      rw [c.cell k hk]
      exact g.cell k hk

/-- Combine two truth values. -/
theorem Runs.logical {op : Instruction} {n : Int32} (hl : v.read image left = some l)
    (hr : v.read image right = some r) (source : right.IsSource) (ht : v.Topped)
    (hop : ∀ w : View, w.registers.get .eax = truth (l != 0) →
      w.registers.get .ebx = truth (r != 0) →
      ∃ f, w.exec image op = some (.ok ({ w with flags := f }.set .eax n)))
    (h : ∀ v', Computed n (truth (r != 0)) v v' → Q v') :
    Runs image (Code.normalise left .al ++ Code.normalise right .bl ++ [op]) v Q E := by
  rw [List.append_assoc]
  refine Runs.normalise hl .al fun f => ?_
  have right₁ : (({ v with flags := f } : View).set .eax (truth (l != 0))).read image right =
      some r := by
    rw [read_set_of_source source (.inl rfl)]
    exact (read_of_source source (fun _ _ _ _ => rfl) rfl rfl rfl).trans hr
  refine Runs.normalise right₁ .bl fun f' => ?_
  obtain ⟨f'', step⟩ := hop (({ ({ v with flags := f } : View).set .eax (truth (l != 0)) with
    flags := f' } : View).set .ebx (truth (r != 0))) rfl rfl
  refine .cons step (.nil (h _ ?_))
  refine ⟨?_, rfl, rfl, rfl, fun _ _ => rfl, ?_⟩
  · intro x hx
    cases x <;> rfl
  · exact ht

/-- Compute the result of an operator. -/
theorem Runs.binary {op : BinaryOp} (hl : v.read image left = some l)
    (hr : v.read image right = some r) (sourceLeft : left.IsSource) (sourceRight : right.IsSource)
    (ht : v.Topped)
    (h : match op.eval? l r with
      | some n => ∀ v', Computed n (spareAfter op r v.registers.ebx) v v' → Q v'
      | none => E (Trap.ofDivision l r) v.world) :
    Runs image (Code.binary op left right) v Q E := by
  let v₁ := v.set .eax l
  have right₁ : v₁.read image right = some r :=
    (read_set_of_source sourceRight (.inl rfl) l).trans hr
  have eax : v₁.read image (.register .eax) = some l := rfl
  -- The result is in its register, and only flags have changed besides.
  have done : ∀ (n : Int32) (f : Flags), Computed n v.registers.ebx v
      (({ v with flags := f } : View).set .eax n) := by
    intro n f
    refine ⟨?_, rfl, rfl, rfl, fun _ _ => rfl, topped_set (v := { v with flags := f }) ht
      (by decide) n⟩
    intro x _
    cases x <;> rfl
  cases op with
  | plus =>
    have sum : Int32.ofInt (l.toInt + r.toInt) = l + r := by
      rw [Int32.ofInt_add, Int32.ofInt_toInt, Int32.ofInt_toInt]
    have step : v₁.exec image (.add right Register.eax) =
        some (.ok (({ v with flags := .ofResult (l + r) (!fits (l.toInt + r.toInt)) } : View).set
          .eax (l + r))) := by
      simp only [exec, arithmetic, eax, right₁, Option.bind_eq_bind, Option.bind_some, if_true, sum,
        write_register Machine.eax_ne_esp, Option.map_some]
      rfl
    exact .movRegister (by decide) hl (.cons step (.nil (h _ (done _ _))))
  | minus =>
    have difference : Int32.ofInt (l.toInt - r.toInt) = l - r := by
      rw [Int32.ofInt_sub, Int32.ofInt_toInt, Int32.ofInt_toInt]
    have step : v₁.exec image (.sub right Register.eax) =
        some (.ok (({ v with flags := .ofResult (l - r) (!fits (l.toInt - r.toInt)) } : View).set
          .eax (l - r))) := by
      simp only [exec, arithmetic, eax, right₁, Option.bind_eq_bind, Option.bind_some, if_true,
        difference, write_register Machine.eax_ne_esp, Option.map_some]
      rfl
    exact .movRegister (by decide) hl (.cons step (.nil (h _ (done _ _))))
  | times =>
    have step : v₁.exec image (.imul right .eax) =
        some (.ok (({ v with flags := v.flags } : View).set .eax (l * r))) := by
      have value : v₁.registers.get .eax = l := rfl
      simp only [exec, value, right₁, Option.bind_eq_bind, Option.bind_some,
        write_register Machine.eax_ne_esp]
      rfl
    exact .movRegister (by decide) hl (.cons step (.nil (h _ (done _ _))))
  | div =>
    refine Runs.divide (n := l / r) hl hr sourceLeft (fun v₁ quotient _ js rest => ?_) ?_
    · have same : v₁.set .eax (l / r) = v₁ := by
        rw [← quotient]
        exact set_get v₁ .eax
      rw [same] at rest
      exact rest
    · by_cases traps : BinaryOp.traps l r = true
      · simp only [BinaryOp.eval?, traps, if_true] at h ⊢
        exact h
      · rw [if_neg traps]
        simp only [BinaryOp.eval?, traps] at h
        exact h
  | rem =>
    refine Runs.divide (n := l % r) hl hr sourceLeft (fun v₁ _ remainder js rest => ?_) ?_
    · exact .movRegister (by decide) (congrArg some remainder) rest
    · by_cases traps : BinaryOp.traps l r = true
      · simp only [BinaryOp.eval?, traps, if_true] at h ⊢
        exact h
      · rw [if_neg traps]
        simp only [BinaryOp.eval?, traps] at h
        exact h
  | and =>
    refine Runs.logical (n := truth (l != 0 && r != 0)) hl hr
      sourceRight ht (fun w hw hw' => ?_) h
    refine ⟨.ofResult (truth (l != 0 && r != 0)) false, ?_⟩
    simp only [exec, bitwise, View.read, hw, hw', Option.bind_eq_bind, Option.bind_some, if_true,
      truth_and, write_register Machine.eax_ne_esp, Option.map_some]
    rfl
  | or =>
    refine Runs.logical (n := truth (l != 0 || r != 0)) hl hr
      sourceRight ht (fun w hw hw' => ?_) h
    refine ⟨.ofResult (truth (l != 0 || r != 0)) false, ?_⟩
    simp only [exec, bitwise, View.read, hw, hw', Option.bind_eq_bind, Option.bind_some, if_true,
      truth_or, write_register Machine.eax_ne_esp, Option.map_some]
    rfl
  | eq => exact Runs.compare hl hr sourceRight ht .equal h
  | ne => exact Runs.compare hl hr sourceRight ht .notEqual h
  | gt => exact Runs.compare hl hr sourceRight ht .greater h
  | lt => exact Runs.compare hl hr sourceRight ht .less h
  | le => exact Runs.compare hl hr sourceRight ht .lessOrEqual h
  | ge => exact Runs.compare hl hr sourceRight ht .greaterOrEqual h

end View

end Threefold.X86
