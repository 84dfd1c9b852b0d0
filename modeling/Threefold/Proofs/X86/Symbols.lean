import Threefold.Intrinsic
import Threefold.X86

/-!
# Symbols that do not meet

The symbol of a function that is not the entry ends with its arity, behind the last underscore, so
different signatures have different symbols and none of them is a name of the run-time library or of
a global word. The symbol of a literal begins with an underscore, with which no name begins.
-/

namespace Threefold.X86.Symbol

/-- A symbol whose last character is a digit. -/
def Numbered (s : Symbol) : Prop :=
  ∃ c, s.toList.getLast? = some c ∧ c.isDigit = true

theorem toList_toString (n : Nat) : (toString n).toList = Nat.toDigits 10 n := by
  rw [Nat.toString_eq_ofList_toDigits, String.toList_ofList]

theorem toDigits_inj {m n : Nat} (h : Nat.toDigits 10 m = Nat.toDigits 10 n) : m = n := by
  have value := congrArg (Nat.ofDigitChars 10 · 0) h
  simpa only [Nat.ofDigitChars_ten_toDigits] using value

theorem numbered_append (s : String) (n : Nat) : Numbered (s ++ toString n) := by
  cases hd : (Nat.toDigits 10 n).getLast? with
  | none => exact absurd (List.getLast?_eq_none_iff.mp hd) Nat.toDigits_ne_nil
  | some c =>
    have digit : c ∈ Nat.toDigits 10 n := List.mem_of_getLast? hd
    refine ⟨c, ?_, Nat.isDigit_of_mem_toDigits (by decide) (by decide) digit⟩
    rw [String.toList_append, toList_toString, List.getLast?_append, hd]
    rfl

theorem numbered_ofSignature {entry s : Signature} (h : s ≠ entry) :
    Numbered (ofSignature entry s) := by
  rw [ofSignature, if_neg h]
  exact numbered_append _ _

theorem numbered_ofLiteral (i : Nat) : Numbered (ofLiteral i) :=
  numbered_append _ _

theorem not_numbered {s : Symbol} {c : Char} (hs : s.toList.getLast? = some c)
    (hc : c.isDigit = false) : ¬ Numbered s := by
  rintro ⟨d, hd, digit⟩
  rw [hs] at hd
  cases hd
  rw [hc] at digit
  cases digit

theorem not_numbered_nativeSymbol (i : Intrinsic) : ¬ Numbered i.nativeSymbol := by
  cases i <;> exact not_numbered rfl (by decide)

theorem not_numbered_retain : ¬ Numbered retain := not_numbered rfl (by decide)

theorem not_numbered_release : ¬ Numbered release := not_numbered rfl (by decide)

theorem not_numbered_main : ¬ Numbered main := not_numbered rfl (by decide)

theorem not_numbered_payload : ¬ Numbered payload := not_numbered rfl (by decide)

theorem not_numbered_payloadTag : ¬ Numbered payloadTag := not_numbered rfl (by decide)

theorem not_numbered_uncaught : ¬ Numbered uncaught := not_numbered rfl (by decide)

/-- The symbols that machine code calls and that no module defines. -/
def library : List Symbol :=
  retain :: release :: Intrinsic.all.map Intrinsic.nativeSymbol

/-- The symbols of the global words. -/
def globals : List Symbol :=
  [payload, payloadTag, uncaught]

theorem not_numbered_of_mem_library {s : Symbol} (h : s ∈ library) : ¬ Numbered s := by
  rcases List.mem_cons.mp h with rfl | h
  · exact not_numbered_retain
  rcases List.mem_cons.mp h with rfl | h
  · exact not_numbered_release
  obtain ⟨i, -, rfl⟩ := List.mem_map.mp h
  exact not_numbered_nativeSymbol i

theorem not_numbered_of_mem_globals {s : Symbol} (h : s ∈ globals) : ¬ Numbered s := by
  simp only [globals, List.mem_cons, List.not_mem_nil, or_false] at h
  rcases h with rfl | rfl | rfl
  · exact not_numbered_payload
  · exact not_numbered_payloadTag
  · exact not_numbered_uncaught

/-- What stands behind the last separator of two equal lists is equal. -/
theorem append_cons_inj {α : Type} {x : α} {as bs cs ds : List α} (h : as ++ x :: cs = bs ++ x :: ds)
    (hc : x ∉ cs) (hd : x ∉ ds) : as = bs ∧ cs = ds := by
  rcases List.append_eq_append_iff.mp h with ⟨es, hb, hx⟩ | ⟨es, ha, hx⟩
  · cases es with
    | nil =>
      rw [List.append_nil] at hb
      exact ⟨hb.symm, (List.cons.inj hx).2⟩
    | cons e es =>
      have inside : x ∈ cs := by
        rw [(List.cons.inj hx).2]
        simp
      exact absurd inside hc
  · cases es with
    | nil =>
      rw [List.append_nil] at ha
      exact ⟨ha, (List.cons.inj hx).2.symm⟩
    | cons e es =>
      have inside : x ∈ ds := by
        rw [(List.cons.inj hx).2]
        simp
      exact absurd inside hd

/-- A name and a number are known from what is written with an underscore between them. -/
theorem append_toString_inj {s t : String} {m n : Nat}
    (h : s ++ "_" ++ toString m = t ++ "_" ++ toString n) : s = t ∧ m = n := by
  have chars := congrArg String.toList h
  have bar : "_".toList = ['_'] := rfl
  simp only [String.toList_append, toList_toString, bar, List.append_assoc,
    List.singleton_append] at chars
  obtain ⟨name, digits⟩ := append_cons_inj chars Nat.underscore_not_in_toDigits
    Nat.underscore_not_in_toDigits
  exact ⟨String.toList_inj.mp name, toDigits_inj digits⟩

theorem ofSignature_inj {entry s t : Signature} (he : entry.name = main)
    (h : ofSignature entry s = ofSignature entry t) : s = t := by
  by_cases hs : s = entry
  · by_cases ht : t = entry
    · rw [hs, ht]
    · have numbered := numbered_ofSignature ht
      rw [← h, ofSignature, if_pos hs, he] at numbered
      exact absurd numbered not_numbered_main
  · by_cases ht : t = entry
    · have numbered := numbered_ofSignature hs
      rw [h, ofSignature, if_pos ht, he] at numbered
      exact absurd numbered not_numbered_main
    · rw [ofSignature, ofSignature, if_neg hs, if_neg ht] at h
      obtain ⟨n, a⟩ := s
      obtain ⟨m, b⟩ := t
      obtain ⟨rfl, rfl⟩ := append_toString_inj h
      rfl

theorem ofLiteral_inj {i j : Nat} (h : ofLiteral i = ofLiteral j) : i = j := by
  have chars := congrArg String.toList h
  rw [ofLiteral, ofLiteral, String.toList_append, String.toList_append] at chars
  rw [toList_toString, toList_toString] at chars
  exact toDigits_inj (List.append_cancel_left chars)

/-- The symbol of a function is none of the names of the run-time library. -/
theorem ofSignature_ne {entry s : Signature} (he : entry.name = main) {t : Symbol}
    (ht : ¬ Numbered t) (hm : t ≠ main) : ofSignature entry s ≠ t := by
  intro h
  by_cases hs : s = entry
  · rw [ofSignature, if_pos hs, he] at h
    exact hm h.symm
  · have numbered := numbered_ofSignature hs
    rw [h] at numbered
    exact ht numbered

/-- A function has none of some symbols without numbers, unless the entry has. -/
theorem ofSignature_notMem {entry : Signature} (he : entry.name = main) {ts : List Symbol}
    (plain : ∀ t ∈ ts, ¬ Numbered t) (apart : main ∉ ts) (s : Signature) :
    ofSignature entry s ∉ ts := by
  intro found
  refine ofSignature_ne he (plain _ found) (fun same => apart ?_) rfl
  rwa [same] at found

/-- The symbol of a function whose name does not begin with an underscore is none of a literal. -/
theorem ofSignature_ne_ofLiteral {entry s : Signature} (he : entry.name = main)
    (hs : s ≠ entry → ∃ c ∈ s.name.toList.head?, c ≠ '_') (i : Nat) :
    ofSignature entry s ≠ ofLiteral i := by
  intro h
  by_cases same : s = entry
  · have numbered := numbered_ofLiteral i
    rw [← h, ofSignature, if_pos same, he] at numbered
    exact not_numbered_main numbered
  · obtain ⟨c, first, bar⟩ := hs same
    have heads := congrArg (fun t : Symbol => t.toList.head?) h
    simp only [ofSignature, if_neg same, ofLiteral, String.toList_append, List.append_assoc,
      List.head?_append, Option.mem_def.mp first, Option.some_or] at heads
    exact bar (Option.some.inj heads)

end Threefold.X86.Symbol
