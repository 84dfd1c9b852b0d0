import Mathlib.Tactic.IntervalCases
import Threefold.Proofs.X86.Labels
import Threefold.X86.Text

/-!
# Strings in assembly text

An assembler reads the text between the quotes of a string in pieces. A backslash begins an escape: with
a quote, a backslash, `n` or `t` it stands for one byte, and so it does with exactly three octal digits.
Every other character stands for itself (`Escape.pieces?`).

* What is written for a byte is one piece, whatever stands behind it, and it is printable
  (`pieces?_escapeByte`, `printable_escapeByte`).
* `escape_lossless` says that the bytes of a text are read back from what is written for it, which
  no quote ends too early. So different literals of a program have different lines.
-/

namespace Threefold.X86

namespace Escape

/-! ## Reading -/

/-- A piece of the text of a string. -/
inductive Piece
  | plain (c : Char)
  /-- An escape, by the byte that it stands for. -/
  | byte (b : UInt8)
  deriving DecidableEq

/-- The bytes that a piece stands for. -/
def Piece.bytes : Piece → List UInt8
  | plain c => String.utf8EncodeChar c
  | byte b => [b]

/-- The byte for which a character behind a backslash stands. -/
def named? : Char → Option UInt8
  | '"' => some 0x22
  | '\\' => some 0x5c
  | 'n' => some 0x0a
  | 't' => some 0x09
  | _ => none

/-- The number that an octal digit denotes. -/
def octal? (c : Char) : Option Nat :=
  if '0' ≤ c ∧ c ≤ '7' then some (c.toNat - '0'.toNat) else none

/-- The byte for which three octal digits behind a backslash stand. -/
def numbered? (x y z : Char) : Option UInt8 := do
  return .ofNat (64 * (← octal? x) + 8 * (← octal? y) + (← octal? z))

/-- The pieces of the text of a string, unless there is a backslash that begins no escape. -/
def pieces? : List Char → Option (List Piece)
  | [] => some []
  | '\\' :: cs =>
    match cs with
    | [] => none
    | x :: cs =>
      match named? x with
      | some b => (pieces? cs).map (.byte b :: ·)
      | none =>
        match cs with
        | y :: z :: cs => do return .byte (← numbered? x y z) :: (← pieces? cs)
        | _ => none
  | c :: cs => (pieces? cs).map (.plain c :: ·)

theorem pieces?_plain {c : Char} (hc : c ≠ '\\') (cs : List Char) :
    pieces? (c :: cs) = (pieces? cs).map (.plain c :: ·) := by
  rw [pieces?.eq_def]
  split
  · contradiction
  · simp_all
  · simp_all

theorem pieces?_named {x : Char} {b : UInt8} (hx : named? x = some b) (cs : List Char) :
    pieces? ('\\' :: x :: cs) = (pieces? cs).map (.byte b :: ·) := by
  rw [pieces?.eq_def]
  simp only [hx]

theorem pieces?_numbered {x y z : Char} {b : UInt8} (hx : named? x = none)
    (hb : numbered? x y z = some b) (cs : List Char) :
    pieces? ('\\' :: x :: y :: z :: cs) = (pieces? cs).map (.byte b :: ·) := by
  rw [pieces?, hx]
  dsimp only
  rw [hb]
  cases pieces? cs <;> rfl

/-! ## What is written for a byte -/

theorem octal?_digitChar {d : Nat} (hd : d < 8) : octal? d.digitChar = some d := by
  interval_cases d <;> rfl

theorem named?_digitChar {d : Nat} (hd : d < 8) : named? d.digitChar = none := by
  interval_cases d <;> rfl

theorem toList_pushn (c : Char) (k : Nat) : ("".pushn c k).toList = List.replicate k c := by
  induction k with
  | zero => rfl
  | succ k ih =>
    rw [List.replicate_succ', ← ih]
    exact String.toList_push c

/-- The octal digits of a number below 512, with the zeros that are missing in front. -/
theorem toList_octal {n : Nat} (hn : n < 512) :
    ("".pushn '0' (3 - (Nat.toDigits 8 n).length) ++ String.ofList (Nat.toDigits 8 n)).toList =
      [(n / 64).digitChar, (n / 8 % 8).digitChar, (n % 8).digitChar] := by
  rw [String.toList_append, String.toList_ofList, toList_pushn]
  by_cases one : n < 8
  · rw [Nat.toDigits_of_lt_base one]
    have h₁ : n / 64 = 0 := by omega
    have h₂ : n / 8 % 8 = 0 := by omega
    rw [h₁, h₂, Nat.mod_eq_of_lt one]
    rfl
  by_cases two : n < 64
  · have high : n / 8 < 8 := by omega
    rw [Nat.toDigits_of_base_le (by decide) (Nat.le_of_not_lt one), Nat.toDigits_of_lt_base high]
    have h₁ : n / 64 = 0 := by omega
    rw [h₁, Nat.mod_eq_of_lt high]
    rfl
  · have high : n / 8 / 8 < 8 := by omega
    have more : 8 ≤ n / 8 := by omega
    rw [Nat.toDigits_of_base_le (by decide) (Nat.le_of_not_lt one),
      Nat.toDigits_of_base_le (by decide) more, Nat.toDigits_of_lt_base high]
    have h₁ : n / 64 = n / 8 / 8 := by omega
    rw [h₁]
    rfl

/-- A byte is written by its name, as the character that it is, or by three octal digits. -/
theorem escapeByte_cases (b : UInt8) :
    (∃ x ∈ ['"', '\\', 'n', 't'], named? x = some b ∧ (escapeByte b).toList = ['\\', x]) ∨
    ((0x20 ≤ b ∧ b ≤ 0x7e) ∧ b ≠ 0x22 ∧ b ≠ 0x5c ∧ (escapeByte b).toList = [Char.ofUInt8 b]) ∨
    ∃ x < 8, ∃ y < 8, ∃ z < 8, 64 * x + 8 * y + z = b.toNat ∧
      (escapeByte b).toList = ['\\', x.digitChar, y.digitChar, z.digitChar] := by
  unfold escapeByte
  split
  · subst_vars
    exact .inl ⟨'"', by simp, rfl, rfl⟩
  rename_i quote
  split
  · subst_vars
    exact .inl ⟨'\\', by simp, rfl, rfl⟩
  rename_i backslash
  split
  · subst_vars
    exact .inl ⟨'n', by simp, rfl, rfl⟩
  split
  · subst_vars
    exact .inl ⟨'t', by simp, rfl, rfl⟩
  split
  · rename_i printable
    exact .inr (.inl ⟨printable, quote, backslash, by simp [Char.toString]⟩)
  · have small : b.toNat < 256 := UInt8.toNat_lt_size b
    refine .inr (.inr ⟨b.toNat / 64, by omega, b.toNat / 8 % 8, by omega, b.toNat % 8, by omega,
      by omega, ?_⟩)
    rw [String.append_assoc, String.toList_append, toList_octal (by omega)]
    rfl

theorem ofUInt8_injective : Function.Injective Char.ofUInt8 := by
  intro b b' h
  have code : b.toUInt32.toNat = b'.toUInt32.toNat := congrArg Char.toNat h
  rw [UInt8.toNat_toUInt32, UInt8.toNat_toUInt32] at code
  exact UInt8.toNat_inj.mp code

theorem utf8EncodeChar_ofUInt8 {b : UInt8} (h : b ≤ 0x7e) :
    String.utf8EncodeChar (Char.ofUInt8 b) = [b] := by
  have code : (Char.ofUInt8 b).val.toNat = b.toNat := UInt8.toNat_toUInt32 b
  have small : b.toNat ≤ 126 := UInt8.le_iff_toNat_le.mp h
  rw [String.utf8EncodeChar, code, if_pos (by omega), UInt8.ofNat_toNat]

/-- What is written for a byte is one piece, whatever stands behind it. It stands for this byte, and it
is not a quote. -/
theorem pieces?_escapeByte (b : UInt8) : ∃ q : Piece, q.bytes = [b] ∧ q ≠ .plain '"' ∧
    ∀ cs, pieces? ((escapeByte b).toList ++ cs) = (pieces? cs).map (q :: ·) := by
  rcases escapeByte_cases b with ⟨x, -, hx, text⟩ | ⟨printable, quote, backslash, text⟩ |
    ⟨x, hx, y, hy, z, hz, value, text⟩
  · refine ⟨.byte b, rfl, nofun, fun cs => ?_⟩
    rw [text]
    exact pieces?_named hx cs
  · have other (c : UInt8) (hc : b ≠ c) : Char.ofUInt8 b ≠ Char.ofUInt8 c :=
      ofUInt8_injective.ne hc
    refine ⟨.plain (Char.ofUInt8 b), utf8EncodeChar_ofUInt8 printable.2, ?_, fun cs => ?_⟩
    · exact fun same => other 0x22 quote (Piece.plain.inj same)
    · rw [text]
      exact pieces?_plain (other 0x5c backslash) cs
  · refine ⟨.byte b, rfl, nofun, fun cs => ?_⟩
    have number : numbered? x.digitChar y.digitChar z.digitChar = some b := by
      simp only [numbered?, octal?_digitChar hx, octal?_digitChar hy, octal?_digitChar hz]
      show some (UInt8.ofNat _) = _
      rw [value, UInt8.ofNat_toNat]
    rw [text]
    exact pieces?_numbered (named?_digitChar hx) number cs

/-- A printable ASCII character. -/
def IsPrintable (c : Char) : Prop := ' ' ≤ c ∧ c ≤ '~'

instance (c : Char) : Decidable (IsPrintable c) :=
  inferInstanceAs (Decidable (_ ∧ _))

theorem isPrintable_digitChar {d : Nat} (hd : d < 8) : IsPrintable d.digitChar := by
  interval_cases d <;> decide

/-- What is written for a byte is printable. -/
theorem isPrintable_escapeByte (b : UInt8) : ∀ c ∈ (escapeByte b).toList, IsPrintable c := by
  have backslash : IsPrintable '\\' := by decide
  rcases escapeByte_cases b with ⟨x, mem, -, text⟩ | ⟨printable, -, -, text⟩ |
    ⟨x, hx, y, hy, z, hz, -, text⟩ <;> rw [text]
  · have named : ∀ x ∈ ['"', '\\', 'n', 't'], IsPrintable x := by
      simp only [List.forall_mem_cons]
      exact ⟨by decide, backslash, by decide, by decide, List.forall_mem_nil _⟩
    exact List.forall_mem_cons.mpr ⟨backslash, List.forall_mem_singleton.mpr (named x mem)⟩
  · exact List.forall_mem_singleton.mpr printable
  · have digits : ∀ c ∈ [x.digitChar, y.digitChar, z.digitChar], IsPrintable c := by
      simp only [List.forall_mem_cons]
      exact ⟨isPrintable_digitChar hx, isPrintable_digitChar hy, isPrintable_digitChar hz,
        List.forall_mem_nil _⟩
    exact List.forall_mem_cons.mpr ⟨backslash, digits⟩

/-! ## What is written for a text -/

/-- The bytes of a text. -/
def bytesOf (s : String) : List UInt8 := s.toUTF8.data.toList

theorem bytesOf_injective : Function.Injective bytesOf := by
  intro s t h
  have data : s.toUTF8.data = t.toUTF8.data := Array.toList_inj.mp h
  exact String.toByteArray_inj.mp (ByteArray.ext data)

theorem toList_escape (s : String) :
    (escape s).toList = (bytesOf s).flatMap fun b => (escapeByte b).toList := by
  rw [escape, String.toList_join, List.flatMap_map]
  rfl

/-- The pieces of what is written for some bytes stand for these bytes, and none of them is a quote. -/
theorem pieces?_flatMap (bs : List UInt8) :
    ∃ qs, pieces? (bs.flatMap fun b => (escapeByte b).toList) = some qs ∧
      qs.flatMap Piece.bytes = bs ∧ .plain '"' ∉ qs := by
  induction bs with
  | nil => exact ⟨[], rfl, rfl, List.not_mem_nil⟩
  | cons b bs ih =>
    obtain ⟨qs, read, bytes, quote⟩ := ih
    obtain ⟨q, own, other, first⟩ := pieces?_escapeByte b
    refine ⟨q :: qs, ?_, ?_, ?_⟩
    · rw [List.flatMap_cons, first, read, Option.map_some]
    · rw [List.flatMap_cons, own, bytes, List.singleton_append]
    · exact List.not_mem_cons_of_ne_of_not_mem other.symm quote

theorem isPrintable_escape (s : String) : ∀ c ∈ (escape s).toList, IsPrintable c := by
  rw [toList_escape]
  intro c hc
  obtain ⟨b, -, hc⟩ := List.mem_flatMap.mp hc
  exact isPrintable_escapeByte b c hc

theorem escape_injective : Function.Injective escape := by
  intro s t h
  obtain ⟨qs, hs, bytes, -⟩ := pieces?_flatMap (bytesOf s)
  obtain ⟨qs', ht, bytes', -⟩ := pieces?_flatMap (bytesOf t)
  rw [← toList_escape, h, toList_escape, ht] at hs
  cases hs
  exact bytesOf_injective (bytes.symm.trans bytes')

end Escape

/-! ## The literals of a program -/

/-- A line that is a string. -/
def Directive.isString : Directive → Bool
  | .string _ => true
  | _ => false

/-- The lines of the text of a module that come from its strings. -/
def Assembly.stringLines (a : Assembly) (p : Platform) (comments : Bool) : List String :=
  (a.directives.filter Directive.isString).filterMap (Directive.line? p comments)

/-- The line of a string. -/
def stringLine (s : String) : String :=
  "    .asciz \"" ++ escape s ++ "\""

theorem stringLine_injective : Function.Injective stringLine := by
  intro s t h
  have quoted : "    .asciz \"" ++ escape s = "    .asciz \"" ++ escape t :=
    (String.append_left_inj _).mp h
  exact Escape.escape_injective ((String.append_right_inj _).mp quoted)

namespace Lowering

/-- The section of code has no strings. -/
theorem filter_isString_code {ds : List Directive} (h : ∀ d ∈ ds, d.isCode = true) :
    ds.filter Directive.isString = [] := by
  rw [List.filter_eq_nil_iff]
  intro d hd string
  cases d with
  | string s => cases h _ hd
  | _ => cases string

theorem filter_isString_zipIdx (ss : List String) (k : Nat) :
    ((ss.zipIdx k).flatMap fun x => [Directive.symbol (.ofLiteral x.2), .string x.1]).filter
      Directive.isString = ss.map .string := by
  induction ss generalizing k with
  | nil => rfl
  | cons s ss ih => exact congrArg (Directive.string s :: ·) (ih (k + 1))

/-- The strings of a module are the literals of the program, in their order. -/
theorem filter_isString_lower {b : Bytecode} {a : Assembly} (h : b.lower = .ok a) :
    a.directives.filter Directive.isString = b.literals.map .string := by
  obtain ⟨bodies, bodied, lines⟩ := lines_of_lower h
  have constants : (literals b.literals).filter Directive.isString = b.literals.map .string := by
    unfold literals
    split
    · rename_i empty
      rw [List.isEmpty_iff.mp empty]
      rfl
    · exact filter_isString_zipIdx b.literals 0
  rw [lines, List.filter_cons_of_neg (by nofun), List.filter_append, List.filter_append,
    filter_isString_code (isCode_bodies bodied), constants]
  exact List.append_nil _

/-- A module has one line for each literal of the program. -/
theorem stringLines_lower {b : Bytecode} {a : Assembly} (h : b.lower = .ok a) (p : Platform)
    (comments : Bool) : a.stringLines p comments = b.literals.map stringLine := by
  rw [Assembly.stringLines, filter_isString_lower h, List.filterMap_map,
    ← List.filterMap_eq_map]
  rfl

end Lowering

open Escape in
/-- What is written for a text between quotes stands for the bytes of this text and for no others: the
reader finds no backslash that begins no escape, and no quote that would end it. It is printable. So
what is written tells which text it was, and two literals of a program that are not the same have
lines that are not the same. -/
theorem escape_lossless :
    (∀ s : String, (∃ qs, pieces? (escape s).toList = some qs ∧ qs.flatMap Piece.bytes = bytesOf s ∧
        .plain '"' ∉ qs) ∧ ∀ c ∈ (escape s).toList, IsPrintable c) ∧
      Function.Injective escape ∧
      ∀ (b : Bytecode) (a : Assembly), b.lower = .ok a → ∀ (p : Platform) (comments : Bool),
        (a.stringLines p comments).length = b.literals.length ∧ ∀ i j : Nat,
          (a.stringLines p comments)[i]? = (a.stringLines p comments)[j]? →
            b.literals[i]? = b.literals[j]? := by
  refine ⟨fun s => ⟨?_, isPrintable_escape s⟩, escape_injective, fun b a h p comments => ?_⟩
  · rw [toList_escape]
    exact pieces?_flatMap (bytesOf s)
  · rw [Lowering.stringLines_lower h, List.length_map]
    refine ⟨rfl, fun i j same => ?_⟩
    rw [List.getElem?_map, List.getElem?_map] at same
    exact Option.map_injective stringLine_injective same

/-- A program with literals whose written forms begin alike. -/
def quoting : Bytecode where
  routines := [⟨⟨"main", 0⟩, [], #[.returnZero], false⟩]
  entry := ⟨"main", 0⟩
  literals := ["\\\"\n1é", "\\\"\n\x011"]
  exceptions := []

theorem escape_lossless_quoting :
    ∃ a, quoting.lower = .ok a ∧ quoting.literals[0]? ≠ quoting.literals[1]? ∧
      (a.stringLines .unix true)[0]? ≠ (a.stringLines .unix true)[1]? := by
  have accepted : quoting.lower.toOption.isSome = true := by decide +kernel
  have other : quoting.literals[0]? ≠ quoting.literals[1]? := by decide
  cases h : quoting.lower with
  | error e =>
    rw [h] at accepted
    cases accepted
  | ok a =>
    have lines := (escape_lossless.2.2 quoting a h .unix true).2 0 1
    exact ⟨a, rfl, other, fun same => other (lines same)⟩

end Threefold.X86
