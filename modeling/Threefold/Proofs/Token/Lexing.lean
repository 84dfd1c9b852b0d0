import Threefold.Proofs.Program.Grammar
import Threefold.Token.Lexer

/-!
# Texts and the tokens in them

`Lexed` says which tokens a text has, whatever their places: blanks mean nothing, and anything else
begins a lexeme. It is what the reading of tokens comes to (`lexed_iff`).

* The tokens of a text are spelled as tokens can be (`Lexed.wellSpelled`).
* The written form of such a token is read as this token, if nothing stands behind it that would
  have gone on with it (`lexed_text`).
* Blanks at the end of a text are of no account (`Lexed.trimEnd`).
* Tokens are read back from their written forms with spaces between them (`ofSource_spaced`).
-/

namespace Threefold.Token

/-! ## The tokens of a text -/

/-- A text has tokens of some kinds. -/
inductive Lexed : List Char → List Kind → Prop
  | nil : Lexed [] []
  | blank {c : Char} {cs : List Char} {ks : List Kind} :
    Text.isBlank c = true → Lexed cs ks → Lexed (c :: cs) ks
  | lexeme {c : Char} {cs : List Char} {k : Kind} {ks : List Kind} :
    Text.isBlank c = false → (Lexeme.read c cs).meaning = .ok k →
      Lexed (Lexeme.read c cs).rest ks → Lexed (c :: cs) (k :: ks)

section Reading

variable {file : String} {p : Position} {c : Char} {cs : List Char}

/-- The tokens behind the blanks in front of a text. -/
theorem readFrom_eq : readFrom file p cs =
    let start := p.afterAll (cs.takeWhile Text.isBlank)
    match cs.dropWhile Text.isBlank with
    | [] => .ok ⟨[], ⟨file, start, start⟩⟩
    | c :: rest =>
      let stop := start.afterAll (Lexeme.read c rest).chars
      match (Lexeme.read c rest).meaning with
      | .error e => .error ⟨e, ⟨file, start.after c, stop⟩⟩
      | .ok kind =>
        match readFrom file stop (Lexeme.read c rest).rest with
        | .error e => .error e
        | .ok ts => .ok { ts with list := ⟨kind, ⟨file, start.after c, stop⟩⟩ :: ts.list } := by
  rw [readFrom.eq_def]
  dsimp only
  split
  all_goals
    rename_i h
    revert h
    generalize cs.dropWhile Text.isBlank = behind
    rintro rfl
    rfl

theorem readFrom_blank (h : Text.isBlank c = true) :
    readFrom file p (c :: cs) = readFrom file (p.after c) cs := by
  rw [readFrom_eq, readFrom_eq]
  simp only [List.takeWhile_cons, h, if_true, List.dropWhile_cons, Position.afterAll,
    List.foldl_cons]

/-- What is read at a lexeme, and behind it. -/
theorem readFrom_lexeme (h : Text.isBlank c = false) :
    readFrom file p (c :: cs) =
      let stop := p.afterAll (Lexeme.read c cs).chars
      match (Lexeme.read c cs).meaning with
      | .error e => .error ⟨e, ⟨file, p.after c, stop⟩⟩
      | .ok kind =>
        match readFrom file stop (Lexeme.read c cs).rest with
        | .error e => .error e
        | .ok ts => .ok { ts with list := ⟨kind, ⟨file, p.after c, stop⟩⟩ :: ts.list } := by
  rw [readFrom_eq]
  simp only [List.takeWhile_cons, h, Bool.false_eq_true, if_false, List.dropWhile_cons,
    Position.afterAll, List.foldl_nil]

end Reading

theorem exists_of_lexed {file : String} {cs : List Char} {ks : List Kind} (h : Lexed cs ks) :
    ∀ p, ∃ ts, readFrom file p cs = .ok ts ∧ ts.kinds = ks := by
  induction h with
  | nil =>
    intro p
    rw [readFrom_eq]
    exact ⟨_, rfl, rfl⟩
  | blank hc _ ih =>
    intro p
    rw [readFrom_blank hc]
    exact ih _
  | @lexeme c cs k ks hc meaning _ ih =>
    intro p
    obtain ⟨ts, hts, rfl⟩ := ih (p.afterAll (Lexeme.read c cs).chars)
    rw [readFrom_lexeme hc, meaning]
    dsimp only
    rw [hts]
    exact ⟨_, rfl, rfl⟩

theorem lexed_of_readFrom {file : String} {cs : List Char} : ∀ {p : Position} {ts : Tokens},
    readFrom file p cs = .ok ts → Lexed cs ts.kinds := by
  induction hn : cs.length using Nat.strongRecOn generalizing cs with
  | ind n ih =>
    subst hn
    intro p ts h
    match cs with
    | [] =>
      rw [readFrom_eq] at h
      cases h
      exact .nil
    | c :: cs =>
      cases hc : Text.isBlank c with
      | true =>
        rw [readFrom_blank hc] at h
        exact .blank hc (ih _ (Nat.lt_succ_self _) rfl h)
      | false =>
        rw [readFrom_lexeme hc] at h
        dsimp only at h
        split at h
        · cases h
        · rename_i k meaning
          split at h
          · cases h
          · rename_i ts' hts
            cases h
            have shorter := Lexeme.length_rest_le c cs
            exact .lexeme hc meaning (ih _ (Nat.lt_succ_of_le shorter) rfl hts)

/-- The tokens of a file are those of its text. -/
theorem lexed_iff {file source : String} {ks : List Kind} :
    Lexed source.toList ks ↔ ∃ ts, Tokens.ofSource file source = .ok ts ∧ ts.kinds = ks := by
  refine ⟨fun h => exists_of_lexed h _, ?_⟩
  rintro ⟨ts, h, rfl⟩
  exact lexed_of_readFrom h

/-! ## The lexeme that a character begins -/

theorem isAlpha_iff {c : Char} : c.isAlpha = true ↔
    (65 ≤ c.toNat ∧ c.toNat ≤ 90) ∨ (97 ≤ c.toNat ∧ c.toNat ≤ 122) := by
  change (decide (_ ∧ _) || (decide _ && decide _)) = true ↔ _
  rw [Bool.or_eq_true, Bool.and_eq_true, decide_eq_true_eq, decide_eq_true_eq, decide_eq_true_eq]
  rfl

theorem isDigit_iff {c : Char} : c.isDigit = true ↔ 48 ≤ c.toNat ∧ c.toNat ≤ 57 := by
  change (decide _ && decide _) = true ↔ _
  rw [Bool.and_eq_true, decide_eq_true_eq, decide_eq_true_eq]
  rfl

theorem isDigit_of_isAlpha {c : Char} (h : c.isAlpha = true) : c.isDigit = false := by
  cases digit : c.isDigit with
  | false => rfl
  | true =>
    rw [isAlpha_iff] at h
    rw [isDigit_iff] at digit
    omega

theorem read_digit {c : Char} (h : c.isDigit = true) (cs : List Char) :
    Lexeme.read c cs = ⟨c :: cs.takeWhile Char.isDigit,
      Lexeme.ofDigits (c :: cs.takeWhile Char.isDigit), cs.dropWhile Char.isDigit⟩ := by
  have quote : c ≠ '\'' := by
    rintro rfl
    cases h
  have quotes : c ≠ '"' := by
    rintro rfl
    cases h
  rw [Lexeme.read, if_neg quote, if_neg quotes, if_pos h]

theorem read_letter {c : Char} (h : c.isAlpha = true) (cs : List Char) :
    Lexeme.read c cs = ⟨c :: cs.takeWhile isWordChar,
      .ok (Lexeme.ofWord (c :: cs.takeWhile isWordChar)), cs.dropWhile isWordChar⟩ := by
  have quote : c ≠ '\'' := by
    rintro rfl
    cases h
  have quotes : c ≠ '"' := by
    rintro rfl
    cases h
  rw [Lexeme.read, if_neg quote, if_neg quotes, isDigit_of_isAlpha h, if_neg Bool.false_ne_true,
    if_pos h]

/-- A lexeme begins with a quote, a digit or a letter, or it is a symbol if anything. -/
theorem first_cases (c : Char) : c = '\'' ∨ c = '"' ∨ c.isDigit = true ∨ c.isAlpha = true ∨
    ∀ cs, Lexeme.read c cs = Lexeme.symbolic c cs := by
  by_cases quote : c = '\''
  · exact .inl quote
  by_cases quotes : c = '"'
  · exact .inr (.inl quotes)
  cases digit : c.isDigit with
  | true => exact .inr (.inr (.inl rfl))
  | false =>
    cases letter : c.isAlpha with
    | true => exact .inr (.inr (.inr (.inl rfl)))
    | false =>
      refine .inr (.inr (.inr (.inr fun cs => ?_)))
      simp only [Lexeme.read, quote, quotes, digit, letter, Bool.false_eq_true, if_false]

/-! ## Blanks at the end -/

theorem isWordChar_of_isBlank {c : Char} (h : Text.isBlank c = true) : isWordChar c = false := by
  cases word : isWordChar c with
  | false => rfl
  | true =>
    have code : (((65 ≤ c.toNat ∧ c.toNat ≤ 90) ∨ (97 ≤ c.toNat ∧ c.toNat ≤ 122)) ∨
        (48 ≤ c.toNat ∧ c.toNat ≤ 57)) ∨ c.toNat = 95 := by
      rw [isWordChar, Bool.or_eq_true, beq_iff_eq] at word
      refine word.imp (fun h => ?_) (congrArg Char.toNat)
      exact (Bool.or_eq_true _ _).mp h |>.imp isAlpha_iff.mp isDigit_iff.mp
    simp only [Text.isBlank, Text.blankRanges, List.any_cons, List.any_nil, Bool.or_eq_true,
      Bool.and_eq_true, decide_eq_true_eq, Bool.false_eq_true, or_false] at h
    omega

theorem isDigit_of_isWordChar {c : Char} (h : isWordChar c = false) : c.isDigit = false := by
  simp only [isWordChar, Char.isAlphanum, Bool.or_eq_false_iff] at h
  exact h.1.2

theorem isDigit_of_isBlank {c : Char} (h : Text.isBlank c = true) : c.isDigit = false :=
  isDigit_of_isWordChar (isWordChar_of_isBlank h)

theorem ofPair?_of_isBlank {a b : Char} (h : Text.isBlank b = true) :
    Symbol.ofPair? a b = none := by
  unfold Symbol.ofPair?
  split <;> first | rfl | exact absurd h (by decide)

section Concat

variable {p : Char → Bool} {b : Char}

theorem takeWhile_concat (hb : p b = false) (cs : List Char) :
    (cs ++ [b]).takeWhile p = cs.takeWhile p := by
  induction cs with
  | nil => simp [hb]
  | cons c cs ih => simp only [List.cons_append, List.takeWhile_cons, ih]

theorem dropWhile_concat (hb : p b = false) (cs : List Char) :
    (cs ++ [b]).dropWhile p = cs.dropWhile p ++ [b] := by
  induction cs with
  | nil => simp [hb]
  | cons c cs ih =>
    simp only [List.cons_append, List.dropWhile_cons, ih]
    split <;> rfl

end Concat

theorem character_concat {b : Char} {cs : List Char} {k : Kind} (hb : Text.isBlank b = true)
    (h : (Lexeme.character (cs ++ [b])).meaning = .ok k) :
    (Lexeme.character cs).meaning = .ok k ∧
      (Lexeme.character (cs ++ [b])).rest = (Lexeme.character cs).rest ++ [b] := by
  match cs with
  | [] => cases h
  | [x] =>
    have quote : b ≠ '\'' := by
      rintro rfl
      exact absurd hb (by decide)
    simp [Lexeme.character, quote] at h
  | x :: y :: rest => exact ⟨h, rfl⟩

theorem string_concat {b : Char} {cs : List Char} {k : Kind} (hb : Text.isBlank b = true)
    (h : (Lexeme.string (cs ++ [b])).meaning = .ok k) :
    (Lexeme.string cs).meaning = .ok k ∧
      (Lexeme.string (cs ++ [b])).rest = (Lexeme.string cs).rest ++ [b] := by
  have quotes : b ≠ '"' := by
    rintro rfl
    exact absurd hb (by decide)
  simp only [Lexeme.string, List.takeWhile_append, List.dropWhile_append] at h ⊢
  cases closing : cs.dropWhile Lexeme.isStringChar with
  | nil =>
    rw [closing] at h
    cases inside : Lexeme.isStringChar b <;> simp [inside, quotes] at h
  | cons c rest =>
    have short : (cs.takeWhile Lexeme.isStringChar).length ≠ cs.length := by
      intro all
      have parts := congrArg List.length
        (List.takeWhile_append_dropWhile (p := Lexeme.isStringChar) (l := cs))
      rw [List.length_append, closing, all, List.length_cons] at parts
      omega
    rw [closing] at h
    simp only [short, if_false, List.isEmpty_cons, Bool.false_eq_true, List.cons_append] at h ⊢
    exact ⟨h, trivial⟩

theorem symbolic_concat {c b : Char} {cs : List Char} {k : Kind} (hb : Text.isBlank b = true)
    (h : (Lexeme.symbolic c (cs ++ [b])).meaning = .ok k) :
    (Lexeme.symbolic c cs).meaning = .ok k ∧
      (Lexeme.symbolic c (cs ++ [b])).rest = (Lexeme.symbolic c cs).rest ++ [b] := by
  unfold Lexeme.symbolic at h ⊢
  match cs with
  | [] =>
    simp only [List.nil_append, List.head?_cons, Option.bind_some, ofPair?_of_isBlank hb,
      List.head?_nil, Option.bind_none] at h ⊢
    cases one : Symbol.ofChar? c with
    | none => simp [one] at h
    | some s =>
      rw [one] at h
      exact ⟨h, rfl⟩
  | x :: rest =>
    simp only [List.cons_append, List.head?_cons, Option.bind_some] at h ⊢
    cases two : Symbol.ofPair? c x with
    | some s =>
      rw [two] at h
      exact ⟨h, rfl⟩
    | none =>
      rw [two] at h
      dsimp only at h ⊢
      cases one : Symbol.ofChar? c with
      | none => simp [one] at h
      | some s =>
        rw [one] at h
        exact ⟨h, rfl⟩

/-- A blank behind a text does not change its first lexeme. -/
theorem read_concat {c b : Char} {cs : List Char} {k : Kind} (hb : Text.isBlank b = true)
    (h : (Lexeme.read c (cs ++ [b])).meaning = .ok k) :
    (Lexeme.read c cs).meaning = .ok k ∧
      (Lexeme.read c (cs ++ [b])).rest = (Lexeme.read c cs).rest ++ [b] := by
  rcases first_cases c with rfl | rfl | digit | letter | symbol
  · exact character_concat hb h
  · exact string_concat hb h
  · rw [read_digit digit, takeWhile_concat (isDigit_of_isBlank hb)] at h
    rw [read_digit digit, read_digit digit]
    exact ⟨h, dropWhile_concat (isDigit_of_isBlank hb) cs⟩
  · rw [read_letter letter, takeWhile_concat (isWordChar_of_isBlank hb)] at h
    rw [read_letter letter, read_letter letter]
    exact ⟨h, dropWhile_concat (isWordChar_of_isBlank hb) cs⟩
  · rw [symbol] at h ⊢
    rw [symbol]
    exact symbolic_concat hb h

theorem Lexed.of_concat {cs : List Char} {b : Char} {ks : List Kind} (hb : Text.isBlank b = true)
    (h : Lexed (cs ++ [b]) ks) : Lexed cs ks := by
  generalize whole : cs ++ [b] = text at h
  induction h generalizing cs with
  | nil => simp at whole
  | blank hc rest ih =>
    match cs, whole with
    | [], whole =>
      cases whole
      exact rest
    | c :: cs, whole =>
      cases whole
      exact .blank hc (ih rfl)
  | lexeme hc meaning rest ih =>
    match cs, whole with
    | [], whole =>
      cases whole
      rw [hb] at hc
      cases hc
    | c :: cs, whole =>
      cases whole
      obtain ⟨meaning, behind⟩ := read_concat hb meaning
      exact .lexeme hc meaning (ih behind.symm)

/-- Blanks at the end of a text are of no account. -/
theorem Lexed.trimEnd {cs : List Char} {ks : List Kind} (h : Lexed cs ks) :
    Lexed (Text.trimEnd cs) ks := by
  have reversed : ∀ rs : List Char, Lexed rs.reverse ks →
      Lexed (rs.dropWhile Text.isBlank).reverse ks := by
    intro rs hrs
    induction rs with
    | nil => exact hrs
    | cons b rs ih =>
      rw [List.dropWhile_cons]
      split
      · rename_i hb
        rw [List.reverse_cons] at hrs
        exact ih (hrs.of_concat hb)
      · exact hrs
  exact reversed cs.reverse (by rwa [List.reverse_reverse])

/-! ## How tokens are spelled -/

/-- A letter, and then letters, digits and underscores, which do not make up a keyword. -/
def IsName (x : String) : Prop :=
  ∃ c cs, x.toList = c :: cs ∧ c.isAlpha = true ∧ (∀ d ∈ cs, isWordChar d = true) ∧
    Keyword.ofText? x = none

/-- A token that a text can have. -/
def Kind.WellSpelled : Kind → Prop
  | .integer n => n ≤ maxInteger
  | .string s => ∀ c ∈ s.toList, Lexeme.isStringChar c = true
  | .name x => IsName x
  | _ => True

theorem wellSpelled_of_string {cs : List Char} {k : Kind}
    (h : (Lexeme.string cs).meaning = .ok k) : k.WellSpelled := by
  unfold Lexeme.string at h
  dsimp only at h
  split at h
  · cases h
  · dsimp only at h
    split at h
    · cases h
      intro c hc
      rw [String.toList_ofList] at hc
      exact List.all_eq_true.mp List.all_takeWhile c hc
    · cases h

theorem wellSpelled_of_read {c : Char} {cs : List Char} {k : Kind}
    (h : (Lexeme.read c cs).meaning = .ok k) : k.WellSpelled := by
  rcases first_cases c with rfl | rfl | digit | letter | symbol
  · match cs with
    | [] => cases h
    | [x] => cases h
    | x :: y :: rest =>
      change (if y = '\'' then _ else _) = _ at h
      split at h
      · cases h
        trivial
      · cases h
  · exact wellSpelled_of_string h
  · rw [read_digit digit] at h
    dsimp only [Lexeme.ofDigits] at h
    split at h
    · cases h
      assumption
    · cases h
  · rw [read_letter letter] at h
    cases h
    unfold Lexeme.ofWord
    split
    · trivial
    · rename_i other
      refine ⟨c, _, String.toList_ofList, letter, ?_, other⟩
      exact List.all_eq_true.mp List.all_takeWhile
  · rw [symbol] at h
    unfold Lexeme.symbolic at h
    split at h
    · cases h
      trivial
    · split at h
      · cases h
        trivial
      · cases h

/-- The tokens of a text are spelled as tokens can be. -/
theorem Lexed.wellSpelled {cs : List Char} {ks : List Kind} (h : Lexed cs ks) :
    ∀ k ∈ ks, k.WellSpelled := by
  induction h with
  | nil => nofun
  | blank _ _ ih => exact ih
  | lexeme _ meaning _ ih => exact List.forall_mem_cons.mpr ⟨wellSpelled_of_read meaning, ih⟩

/-! ## Written forms -/

/-- What may stand behind the written form of a token. -/
def Kind.EndsAt : Kind → Option Char → Prop
  | .integer _, next => ∀ c ∈ next, c.isDigit = false
  | .name _, next | .keyword _, next => ∀ c ∈ next, isWordChar c = false
  | .symbol s, next => ∀ a, s.text.toList = [a] → ∀ c ∈ next, Symbol.ofPair? a c = none
  | _, _ => True

section Run

variable {p : Char → Bool} {cs rest : List Char}

/-- A run of characters ends where the first other one stands. -/
theorem takeWhile_run (h : ∀ c ∈ cs, p c = true) (hr : ∀ c ∈ rest.head?, p c = false) :
    (cs ++ rest).takeWhile p = cs := by
  rw [List.takeWhile_append_of_pos h]
  cases rest with
  | nil => rw [List.takeWhile_nil, List.append_nil]
  | cons c rest =>
    rw [List.takeWhile_cons, if_neg (by rw [hr c rfl]; exact Bool.false_ne_true), List.append_nil]

theorem dropWhile_run (h : ∀ c ∈ cs, p c = true) (hr : ∀ c ∈ rest.head?, p c = false) :
    (cs ++ rest).dropWhile p = rest := by
  rw [List.dropWhile_append_of_pos h]
  cases rest with
  | nil => rfl
  | cons c rest => rw [List.dropWhile_cons, if_neg (by rw [hr c rfl]; exact Bool.false_ne_true)]

end Run

theorem Keyword.ofText?_text (k : Keyword) : ofText? k.text = some k := by
  cases k <;> decide

theorem read_integer {n : Nat} (hn : n ≤ maxInteger) {rest : List Char}
    (ends : ∀ c ∈ rest.head?, c.isDigit = false) :
    ∃ c cs, (toString n).toList = c :: cs ∧ Text.isBlank c = false ∧
      Lexeme.read c (cs ++ rest) = ⟨c :: cs, .ok (.integer n), rest⟩ := by
  have digits : (toString n).toList = Nat.toDigits 10 n := by
    rw [Nat.toString_eq_ofList_toDigits, String.toList_ofList]
  obtain ⟨c, cs, split⟩ := List.exists_cons_of_ne_nil (Nat.toDigits_ne_nil (n := n) (b := 10))
  have all : ∀ d ∈ c :: cs, d.isDigit = true := by
    rw [← split]
    exact fun d hd => Nat.isDigit_of_mem_toDigits (by decide) (by decide) hd
  obtain ⟨first, later⟩ := List.forall_mem_cons.mp all
  have value : decimal (c :: cs) = n := by
    rw [← split]
    exact Nat.ofDigitChars_ten_toDigits
  refine ⟨c, cs, digits.trans split, ?_, ?_⟩
  · cases hb : Text.isBlank c with
    | false => rfl
    | true =>
      rw [isDigit_of_isBlank hb] at first
      cases first
  · rw [read_digit first, takeWhile_run later ends, dropWhile_run later ends, Lexeme.ofDigits,
      value, if_pos hn]

theorem read_word {c : Char} {cs rest : List Char} (letter : c.isAlpha = true)
    (all : ∀ d ∈ cs, isWordChar d = true) (ends : ∀ c ∈ rest.head?, isWordChar c = false) :
    Text.isBlank c = false ∧
      Lexeme.read c (cs ++ rest) = ⟨c :: cs, .ok (Lexeme.ofWord (c :: cs)), rest⟩ := by
  constructor
  · cases hb : Text.isBlank c with
    | false => rfl
    | true =>
      have no := isWordChar_of_isBlank hb
      rw [isWordChar, Char.isAlphanum, letter] at no
      cases no
  · rw [read_letter letter, takeWhile_run all ends, dropWhile_run all ends]

theorem read_keyword (k : Keyword) {rest : List Char}
    (ends : ∀ c ∈ rest.head?, isWordChar c = false) :
    ∃ c cs, k.text.toList = c :: cs ∧ Text.isBlank c = false ∧
      Lexeme.read c (cs ++ rest) = ⟨c :: cs, .ok (.keyword k), rest⟩ := by
  have letters : ∃ c cs, k.text.toList = c :: cs ∧ c.isAlpha = true ∧
      ∀ d ∈ cs, isWordChar d = true := by
    cases k <;> exact ⟨_, _, rfl, rfl, List.all_eq_true.mp rfl⟩
  obtain ⟨c, cs, text, letter, all⟩ := letters
  obtain ⟨blank, read⟩ := read_word letter all ends
  refine ⟨c, cs, text, blank, ?_⟩
  rw [read, Lexeme.ofWord, ← text, String.ofList_toList, Keyword.ofText?_text]

theorem read_name {x : String} (hx : IsName x) {rest : List Char}
    (ends : ∀ c ∈ rest.head?, isWordChar c = false) :
    ∃ c cs, x.toList = c :: cs ∧ Text.isBlank c = false ∧
      Lexeme.read c (cs ++ rest) = ⟨c :: cs, .ok (.name x), rest⟩ := by
  obtain ⟨c, cs, text, letter, all, other⟩ := hx
  obtain ⟨blank, read⟩ := read_word letter all ends
  refine ⟨c, cs, text, blank, ?_⟩
  rw [read, Lexeme.ofWord, ← text, String.ofList_toList, other]

theorem read_quoted {s : String} (hs : ∀ c ∈ s.toList, Lexeme.isStringChar c = true)
    (rest : List Char) :
    Lexeme.read '"' (s.toList ++ '"' :: rest) =
      ⟨'"' :: (s.toList ++ ['"']), .ok (.string s), rest⟩ := by
  have ends : ∀ c ∈ ('"' :: rest).head?, Lexeme.isStringChar c = false := by
    rintro c ⟨⟩
    rfl
  change Lexeme.string _ = _
  simp only [Lexeme.string, takeWhile_run hs ends, dropWhile_run hs ends, if_true,
    String.ofList_toList, List.cons_append]

/-- A symbol of one character, unless it is the first of two. -/
theorem read_single {a : Char} {s : Symbol} {rest : List Char}
    (plain : Lexeme.read a rest = Lexeme.symbolic a rest) (one : Symbol.ofChar? a = some s)
    (ends : ∀ c ∈ rest.head?, Symbol.ofPair? a c = none) :
    Lexeme.read a rest = ⟨[a], .ok (.symbol s), rest⟩ := by
  have none : rest.head?.bind (Symbol.ofPair? a) = none := by
    cases head : rest.head? with
    | none => rfl
    | some c => exact ends c head
  rw [plain, Lexeme.symbolic, none, one]

theorem read_symbol (s : Symbol) {rest : List Char}
    (ends : ∀ a, s.text.toList = [a] → ∀ c ∈ rest.head?, Symbol.ofPair? a c = none) :
    ∃ c cs, s.text.toList = c :: cs ∧ Text.isBlank c = false ∧
      Lexeme.read c (cs ++ rest) = ⟨c :: cs, .ok (.symbol s), rest⟩ := by
  cases s <;> first
    | exact ⟨_, [], rfl, by decide, read_single rfl rfl (ends _ rfl)⟩
    | exact ⟨_, [_], rfl, by decide, rfl⟩

/-- The written form of a token is read as this token. -/
theorem read_text {k : Kind} (hk : k.WellSpelled) {rest : List Char} (ends : k.EndsAt rest.head?) :
    ∃ c cs, k.text.toList = c :: cs ∧ Text.isBlank c = false ∧
      Lexeme.read c (cs ++ rest) = ⟨c :: cs, .ok k, rest⟩ := by
  cases k with
  | integer n => exact read_integer hk ends
  | character c =>
    refine ⟨'\'', [c, '\''], ?_, by decide, rfl⟩
    simp [Kind.text, Char.toString]
  | string s =>
    refine ⟨'"', s.toList ++ ['"'], ?_, by decide, ?_⟩
    · simp [Kind.text]
    · rw [List.append_assoc, List.singleton_append]
      exact read_quoted hk rest
  | name x => exact read_name hk ends
  | symbol s => exact read_symbol s ends
  | keyword k => exact read_keyword k ends

/-- A text that begins with the written form of a token has this token first, if nothing stands
behind it that would have gone on with it. -/
theorem lexed_text {k : Kind} (hk : k.WellSpelled) {rest : List Char} {ks : List Kind}
    (ends : k.EndsAt rest.head?) (h : Lexed rest ks) : Lexed (k.text.toList ++ rest) (k :: ks) := by
  obtain ⟨c, cs, text, blank, read⟩ := read_text hk ends
  rw [text, List.cons_append]
  refine .lexeme blank ?_ ?_
  · rw [read]
  · rw [read]
    exact h

/-! ## Tokens apart from each other -/

theorem Kind.endsAt_none (k : Kind) : k.EndsAt none := by
  cases k with
  | integer n => nofun
  | name x => nofun
  | keyword k => nofun
  | symbol s => nofun
  | character c => trivial
  | string s => trivial

/-- Every token ends at a blank. -/
theorem Kind.endsAt_of_isBlank {c : Char} (hc : Text.isBlank c = true) (k : Kind) :
    k.EndsAt (some c) := by
  cases k with
  | integer n =>
    rintro d ⟨⟩
    exact isDigit_of_isBlank hc
  | name x =>
    rintro d ⟨⟩
    exact isWordChar_of_isBlank hc
  | keyword k =>
    rintro d ⟨⟩
    exact isWordChar_of_isBlank hc
  | symbol s =>
    rintro a - d ⟨⟩
    exact ofPair?_of_isBlank hc
  | character c => trivial
  | string s => trivial

/-- The written forms of some tokens, with a space between any two of them. -/
def spaced (ks : List Kind) : String :=
  " ".intercalate (ks.map Kind.text)

theorem lexed_spaced : ∀ {ks : List Kind}, (∀ k ∈ ks, k.WellSpelled) → Lexed (spaced ks).toList ks
  | [], _ => .nil
  | [k], h => by
    have alone : Lexed (k.text.toList ++ []) [k] :=
      lexed_text (h k List.mem_cons_self) k.endsAt_none .nil
    rwa [List.append_nil] at alone
  | k :: l :: ks, h => by
    obtain ⟨first, later⟩ := List.forall_mem_cons.mp h
    have text :
        (spaced (k :: l :: ks)).toList = k.text.toList ++ ' ' :: (spaced (l :: ks)).toList := by
      rw [spaced, List.map_cons, List.map_cons, String.intercalate_cons_cons, String.toList_append,
        String.toList_append, List.append_assoc]
      rfl
    rw [text]
    exact lexed_text first (k.endsAt_of_isBlank (by decide)) (.blank (by decide) (lexed_spaced later))

/-- Tokens are read back from their written forms with spaces between them if they are spelled as
tokens can be, and otherwise they are not. So the tokens of any text are. -/
theorem ofSource_spaced (file : String) :
    (∀ ks : List Kind, (∃ ts, Tokens.ofSource file (spaced ks) = .ok ts ∧ ts.kinds = ks) ↔
      ∀ k ∈ ks, k.WellSpelled) ∧
    ∀ (file' source : String) (ts : Tokens), Tokens.ofSource file' source = .ok ts →
      ∃ ts', Tokens.ofSource file (spaced ts.kinds) = .ok ts' ∧ ts'.kinds = ts.kinds := by
  constructor
  · intro ks
    rw [← lexed_iff]
    exact ⟨Lexed.wellSpelled, lexed_spaced⟩
  · intro file' source ts h
    have lexed : Lexed source.toList ts.kinds := lexed_iff.mpr ⟨ts, h, rfl⟩
    exact lexed_iff.mp (lexed_spaced lexed.wellSpelled)

/-- A text whose tokens stand as close as they can. -/
def crowded : String :=
  "fun_1:=!!=!!!iffy<=\"a:=  b\"'''007"

theorem ofSource_spaced_crowded :
    ∃ ts, Tokens.ofSource "crowded" crowded = .ok ts ∧
      ∃ ts', Tokens.ofSource "spaced" (spaced ts.kinds) = .ok ts' ∧ ts'.kinds = ts.kinds := by
  have accepted : (Tokens.ofSource "crowded" crowded).isOk = true := by decide +kernel
  cases h : Tokens.ofSource "crowded" crowded with
  | error e =>
    rw [h] at accepted
    cases accepted
  | ok ts => exact ⟨ts, rfl, (ofSource_spaced "spaced").2 "crowded" crowded ts h⟩

end Threefold.Token
