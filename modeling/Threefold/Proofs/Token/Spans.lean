import Mathlib.Data.List.TakeWhile
import Threefold.Proofs.Token.Lexing

/-!
# The spans of tokens

Every character of a text has a position, the one that is reached by reading it (`Position.placed`). As
long as no number wraps around, these positions come one behind the other (`Position.Room`). Then a span
stands for the characters whose positions lie in it (`Location.cut`), whatever lines they are on.

* `room_of_countable` says that there is room for a text whose lines, and the characters of each, a word
  can count.
* `Spanned` says which tokens a text has, and what their spans are. It is what the reading of tokens
  comes to (`spanned_of_readFrom`).
* `Spanned.apart` and `Spanned.blank` say that the spans follow each other and leave out only blanks,
  and `Spanned.cut` that each of them stands for the characters from which its token was read.
* A lexeme is read from its own characters as it is from the text that begins with them (`read_chars`).
* `ofSource_faithful` is about whole texts.
-/

namespace Threefold

/-! ## Positions -/

namespace Position

variable {p q r : Position}

theorem before.trans (h : p.before q) (h' : q.before r) : p.before r := by
  unfold before at *
  omega

theorem before.asymm (h : p.before q) : ¬ q.before p := by
  unfold before at *
  omega

theorem not_before_self (p : Position) : ¬ p.before p :=
  fun h => h.asymm h

theorem before.trans_not (h : p.before q) (h' : ¬ r.before q) : p.before r := by
  unfold before at *
  omega

theorem before.of_not (h : ¬ q.before p) (h' : q.before r) : p.before r := by
  unfold before at *
  omega

theorem next_of_lt {n : Int} (nonneg : 0 ≤ n) (lt : n + 1 < 2 ^ 31) : next n = n + 1 := by
  rw [next, Int32.size, Int.bmod_def]
  omega

/-- A text can be read from a position without any number wrapping around: every character stands behind
the one before it. -/
def Room (p : Position) : List Char → Prop
  | [] => True
  | c :: cs => p.before (p.after c) ∧ Room (p.after c) cs

/-- The characters of a text that is read from a position on, each at the position that is reached by
reading it. -/
def placed (p : Position) : List Char → List (Position × Char)
  | [] => []
  | c :: cs => (p.after c, c) :: placed (p.after c) cs

theorem afterAll_cons (p : Position) (c : Char) (cs : List Char) :
    p.afterAll (c :: cs) = (p.after c).afterAll cs := rfl

theorem afterAll_append (p : Position) (cs ds : List Char) :
    p.afterAll (cs ++ ds) = (p.afterAll cs).afterAll ds :=
  List.foldl_append

theorem placed_append (p : Position) (cs ds : List Char) :
    placed p (cs ++ ds) = placed p cs ++ placed (p.afterAll cs) ds := by
  induction cs generalizing p with
  | nil => rfl
  | cons c cs ih => rw [List.cons_append, placed, placed, ih, List.cons_append, afterAll_cons]

theorem map_snd_placed (p : Position) (cs : List Char) : (placed p cs).map Prod.snd = cs := by
  induction cs generalizing p with
  | nil => rfl
  | cons c cs ih => rw [placed, List.map_cons, ih]

theorem room_append {cs ds : List Char} :
    p.Room (cs ++ ds) ↔ p.Room cs ∧ (p.afterAll cs).Room ds := by
  induction cs generalizing p with
  | nil => exact (and_iff_right trivial).symm
  | cons c cs ih => rw [List.cons_append, Room, Room, ih, and_assoc, afterAll_cons]

/-- The characters of a text stand behind the position from which it is read. -/
theorem before_of_mem_placed {x : Position × Char} {cs : List Char} (room : p.Room cs)
    (h : x ∈ placed p cs) : p.before x.1 := by
  induction cs generalizing p with
  | nil => cases h
  | cons c cs ih =>
    obtain rfl | h := List.mem_cons.mp h
    · exact room.1
    · exact room.1.trans (ih room.2 h)

/-- No character of a text stands in front of the first one. -/
theorem not_before_after {x : Position × Char} {c : Char} {cs : List Char} (room : p.Room (c :: cs))
    (h : x ∈ placed p (c :: cs)) : ¬ x.1.before (p.after c) := by
  obtain rfl | h := List.mem_cons.mp h
  · exact fun self => self.asymm self
  · exact (before_of_mem_placed room.2 h).asymm

/-- No character of a text stands behind the position to which the text leads. -/
theorem not_afterAll_before {x : Position × Char} {cs : List Char} (room : p.Room cs)
    (h : x ∈ placed p cs) : ¬ (p.afterAll cs).before x.1 := by
  induction cs generalizing p x with
  | nil => cases h
  | cons c cs ih =>
    obtain rfl | h := List.mem_cons.mp h
    · rw [afterAll_cons]
      cases cs with
      | nil => exact not_before_self _
      | cons d cs =>
        have next : ((p.after c).after d, d) ∈ placed (p.after c) (d :: cs) := List.mem_cons_self
        exact fun early => ih room.2 next (early.trans room.2.1)
    · exact ih room.2 h

/-- A text does not lead back. -/
theorem not_afterAll_before_after {c : Char} {cs : List Char} (room : p.Room (c :: cs)) :
    ¬ (p.afterAll (c :: cs)).before (p.after c) :=
  not_afterAll_before (x := (p.after c, c)) room List.mem_cons_self

/-! ## Texts that can be counted -/

/-- The lines of a text, and the characters of each, can be counted in words. -/
structure Countable (cs : List Char) : Prop where
  lines : cs.count '\n' < 2 ^ 31
  columns : ∀ l, l <:+: cs → '\n' ∉ l → l.length < 2 ^ 31

theorem countable_of_length {cs : List Char} (lt : cs.length < 2 ^ 31) : Countable cs :=
  ⟨Nat.lt_of_le_of_lt List.count_le_length lt,
    fun _ part _ => Nat.lt_of_le_of_lt part.length_le lt⟩

/-- What is left of a line can be read if a word can count the line and the lines that are left. -/
theorem room_of_line {cs : List Char} (line : List Char) (p : Position)
    (column : p.column = line.length)
    (plain : '\n' ∉ line) (nonneg : 0 ≤ p.line) (lines : p.line + cs.count '\n' < 2 ^ 31)
    (columns : ∀ l, l <:+: line ++ cs → '\n' ∉ l → l.length < 2 ^ 31) : p.Room cs := by
  induction cs generalizing line p with
  | nil => trivial
  | cons c cs ih =>
    by_cases ends : c = '\n'
    · subst ends
      rw [List.count_cons_self] at lines
      have next := next_of_lt nonneg (by omega)
      have after : p.after '\n' = ⟨p.line + 1, 0⟩ := by rw [after, if_pos rfl, next]
      rw [Room, after]
      refine ⟨.inl (Int.lt_succ _), ih [] ⟨p.line + 1, 0⟩ rfl List.not_mem_nil ?_ ?_ ?_⟩
      · exact Int.le_add_one nonneg
      · simp only
        omega
      · intro l part
        refine columns l (part.trans ?_)
        exact (List.suffix_append (line ++ ['\n']) cs).isInfix.trans (by simp)
    · have line' : '\n' ∉ line ++ [c] := by simp [plain, Ne.symm ends]
      have whole : line ++ [c] ++ cs = line ++ c :: cs := by simp
      have lt := columns (line ++ [c]) (whole ▸ List.infix_append' [] (line ++ [c]) cs) line'
      rw [List.length_append, List.length_singleton] at lt
      have next := next_of_lt (n := p.column) (by omega) (by omega)
      have after : p.after c = ⟨p.line, p.column + 1⟩ := by rw [after, if_neg ends, next]
      rw [Room, after]
      refine ⟨.inr ⟨rfl, Int.lt_succ _⟩, ih (line ++ [c]) _ ?_ line' nonneg ?_ ?_⟩
      · simp [column]
      · rwa [List.count_cons_of_ne ends] at lines
      · rwa [whole]

theorem room_of_countable {cs : List Char} (countable : Countable cs) : origin.Room cs := by
  have lines := countable.lines
  refine room_of_line [] origin rfl List.not_mem_nil (Int.le_refl 0) ?_ countable.columns
  simp only [origin]
  omega

end Position

namespace Location

/-- A position lies in a span, both ends included. -/
def Covers (l : Location) (p : Position) : Prop :=
  ¬ p.before l.start ∧ ¬ l.stop.before p

instance (l : Location) (p : Position) : Decidable (l.Covers p) :=
  inferInstanceAs (Decidable (_ ∧ _))

/-- Of a text that is read from a position on, the characters whose positions lie in a span. -/
def cutFrom (l : Location) (p : Position) (cs : List Char) : List Char :=
  ((Position.placed p cs).filter fun x => l.Covers x.1).map Prod.snd

/-- The characters of a source text whose positions lie in a span. -/
def cut (l : Location) (source : String) : String :=
  String.ofList (l.cutFrom .origin source.toList)

theorem cutFrom_append (l : Location) (p : Position) (cs ds : List Char) :
    l.cutFrom p (cs ++ ds) = l.cutFrom p cs ++ l.cutFrom (p.afterAll cs) ds := by
  rw [cutFrom, Position.placed_append, List.filter_append, List.map_append]
  rfl

variable {l : Location} {p : Position}

/-- A span that begins behind a text has none of its characters. -/
theorem cutFrom_of_before {cs : List Char} (room : p.Room cs)
    (h : (p.afterAll cs).before l.start) : l.cutFrom p cs = [] := by
  have none : (Position.placed p cs).filter (fun x => l.Covers x.1) = [] := by
    rw [List.filter_eq_nil_iff]
    intro x hx covers
    exact (of_decide_eq_true covers).1 (.of_not (Position.not_afterAll_before room hx) h)
  rw [cutFrom, none, List.map_nil]

/-- A span that ends before a text begins has none of its characters. -/
theorem cutFrom_of_stop {cs : List Char} (room : p.Room cs) (h : l.stop = p) :
    l.cutFrom p cs = [] := by
  have none : (Position.placed p cs).filter (fun x => l.Covers x.1) = [] := by
    rw [List.filter_eq_nil_iff]
    intro x hx covers
    exact (of_decide_eq_true covers).2 (h ▸ Position.before_of_mem_placed room hx)
  rw [cutFrom, none, List.map_nil]

/-- The span from the first character of a text to the last one has all of them. -/
theorem cutFrom_all {c : Char} {cs : List Char} (room : p.Room (c :: cs))
    (start : l.start = p.after c) (stop : l.stop = p.afterAll (c :: cs)) :
    l.cutFrom p (c :: cs) = c :: cs := by
  have all : (Position.placed p (c :: cs)).filter (fun x => l.Covers x.1) =
      Position.placed p (c :: cs) := by
    rw [List.filter_eq_self]
    intro x hx
    refine decide_eq_true ⟨?_, ?_⟩
    · rw [start]
      exact Position.not_before_after room hx
    · rw [stop]
      exact Position.not_afterAll_before room hx
  rw [cutFrom, all, Position.map_snd_placed]

end Location

namespace Token

/-! ## A lexeme on its own -/

theorem exists_chars (c : Char) (cs : List Char) :
    ∃ ds, (Lexeme.read c cs).chars = c :: ds := by
  have whole := Lexeme.chars_append_rest c cs
  cases chars : (Lexeme.read c cs).chars with
  | nil => exact absurd chars (Lexeme.chars_ne_nil c cs)
  | cons d ds =>
    rw [chars, List.cons_append] at whole
    exact ⟨ds, by rw [(List.cons.inj whole).1]⟩

theorem dropWhile_takeWhile {p : Char → Bool} (cs : List Char) :
    (cs.takeWhile p).dropWhile p = [] :=
  List.dropWhile_eq_nil_iff.mpr (List.all_eq_true.mp List.all_takeWhile)

theorem read_character_chars {cs : List Char} {k : Kind}
    (h : (Lexeme.character cs).meaning = .ok k) :
    Lexeme.character (Lexeme.character cs).chars.tail = ⟨(Lexeme.character cs).chars, .ok k, []⟩ := by
  match cs with
  | [] => cases h
  | [x] => cases h
  | x :: y :: rest => exact congrArg (fun m => Lexeme.mk _ m []) h

/-- The characters of a string are its quotes and what stands between them. -/
theorem chars_of_string {cs : List Char} {k : Kind} (h : (Lexeme.string cs).meaning = .ok k) :
    ∃ s : String, k = .string s ∧ (Lexeme.string cs).chars = '"' :: (s.toList ++ ['"']) := by
  unfold Lexeme.string at h ⊢
  dsimp only at h ⊢
  split at h
  · cases h
  rename_i c rest closing
  dsimp only at h
  split at h
  · rename_i quotes
    cases h
    refine ⟨_, rfl, ?_⟩
    rw [quotes, String.toList_ofList]
    rfl
  · cases h

theorem read_string_chars {cs : List Char} {k : Kind} (h : (Lexeme.string cs).meaning = .ok k) :
    Lexeme.string (Lexeme.string cs).chars.tail = ⟨(Lexeme.string cs).chars, .ok k, []⟩ := by
  obtain ⟨s, rfl, chars⟩ := chars_of_string h
  rw [chars, List.tail_cons]
  exact read_quoted (wellSpelled_of_string h) []

theorem read_symbolic_chars {c : Char} {cs : List Char} {k : Kind}
    (h : (Lexeme.symbolic c cs).meaning = .ok k) :
    Lexeme.symbolic c (Lexeme.symbolic c cs).chars.tail =
      ⟨(Lexeme.symbolic c cs).chars, .ok k, []⟩ := by
  cases two : cs.head?.bind (Symbol.ofPair? c) with
  | some s =>
    obtain ⟨d, hd, pair⟩ := Option.bind_eq_some_iff.mp two
    obtain ⟨rest, rfl⟩ := List.head?_eq_some_iff.mp hd
    simp only [Lexeme.symbolic, two] at h ⊢
    simp only [List.take_succ_cons, List.take_zero, List.tail_cons, List.head?_cons,
      Option.bind_some, pair]
    exact congrArg (fun m => Lexeme.mk _ m []) h
  | none =>
    cases one : Symbol.ofChar? c with
    | none => simp [Lexeme.symbolic, two, one] at h
    | some s =>
      simp only [Lexeme.symbolic, two, one] at h ⊢
      simp only [List.tail_cons, List.head?_nil, Option.bind_none]
      exact congrArg (fun m => Lexeme.mk _ m []) h

/-- A lexeme is read from its own characters as it is from a text that begins with them. -/
theorem read_chars {c : Char} {cs : List Char} {k : Kind} (h : (Lexeme.read c cs).meaning = .ok k) :
    Lexeme.read c (Lexeme.read c cs).chars.tail = ⟨(Lexeme.read c cs).chars, .ok k, []⟩ := by
  rcases first_cases c with rfl | rfl | digit | letter | symbol
  · exact read_character_chars h
  · exact read_string_chars h
  · rw [read_digit digit] at h ⊢
    rw [read_digit digit, List.tail_cons, List.takeWhile_idem, dropWhile_takeWhile]
    exact congrArg (fun m => Lexeme.mk _ m []) h
  · rw [read_letter letter] at h ⊢
    rw [read_letter letter, List.tail_cons, List.takeWhile_idem, dropWhile_takeWhile]
    exact congrArg (fun m => Lexeme.mk _ m []) h
  · rw [symbol] at h ⊢
    rw [symbol]
    exact read_symbolic_chars h

/-- The characters of a lexeme are a text with this token alone. -/
theorem lexed_chars {c : Char} {cs : List Char} {k : Kind} (hc : Text.isBlank c = false)
    (h : (Lexeme.read c cs).meaning = .ok k) : Lexed (Lexeme.read c cs).chars [k] := by
  have alone := read_chars h
  obtain ⟨ds, chars⟩ := exists_chars c cs
  rw [chars, List.tail_cons] at alone
  rw [chars]
  refine .lexeme hc ?_ ?_
  · rw [alone]
  · rw [alone]
    exact .nil

/-! ## Tokens with their spans -/

/-- A text that is read from a position on has some tokens, with their spans. -/
inductive Spanned (file : String) : Position → List Char → List Token → Prop
  | nil {p : Position} : Spanned file p [] []
  | blank {p : Position} {c : Char} {cs : List Char} {ts : List Token} :
    Text.isBlank c = true → Spanned file (p.after c) cs ts → Spanned file p (c :: cs) ts
  | lexeme {p : Position} {c : Char} {cs : List Char} {k : Kind} {ts : List Token} :
    Text.isBlank c = false → (Lexeme.read c cs).meaning = .ok k →
      Spanned file (p.afterAll (Lexeme.read c cs).chars) (Lexeme.read c cs).rest ts →
      Spanned file p (c :: cs)
        (⟨k, ⟨file, p.after c, p.afterAll (Lexeme.read c cs).chars⟩⟩ :: ts)

/-- The tokens that are read have their spans, and the text ends where all of it leads to. -/
theorem spanned_of_readFrom {file : String} {cs : List Char} : ∀ {p : Position} {ts : Tokens},
    readFrom file p cs = .ok ts →
      Spanned file p cs ts.list ∧ ts.stop = ⟨file, p.afterAll cs, p.afterAll cs⟩ := by
  induction hn : cs.length using Nat.strongRecOn generalizing cs with
  | ind n ih =>
    subst hn
    intro p ts h
    match cs with
    | [] =>
      rw [readFrom_eq] at h
      cases h
      exact ⟨.nil, rfl⟩
    | c :: cs =>
      cases hc : Text.isBlank c with
      | true =>
        rw [readFrom_blank hc] at h
        obtain ⟨spanned, stop⟩ := ih _ (Nat.lt_succ_self _) rfl h
        exact ⟨.blank hc spanned, stop⟩
      | false =>
        rw [readFrom_lexeme hc] at h
        dsimp only at h
        split at h
        · cases h
        rename_i k meaning
        split at h
        · cases h
        rename_i ts' hts
        cases h
        have shorter := Lexeme.length_rest_le c cs
        obtain ⟨spanned, stop⟩ := ih _ (Nat.lt_succ_of_le shorter) rfl hts
        refine ⟨.lexeme hc meaning spanned, stop.trans ?_⟩
        rw [← Position.afterAll_append, Lexeme.chars_append_rest]

/-- Where there is room for a text, there is room for its first lexeme and for what comes after it. -/
theorem room_chars {p : Position} {c : Char} {cs : List Char} (room : p.Room (c :: cs)) :
    p.Room (Lexeme.read c cs).chars ∧
      (p.afterAll (Lexeme.read c cs).chars).Room (Lexeme.read c cs).rest := by
  rwa [← Position.room_append, Lexeme.chars_append_rest]

theorem before_afterAll_chars {p : Position} {c : Char} {cs : List Char} (room : p.Room (c :: cs)) :
    p.before (p.afterAll (Lexeme.read c cs).chars) := by
  have own := (room_chars room).1
  obtain ⟨ds, chars⟩ := exists_chars c cs
  rw [chars] at own ⊢
  exact own.1.trans_not (Position.not_afterAll_before_after own)

namespace Spanned

variable {file : String} {p : Position} {cs : List Char} {ts : List Token}

/-- Every span begins behind the position from which the text is read. -/
theorem before_start (h : Spanned file p cs ts) (room : p.Room cs) :
    ∀ t ∈ ts, p.before t.location.start := by
  induction h with
  | nil => nofun
  | blank _ _ ih => exact fun t ht => room.1.trans (ih room.2 t ht)
  | lexeme _ _ _ ih =>
    refine List.forall_mem_cons.mpr ⟨room.1, fun t ht => ?_⟩
    exact (before_afterAll_chars room).trans (ih (room_chars room).2 t ht)

/-- A span does not end before it begins. -/
theorem not_stop_before_start (h : Spanned file p cs ts) (room : p.Room cs) :
    ∀ t ∈ ts, ¬ t.location.stop.before t.location.start := by
  induction h with
  | nil => nofun
  | blank _ _ ih => exact ih room.2
  | @lexeme p c cs _ _ _ _ _ ih =>
    obtain ⟨own, rest⟩ := room_chars room
    refine List.forall_mem_cons.mpr ⟨?_, ih rest⟩
    obtain ⟨ds, chars⟩ := exists_chars c cs
    rw [chars] at own ⊢
    exact Position.not_afterAll_before_after own

/-- Every token ends before the ones behind it begin. -/
theorem apart (h : Spanned file p cs ts) (room : p.Room cs) :
    ts.Pairwise fun t u => t.location.stop.before u.location.start := by
  induction h with
  | nil => exact .nil
  | blank _ _ ih => exact ih room.2
  | lexeme _ _ spanned ih =>
    obtain ⟨-, rest⟩ := room_chars room
    exact .cons (spanned.before_start rest) (ih rest)

/-- Only blanks are in no span. -/
theorem blank_of_notCovered (h : Spanned file p cs ts) (room : p.Room cs) :
    ∀ x ∈ Position.placed p cs, (∀ t ∈ ts, ¬ t.location.Covers x.1) → Text.isBlank x.2 = true := by
  induction h with
  | nil => nofun
  | blank hc _ ih => exact List.forall_mem_cons.mpr ⟨fun _ => hc, ih room.2⟩
  | @lexeme p c cs k ts _ _ _ ih =>
    intro x hx out
    obtain ⟨own, rest⟩ := room_chars room
    obtain ⟨first, later⟩ := List.forall_mem_cons.mp out
    rw [← Lexeme.chars_append_rest c cs, Position.placed_append] at hx
    obtain hx | hx := List.mem_append.mp hx
    · obtain ⟨ds, chars⟩ := exists_chars c cs
      rw [chars] at hx first own
      exact absurd ⟨Position.not_before_after own hx, Position.not_afterAll_before own hx⟩ first
    · exact ih rest x hx later

/-- A token is read from the characters for which its span stands. -/
theorem read_cut (h : Spanned file p cs ts) (room : p.Room cs) :
    ∀ t ∈ ts, ∃ c ds, Text.isBlank c = false ∧ (Lexeme.read c ds).meaning = .ok t.kind ∧
      t.location.cutFrom p cs = (Lexeme.read c ds).chars := by
  induction h with
  | nil => nofun
  | @blank p c cs ts _ spanned ih =>
    intro t ht
    obtain ⟨d, ds, hd, meaning, own⟩ := ih room.2 t ht
    refine ⟨d, ds, hd, meaning, ?_⟩
    have front : t.location.cutFrom p [c] = [] :=
      Location.cutFrom_of_before ⟨room.1, trivial⟩ (spanned.before_start room.2 t ht)
    rw [← own, ← List.singleton_append, Location.cutFrom_append, front]
    rfl
  | @lexeme p c cs k ts hc meaning spanned ih =>
    obtain ⟨own, rest⟩ := room_chars room
    have split (l : Location) : l.cutFrom p (c :: cs) = l.cutFrom p (Lexeme.read c cs).chars ++
        l.cutFrom (p.afterAll (Lexeme.read c cs).chars) (Lexeme.read c cs).rest := by
      rw [← Location.cutFrom_append, Lexeme.chars_append_rest]
    refine List.forall_mem_cons.mpr ⟨⟨c, cs, hc, meaning, ?_⟩, fun t ht => ?_⟩
    · rw [split, Location.cutFrom_of_stop rest rfl, List.append_nil]
      obtain ⟨ds, chars⟩ := exists_chars c cs
      rw [chars] at own ⊢
      exact Location.cutFrom_all own rfl rfl
    · obtain ⟨d, ds, hd, meaning, cut⟩ := ih rest t ht
      refine ⟨d, ds, hd, meaning, ?_⟩
      rw [split, Location.cutFrom_of_before own (spanned.before_start rest t ht), List.nil_append,
        cut]

/-- The characters for which a span stands are a text with this token alone. -/
theorem lexed_cut (h : Spanned file p cs ts) (room : p.Room cs) :
    ∀ t ∈ ts, Lexed (t.location.cutFrom p cs) [t.kind] := by
  intro t ht
  obtain ⟨c, ds, hc, meaning, own⟩ := h.read_cut room t ht
  rw [own]
  exact lexed_chars hc meaning

end Spanned

end Token

/-! ## Whole texts -/

/-- The spans of the tokens of a text say where the tokens are. -/
structure Tokens.Faithful (source : String) (ts : Tokens) : Prop where
  /-- No span ends before it begins. -/
  upright : ∀ t ∈ ts.list, ¬ t.location.stop.before t.location.start
  /-- A span ends before the ones behind it begin. -/
  apart : ts.list.Pairwise fun t u => t.location.stop.before u.location.start
  /-- The text ends behind its last character, at the position that is reached by reading it. -/
  stop : ts.stop.start = Position.origin.afterAll source.toList ∧ ts.stop.stop = ts.stop.start
  /-- What is in no span is blank. -/
  blank : ∀ x ∈ Position.placed .origin source.toList,
    (∀ t ∈ ts.list, ¬ t.location.Covers x.1) → Text.isBlank x.2 = true
  /-- What is in a span is a text that has this token and no other one. -/
  alone : ∀ t ∈ ts.list, ∀ file, ∃ ts', Tokens.ofSource file (t.location.cut source) = .ok ts' ∧
    ts'.kinds = [t.kind]

namespace Token

/-- The spans of the tokens of a text are one behind the other, they leave out nothing but blanks, and
each of them stands for characters that are read as its token alone, as long as the text has fewer than
`2 ^ 31` line breaks and fewer than `2 ^ 31` characters in each line: the numbers of places are words. -/
theorem ofSource_faithful {file source : String} {ts : Tokens}
    (h : Tokens.ofSource file source = .ok ts) (countable : Position.Countable source.toList) :
    ts.Faithful source := by
  obtain ⟨spanned, stop⟩ := spanned_of_readFrom h
  have room := Position.room_of_countable countable
  refine ⟨spanned.not_stop_before_start room, spanned.apart room, ?_,
    spanned.blank_of_notCovered room, ?_⟩
  · rw [stop]
    exact ⟨rfl, rfl⟩
  · intro t ht file'
    have lexed := spanned.lexed_cut room t ht
    exact lexed_iff.mp (by rwa [Location.cut, String.toList_ofList])

/-- A text with a character that is a line feed, and with blanks in a string. -/
def scattered : String :=
  " x:=\n  '\n'<=007;\t\" a  b \"\n\n"

theorem ofSource_faithful_scattered :
    ∃ ts, Tokens.ofSource "scattered" scattered = .ok ts ∧ ts.list.length = 7 ∧
      ts.Faithful scattered := by
  have accepted : (Tokens.ofSource "scattered" scattered).toOption.map (·.list.length) = some 7 := by
    decide +kernel
  cases h : Tokens.ofSource "scattered" scattered with
  | error e =>
    rw [h] at accepted
    cases accepted
  | ok ts =>
    rw [h] at accepted
    have countable : Position.Countable scattered.toList :=
      Position.countable_of_length (by decide +kernel)
    exact ⟨ts, rfl, Option.some.inj accepted, ofSource_faithful h countable⟩

end Token

end Threefold
