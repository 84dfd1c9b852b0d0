import Threefold.Report
import Threefold.Text.Blank
import Threefold.Token

/-!
# Reading tokens

`Lexeme.read` cuts the first token off a text that does not start with a blank: the characters it
takes, what they mean or why they mean nothing, and the characters it leaves. The longest symbol
wins, a word runs as far as letters, digits and underscores go, and a string ends with its line.
Places play no part in it. `tokens` skips blanks and reads one lexeme after the other, and turns
the characters of each into a span; it stops at the first lexeme that means nothing.
-/

namespace Threefold

namespace Token

/-- Why a piece of text is not a token. -/
inductive Malformed
  | loneAmpersand
  | loneColon
  | unterminatedCharacter
  | overlongCharacter
  | unterminatedString
  | integerTooLarge (digits : String)
  | unexpected (c : Char)
  deriving DecidableEq, Repr

namespace Malformed

/-- What is said about a piece of text that is not a token. -/
def message : Malformed → String
  | loneAmpersand => "Expected '&&', found a single '&'"
  | loneColon => "Expected ':=', found a single ':'"
  | unterminatedCharacter => "Unterminated char literal"
  | overlongCharacter => "Char literals hold exactly one character"
  | unterminatedString => "Unterminated string literal"
  | integerTooLarge digits => "Integer literal " ++ digits ++ " is too large"
  | unexpected c => "Unexpected character '" ++ c.toString ++ "'"

/-- The advice that goes with the message. -/
def notes : Malformed → List Report.Note
  | loneAmpersand => [(.suggestion, "Logical and is written '&&'")]
  | overlongCharacter => [(.suggestion, "Use a string literal for longer text")]
  | _ => []

/-- The report on a piece of text at a place. -/
def report (e : Located Malformed) : Report :=
  ⟨.syntactic, e.value.message, e.location, e.value.notes⟩

end Malformed

/-- The symbol written with two given characters. -/
def Symbol.ofPair? : Char → Char → Option Symbol
  | '!', '!' => some .or
  | '!', '=' => some .notEqual
  | '&', '&' => some .and
  | ':', '=' => some .assign
  | '=', '=' => some .equal
  | '<', '=' => some .lessEqual
  | '>', '=' => some .greaterEqual
  | _, _ => none

/-- The symbol written with one given character. -/
def Symbol.ofChar? : Char → Option Symbol
  | '(' => some .openParen
  | ')' => some .closeParen
  | '[' => some .openSquare
  | ']' => some .closeSquare
  | '\x7b' => some .openCurly
  | '\x7d' => some .closeCurly
  | ',' => some .comma
  | ';' => some .semicolon
  | '+' => some .plus
  | '-' => some .minus
  | '*' => some .times
  | '/' => some .divide
  | '%' => some .remainder
  | '!' => some .not
  | '=' => some .assign
  | '<' => some .less
  | '>' => some .greater
  | _ => none

/-- Whether a character can stand inside a name. Names are ASCII. -/
def isWordChar (c : Char) : Bool :=
  c.isAlphanum || c == '_'

/-- The number that a run of decimal digits denotes. -/
def decimal (digits : List Char) : Nat :=
  digits.foldl (fun n c => 10 * n + (c.toNat - '0'.toNat)) 0

/-- The largest integer that can be written. -/
def maxInteger : Nat := 0xFFFFFFFF

/-- The first token of a text: its characters, what they mean, and the text behind them. -/
structure Lexeme where
  chars : List Char
  meaning : Except Malformed Kind
  rest : List Char

namespace Lexeme

/-- The token that a run of digits is. -/
def ofDigits (digits : List Char) : Except Malformed Kind :=
  if decimal digits ≤ maxInteger then .ok (.integer (decimal digits))
  else .error (.integerTooLarge (String.ofList digits))

/-- The token that a word is. -/
def ofWord (word : List Char) : Kind :=
  match Keyword.ofText? (String.ofList word) with
  | some k => .keyword k
  | none => .name (String.ofList word)

/-- The lexeme that an opening single quote starts. -/
def character : List Char → Lexeme
  | [] => ⟨['\''], .error .unterminatedCharacter, []⟩
  | [c] => ⟨['\'', c], .error .overlongCharacter, []⟩
  | c :: d :: rest =>
    ⟨['\'', c, d], if d = '\'' then .ok (.character c) else .error .overlongCharacter, rest⟩

/-- Whether a character is part of a string and not its end. -/
def isStringChar (c : Char) : Bool :=
  c != '"' && c != '\n'

/-- The lexeme that an opening double quote starts. -/
def string (cs : List Char) : Lexeme :=
  let inside := cs.takeWhile isStringChar
  match cs.dropWhile isStringChar with
  | [] => ⟨'"' :: inside, .error .unterminatedString, []⟩
  | c :: rest =>
    ⟨'"' :: inside ++ [c],
      if c = '"' then .ok (.string (String.ofList inside)) else .error .unterminatedString, rest⟩

/-- The lexeme at the head of a text whose first character is neither a quote, a digit nor a
letter. -/
def symbolic (c : Char) (rest : List Char) : Lexeme :=
  match rest.head?.bind (Symbol.ofPair? c) with
  | some s => ⟨c :: rest.take 1, .ok (.symbol s), rest.tail⟩
  | none =>
    match Symbol.ofChar? c with
    | some s => ⟨[c], .ok (.symbol s), rest⟩
    | none =>
      ⟨[c], .error (if c = '&' then .loneAmpersand else if c = ':' then .loneColon
        else .unexpected c), rest⟩

/-- The first lexeme of a text that starts with a character that is not blank. -/
def read (c : Char) (rest : List Char) : Lexeme :=
  if c = '\'' then character rest
  else if c = '"' then string rest
  else if c.isDigit then
    ⟨c :: rest.takeWhile Char.isDigit, ofDigits (c :: rest.takeWhile Char.isDigit),
      rest.dropWhile Char.isDigit⟩
  else if c.isAlpha then
    ⟨c :: rest.takeWhile isWordChar, .ok (ofWord (c :: rest.takeWhile isWordChar)),
      rest.dropWhile isWordChar⟩
  else symbolic c rest

/-- A lexeme takes the front of the text and leaves the rest of it. -/
theorem chars_append_rest (c : Char) (cs : List Char) :
    (read c cs).chars ++ (read c cs).rest = c :: cs := by
  unfold read
  split
  · subst_vars
    match cs with
    | [] => rfl
    | [_] => rfl
    | _ :: _ :: _ => rfl
  split
  · subst_vars
    have h := List.takeWhile_append_dropWhile (p := isStringChar) (l := cs)
    unfold string
    split <;> rename_i e <;> rw [e] at h <;> simp_all
  split
  · simp
  split
  · simp
  unfold symbolic
  split
  · cases cs <;> simp
  · split <;> rfl

/-- A lexeme takes at least one character. -/
theorem chars_ne_nil (c : Char) (cs : List Char) : (read c cs).chars ≠ [] := by
  unfold read
  split
  · match cs with
    | [] => simp [character]
    | [_] => simp [character]
    | _ :: _ :: _ => simp [character]
  split
  · unfold string
    split <;> simp
  split
  · simp
  split
  · simp
  unfold symbolic
  split
  · simp
  · split <;> simp

/-- What a lexeme leaves is shorter than the text it was read from. -/
theorem length_rest_le (c : Char) (cs : List Char) : (read c cs).rest.length ≤ cs.length := by
  have h := congrArg List.length (chars_append_rest c cs)
  have h' := List.length_pos_iff.2 (chars_ne_nil c cs)
  simp only [List.length_append, List.length_cons] at h
  omega

end Lexeme

/-- Reading a lexeme behind the blanks makes the text shorter. -/
theorem length_rest_lt {c : Char} {cs rest : List Char} (h : cs.dropWhile Text.isBlank = c :: rest) :
    (Lexeme.read c rest).rest.length < cs.length := by
  have h₁ := Lexeme.length_rest_le c rest
  have h₂ := (List.dropWhile_sublist Text.isBlank (l := cs)).length_le
  rw [h, List.length_cons] at h₂
  omega

/-- The tokens of what is left of a text, read from a position in a file. -/
def readFrom (file : String) (p : Position) (cs : List Char) : Except (Located Malformed) Tokens :=
  let start := p.afterAll (cs.takeWhile Text.isBlank)
  match h : cs.dropWhile Text.isBlank with
  | [] => .ok ⟨[], ⟨file, start, start⟩⟩
  | c :: rest =>
    have := length_rest_lt h
    let lexeme := Lexeme.read c rest
    let stop := start.afterAll lexeme.chars
    let location := ⟨file, start.after c, stop⟩
    match lexeme.meaning with
    | .error e => .error ⟨e, location⟩
    | .ok kind =>
      match readFrom file stop lexeme.rest with
      | .error e => .error e
      | .ok ts => .ok { ts with list := ⟨kind, location⟩ :: ts.list }
termination_by cs.length

end Token

/-- The tokens of a source text. -/
def Tokens.ofSource (file : String) (source : String) : Except (Located Token.Malformed) Tokens :=
  Token.readFrom file .origin source.toList

end Threefold
