import Threefold.Text.Number
import Threefold.Toml

/-!
# Reading settings

A document is read line by line. Blanks are spaces and tabulators; a remark starts with a number sign
and ends with the line; control characters stand nowhere. Lines may also end between the items of a
list, and in a table in braces everywhere but inside a path of names. A reader of a part of the
document takes it from the front of the text and yields what it has read and what is left.
-/

namespace Threefold.Toml

/-- What was read from the front of a text, and the rest of it. -/
abbrev Read (α : Type) := Option (α × List Char)

/-- Whether a character may stand in a remark or between quotes. -/
def isPlain (c : Char) : Bool :=
  c = '\t' || (0x20 ≤ c.toNat && c.toNat ≠ 0x7f)

/-- The text behind spaces and tabulators. -/
def skipBlanks (cs : List Char) : List Char :=
  cs.dropWhile fun c => c = ' ' || c = '\t'

/-- The text behind the end of a line. -/
def newline? : List Char → Option (List Char)
  | '\n' :: rest => some rest
  | '\r' :: '\n' :: rest => some rest
  | _ => none

/-- The text behind a line on which nothing but a remark is left. -/
def endLine? (cs : List Char) : Option (List Char) :=
  let rest := match skipBlanks cs with
    | '#' :: rest => rest.dropWhile isPlain
    | rest => rest
  if rest.isEmpty then some [] else newline? rest

/-- The text behind blanks, remarks and ends of lines. -/
def skipGaps (inRemark : Bool) : List Char → List Char
  | [] => []
  | '\n' :: rest => skipGaps false rest
  | '\r' :: '\n' :: rest => skipGaps false rest
  | c :: rest =>
    if inRemark then if isPlain c then skipGaps true rest else c :: rest
    else if c = ' ' || c = '\t' then skipGaps false rest
    else if c = '#' then skipGaps true rest
    else c :: rest

/-- Read a number of hexadecimal digits as a character. -/
def hexChar? (n : Nat) (cs : List Char) : Read Char :=
  let digits := cs.take n
  let value? (c : Char) : Option Nat :=
    if c.isDigit then some (c.toNat - '0'.toNat)
    else if 'a' ≤ c ∧ c ≤ 'f' then some (c.toNat - 'a'.toNat + 10)
    else if 'A' ≤ c ∧ c ≤ 'F' then some (c.toNat - 'A'.toNat + 10)
    else none
  match digits.mapM value? with
  | none => none
  | some values =>
    let code := values.foldl (fun m v => 16 * m + v) 0
    if digits.length < n ∨ ¬ code.isValidChar then none
    else some (Char.ofNat code, cs.drop n)

/-- Read what stands behind a backslash. -/
def escape? : List Char → Read Char
  | 'b' :: rest => some ('\x08', rest)
  | 't' :: rest => some ('\t', rest)
  | 'n' :: rest => some ('\n', rest)
  | 'f' :: rest => some ('\x0c', rest)
  | 'r' :: rest => some ('\r', rest)
  | 'e' :: rest => some ('\x1b', rest)
  | '"' :: rest => some ('"', rest)
  | '\\' :: rest => some ('\\', rest)
  | 'x' :: rest => hexChar? 2 rest
  | 'u' :: rest => hexChar? 4 rest
  | 'U' :: rest => hexChar? 8 rest
  | _ => none

/-- What is in front of a text that was read. -/
def cons (c : Char) : Read (List Char) → Read (List Char) :=
  Option.map fun (s, rest) => (c :: s, rest)

/-- Read the rest of a string on one line, up to its closing quote. -/
def stringBody? (quote : Char) : Nat → List Char → Read (List Char)
  | 0, _ => none
  | _, [] => none
  | fuel + 1, c :: rest =>
    if c = quote then some ([], rest)
    else if c = '\\' ∧ quote = '"' then
      match escape? rest with
      | some (d, rest) => cons d (stringBody? quote fuel rest)
      | none => none
    else if isPlain c then cons c (stringBody? quote fuel rest)
    else none

/-- The text behind blanks and ends of lines. -/
def skipLines : List Char → List Char
  | [] => []
  | '\n' :: rest => skipLines rest
  | '\r' :: '\n' :: rest => skipLines rest
  | c :: rest => if c = ' ' || c = '\t' then skipLines rest else c :: rest

/-- The text behind a backslash that ends a line, up to what is not blank. -/
def continued? (cs : List Char) : Option (List Char) :=
  (newline? (skipBlanks cs)).map skipLines

/-- Read the rest of a string on several lines, up to its three closing quotes. Up to two quotes in
front of them belong to the string, and so does what ends its lines. -/
def longBody? (quote : Char) : Nat → List Char → Read (List Char)
  | 0, _ => none
  | _, [] => none
  | fuel + 1, c :: rest =>
    if c = quote then
      let run := (c :: rest).takeWhile (· = quote)
      let after := (c :: rest).drop run.length
      if run.length < 3 then
        (longBody? quote fuel after).map fun (s, rest) => (run ++ s, rest)
      else if run.length ≤ 5 then some (run.drop 3, after)
      else none
    else if c = '\\' ∧ quote = '"' then
      match continued? rest, escape? rest with
      | some rest, _ => longBody? quote fuel rest
      | none, some (d, rest) => cons d (longBody? quote fuel rest)
      | none, none => none
    else if isPlain c || c = '\n' || (c = '\r' && rest.head? = some '\n') then
      cons c (longBody? quote fuel rest)
    else none

/-- Read a string on one line. -/
def shortString? : List Char → Read String
  | '"' :: rest => (stringBody? '"' (rest.length + 1) rest).map fun (s, r) => (String.ofList s, r)
  | '\'' :: rest => (stringBody? '\'' (rest.length + 1) rest).map fun (s, r) => (String.ofList s, r)
  | _ => none

/-- Read a string of any form. A line that ends right behind three opening quotes is not part of
it. -/
def string? (cs : List Char) : Read String :=
  let long (quote : Char) (rest : List Char) : Read String :=
    let body := (newline? rest).getD rest
    (longBody? quote (body.length + 1) body).map fun (s, r) => (String.ofList s, r)
  match cs with
  | '"' :: '"' :: '"' :: rest => long '"' rest
  | '\'' :: '\'' :: '\'' :: rest => long '\'' rest
  | cs => shortString? cs

/-- Whether a character may stand in a name without quotes. -/
def isBare (c : Char) : Bool :=
  c.isAlphanum || c = '_' || c = '-'

/-- Read a name. -/
def key? (cs : List Char) : Read String :=
  let bare := cs.takeWhile isBare
  if bare.isEmpty then shortString? cs else some (String.ofList bare, cs.drop bare.length)

/-- Read a path of names with dots between them. -/
def keys? : Nat → List Char → Read (List String)
  | 0, _ => none
  | fuel + 1, cs =>
    match key? (skipBlanks cs) with
    | none => none
    | some (key, rest) =>
      match skipBlanks rest with
      | '.' :: rest => (keys? fuel rest).map fun (path, rest) => (key :: path, rest)
      | rest => some ([key], rest)

/-- The digits of a number with an underscore at most between two of them. -/
def withoutUnderscores? (isDigit : Char → Bool) : List Char → Option (List Char)
  | [] => none
  | [c] => if isDigit c then some [c] else none
  | c :: '_' :: rest =>
    if isDigit c then (withoutUnderscores? isDigit rest).map (c :: ·) else none
  | c :: rest => if isDigit c then (withoutUnderscores? isDigit rest).map (c :: ·) else none

/-- The number with given digits in a base. -/
def ofDigits (base : Nat) (cs : List Char) : Nat :=
  let value (c : Char) : Nat :=
    if c.isDigit then c.toNat - '0'.toNat else c.toLower.toNat - 'a'.toNat + 10
  cs.foldl (fun n c => base * n + value c) 0

/-- Whether a character is a hexadecimal digit. -/
def isHexDigit (c : Char) : Bool :=
  c.isDigit || ('a' ≤ c.toLower && c.toLower ≤ 'f')

/-- A number without a sign, which has no zero in front. -/
def natural? (cs : List Char) : Option Nat :=
  match cs with
  | '0' :: _ :: _ => none
  | cs => (withoutUnderscores? Char.isDigit cs).map (ofDigits 10)

/-- A whole number. -/
def integer? : List Char → Option Int
  | '0' :: 'x' :: cs => (withoutUnderscores? isHexDigit cs).map fun ds => ofDigits 16 ds
  | '0' :: 'o' :: cs =>
    (withoutUnderscores? (fun c => '0' ≤ c && c ≤ '7') cs).map fun ds => ofDigits 8 ds
  | '0' :: 'b' :: cs =>
    (withoutUnderscores? (fun c => c = '0' || c = '1') cs).map fun ds => ofDigits 2 ds
  | '-' :: cs => (natural? cs).map fun n => -n
  | '+' :: cs => (natural? cs).map Int.ofNat
  | cs => (natural? cs).map Int.ofNat

/-- Read a value that has no quotes or brackets. -/
def word? (cs : List Char) : Read Toml :=
  let word := cs.takeWhile fun c => isBare c || c = '+' || c = '.' || c = ':'
  let rest := cs.drop word.length
  if word = "true".toList then some (boolean true, rest)
  else if word = "false".toList then some (boolean false, rest)
  else (integer? word).map fun n => (integer n, rest)

mutual

/-- Read a value. -/
def value? : Nat → List Char → Read Toml
  | 0, _ => none
  | fuel + 1, cs =>
    match cs with
    | '"' :: _ | '\'' :: _ => (string? cs).map fun (s, rest) => (string s, rest)
    | '[' :: rest => (items? fuel (skipGaps false rest)).map fun (vs, rest) => (array vs, rest)
    | '{' :: rest => (members? fuel [] (skipGaps false rest)).map fun (ds, rest) =>
        (table (Draft.closeAll ds), rest)
    | cs => word? cs

/-- Read the items of a list up to its closing bracket. -/
def items? : Nat → List Char → Read (List Toml)
  | 0, _ => none
  | fuel + 1, cs =>
    match cs with
    | ']' :: rest => some ([], rest)
    | cs =>
      match value? fuel cs with
      | none => none
      | some (v, rest) =>
        match skipGaps false rest with
        | ']' :: rest => some ([v], rest)
        | ',' :: rest => (items? fuel (skipGaps false rest)).map fun (vs, rest) => (v :: vs, rest)
        | _ => none

/-- Read the members of a table up to its closing brace, behind others. -/
def members? : Nat → Drafts → List Char → Read Drafts
  | 0, _, _ => none
  | fuel + 1, ds, cs =>
    match cs with
    | '}' :: rest => some (ds, rest)
    | cs =>
      match definition? (skipGaps false) fuel cs with
      | none => none
      | some ((path, v), rest) =>
        match Draft.define ds path v, skipGaps false rest with
        | some ds, '}' :: rest => some (ds, rest)
        | some ds, ',' :: rest => members? fuel ds (skipGaps false rest)
        | _, _ => none

/-- Read a path of names, the equals sign, and a value, with what may be skipped around the sign. -/
def definition? (skip : List Char → List Char) : Nat → List Char → Read (List String × Toml)
  | 0, _ => none
  | fuel + 1, cs =>
    match keys? (cs.length + 1) cs with
    | none => none
    | some (path, rest) =>
      match skip rest with
      | '=' :: rest => (value? fuel (skip rest)).map fun (v, rest) => ((path, v), rest)
      | _ => none

end

/-- Read a heading: the path of names behind its opening bracket. -/
def heading? (cs : List Char) : Read (List String) :=
  match keys? (cs.length + 1) cs with
  | some (path, ']' :: rest) => some (path, rest)
  | _ => none

/-- Read the lines of a document, of which there are definitions already and in which a table has
been opened. -/
def document? : Nat → List String → Drafts → List Char → Option Drafts
  | 0, _, _, _ => none
  | fuel + 1, current, ds, cs =>
    match skipBlanks cs with
    | [] => some ds
    | '[' :: rest =>
      match heading? rest with
      | none => none
      | some (path, rest) =>
        match Draft.head ds path, endLine? rest with
        | some ds, some rest => document? fuel path ds rest
        | _, _ => none
    | c :: rest =>
      if c = '#' || c = '\n' || c = '\r' then
        match endLine? (c :: rest) with
        | some rest => document? fuel current ds rest
        | none => none
      else
        match definition? skipBlanks (cs.length + 1) (c :: rest) with
        | none => none
        | some ((path, v), rest) =>
          match Draft.defineIn ds current path v, endLine? rest with
          | some ds, some rest => document? fuel current ds rest
          | _, _ => none

/-- The table that a document defines. A mark of the order of bytes in front of it is no part of
it. -/
def ofText? (s : String) : Option Table :=
  let cs := match s.toList with
    | '\ufeff' :: rest => rest
    | cs => cs
  (document? (cs.length + 1) [] [] cs).map Draft.closeAll

/-- The names and values of a table, if every name is one of those that are known. -/
def known? (names : List String) (t : Table) : Option Table :=
  if t.all fun (key, _) => names.contains key then some t else none

/-- The value of a name. -/
def get? (t : Table) (key : String) : Option Toml :=
  (t.find? (·.1 = key)).map Prod.snd

end Threefold.Toml
