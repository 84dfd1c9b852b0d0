/-!
# Writing JSON

Values of JSON without fractions, and their two written forms: without blanks, and with every item
on a line of its own, indented by two more columns than what it belongs to. The members of an object
keep their order. Strings are written as they are, save for quotes, backslashes and control
characters.
-/

namespace Threefold

/-- A value of JSON. -/
inductive Json
  | bool (b : Bool)
  | int (n : Int)
  | string (s : String)
  | array (items : List Json)
  | object (members : List (String × Json))

namespace Json

/-- A character inside a string. -/
def escapeChar (c : Char) : String :=
  match c with
  | '"' => "\\\""
  | '\\' => "\\\\"
  | '\n' => "\\n"
  | '\t' => "\\t"
  | '\r' => "\\r"
  | '\x08' => "\\b"
  | '\x0c' => "\\f"
  | c =>
    if c.toNat < 0x20 then
      let digits := Nat.toDigits 16 c.toNat
      "\\u" ++ "".pushn '0' (4 - digits.length) ++ String.ofList digits
    else c.toString

/-- A string in quotes. -/
def quote (s : String) : String :=
  "\"" ++ String.join (s.toList.map escapeChar) ++ "\""

/-- The lines with a text in front of the first. -/
def startWith (s : String) : List String → List String
  | [] => [s]
  | line :: rest => (s ++ line) :: rest

/-- The lines with a comma behind the last. -/
def endWithComma : List String → List String
  | [] => [","]
  | [line] => [line ++ ","]
  | line :: rest => line :: endWithComma rest

mutual

/-- The lines of a value. The first of them belongs behind whatever is in front of the value. -/
def lines : Json → List String
  | bool true => ["true"]
  | bool false => ["false"]
  | int n => [toString n]
  | string s => [quote s]
  | array [] => ["[]"]
  | array items => "[" :: itemLines items ++ ["]"]
  | object [] => ["\x7b\x7d"]
  | object members => "\x7b" :: memberLines members ++ ["\x7d"]

/-- The lines of items, indented, with commas between the items. -/
def itemLines : List Json → List String
  | [] => []
  | [j] => j.lines.map ("  " ++ ·)
  | j :: rest => endWithComma (j.lines.map ("  " ++ ·)) ++ itemLines rest

/-- The lines of members, indented, with commas between the members. -/
def memberLines : List (String × Json) → List String
  | [] => []
  | [(k, j)] => (startWith (quote k ++ ": ") j.lines).map ("  " ++ ·)
  | (k, j) :: rest =>
    endWithComma ((startWith (quote k ++ ": ") j.lines).map ("  " ++ ·)) ++ memberLines rest

end

mutual

/-- A value without blanks. -/
def compact : Json → String
  | bool true => "true"
  | bool false => "false"
  | int n => toString n
  | string s => quote s
  | array items => "[" ++ ",".intercalate (compactItems items) ++ "]"
  | object members => "\x7b" ++ ",".intercalate (compactMembers members) ++ "\x7d"

/-- Items without blanks. -/
def compactItems : List Json → List String
  | [] => []
  | j :: rest => j.compact :: compactItems rest

/-- Members without blanks. -/
def compactMembers : List (String × Json) → List String
  | [] => []
  | (k, j) :: rest => (quote k ++ ":" ++ j.compact) :: compactMembers rest

end

/-- A value with every item on a line of its own. -/
def pretty (j : Json) : String :=
  "\n".intercalate j.lines

end Json

end Threefold
