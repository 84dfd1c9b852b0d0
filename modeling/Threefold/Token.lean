import Threefold.Location

/-!
# Tokens

The words of the language. A token is an integer, a character, a string, a name, one of the fixed
symbols or one of the keywords, together with the span of text it was read from. Each kind has one
written form, `Kind.text`, which is also how messages quote it.
-/

namespace Threefold

namespace Token

/-- The brackets, separators and operators. -/
inductive Symbol
  | openParen
  | closeParen
  | openSquare
  | closeSquare
  | openCurly
  | closeCurly
  | comma
  | semicolon
  | assign
  | plus
  | minus
  | times
  | divide
  | remainder
  | or
  | and
  | equal
  | notEqual
  | lessEqual
  | greaterEqual
  | less
  | greater
  | not
  deriving DecidableEq, Repr

/-- The written form of a symbol. Assignment may also be written as a plain equals sign. -/
def Symbol.text : Symbol → String
  | .openParen => "("
  | .closeParen => ")"
  | .openSquare => "["
  | .closeSquare => "]"
  | .openCurly => "\x7b"
  | .closeCurly => "\x7d"
  | .comma => ","
  | .semicolon => ";"
  | .assign => ":="
  | .plus => "+"
  | .minus => "-"
  | .times => "*"
  | .divide => "/"
  | .remainder => "%"
  | .or => "!!"
  | .and => "&&"
  | .equal => "=="
  | .notEqual => "!="
  | .lessEqual => "<="
  | .greaterEqual => ">="
  | .less => "<"
  | .greater => ">"
  | .not => "!"

/-- The words that cannot be names. -/
inductive Keyword
  | if_
  | then_
  | elif
  | else_
  | fi
  | while_
  | do_
  | od
  | for_
  | repeat_
  | until_
  | try_
  | catch_
  | finally_
  | yrt
  | throw_
  | skip
  | fun_
  | begin_
  | end_
  | return_
  | true_
  | false_
  deriving DecidableEq, Repr

namespace Keyword

/-- Every keyword. -/
def all : List Keyword :=
  [if_, then_, elif, else_, fi, while_, do_, od, for_, repeat_, until_, try_, catch_, finally_, yrt,
    throw_, skip, fun_, begin_, end_, return_, true_, false_]

/-- The spelling of a keyword. -/
def text : Keyword → String
  | if_ => "if"
  | then_ => "then"
  | elif => "elif"
  | else_ => "else"
  | fi => "fi"
  | while_ => "while"
  | do_ => "do"
  | od => "od"
  | for_ => "for"
  | repeat_ => "repeat"
  | until_ => "until"
  | try_ => "try"
  | catch_ => "catch"
  | finally_ => "finally"
  | yrt => "yrt"
  | throw_ => "throw"
  | skip => "skip"
  | fun_ => "fun"
  | begin_ => "begin"
  | end_ => "end"
  | return_ => "return"
  | true_ => "true"
  | false_ => "false"

/-- The keyword with a given spelling. -/
def ofText? (word : String) : Option Keyword :=
  all.find? (·.text = word)

end Keyword

/-- What a token is, whatever its place. -/
inductive Kind
  | integer (value : Nat)
  | character (value : Char)
  | string (value : String)
  | name (value : String)
  | symbol (value : Symbol)
  | keyword (value : Keyword)
  deriving DecidableEq, Repr

/-- The written form of a token. -/
def Kind.text : Kind → String
  | .integer n => toString n
  | .character c => "'" ++ c.toString ++ "'"
  | .string s => "\"" ++ s ++ "\""
  | .name s => s
  | .symbol s => s.text
  | .keyword k => k.text

/-- How messages quote a token, where no token means that the text has ended. -/
def Kind.quote? : Option Kind → String
  | some k => k.text
  | none => "end of file"

end Token

/-- A word of the language and the span it was read from. -/
structure Token where
  kind : Token.Kind
  location : Location
  deriving DecidableEq, Repr

/-- The tokens of a source text, and the place where the text ends. -/
structure Tokens where
  list : List Token
  stop : Location
  deriving DecidableEq, Repr

namespace Tokens

/-- The token in front, if the text has not ended. -/
def current? (ts : Tokens) : Option Token.Kind :=
  ts.list.head?.map (·.kind)

/-- The place of the token in front, or of the end of the text. -/
def location (ts : Tokens) : Location :=
  match ts.list with
  | [] => ts.stop
  | t :: _ => t.location

/-- The tokens behind the one in front. The end of the text has nothing behind it. -/
def advance (ts : Tokens) : Tokens :=
  { ts with list := ts.list.tail }

end Tokens

end Threefold
