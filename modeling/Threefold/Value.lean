/-!
# Values

A value is a machine word with a tag that says what the word is: a plain number, or the handle of
an array whose elements are plain numbers or values of their own. Strings are plain numbers, since
a string handle carries no tag. The numeric codes of the tags are part of the calling convention of
machine code.
-/

namespace Threefold

/-- What the word of a value is. -/
inductive Tag
  | scalar
  | scalarArray
  | boxedArray
  deriving DecidableEq, Repr, Inhabited

namespace Tag

/-- The number that stands for a tag. -/
def code : Tag → Int32
  | scalar => 0
  | scalarArray => 1
  | boxedArray => 2

/-- The tag that a number stands for. -/
def ofCode? (n : Int32) : Option Tag :=
  if n = 0 then some scalar
  else if n = 1 then some scalarArray
  else if n = 2 then some boxedArray
  else none

/-- Only arrays are counted. -/
def isCounted : Tag → Bool
  | scalar => false
  | scalarArray => true
  | boxedArray => true

theorem ofCode?_code (t : Tag) : ofCode? t.code = some t := by
  cases t <;> decide

end Tag

/-- A word and its tag. -/
structure Value where
  word : Int32
  tag : Tag
  deriving DecidableEq, Repr, Inhabited

namespace Value

/-- A plain number. -/
def scalar (n : Int32) : Value := ⟨n, .scalar⟩

/-- A value as it is shown: arrays by their handle, in the brackets of their kind. -/
def text (v : Value) : String :=
  match v.tag with
  | .scalar => toString v.word
  | .scalarArray => "[#" ++ toString v.word ++ "]"
  | .boxedArray => "\x7b#" ++ toString v.word ++ "\x7d"

end Value

/-- A truth value as a number. -/
def truth (b : Bool) : Int32 :=
  if b then 1 else 0

end Threefold
