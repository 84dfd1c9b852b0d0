/-!
# Places in a source text

A place is a line and a column. Lines count from zero. Columns count characters, and a character
stands in the column reached after it has been read, so the first character of a line stands in
column one and column zero is the place before it. Both are counted in words, so the numbers of a
text that is too large for that wrap around. A report that comes from elsewhere may name any line and
column.
-/

namespace Threefold

/-- A line, counted from zero, and a column, counted in characters. -/
structure Position where
  line : Int
  column : Int
  deriving DecidableEq, Repr, Inhabited

namespace Position

/-- The start of a text. -/
def origin : Position := ⟨0, 0⟩

/-- The next number as a word counts: the least one comes after the greatest one. -/
def next (n : Int) : Int :=
  (n + 1).bmod Int32.size

/-- The position reached by reading one more character. -/
def after (p : Position) (c : Char) : Position :=
  if c = '\n' then ⟨next p.line, 0⟩ else ⟨p.line, next p.column⟩

/-- The position reached by reading all of a text. -/
def afterAll (p : Position) (cs : List Char) : Position :=
  cs.foldl after p

/-- Text order: by line, then by column. -/
def before (p q : Position) : Prop :=
  p.line < q.line ∨ (p.line = q.line ∧ p.column < q.column)

instance (p q : Position) : Decidable (p.before q) :=
  inferInstanceAs (Decidable (_ ∨ _))

end Position

/-- The span of a piece of source text: the file it lies in, the place of its first character and
the place of its last one. -/
structure Location where
  file : String
  start : Position
  stop : Position
  deriving DecidableEq, Repr, Inhabited

namespace Location

/-- The location of what has no place in any source text. -/
def unknown : Location := ⟨"", .origin, .origin⟩

/-- The location that names a file and no place in it. -/
def ofFile (file : String) : Location := ⟨file, .origin, .origin⟩

end Location

end Threefold
