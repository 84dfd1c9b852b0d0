/-!
# Settings in TOML

The values that settings can have: strings, whole numbers, truth values, lists, and tables of
further values by name. Dates, fractions and lists of tables, which no setting takes, are left out.

A document is a sequence of definitions. Each of them gives a value to a name, or to a path of names
that leads through tables, and a heading says in which table the following definitions are. No name
is defined twice in a table, and a table that was written down as a value is complete.
-/

namespace Threefold

/-- The values of settings. -/
inductive Toml
  | string (s : String)
  | integer (n : Int)
  | boolean (b : Bool)
  | array (items : List Toml)
  | table (members : List (String × Toml))
  deriving Inhabited

namespace Toml

/-- A table by name. -/
abbrev Table := List (String × Toml)

/-- How a table under construction came about. -/
inductive Origin
  /-- It lies on the path of a heading. -/
  | implied
  /-- It has a heading of its own. -/
  | headed
  /-- It lies on the path of a definition. -/
  | dotted
  deriving DecidableEq, Repr

/-- What a name stands for while a document is read. -/
inductive Draft
  | value (v : Toml)
  | table (origin : Origin) (members : List (String × Draft))

/-- The definitions of a table while a document is read. -/
abbrev Drafts := List (String × Draft)

/-- What a name stands for. -/
def Draft.find? (ds : Drafts) (key : String) : Option Draft :=
  (ds.find? (·.1 = key)).map Prod.snd

/-- The definitions with another one under a name. -/
def Draft.set (ds : Drafts) (key : String) (d : Draft) : Drafts :=
  ds.filter (·.1 ≠ key) ++ [(key, d)]

/-- Define a value at the end of a path. -/
def Draft.define (ds : Drafts) : List String → Toml → Option Drafts
  | [], _ => none
  | [key], v => if (find? ds key).isSome then none else some (set ds key (.value v))
  | key :: path, v =>
    match find? ds key with
    | none => (define [] path v).map fun inner => set ds key (.table .dotted inner)
    | some (.table .headed _) | some (.value _) => none
    | some (.table origin inner) =>
      (define inner path v).map fun inner => set ds key (.table origin inner)

/-- Give a heading to the table at the end of a path. -/
def Draft.head (ds : Drafts) : List String → Option Drafts
  | [] => none
  | [key] =>
    match find? ds key with
    | none => some (set ds key (.table .headed []))
    | some (.table .implied inner) => some (set ds key (.table .headed inner))
    | some _ => none
  | key :: path =>
    match find? ds key with
    | none => (head [] path).map fun inner => set ds key (.table .implied inner)
    | some (.table origin inner) =>
      (head inner path).map fun inner => set ds key (.table origin inner)
    | some (.value _) => none

/-- Define a value at the end of a path, in the table at the end of another one. -/
def Draft.defineIn (ds : Drafts) : List String → List String → Toml → Option Drafts
  | [], path, v => define ds path v
  | key :: outer, path, v =>
    match find? ds key with
    | some (.table origin inner) =>
      (defineIn inner outer path v).map fun inner => set ds key (.table origin inner)
    | _ => none

mutual

/-- What a definition stands for, once the document is read. -/
def Draft.close : Draft → Toml
  | .value v => v
  | .table _ members => .table (Draft.closeAll members)

/-- A table, once the document is read. -/
def Draft.closeAll : List (String × Draft) → Table
  | [] => []
  | (key, d) :: rest => (key, d.close) :: closeAll rest

end

end Toml

end Threefold
