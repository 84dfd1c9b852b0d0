import Threefold.Files

/-!
# Files in memory

A tree of files and folders, as far as commands can tell it from a real one, and what was printed.
A place in the tree is the list of names that lead to it from the root, the last one first. Paths
are followed from the root or from a working folder, one segment at a time, and every segment but
the last must lead to a folder that is there.
-/

namespace Threefold.Files

/-- A place in the tree: the names that lead to it, the last one first. -/
abbrev Place := List String

/-- What can be at a place. -/
inductive Node
  | folder
  | file (text : String)
  deriving DecidableEq, Repr

/-- The tree, and what was printed so far. The root is a folder even if it is not listed. -/
structure Memory where
  nodes : List (Place × Node)
  printed : String
  deriving DecidableEq, Repr

namespace Memory

/-- The place of the working folder. -/
def home : Place := ["work"]

/-- An empty working folder. -/
def empty : Memory := ⟨[(home, .folder)], ""⟩

/-- What is at a place. -/
def node? (f : Memory) (p : Place) : Option Node :=
  if p.isEmpty then some .folder else (f.nodes.find? (·.1 = p)).map Prod.snd

/-- The tree with something else at a place. -/
def put (f : Memory) (p : Place) (n : Node) : Memory :=
  { f with nodes := (p, n) :: f.nodes.filter (·.1 ≠ p) }

/-- The longest name that a segment may be, in bytes. -/
def nameLimit : Nat := 255

/-- The longest that a written path may be, in bytes. -/
def pathLimit : Nat := 4095

/-- The place to which segments lead from another one. -/
def follow (f : Memory) (p : Place) : List String → Except FileError Place
  | [] => .ok p
  | s :: rest =>
    match f.node? p with
    | none => .error .notFound
    | some (.file _) => .error .notAFolder
    | some .folder =>
      if nameLimit < s.utf8ByteSize then .error .nameTooLong
      else if s = "" || s = "." then f.follow p rest
      else if s = ".." then f.follow p.tail rest
      else f.follow (s :: p) rest

/-- The place in which a path starts. -/
def origin (p : Path) : Place :=
  if p.isAbsolute then [] else home

/-- The place to which a path leads. An empty path leads nowhere. -/
def place (f : Memory) (p : Path) : Except FileError Place :=
  if pathLimit < p.text.utf8ByteSize then .error .nameTooLong
  else if !p.isAbsolute && p.segments.isEmpty then .error .notFound
  else f.follow (origin p) p.segments

/-- The text of a file. -/
def readText (f : Memory) (p : Path) : Except FileError String := do
  match f.node? (← f.place p) with
  | none => throw .notFound
  | some .folder => throw .isAFolder
  | some (.file text) => return text

/-- Whether a path leads to something that is there. -/
def isThere (f : Memory) (p : Path) : Bool :=
  match f.place p with
  | .ok place => (f.node? place).isSome
  | .error _ => false

/-- The names in a folder. -/
def names (f : Memory) (p : Path) : List String :=
  match f.place p with
  | .error _ => []
  | .ok place =>
    f.nodes.filterMap fun (q, _) =>
      match q with
      | [] => none
      | name :: outer => if outer = place then some name else none

/-- Make the folders to which segments lead. -/
def makeFolders (f : Memory) (p : Place) : List String → Except FileError Memory
  | [] => .ok f
  | s :: rest =>
    if nameLimit < s.utf8ByteSize then .error .nameTooLong
    else if s = "" || s = "." then f.makeFolders p rest
    else if s = ".." then f.makeFolders p.tail rest
    else
      match f.node? (s :: p) with
      | some .folder => f.makeFolders (s :: p) rest
      | some (.file _) => .error (if rest.isEmpty then .alreadyThere else .notAFolder)
      | none => (f.put (s :: p) .folder).makeFolders (s :: p) rest

/-- Make a folder, and those that lead to it. -/
def makeFolder (f : Memory) (p : Path) : Except FileError Memory :=
  if pathLimit < p.text.utf8ByteSize then .error .nameTooLong
  else f.makeFolders (origin p) p.segments

/-- Write the text of a file, in a folder that is there. -/
def writeText (f : Memory) (p : Path) (text : String) : Except FileError Memory := do
  let place ← f.place p
  match f.node? place, f.node? place.tail with
  | some .folder, _ => throw .isAFolder
  | some (.file _), _ => return f.put place (.file text)
  | none, some .folder => return f.put place (.file text)
  | none, some (.file _) => throw .notAFolder
  | none, none => throw .notFound

/-- A file in the working folder, and the folders that lead to it. -/
def add (f : Memory) (p : Path) (text : String) : Memory :=
  let folders := p.parent?.map f.makeFolder
  let f := match folders with
    | some (.ok f) => f
    | _ => f
  match f.writeText p text with
  | .ok f => f
  | .error _ => f

/-- The files below the working folder, with their paths. -/
def files (f : Memory) : List (String × String) :=
  f.nodes.filterMap fun (place, node) =>
    match node with
    | .folder => none
    | .file text =>
      let names := place.reverse
      if home.isSuffixOf place then some ("/".intercalate (names.drop home.length), text) else none

/-- An operation that may change the tree. -/
def change (op : Memory → Except FileError Memory) : StateM Memory (Except FileError Unit) :=
  fun f =>
    match op f with
    | .ok f => (.ok (), f)
    | .error e => (.error e, f)

/-- Files in memory as the surroundings of a command. The clock stands still. -/
def surroundings : Surroundings (StateM Memory) where
  workingFolder := return none
  readText p := fun f => (f.readText p, f)
  isThere p := fun f => (f.isThere p, f)
  names p := fun f => (f.names p, f)
  makeFolder p := change (·.makeFolder p)
  writeText p text := change (·.writeText p text)
  print text := modify fun f => { f with printed := f.printed ++ text }
  clock := return 0

end Memory

end Threefold.Files
