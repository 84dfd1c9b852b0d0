/-!
# Paths

A path is kept as it is written: whether it starts at the root, and what stands between its slashes.
Segments that are empty or a single dot mean nothing, save for a dot at the very start, but they stay
where they are unless an operation removes them. The last segment that means something is the name
of what the path leads to, unless it is a dot or a double dot. The extension of a name stands behind
its last dot; a name that only starts with a dot has none.

The main statement is `text_ofText`: nothing of what was written is lost.
-/

namespace Threefold

/-- A path, as it is written. -/
structure Path where
  isAbsolute : Bool
  segments : List String
  deriving DecidableEq, Repr, Inhabited

namespace Path

/-- The parts of a text between slashes. -/
def splitSlashes : List Char → List (List Char)
  | [] => [[]]
  | '/' :: rest => [] :: splitSlashes rest
  | c :: rest =>
    match splitSlashes rest with
    | [] => [[c]]
    | part :: others => (c :: part) :: others

/-- The segments of a text that has no slash in front. -/
def segmentsOf (cs : List Char) : List String :=
  if cs.isEmpty then [] else (splitSlashes cs).map String.ofList

/-- A path from its written form. -/
def ofText (s : String) : Path :=
  match s.toList with
  | '/' :: rest => ⟨true, segmentsOf rest⟩
  | cs => ⟨false, segmentsOf cs⟩

/-- The written form of a path. -/
def text (p : Path) : String :=
  (if p.isAbsolute then "/" else "") ++ "/".intercalate p.segments

theorem splitSlashes_ne_nil (cs : List Char) : splitSlashes cs ≠ [] := by
  induction cs with
  | nil => simp [splitSlashes]
  | cons c rest ih =>
    unfold splitSlashes
    split
    · simp_all
    · simp
    · split <;> simp

theorem intercalate_splitSlashes (cs : List Char) :
    ['/'].intercalate (splitSlashes cs) = cs := by
  induction cs with
  | nil => rfl
  | cons c rest ih =>
    have hne := splitSlashes_ne_nil rest
    cases hs : splitSlashes rest with
    | nil => exact absurd hs hne
    | cons part others =>
      rw [hs] at ih
      by_cases hc : c = '/'
      · subst hc
        simp only [splitSlashes, hs, List.intercalate_cons_cons, ih]
        rfl
      · have split : splitSlashes (c :: rest) = (c :: part) :: others := by
          unfold splitSlashes
          simp [hs]
        rw [split, ← ih]
        cases others <;> simp

/-- Segments with slashes between them are what they were read from. -/
theorem intercalate_segmentsOf (cs : List Char) :
    "/".intercalate (segmentsOf cs) = String.ofList cs := by
  rw [← String.toList_inj, String.toList_intercalate, String.toList_ofList]
  unfold segmentsOf
  split
  · simp_all
  · simpa [Function.comp_def] using intercalate_splitSlashes cs

@[simp]
theorem text_ofText (s : String) : (ofText s).text = s := by
  unfold ofText
  split
  · rename_i rest h
    rw [← String.toList_inj, h]
    simp [text, intercalate_segmentsOf]
  · simp [text, intercalate_segmentsOf]

/-- The segments, the last one first, from the last one on that means something. -/
def meaning (isAbsolute : Bool) : List String → List String
  | [] => []
  | [s] => if s = "" || (s = "." && isAbsolute) then [] else [s]
  | s :: t :: rest => if s = "" || s = "." then meaning isAbsolute (t :: rest) else s :: t :: rest

/-- The meaningful part of a path, the last segment first. -/
def backwards (p : Path) : List String :=
  meaning p.isAbsolute p.segments.reverse

/-- The name of what a path leads to. -/
def fileName? (p : Path) : Option String :=
  match p.backwards with
  | [] => none
  | s :: _ => if s = ".." || s = "." then none else some s

/-- The path of the folder that holds what a path leads to. -/
def parent? (p : Path) : Option Path :=
  match p.backwards with
  | [] => none
  | _ :: rest => some ⟨p.isAbsolute, (meaning p.isAbsolute rest).reverse⟩

/-- The two sides of the last dot of a name, where there is one that is not its first character. -/
def splitName? (name : String) : Option (String × String) :=
  let back := name.toList.reverse
  match back.dropWhile (· ≠ '.') with
  | [] => none
  | _ :: before =>
    if before.isEmpty then none
    else some (String.ofList before.reverse, String.ofList (back.takeWhile (· ≠ '.')).reverse)

/-- A name without its extension. -/
def stemOf (name : String) : String :=
  (splitName? name).elim name Prod.fst

/-- The name of what a path leads to, without its extension. -/
def stem? (p : Path) : Option String :=
  p.fileName?.map stemOf

/-- The extension of the name of what a path leads to. -/
def extension? (p : Path) : Option String :=
  p.fileName?.bind fun name => (splitName? name).map Prod.snd

/-- A path that is to be followed from another one. -/
def join (p q : Path) : Path :=
  if q.isAbsolute then q
  else
    let more := if q.segments.isEmpty then [""] else q.segments
    if p.segments.isEmpty then ⟨p.isAbsolute, q.segments⟩
    else if p.segments.getLast? = some "" then ⟨p.isAbsolute, p.segments.dropLast ++ more⟩
    else ⟨p.isAbsolute, p.segments ++ more⟩

/-- The path with another extension, if it leads to something with a name. The old extension is
taken off the end of the written path first. Where that leaves a double dot, there is no name to
which the new one could be given. -/
def withExtension (p : Path) (extension : String) : Path :=
  match p.backwards with
  | [] => p
  | s :: rest =>
    if s = ".." || s = "." then p
    else if stemOf s = "." && p.segments.getLast? = some s then
      ⟨p.isAbsolute, (".." :: rest).reverse⟩
    else ⟨p.isAbsolute, ((stemOf s ++ "." ++ extension) :: rest).reverse⟩

/-- The mark in front of a path that a system is asked to take as it is written. -/
def verbatimMark : List Char := ['\\', '\\', '?', '\\']

/-- A written path without such a mark, if it has one. -/
def unmarked (s : String) : String :=
  if verbatimMark.isPrefixOf s.toList then String.ofList (s.toList.drop verbatimMark.length) else s

/-- What is left of a path behind another one, if it starts there. -/
def within? (p folder : Path) : Option Path :=
  let kept := fun s : String => s ≠ "" && s ≠ "."
  let own := p.segments.filter kept
  let outer := folder.segments.filter kept
  if p.isAbsolute = folder.isAbsolute && outer.isPrefixOf own then
    some ⟨false, own.drop outer.length⟩
  else none

end Path

end Threefold
