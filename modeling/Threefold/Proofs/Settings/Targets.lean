import Mathlib.Data.List.Basic
import Threefold.Settings

/-!
# Where machine code is written

The machine code of a program goes to the folder that the settings name, beside the source, under the
stem of the source. The new extension replaces whatever stands behind the last dot of that stem, so a
stem with a dot inside is cut short, and two programs of one folder may be written to one place
(`assemblyPath_shared`). Stems without such a dot are kept.

* `assemblyPath_eq` says what the path is.
* `assemblyPath_keeps` says that stems without a dot inside are kept, and that programs with such stems
  are written to different places.
-/

namespace Threefold

namespace Path

/-! ## Segments -/

/-- What can be the name of something that a path leads to. -/
structure IsName (s : String) : Prop where
  nonempty : s ≠ ""
  here : s ≠ "."
  above : s ≠ ".."

theorem exists_splitSlashes {c : Char} (hc : c ≠ '/') (cs : List Char) : ∃ part others,
    splitSlashes cs = part :: others ∧ splitSlashes (c :: cs) = (c :: part) :: others := by
  obtain ⟨part, others, parts⟩ := List.exists_cons_of_ne_nil (splitSlashes_ne_nil cs)
  refine ⟨part, others, parts, ?_⟩
  unfold splitSlashes
  simp [parts]

theorem notMem_splitSlashes {cs : List Char} : ∀ part ∈ splitSlashes cs, '/' ∉ part := by
  induction cs with
  | nil => simp [splitSlashes]
  | cons c cs ih =>
    by_cases hc : c = '/'
    · subst hc
      exact List.forall_mem_cons.mpr ⟨List.not_mem_nil, ih⟩
    · obtain ⟨part, others, parts, whole⟩ := exists_splitSlashes hc cs
      rw [parts] at ih
      obtain ⟨first, later⟩ := List.forall_mem_cons.mp ih
      rw [whole]
      exact List.forall_mem_cons.mpr
        ⟨List.not_mem_cons_of_ne_of_not_mem (Ne.symm hc) first, later⟩

theorem splitSlashes_of_notMem {cs : List Char} (h : '/' ∉ cs) : splitSlashes cs = [cs] := by
  induction cs with
  | nil => rfl
  | cons c cs ih =>
    obtain ⟨first, later⟩ := not_or.mp (mt List.mem_cons.mpr h)
    obtain ⟨part, others, parts, whole⟩ := exists_splitSlashes (Ne.symm first) cs
    rw [ih later] at parts
    cases parts
    exact whole

/-- No segment of a path that is read from a text has a slash. -/
theorem notMem_of_mem_segments {t x : String} (h : x ∈ (ofText t).segments) : '/' ∉ x.toList := by
  have parts (cs : List Char) {x : String} (h : x ∈ segmentsOf cs) : '/' ∉ x.toList := by
    unfold segmentsOf at h
    split at h
    · cases h
    · obtain ⟨part, hp, rfl⟩ := List.mem_map.mp h
      rw [String.toList_ofList]
      exact notMem_splitSlashes part hp
  unfold ofText at h
  split at h <;> exact parts _ h

/-- A text without slashes is a segment. -/
theorem ofText_of_notMem {s : String} (nonempty : s ≠ "") (h : '/' ∉ s.toList) :
    ofText s = ⟨false, [s]⟩ := by
  have parts : segmentsOf s.toList = [s] := by
    rw [segmentsOf, if_neg (by simpa using nonempty), splitSlashes_of_notMem h, List.map_singleton,
      String.ofList_toList]
  unfold ofText
  split
  · rename_i rest slash
    rw [slash] at h
    exact absurd List.mem_cons_self h
  · rw [parts]

/-! ## The last segment -/

variable {isAbsolute : Bool} {front : List String} {name : String}

theorem backwards_concat (hn : IsName name) :
    backwards ⟨isAbsolute, front ++ [name]⟩ = name :: front.reverse := by
  have last (rest : List String) : meaning isAbsolute (name :: rest) = name :: rest := by
    cases rest <;> simp [meaning, hn.nonempty, hn.here]
  rw [backwards, List.reverse_append]
  exact last front.reverse

theorem fileName?_concat (hn : IsName name) :
    fileName? ⟨isAbsolute, front ++ [name]⟩ = some name := by
  simp [fileName?, backwards_concat hn, hn.here, hn.above]

theorem withExtension_concat (hn : IsName name) (stem : stemOf name ≠ ".") (extension : String) :
    withExtension ⟨isAbsolute, front ++ [name]⟩ extension =
      ⟨isAbsolute, front ++ [stemOf name ++ "." ++ extension]⟩ := by
  simp [withExtension, backwards_concat hn, hn.here, hn.above, stem]

/-- The segments in front of what is to be followed from a path. -/
def leading (p : Path) : List String :=
  if p.segments.getLast? = some "" then p.segments.dropLast else p.segments

theorem join_name (p : Path) (name : String) :
    p.join ⟨false, [name]⟩ = ⟨p.isAbsolute, p.leading ++ [name]⟩ := by
  unfold join leading
  cases p.segments with
  | nil => rfl
  | cons s rest =>
    show (if (s :: rest).getLast? = some "" then _ else _) = _
    split <;> rfl

theorem meaning_subset (isAbsolute : Bool) (back : List String) :
    ∀ s ∈ meaning isAbsolute back, s ∈ back := by
  fun_induction meaning isAbsolute back with
  | case1 => exact fun s hs => hs
  | case2 => nofun
  | case3 => exact fun s hs => hs
  | case4 s t rest skipped ih => exact fun x hx => List.mem_cons_of_mem s (ih x hx)
  | case5 => exact fun s hs => hs

theorem head_meaning {back rest : List String} (h : meaning isAbsolute back = name :: rest) :
    name ≠ "" := by
  fun_induction meaning isAbsolute back with
  | case1 => cases h
  | case2 => cases h
  | case3 s kept =>
    cases h
    simp_all
  | case4 s t others skipped ih => exact ih h
  | case5 s t others kept =>
    cases h
    simp_all

/-- The name of what a path leads to is one of its segments. -/
theorem isName_of_fileName? {p : Path} (h : p.fileName? = some name) :
    IsName name ∧ name ∈ p.segments := by
  unfold fileName? at h
  split at h
  · cases h
  rename_i s rest back
  split at h
  · cases h
  rename_i other
  cases h
  refine ⟨⟨head_meaning back, ?_, ?_⟩, ?_⟩
  · exact fun same => other (by simp [same])
  · exact fun same => other (by simp [same])
  · have mem := meaning_subset p.isAbsolute p.segments.reverse name (by
      rw [← backwards, back]
      exact List.mem_cons_self)
    exact List.mem_reverse.mp mem

/-! ## Stems -/

/-- A name is what stands at the two sides of its last dot, and there is something in front of it. -/
theorem splitName?_eq_some {stem extension : String} (h : splitName? name = some (stem, extension)) :
    name = stem ++ "." ++ extension ∧ stem ≠ "" := by
  unfold splitName? at h
  dsimp only at h
  split at h
  · cases h
  rename_i c before dot
  split at h
  · cases h
  rename_i more
  cases h
  have point : c = '.' := by
    have stop := List.head?_dropWhile_not (· ≠ '.') name.toList.reverse
    rw [dot] at stop
    exact of_not_not (of_decide_eq_false stop)
  subst point
  have parts : name.toList.reverse.takeWhile (· ≠ '.') ++ _ = name.toList.reverse :=
    List.takeWhile_append_dropWhile
  rw [dot] at parts
  generalize name.toList.reverse.takeWhile (· ≠ '.') = behind at parts ⊢
  have text := congrArg List.reverse parts
  rw [List.reverse_reverse, List.reverse_append, List.reverse_cons] at text
  constructor
  · rw [← String.toList_inj, ← text]
    simp
  · simpa using more

/-- A name without a dot behind its first character. -/
structure IsWhole (s : String) : Prop where
  undotted : splitName? s = none
  here : s ≠ "."

theorem IsWhole.stemOf_eq {s : String} (h : IsWhole s) : stemOf s = s := by
  rw [stemOf, h.undotted, Option.elim_none]

end Path

namespace Settings

open Threefold.Path

/-- A path leads to a program with a stem. -/
structure IsSource (p : Path) (stem : String) : Prop where
  stem : p.stem? = some stem
  extension : p.extension? = some sourceExtension

theorem IsSource.fileName? {p : Path} {stem : String} (h : IsSource p stem) :
    p.fileName? = some (stem ++ "." ++ sourceExtension) ∧ stem ≠ "" := by
  obtain ⟨name, found, split⟩ := Option.bind_eq_some_iff.mp h.extension
  obtain ⟨⟨first, extension⟩, parts, same⟩ := Option.map_eq_some_iff.mp split
  have own := h.stem
  rw [Path.stem?, found, Option.map_some, stemOf, parts] at own
  cases own
  cases same
  obtain ⟨rfl, nonempty⟩ := splitName?_eq_some parts
  exact ⟨found, nonempty⟩

theorem IsSource.ofText_stem {t stem : String} (h : IsSource (.ofText t) stem) :
    Path.ofText stem = ⟨false, [stem]⟩ := by
  obtain ⟨found, nonempty⟩ := h.fileName?
  have slash := notMem_of_mem_segments (isName_of_fileName? found).2
  rw [String.toList_append, String.toList_append] at slash
  exact ofText_of_notMem nonempty fun mem =>
    slash (List.mem_append_left _ (List.mem_append_left _ mem))

/-- The folder to which the machine code of a program is written. -/
def targetFolder (s : Settings) (source : Path) : Path :=
  (source.parent?.getD ⟨false, []⟩).join s.outputFolder

variable {t u stem stem' : String}

/-- Where machine code is written: what stands behind the last dot of a stem is lost. -/
theorem assemblyPath_eq (s : Settings) (h : IsSource (.ofText t) stem) (named : IsName stem)
    (kept : stemOf stem ≠ ".") :
    s.assemblyPath (.ofText t) = ⟨(s.targetFolder (.ofText t)).isAbsolute,
      (s.targetFolder (.ofText t)).leading ++ [stemOf stem ++ "." ++ assemblyExtension]⟩ := by
  unfold assemblyPath
  rw [h.stem]
  dsimp only [Option.getD_some]
  rw [h.ofText_stem, join_name, withExtension_concat named kept]
  rfl

theorem isName_target (x : String) : IsName (x ++ "." ++ assemblyExtension) := by
  have last : (x ++ "." ++ assemblyExtension).toList.getLast? = some 's' := by
    simp [assemblyExtension]
  constructor <;> intro same <;> rw [same] at last <;> exact absurd last (by decide)

theorem target_inj {x y : String}
    (h : x ++ "." ++ assemblyExtension = y ++ "." ++ assemblyExtension) : x = y :=
  (String.append_left_inj _).mp ((String.append_left_inj _).mp h)

/-- The file to which machine code is written is named for what stands in front of the last dot of the
stem. -/
theorem fileName?_assemblyPath (s : Settings) (h : IsSource (.ofText t) stem) (named : IsName stem)
    (kept : stemOf stem ≠ ".") :
    (s.assemblyPath (.ofText t)).fileName? = some (stemOf stem ++ "." ++ assemblyExtension) := by
  rw [assemblyPath_eq s h named kept]
  exact fileName?_concat (isName_target _)

/-- Two programs of one folder are written to one place if and only if their stems agree up to their
last dots. -/
theorem assemblyPath_eq_iff (s : Settings) (h : IsSource (.ofText t) stem) (named : IsName stem)
    (kept : stemOf stem ≠ ".") (h' : IsSource (.ofText u) stem') (named' : IsName stem')
    (kept' : stemOf stem' ≠ ".") (folder : (Path.ofText t).parent? = (Path.ofText u).parent?) :
    s.assemblyPath (.ofText t) = s.assemblyPath (.ofText u) ↔ stemOf stem = stemOf stem' := by
  constructor
  · intro same
    have names := congrArg Path.fileName? same
    rw [fileName?_assemblyPath s h named kept, fileName?_assemblyPath s h' named' kept'] at names
    exact target_inj (Option.some.inj names)
  · intro same
    have folders : s.targetFolder (.ofText t) = s.targetFolder (.ofText u) := by
      rw [targetFolder, folder, targetFolder]
    rw [assemblyPath_eq s h named kept, assemblyPath_eq s h' named' kept', folders, same]

theorem IsSource.isName (h : IsSource (.ofText t) stem) (whole : IsWhole stem) :
    IsName stem ∧ stemOf stem ≠ "." := by
  refine ⟨⟨h.fileName?.2, whole.here, ?_⟩, ?_⟩
  · rintro rfl
    exact absurd whole.undotted (by decide)
  · rw [whole.stemOf_eq]
    exact whole.here

/-- A stem without a dot behind its first character is kept, and so the machine code of two programs
of one folder that have such stems is written to two files. -/
theorem assemblyPath_keeps (s : Settings) (h : IsSource (.ofText t) stem) (whole : IsWhole stem) :
    (s.assemblyPath (.ofText t)).fileName? = some (stem ++ "." ++ assemblyExtension) ∧
      ∀ u stem', IsSource (.ofText u) stem' → IsWhole stem' →
        (Path.ofText t).parent? = (Path.ofText u).parent? →
        s.assemblyPath (.ofText t) = s.assemblyPath (.ofText u) →
          (Path.ofText t).fileName? = (Path.ofText u).fileName? := by
  obtain ⟨named, kept⟩ := h.isName whole
  constructor
  · rw [fileName?_assemblyPath s h named kept, whole.stemOf_eq]
  · intro u stem' h' whole' folder same
    obtain ⟨named', kept'⟩ := h'.isName whole'
    rw [assemblyPath_eq_iff s h named kept h' named' kept' folder, whole.stemOf_eq,
      whole'.stemOf_eq] at same
    rw [h.fileName?.1, h'.fileName?.1, same]

/-- A program with a dot in its stem is written where another one is written. -/
theorem assemblyPath_shared :
    IsSource (.ofText "a.b.expr") "a.b" ∧ IsSource (.ofText "a.expr") "a" ∧
      Settings.default.assemblyPath (.ofText "a.b.expr") =
        Settings.default.assemblyPath (.ofText "a.expr") := by
  refine ⟨⟨by decide, by decide⟩, ⟨by decide, by decide⟩, by decide⟩

end Settings

end Threefold
