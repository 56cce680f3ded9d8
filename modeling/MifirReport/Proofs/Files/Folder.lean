import MifirReport.Proofs.Files.Path

/-!
# Names that are joined to a directory

A name can begin with a text that is not under control : `before ++ ending`, where the ending has no
slash. Joined to a directory it has the directory as its parent just if `before` has no folder
before its last slash, or that is the directory itself, from the root (`LeadsInto`,
`same_parent_join_iff`). In any case the last component has the ending (`exists_fileName?_join`).

On a disk the place of such a path is directly in its parent (`within_parent`). Paths with the same
components have the same places in them (`Within.congr`), as components that lead nowhere do not
matter to a walk (`walk_filter_counts`).
-/

namespace MifirReport.Files

open Disk

/-! ## Components -/

namespace Path

variable {ending : List Char}

/-- The components that lead somewhere, in order. -/
def components (path : List Char) : List (List Char) :=
  (segments path).filter counts

/-- Two paths have the same components, and both start from the root or neither does. -/
def Same (path other : String) : Prop :=
  isAbsolute path.toList = isAbsolute other.toList ∧
    components path.toList = components other.toList

instance (path other : String) : Decidable (Same path other) :=
  inferInstanceAs (Decidable (_ ∧ _))

/-- A text that can be a component of a path and leads somewhere. -/
def IsComponent (part : List Char) : Prop :=
  counts part = true ∧ '/' ∉ part

/-- The components before the last slash of a path. -/
def folder (path : List Char) : List (List Char) :=
  (segments path).dropLast.filter counts

theorem reversedComponents_eq (path : List Char) :
    reversedComponents path = (components path).reverse :=
  rfl

/-- A slash parts a path into two, each with its own components. -/
theorem components_slash (before after : List Char) :
    components (before ++ '/' :: after) = components before ++ components after := by
  rw [components, segments, List.splitOn_append_cons_self, List.filter_append]
  rfl

theorem components_nil : components [] = [] := by
  simp [components, segments, counts]

/-- A path that is joined follows the directory, unless it begins at the root. -/
theorem components_join (directory path : String) :
    components (join directory path).toList =
      (if isAbsolute path.toList then [] else components directory.toList) ++
        components path.toList := by
  unfold join
  cases habsolute : isAbsolute path.toList with
  | true => simp
  | false =>
    by_cases hempty : directory = ""
    · subst hempty
      simp [components_nil]
    by_cases hslash : directory.toList.getLast? = some '/'
    · obtain ⟨before, hbefore⟩ := List.getLast?_eq_some_iff.1 hslash
      rw [if_neg (by simp [hempty]), if_pos hslash, String.toList_append, hbefore,
        List.append_assoc, List.singleton_append, components_slash, components_slash,
        components_nil, List.append_nil]
      rfl
    · rw [if_neg (by simp [hempty]), if_neg hslash, String.toList_append, String.toList_append,
        List.append_assoc]
      exact components_slash _ _

/-- A joined path begins at the root if either of the two does. -/
theorem isAbsolute_join (directory path : String) :
    isAbsolute (join directory path).toList =
      (isAbsolute path.toList || isAbsolute directory.toList) := by
  unfold join
  cases habsolute : isAbsolute path.toList with
  | true => simp [habsolute]
  | false =>
    by_cases hempty : directory = ""
    · subst hempty
      rw [if_pos (by simp), habsolute]
      rfl
    have hhead : ∀ after, isAbsolute (directory ++ after).toList = isAbsolute directory.toList := by
      intro after
      rw [isAbsolute, String.toList_append, isAbsolute]
      cases hdirectory : directory.toList with
      | nil => exact absurd (String.toList_eq_nil_iff.1 hdirectory) hempty
      | cons c rest => rfl
    rw [if_neg (by simp [hempty]), Bool.false_or]
    split_ifs
    · exact hhead path
    · rw [String.append_assoc, hhead]

theorem not_mem_of_mem_segments {path segment : List Char} (h : segment ∈ segments path) :
    '/' ∉ segment := by
  unfold segments at h
  induction path generalizing segment with
  | nil =>
    rw [List.splitOn_nil, List.mem_singleton] at h
    simp [h]
  | cons c path ih =>
    rw [List.splitOn_cons_eq_if_modifyHead] at h
    split_ifs at h with hc
    · rcases List.mem_cons.1 h with rfl | h
      · simp
      · exact ih h
    · cases hpath : path.splitOn '/' with
      | nil => exact absurd hpath (List.splitOn_ne_nil _ _)
      | cons first rest =>
        rw [hpath] at h ih
        rcases List.mem_cons.1 h with rfl | h
        · have hne : c ≠ '/' := fun e => hc (by rw [e]; rfl)
          simp [hne.symm, ih List.mem_cons_self]
        · exact ih (List.mem_cons_of_mem _ h)

theorem isComponent_of_mem {path part : List Char} (h : part ∈ components path) :
    IsComponent part :=
  ⟨(List.mem_filter.1 h).2, not_mem_of_mem_segments (List.mem_filter.1 h).1⟩

/-- Components that are joined with slashes are the components of the result. -/
theorem components_intercalate {parts : List (List Char)}
    (h : ∀ part ∈ parts, IsComponent part) :
    components (['/'].intercalate parts) = parts := by
  by_cases hparts : parts = []
  · rw [hparts, List.intercalate_nil, components_nil]
  · have hslash : ∀ part ∈ parts, '/' ∉ part := fun part hpart => (h part hpart).2
    rw [components, segments, List.splitOn_intercalate _ hslash hparts, List.filter_eq_self]
    exact fun part hpart => (h part hpart).1

theorem isAbsolute_intercalate {parts : List (List Char)}
    (h : ∀ part ∈ parts, IsComponent part) :
    isAbsolute (['/'].intercalate parts) = false := by
  rcases parts with _ | ⟨_ | ⟨c, part⟩, parts⟩
  · rfl
  · exact absurd (h [] List.mem_cons_self).1 (by simp [counts])
  · have hc : c ≠ '/' := by
      rintro rfl
      exact (h _ List.mem_cons_self).2 List.mem_cons_self
    cases parts <;> simp [isAbsolute, List.intercalate_cons_cons, hc]

/-- The parent of a path is all but its last component. -/
theorem toList_parent {path : String} {before : List (List Char)} {name : List Char}
    (h : components path.toList = before ++ [name]) :
    (parent path).toList =
      if isAbsolute path.toList then '/' :: ['/'].intercalate before
      else ['/'].intercalate before := by
  rw [parent, reversedComponents_eq, h, List.reverse_append, List.reverse_singleton]
  simp

/-- The parent of a path has the components but the last. -/
theorem components_parent {path : String} {before : List (List Char)} {name : List Char}
    (h : components path.toList = before ++ [name]) :
    components (parent path).toList = before := by
  have hbefore : ∀ part ∈ before, IsComponent part := fun part hpart =>
    isComponent_of_mem (h ▸ List.mem_append_left _ hpart)
  rw [toList_parent h]
  split_ifs
  · rw [← List.nil_append ('/' :: _), components_slash, components_nil, List.nil_append,
      components_intercalate hbefore]
  · exact components_intercalate hbefore

/-- A path and its parent begin at the same place. -/
theorem isAbsolute_parent {path : String} {before : List (List Char)} {name : List Char}
    (h : components path.toList = before ++ [name]) :
    isAbsolute (parent path).toList = isAbsolute path.toList := by
  have hbefore : ∀ part ∈ before, IsComponent part := fun part hpart =>
    isComponent_of_mem (h ▸ List.mem_append_left _ hpart)
  rw [toList_parent h]
  cases habsolute : isAbsolute path.toList with
  | true => rfl
  | false => exact isAbsolute_intercalate hbefore

/-! ## Names -/

theorem counts_of_length {part : List Char} (h : 1 < part.length) : counts part = true := by
  rcases part with _ | ⟨c, _ | ⟨d, rest⟩⟩
  · cases h
  · exact absurd h (lt_irrefl 1)
  · simp [counts]

/-- A path that is continued by a name has the name as its last component. -/
theorem exists_components_append (before : List Char) (hslash : '/' ∉ ending)
    (hlong : 2 < ending.length) :
    ∃ start, components (before ++ ending) = folder before ++ [start ++ ending] := by
  obtain ⟨start, hsegments⟩ := exists_segments_append before hslash
  have hcounts : counts (start ++ ending) = true := by
    refine counts_of_length ?_
    rw [List.length_append]
    omega
  refine ⟨start, ?_⟩
  rw [components, hsegments, List.filter_append, List.filter_cons_of_pos hcounts, List.filter_nil]
  rfl

theorem isAbsolute_append (before : List Char) (hslash : '/' ∉ ending) :
    isAbsolute (before ++ ending) = isAbsolute before := by
  cases before with
  | cons c before => rfl
  | nil =>
    cases ending with
    | nil => rfl
    | cons c ending =>
      have hc : c ≠ '/' := by
        rintro rfl
        exact hslash List.mem_cons_self
      simp [isAbsolute, hc]

/-- A component stands for itself. -/
theorem components_of_isComponent {part : List Char} (h : IsComponent part) :
    components part = [part] := by
  have hparts := components_intercalate (List.forall_mem_singleton.2 h)
  rwa [List.intercalate_singleton] at hparts

theorem isAbsolute_of_isComponent {part : List Char} (h : IsComponent part) :
    isAbsolute part = false :=
  isAbsolute_append [] h.2

/-- A component that is joined to a directory is put after it, with a slash between them where there
is none. -/
theorem toList_join_of_isComponent (directory : String) {part : String}
    (h : IsComponent part.toList) :
    (join directory part).toList =
      directory.toList ++ (if directory.toList.getLast?.getD '/' = '/' then [] else ['/']) ++
        part.toList := by
  unfold join
  by_cases hempty : directory = ""
  · subst hempty
    simp
  have hne : directory.toList ≠ [] := fun hnil => hempty (String.toList_eq_nil_iff.1 hnil)
  have hlast : directory.toList.getLast? = some '/' ↔
      directory.toList.getLast?.getD '/' = '/' := by
    rw [List.getLast?_eq_some_getLast hne, Option.some.injEq, Option.getD_some]
  rw [if_neg (by simp [isAbsolute_of_isComponent h, hempty])]
  by_cases hslash : directory.toList.getLast? = some '/'
  · rw [if_pos hslash, if_pos (hlast.1 hslash), String.toList_append, List.append_nil]
  · rw [if_neg hslash, if_neg (hlast.not.1 hslash), String.toList_append, String.toList_append]
    rfl

/-- A name that is joined is one component more. -/
theorem components_join_of_isComponent (directory : String) {part : String}
    (h : IsComponent part.toList) :
    components (join directory part).toList = components directory.toList ++ [part.toList] := by
  rw [components_join, isAbsolute_of_isComponent h, components_of_isComponent h,
    if_neg Bool.false_ne_true]

theorem isAbsolute_join_of_isComponent (directory : String) {part : String}
    (h : IsComponent part.toList) :
    isAbsolute (join directory part).toList = isAbsolute directory.toList := by
  rw [isAbsolute_join, isAbsolute_of_isComponent h, Bool.false_or]

theorem isComponent_of_fileName? {path name : List Char} (h : fileName? path = some name) :
    IsComponent name := by
  rw [fileName?, reversedComponents_eq] at h
  split at h
  · cases h
  · rename_i last before hlast
    split_ifs at h
    obtain rfl := Option.some.inj h
    exact isComponent_of_mem (List.mem_reverse.1 (hlast ▸ List.mem_cons_self))

theorem mem_of_mem_stem {name : List Char} {c : Char} (h : c ∈ stem name) : c ∈ name := by
  unfold stem splitExtension? at h
  cases hrest : name.reverse.dropWhile (· ≠ '.') with
  | nil => rwa [hrest] at h
  | cons dot before =>
    rw [hrest] at h
    cases before with
    | nil => exact h
    | cons d before =>
      have hmem : c ∈ name.reverse.dropWhile (· ≠ '.') := by
        rw [hrest]
        exact List.mem_cons_of_mem _ (List.mem_reverse.1 h)
      exact List.mem_reverse.1 ((List.dropWhile_suffix _).subset hmem)

/-- A stem is a part of one component, and has no slash. -/
theorem not_mem_fileStem? {path stem : String} (h : fileStem? path = some stem) :
    '/' ∉ stem.toList := by
  rw [fileStem?, Option.map_eq_some_iff] at h
  obtain ⟨name, hname, rfl⟩ := h
  rw [String.toList_ofList]
  exact fun hmem => (isComponent_of_fileName? hname).2 (mem_of_mem_stem hmem)

/-- A name that begins with a text leads into a directory when it is joined to it : the text has no
folder before its last slash, or that is the directory itself, from the root. -/
def LeadsInto (directory : String) (before : List Char) : Prop :=
  if isAbsolute before = true then
    isAbsolute directory.toList = true ∧ folder before = components directory.toList
  else folder before = []

instance (directory : String) (before : List Char) : Decidable (LeadsInto directory before) :=
  inferInstanceAs (Decidable (if isAbsolute before = true then
    isAbsolute directory.toList = true ∧ folder before = components directory.toList
    else folder before = []))

/-- A name without a slash leads into the directory. -/
theorem leadsInto_of_not_mem {before : List Char} (h : '/' ∉ before) (directory : String) :
    LeadsInto directory before := by
  have hrelative := isAbsolute_append [] h
  rw [List.nil_append] at hrelative
  rw [LeadsInto, hrelative, folder, segments, List.splitOn_eq_singleton h]
  simp [isAbsolute]

section Join

variable {directory path : String} {before : List Char}

/-- The components of a name that is joined to a directory. -/
theorem exists_components_join (directory : String) (hpath : path.toList = before ++ ending)
    (hslash : '/' ∉ ending) (hlong : 2 < ending.length) :
    ∃ start, components (join directory path).toList =
      (if isAbsolute before = true then [] else components directory.toList) ++ folder before ++
        [start ++ ending] := by
  obtain ⟨start, hcomponents⟩ := exists_components_append before hslash hlong
  refine ⟨start, ?_⟩
  rw [components_join, hpath, isAbsolute_append before hslash, hcomponents, List.append_assoc]

/-- The parent of a name that is joined to a directory is the directory just if the name leads into
it. -/
theorem same_parent_join_iff (hpath : path.toList = before ++ ending) (hslash : '/' ∉ ending)
    (hlong : 2 < ending.length) :
    Same (parent (join directory path)) directory ↔ LeadsInto directory before := by
  obtain ⟨start, hcomponents⟩ := exists_components_join directory hpath hslash hlong
  rw [Same, isAbsolute_parent hcomponents, components_parent hcomponents, isAbsolute_join, hpath,
    isAbsolute_append before hslash, LeadsInto]
  cases isAbsolute before with
  | true => rw [Bool.true_or, if_pos rfl, if_pos rfl, List.nil_append, @eq_comm Bool true]
  | false => simp

/-- A name that is joined to a directory ends the result. -/
theorem exists_fileName?_join (directory : String) (hpath : path.toList = before ++ ending)
    (hslash : '/' ∉ ending) (hlong : 2 < ending.length) :
    ∃ start, fileName? (join directory path).toList = some (start ++ ending) := by
  obtain ⟨start, hcomponents⟩ := exists_components_join directory hpath hslash hlong
  refine ⟨start, ?_⟩
  have hname : start ++ ending ≠ ['.', '.'] := by
    intro h
    have hlength := congrArg List.length h
    rw [List.length_append, List.length_cons, List.length_singleton] at hlength
    omega
  rw [fileName?, reversedComponents_eq, hcomponents, List.reverse_append, List.reverse_singleton,
    List.singleton_append]
  exact if_neg hname

end Join

end Path

/-! ## Places in a directory -/

namespace Disk

variable {disk : Disk} {c d : List String} {path directory : String}

/-- A place directly in a directory. -/
def Within (disk : Disk) (directory : String) (c : List String) : Prop :=
  ∃ d name, disk.walk [] ((Path.components directory.toList).map String.ofList) =
    .ok ⟨d, some .directory, true⟩ ∧ c = d ++ [name]

/-- What is in a directory is in it under each of its paths. -/
theorem Within.congr {other : String} (h : disk.Within directory c)
    (hsame : Path.Same directory other) : disk.Within other c := by
  rw [Within, ← hsame.2]
  exact h

theorem skips_iff (segment : List Char) :
    (String.ofList segment = "" ∨ String.ofList segment = ".") ↔ ¬Path.counts segment = true := by
  rw [Path.counts, ← String.toList_inj, ← String.toList_inj, String.toList_ofList]
  simp [or_iff_not_imp_left]

/-- Segments that lead nowhere do not matter to a walk that ends in a directory. -/
theorem walk_filter_counts (segments : List (List Char))
    (h : disk.walk c (segments.map String.ofList) = .ok ⟨d, some .directory, true⟩) :
    disk.walk c ((segments.filter Path.counts).map String.ofList) =
      .ok ⟨d, some .directory, true⟩ := by
  induction segments generalizing c with
  | nil => exact h
  | cons segment segments ih =>
    rw [List.map_cons, walk_cons_eq_ok_iff] at h
    by_cases hcounts : Path.counts segment = true
    · rw [List.filter_cons_of_pos hcounts, List.map_cons, walk_cons_eq_ok_iff]
      rcases h with ⟨hskip, -⟩ | ⟨hup, hwalk⟩ | ⟨hstep, hname, ⟨hdir, hwalk⟩ | ⟨hdir, -, hplace⟩⟩
      · exact absurd hcounts ((skips_iff segment).1 hskip)
      · exact Or.inr (Or.inl ⟨hup, ih hwalk⟩)
      · exact Or.inr (Or.inr ⟨hstep, hname, Or.inl ⟨hdir, ih hwalk⟩⟩)
      · rw [Place.mk.injEq] at hplace
        exact absurd (hplace.1 ▸ hplace.2.1) hdir
    · rw [List.filter_cons_of_neg hcounts]
      have hskip := (skips_iff segment).2 hcounts
      rcases h with ⟨-, hwalk⟩ | ⟨hup, -⟩ | ⟨hstep, -, -⟩
      · exact ih hwalk
      · rw [hup] at hskip
        simp at hskip
      · exact absurd hskip hstep.1

/-- The place of a path that ends in a name is directly in the parent of the path. -/
theorem within_parent {before ending : List Char} (hpath : path.toList = before ++ ending)
    (hslash : '/' ∉ ending) (hlong : 2 < ending.length) (hplace : disk.place? path = some c) :
    disk.Within (Path.parent path) c := by
  obtain ⟨d, start, hwalk, rfl⟩ := exists_walk_of_place? hslash hlong hpath.symm hplace
  obtain ⟨start', hcomponents⟩ := Path.exists_components_append before hslash hlong
  rw [← hpath] at hcomponents
  refine ⟨d, _, ?_, rfl⟩
  rw [Path.components_parent hcomponents]
  exact walk_filter_counts _ hwalk

end Disk

end MifirReport.Files
