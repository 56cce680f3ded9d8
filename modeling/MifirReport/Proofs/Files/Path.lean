import MifirReport.Proofs.Files.Disk

/-!
# How paths end

Two paths whose texts end differently lead to different places, if the endings are names : free of
slashes, and longer than the components that do not name anything (`apart_of_endings`). A walk goes
to the last component of its path from the directory before it (`exists_walk_of_place?`), and
joining paths keeps the end of the second (`suffix_join`).
-/

namespace MifirReport.Files

open Disk

/-! ## Endings of texts -/

namespace Path

variable {path ending : List Char}

/-- A path that is continued within its last component keeps the components before it. -/
theorem exists_segments_append (before : List Char) (h : '/' ∉ ending) :
    ∃ start, segments (before ++ ending) = (segments before).dropLast ++ [start ++ ending] := by
  unfold segments
  induction before with
  | nil => exact ⟨[], by rw [List.nil_append, List.splitOn_eq_singleton h]; rfl⟩
  | cons c before ih =>
    obtain ⟨start, hsplit⟩ := ih
    rw [List.cons_append, List.splitOn_cons_eq_if_modifyHead, List.splitOn_cons_eq_if_modifyHead,
      hsplit]
    rcases hbefore : before.splitOn '/' with _ | ⟨first, _ | ⟨second, rest⟩⟩
    · exact absurd hbefore (List.splitOn_ne_nil _ _)
    · split_ifs
      · exact ⟨start, rfl⟩
      · exact ⟨c :: start, rfl⟩
    · split_ifs <;> exact ⟨start, rfl⟩

/-- A path that is joined to a directory is at the end of the result. -/
theorem suffix_join (directory path : String) : path.toList <:+ (join directory path).toList := by
  unfold join
  split_ifs
  · exact List.suffix_refl _
  · rw [String.toList_append]
    exact List.suffix_append _ _
  · rw [String.toList_append]
    exact List.suffix_append _ _

end Path

/-! ## Endings of places -/

namespace Disk

variable {disk : Disk} {c : List String} {path other : String}

/-- A walk to a last segment that is a step goes there from a directory, unless it ends in one. -/
theorem exists_walk_of_concat {segments : List String} {segment : String} {place : Place}
    (hstep : IsStep segment) (hnode : place.node ≠ some .directory)
    (hwalk : disk.walk c (segments ++ [segment]) = .ok place) :
    ∃ d, disk.walk c segments = .ok ⟨d, some .directory, true⟩ ∧
      place.components = d ++ [segment] := by
  induction segments generalizing c with
  | nil =>
    rw [List.nil_append, walk_cons_eq_ok_iff] at hwalk
    rcases hwalk with ⟨hskip, -⟩ | ⟨hup, -⟩ | ⟨-, -, ⟨-, hwalk⟩ | ⟨-, -, rfl⟩⟩
    · exact absurd hskip hstep.1
    · exact absurd hup hstep.2
    · rw [walk, Except.ok.injEq] at hwalk
      exact absurd (by rw [← hwalk]) hnode
    · exact ⟨c, rfl, rfl⟩
  | cons first segments ih =>
    rw [List.cons_append, walk_cons_eq_ok_iff] at hwalk
    simp only [walk_cons_eq_ok_iff]
    rcases hwalk with ⟨hskip, hwalk⟩ | ⟨hup, hwalk⟩ |
      ⟨hfirst, hname, ⟨hdir, hwalk⟩ | ⟨-, hlater, -⟩⟩
    · obtain ⟨d, hwalk', hd⟩ := ih hwalk
      exact ⟨d, Or.inl ⟨hskip, hwalk'⟩, hd⟩
    · obtain ⟨d, hwalk', hd⟩ := ih hwalk
      exact ⟨d, Or.inr (Or.inl ⟨hup, hwalk'⟩), hd⟩
    · obtain ⟨d, hwalk', hd⟩ := ih hwalk
      exact ⟨d, Or.inr (Or.inr ⟨hfirst, hname, Or.inl ⟨hdir, hwalk'⟩⟩), hd⟩
    · -- a segment that leads on may not follow a file
      have hempty : segment = "" := by simpa using List.all_eq_true.1 hlater segment (by simp)
      exact absurd (Or.inl hempty) hstep.1

/-- A component that is long enough leads on. -/
theorem isStep_append {ending : List Char} (start : List Char) (hlong : 2 < ending.length) :
    IsStep (String.ofList (start ++ ending)) := by
  have hlength : ∀ text : String, text.length ≤ 2 → String.ofList (start ++ ending) ≠ text := by
    rintro _ htext rfl
    simp only [String.length_ofList, List.length_append] at htext
    omega
  exact ⟨not_or.2 ⟨hlength _ (by decide), hlength _ (by decide)⟩, hlength _ (by decide)⟩

/-- The place of a path that ends in a name is reached from the directory before the name. -/
theorem exists_walk_of_place? {ending : List Char} (hslash : '/' ∉ ending)
    (hlong : 2 < ending.length) {before : List Char} (hpath : before ++ ending = path.toList)
    (hplace : disk.place? path = some c) :
    ∃ d start, disk.walk [] ((Path.segments before).dropLast.map String.ofList) =
        .ok ⟨d, some .directory, true⟩ ∧ c = d ++ [String.ofList (start ++ ending)] := by
  obtain ⟨start, hsegments⟩ := Path.exists_segments_append before hslash
  rw [hpath] at hsegments
  obtain ⟨hlocate, hnode⟩ := place?_eq_some_iff.1 hplace
  unfold locate at hlocate
  split_ifs at hlocate
  rw [hsegments, List.map_append, List.map_singleton] at hlocate
  obtain ⟨d, hwalk, hd⟩ := exists_walk_of_concat (isStep_append start hlong) hnode hlocate
  exact ⟨d, start, hwalk, hd⟩

/-- The place of a path ends as the path does, if the ending is a name. -/
theorem suffix_of_place? {ending : List Char} (hslash : '/' ∉ ending) (hlong : 2 < ending.length)
    (hpath : ending <:+ path.toList) (hplace : disk.place? path = some c) :
    ∃ name, c.getLast? = some name ∧ ending <:+ name.toList := by
  obtain ⟨before, hbefore⟩ := hpath
  obtain ⟨d, start, -, rfl⟩ := exists_walk_of_place? hslash hlong hbefore hplace
  exact ⟨_, List.getLast?_concat, by simp⟩

/-- Paths with different endings of the same length lead to different places. -/
theorem apart_of_endings {ending ending' : List Char} (hslash : '/' ∉ ending)
    (hslash' : '/' ∉ ending') (hlong : 2 < ending.length) (hlength : ending.length = ending'.length)
    (hne : ending ≠ ending') (hpath : ending <:+ path.toList) (hother : ending' <:+ other.toList) :
    disk.Apart path other := by
  intro c hc hc'
  obtain ⟨name, hlast, hname⟩ := suffix_of_place? hslash hlong hpath hc
  obtain ⟨name', hlast', hname'⟩ := suffix_of_place? hslash' (hlength ▸ hlong) hother hc'
  obtain rfl := Option.some.inj (hlast.symm.trans hlast')
  have hsuffix := List.suffix_of_suffix_length_le hname hname' hlength.le
  exact hne (hsuffix.eq_of_length hlength)

end Disk

end MifirReport.Files
