import MifirReport.Proofs.Files.Disk

/-!
# Disks that grow

A disk grows if files are added to it and nothing is taken away (`Disk.Grows`). A walk then ends as
before, but for one case : where it met nothing and failed, it may meet a file now and fail for that
(`Disk.Later`, `later_walk`). So a path that can be read neither before nor after fails for the same
cause, or had nothing on its way (`read_error_of_grows`). It is the same cause if no file was added
(`read_error_eq`).
-/

namespace MifirReport.Files.Disk

variable {disk disk' : Disk} {c : List String} {path : String} {paths : Set String}

/-- A disk has what another has, and directories at the same paths. -/
structure Grows (disk disk' : Disk) : Prop where
  directories : disk.SameDirectories disk'
  keeps : ∀ c, disk.find? c ≠ none → disk'.find? c ≠ none

theorem ChangedAt.symm (h : disk.ChangedAt paths disk') : disk'.ChangedAt paths disk where
  directories := h.directories.symm
  others c hc := by
    refine (h.others c fun path hpath => ?_).symm
    rw [← h.place?_eq]
    exact hc path hpath

/-- Changed files that are there in the end are no loss. -/
theorem grows_of_changedAt (h : disk.ChangedAt paths disk')
    (hfiles : ∀ path ∈ paths, disk.place? path ≠ none → ∃ bytes, disk'.read path = .ok bytes) :
    disk.Grows disk' := by
  refine ⟨h.directories, fun c hc => ?_⟩
  by_cases hplace : ∃ path ∈ paths, disk.place? path = some c
  · obtain ⟨path, hpath, hplace⟩ := hplace
    obtain ⟨bytes, hread⟩ := hfiles path hpath (by simp [hplace])
    obtain ⟨c', hplace', hfind⟩ := read_eq_ok_iff.1 hread
    rw [h.place?_eq, hplace, Option.some.injEq] at hplace'
    simp [hplace', hfind]
  · rw [h.others c fun path hpath e => hplace ⟨path, hpath, e⟩]
    exact hc

/-- Outcomes of a walk on a disk and on one that has grown : the same, but for what is at the end,
and for a file that is in the way where nothing was. -/
inductive Later (disk disk' : Disk) : Except Cause Place → Except Cause Place → Prop
  | directory (c : List String) (asks : Bool) :
      Later disk disk' (.ok ⟨c, some .directory, asks⟩) (.ok ⟨c, some .directory, asks⟩)
  | file (c : List String) (asks : Bool) : disk.find? c ≠ some .directory →
      Later disk disk' (.ok ⟨c, disk.find? c, asks⟩) (.ok ⟨c, disk'.find? c, asks⟩)
  | error (cause : Cause) : Later disk disk' (.error cause) (.error cause)
  | covered : Later disk disk' (.error .notFound) (.error .notDirectory)

theorem later_walk (h : disk.Grows disk') (segments : List String) :
    Later disk disk' (disk.walk c segments) (disk'.walk c segments) := by
  induction segments generalizing c with
  | nil => exact .directory c true
  | cons segment segments ih =>
    rw [walk, walk]
    by_cases hskip : segment = "" ∨ segment = "."
    · rw [if_pos hskip, if_pos hskip]
      exact ih
    by_cases hup : segment = ".."
    · rw [if_neg hskip, if_neg hskip, if_pos hup, if_pos hup]
      exact ih
    rw [if_neg hskip, if_neg hskip, if_neg hup, if_neg hup]
    by_cases hname : segment.utf8ByteSize > maxName
    · rw [if_pos hname, if_pos hname]
      exact .error _
    rw [if_neg hname, if_neg hname]
    dsimp only
    by_cases hdir : disk.find? (c ++ [segment]) = some .directory
    · rw [hdir, (h.directories _).2 hdir]
      exact ih
    have hdir' : disk'.find? (c ++ [segment]) ≠ some .directory := fun e =>
      hdir ((h.directories _).1 e)
    have hkeep := h.keeps (c ++ [segment])
    have hfile : Later disk disk' _ _ := .file (c ++ [segment]) (segments ≠ []) hdir
    generalize segments.all (· = "") = all
    -- The walk ends here, at a file or at nothing, and fails if it has to go on.
    rcases hfind : disk.find? (c ++ [segment]) with _ | bytes | _
    · rcases hfind' : disk'.find? (c ++ [segment]) with _ | bytes' | _
      · rw [hfind, hfind'] at hfile
        cases all
        · exact .error .notFound
        · exact hfile
      · rw [hfind, hfind'] at hfile
        cases all
        · exact .covered
        · exact hfile
      · exact absurd hfind' hdir'
    · rcases hfind' : disk'.find? (c ++ [segment]) with _ | bytes' | _
      · exact absurd hfind' (hkeep (by simp [hfind]))
      · rw [hfind, hfind'] at hfile
        cases all
        · exact .error .notDirectory
        · exact hfile
      · exact absurd hfind' hdir'
    · exact absurd hfind hdir

theorem later_locate (h : disk.Grows disk') (path : String) :
    Later disk disk' (disk.locate path) (disk'.locate path) := by
  unfold locate
  split_ifs
  · exact .error _
  · exact .error _
  · exact .error _
  · exact later_walk h _

/-- What cannot be read on either disk fails for the same cause, unless a file is there now where
nothing was. -/
theorem read_error_of_grows (h : disk.Grows disk') {cause : Cause}
    (hread : disk.read path = .error cause) (hlater : ∀ bytes, disk'.read path ≠ .ok bytes) :
    ∃ cause', disk'.read path = .error cause' ∧
      (cause' = cause ∨ cause = .notFound ∧ cause' = .notDirectory) := by
  have hlocate := later_locate h path
  unfold read at hread hlater ⊢
  generalize disk.locate path = found, disk'.locate path = found' at hread hlater hlocate
  cases hlocate with
  | directory c asks => exact ⟨_, rfl, Or.inl (Except.error.inj hread)⟩
  | error cause' => exact ⟨_, rfl, Or.inl (Except.error.inj hread)⟩
  | covered => exact ⟨_, rfl, Or.inr ⟨(Except.error.inj hread).symm, rfl⟩⟩
  | file c asks hdir =>
    have hdir' : disk'.find? c ≠ some .directory := fun e => hdir ((h.directories _).1 e)
    have hkeep := h.keeps c
    match hfind : disk.find? c, hfind' : disk'.find? c with
    | some .directory, _ => exact absurd hfind hdir
    | _, some .directory => exact absurd hfind' hdir'
    | some (.file _), none => exact absurd hfind' (hkeep (by simp [hfind]))
    | none, none =>
      rw [hfind] at hread
      exact ⟨_, rfl, Or.inl (Except.error.inj hread)⟩
    | none, some (.file bytes) =>
      rw [hfind] at hread
      rw [hfind'] at hlater
      cases asks
      · exact absurd rfl (hlater bytes)
      · exact ⟨_, rfl, Or.inr ⟨(Except.error.inj hread).symm, rfl⟩⟩
    | some (.file bytes), some (.file bytes') =>
      rw [hfind] at hread
      rw [hfind'] at hlater
      cases asks
      · exact absurd rfl (hlater bytes')
      · exact ⟨_, rfl, Or.inl (Except.error.inj hread)⟩

/-- If no file was added either, the cause is the same. -/
theorem read_error_eq (h : disk.Grows disk') (h' : disk'.Grows disk) {cause : Cause}
    (hread : disk.read path = .error cause) (hlater : ∀ bytes, disk'.read path ≠ .ok bytes) :
    disk'.read path = .error cause := by
  obtain ⟨cause', hread', hcause⟩ := read_error_of_grows h hread hlater
  obtain ⟨cause'', hread'', hcause'⟩ := read_error_of_grows h' hread' (by simp [hread])
  rw [hread, Except.error.injEq] at hread''
  rw [hread', Except.error.injEq]
  rcases hcause with hcause | ⟨hbefore, hafter⟩
  · exact hcause
  · rcases hcause' with hcause' | ⟨hcause', -⟩
    · rw [hread'', hcause']
    · rw [hafter] at hcause'
      cases hcause'

end MifirReport.Files.Disk
