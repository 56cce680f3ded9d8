import MifirReport.Files.Disk
import Mathlib.Data.Set.Basic
import Mathlib.Tactic.SplitIfs

/-!
# Places on a disk and what changes them

A path leads to a place for a file (`Disk.place?`) if only directories lie on the way and no
directory is at its end. Reading and creating depend on that place alone : `read_eq_ok_iff`,
`create_of_place?`, `create_of_place?_eq_none`.

A conversion puts files where no directory is. Such a change leaves all places where they are
(`ChangedAt.place?_eq`), and the content of every path that is apart from the changed ones
(`ChangedAt.read_iff`). `ChangedAt paths` says that a disk differs from another at the places of
`paths` at most, and composes (`ChangedAt.trans`).

`perform` runs an action on a disk.
-/

namespace MifirReport.Files.Disk

variable {disk disk' disk'' : Disk} {c : List String} {path : String} {bytes : ByteArray}

/-! ## Places -/

theorem find?_insert_self (disk : Disk) (node : Node) (h : c ≠ []) :
    (disk.insert c node).find? c = some node := by
  simp [find?, insert, h]

/-- A node that is put in a place leaves the others as they are. -/
theorem find?_insert_ne (disk : Disk) (node : Node) {c' : List String} (h : c' ≠ c) :
    (disk.insert c node).find? c' = disk.find? c' := by
  have skip : ∀ nodes : List (List String × Node),
      (nodes.filter (·.1 ≠ c)).lookup c' = nodes.lookup c' := by
    intro nodes
    induction nodes with
    | nil => rfl
    | cons entry nodes ih =>
      obtain ⟨key, value⟩ := entry
      by_cases hkey : key = c
      · have away : (c' == key) = false := by simp [hkey, h]
        rw [List.filter_cons_of_neg (by simpa using hkey), List.lookup_cons, away, ih]
      · rw [List.filter_cons_of_pos (by simpa using hkey), List.lookup_cons, List.lookup_cons, ih]
  have away : (c' == c) = false := by simp [h]
  unfold find? insert
  rw [List.lookup_cons, away, skip]

/-- Where a path leads to a file, or to a place where a file can be created. -/
def place? (disk : Disk) (path : String) : Option (List String) :=
  match disk.locate path with
  | .ok ⟨components, node, false⟩ => if node = some .directory then none else some components
  | _ => none

/-- The same paths lead to directories. -/
def SameDirectories (disk disk' : Disk) : Prop :=
  ∀ c, disk'.find? c = some .directory ↔ disk.find? c = some .directory

theorem SameDirectories.refl (disk : Disk) : disk.SameDirectories disk := fun _ => Iff.rfl

theorem SameDirectories.symm (h : disk.SameDirectories disk') : disk'.SameDirectories disk :=
  fun c => (h c).symm

theorem SameDirectories.trans (h : disk.SameDirectories disk')
    (h' : disk'.SameDirectories disk'') : disk.SameDirectories disk'' :=
  fun c => (h' c).trans (h c)

/-- A segment that leads on, neither skipped nor up. -/
def IsStep (segment : String) : Prop := ¬(segment = "" ∨ segment = ".") ∧ segment ≠ ".."

/-- A walk that arrives has skipped its first segment, gone up, entered a directory, or ended at a
place that is none, with nothing but slashes to follow. -/
theorem walk_cons_eq_ok_iff {segment : String} {segments : List String} {place : Place} :
    disk.walk c (segment :: segments) = .ok place ↔
      ((segment = "" ∨ segment = ".") ∧ disk.walk c segments = .ok place) ∨
      (segment = ".." ∧ disk.walk c.dropLast segments = .ok place) ∨
      IsStep segment ∧ segment.utf8ByteSize ≤ maxName ∧
        ((disk.find? (c ++ [segment]) = some .directory ∧
            disk.walk (c ++ [segment]) segments = .ok place) ∨
          disk.find? (c ++ [segment]) ≠ some .directory ∧ segments.all (· = "") = true ∧
            ⟨c ++ [segment], disk.find? (c ++ [segment]), segments ≠ []⟩ = place) := by
  rw [walk]
  by_cases hskip : segment = "" ∨ segment = "."
  · have hup : segment ≠ ".." := by
      rintro rfl
      simp at hskip
    simp [hskip, hup, IsStep]
  by_cases hup : segment = ".."
  · subst hup
    simp [IsStep]
  have hstep : IsStep segment := ⟨hskip, hup⟩
  by_cases hname : segment.utf8ByteSize ≤ maxName
  · rw [if_neg hskip, if_neg hup, if_neg (Nat.not_lt.2 hname)]
    dsimp only
    generalize segments.all (· = "") = all
    rcases hfind : disk.find? (c ++ [segment]) with _ | _ | _ <;>
      cases all <;> simp [hskip, hup, hstep, hname]
  · rw [if_neg hskip, if_neg hup, if_pos (Nat.not_le.1 hname)]
    simp [hskip, hup, hname]

/-- A walk that does not end in a directory ends at the same place whatever the files are. -/
theorem walk_of_sameDirectories (h : disk.SameDirectories disk') {place : Place}
    (segments : List String) (hnode : place.node ≠ some .directory)
    (hwalk : disk.walk c segments = .ok place) :
    place.node = disk.find? place.components ∧
      disk'.walk c segments = .ok { place with node := disk'.find? place.components } := by
  induction segments generalizing c with
  | nil =>
    simp only [walk, Except.ok.injEq] at hwalk
    exact absurd (by rw [← hwalk]) hnode
  | cons segment segments ih =>
    rw [walk_cons_eq_ok_iff] at hwalk ⊢
    rcases hwalk with ⟨hskip, hwalk⟩ | ⟨hup, hwalk⟩ |
      ⟨hstep, hname, ⟨hdir, hwalk⟩ | ⟨hdir, hlater, rfl⟩⟩
    · exact (ih hwalk).imp_right fun hwalk' => Or.inl ⟨hskip, hwalk'⟩
    · exact (ih hwalk).imp_right fun hwalk' => Or.inr (Or.inl ⟨hup, hwalk'⟩)
    · exact (ih hwalk).imp_right fun hwalk' =>
        Or.inr (Or.inr ⟨hstep, hname, Or.inl ⟨(h _).2 hdir, hwalk'⟩⟩)
    · exact ⟨rfl, Or.inr (Or.inr ⟨hstep, hname, Or.inr ⟨fun e => hdir ((h _).1 e), hlater, rfl⟩⟩)⟩

/-- So does a path that does not lead to a directory. -/
theorem locate_of_sameDirectories (h : disk.SameDirectories disk') {place : Place}
    (hnode : place.node ≠ some .directory) (hlocate : disk.locate path = .ok place) :
    place.node = disk.find? place.components ∧
      disk'.locate path = .ok { place with node := disk'.find? place.components } := by
  unfold locate at hlocate ⊢
  split_ifs at hlocate ⊢
  exact walk_of_sameDirectories h _ hnode hlocate

/-- A place for a file is where the path arrives, without a slash behind it, at no directory. -/
theorem place?_eq_some_iff :
    disk.place? path = some c ↔
      disk.locate path = .ok ⟨c, disk.find? c, false⟩ ∧ disk.find? c ≠ some .directory := by
  unfold place?
  constructor
  · intro h
    split at h
    · rename_i components node hlocate
      split_ifs at h with hnode
      obtain rfl := Option.some.inj h
      obtain ⟨hfind, -⟩ := locate_of_sameDirectories (.refl disk) hnode hlocate
      dsimp only at hfind
      exact ⟨by rw [hlocate, hfind], hfind ▸ hnode⟩
    · simp at h
  · rintro ⟨hlocate, hnode⟩
    rw [hlocate]
    exact if_neg hnode

/-- The places of paths depend on the directories alone. -/
theorem place?_of_sameDirectories (h : disk.SameDirectories disk') (path : String) :
    disk'.place? path = disk.place? path := by
  have keep : ∀ {d d' : Disk}, d.SameDirectories d' → ∀ {c},
      d.place? path = some c → d'.place? path = some c := by
    intro d d' h c hc
    obtain ⟨hlocate, hnode⟩ := place?_eq_some_iff.1 hc
    exact place?_eq_some_iff.2
      ⟨(locate_of_sameDirectories h hnode hlocate).2, fun e => hnode ((h c).1 e)⟩
  exact Option.ext fun c => ⟨keep h.symm, keep h⟩

theorem ne_nil_of_place? (h : disk.place? path = some c) : c ≠ [] := by
  rintro rfl
  exact (place?_eq_some_iff.1 h).2 rfl

/-- What can be read is a file at the place of the path. -/
theorem read_eq_ok_iff :
    disk.read path = .ok bytes ↔
      ∃ c, disk.place? path = some c ∧ disk.find? c = some (.file bytes) := by
  unfold read
  constructor
  · intro h
    split at h
    · simp at h
    · simp at h
    · simp at h
    · rename_i components content asksDirectory hlocate
      split_ifs at h with hasks
      obtain ⟨hfind, -⟩ := locate_of_sameDirectories (.refl disk) (by simp) hlocate
      dsimp only at hfind
      simp only [Except.ok.injEq] at h
      rw [Bool.not_eq_true] at hasks
      subst h hasks
      exact ⟨components, place?_eq_some_iff.2 ⟨by rw [hlocate, hfind], by simp [← hfind]⟩,
        hfind.symm⟩
  · rintro ⟨c, hplace, hfind⟩
    rw [(place?_eq_some_iff.1 hplace).1, hfind]
    rfl

/-- A file is created where the path leads, empty, with a handle at its beginning. -/
theorem create_of_place? (h : disk.place? path = some c) :
    disk.create path = .ok (⟨c, 0⟩, disk.insert c (.file .empty)) := by
  obtain ⟨hlocate, hnode⟩ := place?_eq_some_iff.1 h
  simp only [create, hlocate, Bool.false_eq_true, false_or, if_neg hnode]

/-- No file is created where the path does not lead to a place. -/
theorem create_of_place?_eq_none (h : disk.place? path = none) :
    ∃ cause, disk.create path = .error cause := by
  unfold create
  split
  · exact ⟨_, rfl⟩
  · rename_i components node asksDirectory hlocate
    refine ⟨_, if_pos ?_⟩
    by_contra hno
    rw [not_or, Bool.not_eq_true] at hno
    obtain ⟨rfl, hnode⟩ := hno
    simp [place?, hlocate, hnode] at h

/-! ## Changes -/

/-- A path leads to another place than a second one, if both lead to one. -/
def Apart (disk : Disk) (path other : String) : Prop :=
  ∀ c, disk.place? path = some c → disk.place? other ≠ some c

/-- Paths are apart if they do not lead to the same place. -/
theorem apart_of_place?_ne {other : String} (h : disk.place? path ≠ disk.place? other) :
    disk.Apart path other :=
  fun _ hpath hother => h (hpath.trans hother.symm)

theorem Apart.symm {other : String} (h : disk.Apart path other) : disk.Apart other path :=
  fun c hother hpath => h c hpath hother

/-- Paths stay apart as long as the directories stay. -/
theorem Apart.of_sameDirectories {other : String} (h : disk.Apart path other)
    (hsame : disk.SameDirectories disk') : disk'.Apart path other := by
  intro c
  rw [place?_of_sameDirectories hsame, place?_of_sameDirectories hsame]
  exact h c

/-- A disk differs from another at the places of some paths at most, and only in files. -/
structure ChangedAt (disk : Disk) (paths : Set String) (disk' : Disk) : Prop where
  directories : disk.SameDirectories disk'
  others : ∀ c, (∀ path ∈ paths, disk.place? path ≠ some c) → disk'.find? c = disk.find? c

namespace ChangedAt

variable {paths more : Set String}

theorem refl (disk : Disk) (paths : Set String) : disk.ChangedAt paths disk :=
  ⟨.refl disk, fun _ _ => rfl⟩

theorem mono (h : disk.ChangedAt paths disk') (hsub : paths ⊆ more) :
    disk.ChangedAt more disk' :=
  ⟨h.directories, fun c hc => h.others c fun path hpath => hc path (hsub hpath)⟩

/-- Places stay where they are. -/
theorem place?_eq (h : disk.ChangedAt paths disk') (path : String) :
    disk'.place? path = disk.place? path :=
  place?_of_sameDirectories h.directories path

theorem trans (h : disk.ChangedAt paths disk') (h' : disk'.ChangedAt paths disk'') :
    disk.ChangedAt paths disk'' where
  directories := h.directories.trans h'.directories
  others c hc := by
    have hc' : ∀ path ∈ paths, disk'.place? path ≠ some c := by
      intro path hpath
      rw [h.place?_eq]
      exact hc path hpath
    rw [h'.others c hc', h.others c hc]

/-- A path apart from the changed ones reads as before. -/
theorem read_iff (h : disk.ChangedAt paths disk')
    (hapart : ∀ other ∈ paths, disk.Apart path other) :
    disk'.read path = .ok bytes ↔ disk.read path = .ok bytes := by
  rw [read_eq_ok_iff, read_eq_ok_iff]
  refine exists_congr fun c => ?_
  rw [h.place?_eq]
  refine and_congr_right fun hplace => ?_
  rw [h.others c fun other hother => hapart other hother c hplace]

end ChangedAt

/-- A file is put where a path leads. -/
theorem changedAt_insert (h : disk.place? path = some c) (bytes : ByteArray) :
    disk.ChangedAt {path} (disk.insert c (.file bytes)) := by
  refine ⟨fun c' => ?_, fun c' hc' => ?_⟩
  · by_cases hc : c' = c
    · subst hc
      rw [find?_insert_self _ _ (ne_nil_of_place? h)]
      simp [(place?_eq_some_iff.1 h).2]
    · rw [find?_insert_ne _ _ hc]
  · refine find?_insert_ne _ _ ?_
    rintro rfl
    exact hc' path rfl h

/-- Bytes written at the end of a content follow it. -/
theorem overwrite_size (content bytes : ByteArray) :
    overwrite content bytes content.size = content ++ bytes := by
  have none : (⟨Array.replicate (content.size - content.size) 0⟩ : ByteArray) = .empty := by
    rw [Nat.sub_self]
    rfl
  have past : content.extract (content.size + bytes.size) content.size = .empty := by
    rw [ByteArray.extract_eq_empty_iff]
    omega
  rw [overwrite, none, past, ByteArray.extract_zero_size]
  simp

/-! ## Actions -/

/-- Runs an action on a disk. -/
def perform {α : Type} (disk : Disk) (action : StateM Disk α) : α × Disk :=
  action.run disk

@[simp] theorem perform_pure {α : Type} (disk : Disk) (a : α) : disk.perform (pure a) = (a, disk) :=
  rfl

@[simp] theorem perform_bind {α β : Type} (disk : Disk) (action : StateM Disk α)
    (next : α → StateM Disk β) :
    disk.perform (action >>= next) =
      (disk.perform action).2.perform (next (disk.perform action).1) :=
  rfl

theorem perform_read (disk : Disk) (path : String) :
    disk.perform (storage.read path) = (disk.read path, disk) :=
  rfl

theorem perform_create (h : disk.place? path = some c) :
    disk.perform (storage.create path) = (.ok ⟨c, 0⟩, disk.insert c (.file .empty)) := by
  simp only [perform, storage, StateT.run, create_of_place? h]

theorem perform_create_error (h : disk.place? path = none) :
    ∃ cause, disk.perform (storage.create path) = (.error cause, disk) := by
  obtain ⟨cause, hcreate⟩ := create_of_place?_eq_none h
  exact ⟨cause, by simp only [perform, storage, StateT.run, hcreate]⟩

/-- A handle at the end of its file writes on there. -/
theorem perform_write {content : ByteArray} (hfind : disk.find? c = some (.file content))
    (bytes : ByteArray) :
    disk.perform (storage.write (⟨c, content.size⟩ : Handle) bytes) =
      (.ok (⟨c, (content ++ bytes).size⟩ : Handle), disk.insert c (.file (content ++ bytes))) := by
  simp only [perform, storage, StateT.run, write, hfind, overwrite_size, ByteArray.size_append]

end MifirReport.Files.Disk
