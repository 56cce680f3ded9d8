import MifirReport.Proofs.Batch.Ends

/-!
# Inputs that stay as they are

A conversion that does not write to its inputs reads them as they are on the disk at the start
(`asFound`). What its readings decide is then what the inputs decide : the path of the output, its
rows, the inputs with a diagnostic, and the paths that are written to (`destination_asFound`,
`rowsRead_asFound`, `failures_asFound`, `reach_asFound`).

`follows_or_error` carries the law of the loop over such inputs, each of which is complete unless
the policy is to go on. It ends early only with an error, as a file cannot be created. A whole run
of such inputs is finished with what they decide, or ends with that error (`run_asFound`).
-/

namespace MifirReport.Batch

open Files Report Table Disk

/-! ## What the inputs decide -/

/-- The bytes of a file, none if it cannot be read. -/
def bytesAt (disk : Disk) (path : String) : ByteArray :=
  match disk.read path with
  | .ok bytes => bytes
  | .error _ => .empty

/-- The report in a file. -/
def reportAt? (disk : Disk) (path : String) : Option TransactionReport :=
  reportOf? (bytesAt disk path)

/-- The path of the output, which the first report among the inputs decides. -/
def outputPath (settings : Settings) (disk : Disk) (inputs : List String) : String :=
  settings.target.resolve ((inputs.findSome? (reportAt? disk)).bind (·.firstParty?)) settings.time

/-- Whether one of the inputs holds a report. -/
def HasReport (disk : Disk) (inputs : List String) : Prop :=
  ∃ input ∈ inputs, (reportAt? disk input).isSome = true

/-- The rows that the inputs contribute, in order. -/
def rowsAt (settings : Settings) (disk : Disk) (inputs : List String) : List Row :=
  inputs.flatMap fun input => fileRows settings.mode (bytesAt disk input)

/-- The inputs that a diagnostic stands for. -/
def incompleteAt (disk : Disk) (inputs : List String) : List String :=
  inputs.filter fun input => ¬IsComplete (bytesAt disk input)

/-- The paths that the inputs make a conversion write to. -/
def touched (settings : Settings) (disk : Disk) (inputs : List String) : Set String :=
  {path | HasReport disk inputs ∧ path = outputPath settings disk inputs ∨
    ∃ input ∈ incompleteAt disk inputs, path = diagnosticAt settings input}

/-- Inputs with the bytes that they have on a disk. -/
def asFound (disk : Disk) (inputs : List String) : List Reading :=
  inputs.map fun input => ⟨input, bytesAt disk input⟩

variable {settings : Settings} {start disk disk' : Disk} {inputs done : List String}
  {input : String} {bytes : ByteArray}

theorem bytesAt_of_read (h : disk.read input = .ok bytes) : bytesAt disk input = bytes := by
  rw [bytesAt, h]

theorem asFound_append (disk : Disk) (done more : List String) :
    asFound disk (done ++ more) = asFound disk done ++ asFound disk more :=
  List.map_append

theorem asFound_cons (hread : disk.read input = .ok bytes) (inputs : List String) :
    asFound disk (input :: inputs) = ⟨input, bytes⟩ :: asFound disk inputs := by
  rw [asFound, List.map_cons, bytesAt_of_read hread, asFound]

/-- One more input is one more reading. -/
theorem asFound_append_singleton (hread : disk.read input = .ok bytes) (done : List String) :
    asFound disk (done ++ [input]) = asFound disk done ++ [⟨input, bytes⟩] := by
  rw [asFound_append, asFound_cons hread]
  rfl

theorem map_input_asFound (disk : Disk) (inputs : List String) :
    (asFound disk inputs).map (·.input) = inputs := by
  rw [asFound, List.map_map]
  exact List.map_id' inputs

/-- What was read as it was at the start is known from the inputs. -/
theorem eq_asFound {done : List Reading} (hinputs : done.map (·.input) = inputs)
    (hread : ∀ reading ∈ done, disk.read reading.input = .ok reading.bytes) :
    done = asFound disk inputs := by
  have hsame : ∀ reading ∈ done,
      Reading.mk reading.input (bytesAt disk reading.input) = reading := by
    intro reading hreading
    rw [bytesAt_of_read (hread reading hreading)]
  calc done
      = done.map fun reading => Reading.mk reading.input (bytesAt disk reading.input) := by
        rw [List.map_congr_left hsame, List.map_id']
    _ = asFound disk inputs := by
        rw [asFound, ← hinputs, List.map_map]
        rfl

theorem firstReport?_asFound :
    firstReport? (asFound disk inputs) = inputs.findSome? (reportAt? disk) :=
  List.findSome?_map

/-- A report was read just if one of the inputs holds one. -/
theorem isSome_firstReport?_asFound :
    (firstReport? (asFound disk inputs)).isSome = true ↔ HasReport disk inputs := by
  rw [firstReport?_asFound, List.findSome?_isSome_iff, HasReport]

/-- The path of the output is the one that the inputs decide. -/
theorem destination_asFound :
    destination settings (asFound disk inputs) = outputPath settings disk inputs := by
  rw [destination, firstParty?, firstReport?_asFound, outputPath]

/-- The rows of the output are those that the inputs contribute. -/
theorem rowsRead_asFound :
    rowsRead settings (asFound disk inputs) = rowsAt settings disk inputs := by
  rw [rowsRead, asFound, List.flatMap_map, rowsAt]

/-- The readings with a diagnostic are the inputs with one. -/
theorem failures_asFound :
    failures (asFound disk inputs) = asFound disk (incompleteAt disk inputs) := by
  rw [failures, asFound, List.filter_map]
  rfl

theorem writtenTo_asFound : writtenTo settings (asFound disk inputs) =
    {path | HasReport disk inputs ∧ path = outputPath settings disk inputs} := by
  rw [writtenTo, isSome_firstReport?_asFound, destination_asFound]

/-- The paths that are written to are those that the inputs decide. -/
theorem reach_asFound : reach settings (asFound disk inputs) = touched settings disk inputs := by
  ext path
  rw [reach, touched, Set.mem_ofPred_eq, Set.mem_ofPred_eq, failures_asFound, writtenTo_asFound]
  simp [asFound]

theorem HasReport.append (h : HasReport disk done) (more : List String) :
    HasReport disk (done ++ more) := by
  obtain ⟨input, hinput, hreport⟩ := h
  exact ⟨input, List.mem_append_left more hinput, hreport⟩

/-- Later inputs do not change the path of the output once there was a report. -/
theorem outputPath_append (h : HasReport disk done) (more : List String) :
    outputPath settings disk (done ++ more) = outputPath settings disk done := by
  rw [← destination_asFound, ← destination_asFound, asFound_append,
    destination_append (isSome_firstReport?_asFound.2 h)]

/-- With more inputs a conversion writes to no fewer paths. -/
theorem touched_append (done more : List String) :
    touched settings disk done ⊆ touched settings disk (done ++ more) := by
  rw [← reach_asFound, ← reach_asFound, asFound_append]
  exact reach_append _ _

/-- No diagnostic stands for a complete input. -/
theorem incompleteAt_eq_nil (h : ∀ input ∈ inputs, IsComplete (bytesAt disk input)) :
    incompleteAt disk inputs = [] := by
  rw [incompleteAt, List.filter_eq_nil_iff]
  intro input hinput
  simpa using h input hinput

/-- Complete inputs make a conversion write to the output alone. -/
theorem eq_of_mem_touched (h : ∀ input ∈ inputs, IsComplete (bytesAt disk input)) {path : String}
    (hpath : path ∈ touched settings disk inputs) :
    HasReport disk inputs ∧ path = outputPath settings disk inputs := by
  rcases hpath with hpath | ⟨input, hinput, -⟩
  · exact hpath
  · rw [incompleteAt_eq_nil h] at hinput
    cases hinput

/-! ## The loop -/

/-- An input that the conversion does not write to is read as it was. -/
theorem Follows.read_iff_of_apart {progress : Progress Disk.storage}
    (h : Follows settings start (asFound start done) progress disk)
    (hapart : ∀ path ∈ touched settings start done, start.Apart input path) :
    disk.read input = .ok bytes ↔ start.read input = .ok bytes :=
  h.changedAt.read_iff (reach_asFound ▸ hapart)

/-- Inputs that are read as they were carry the law on, if each is complete or the policy is to go
on. The loop ends among them only with an error, as a file cannot be created. -/
theorem follows_or_error {progress : Progress Disk.storage}
    (h : Follows settings start (asFound start done) progress disk) (inputs : List String)
    (hread : ∀ input ∈ inputs, ∃ bytes, start.read input = .ok bytes)
    (hpolicy : settings.policy = .keepGoing ∨ ∀ input ∈ inputs, IsComplete (bytesAt start input))
    (hapart : ∀ input ∈ inputs, ∀ path ∈ touched settings start (done ++ inputs),
      start.Apart input path) :
    ((∃ path ∈ touched settings start (done ++ inputs), start.place? path = none) ∧
        ∃ error disk', ∀ rest,
          disk.perform (convertAll Disk.storage settings progress (inputs ++ rest)) =
            (.error error, disk')) ∨
      ∃ progress' disk', Follows settings start (asFound start (done ++ inputs)) progress' disk' ∧
        ∀ rest, disk.perform (convertAll Disk.storage settings progress (inputs ++ rest)) =
          disk'.perform (convertAll Disk.storage settings progress' rest) := by
  induction inputs generalizing done progress disk with
  | nil =>
    refine Or.inr ⟨progress, disk, ?_, fun _ => rfl⟩
    rwa [List.append_nil]
  | cons input inputs ih =>
    obtain ⟨bytes, hbytes⟩ := hread input List.mem_cons_self
    have hsplit : done ++ input :: inputs = done ++ [input] ++ inputs := by simp
    rw [hsplit] at hapart ⊢
    have hread' : disk.read input = .ok bytes := by
      refine (h.read_iff_of_apart fun path hpath => ?_).2 hbytes
      exact hapart input List.mem_cons_self path (touched_append _ _ (touched_append _ _ hpath))
    rcases pass_of_follows h ⟨input, bytes⟩ hread' with
      ⟨progress₁, disk₁, -, h₁, hrest₁⟩ | ⟨-, hends, -⟩
    · rw [← asFound_append_singleton hbytes] at h₁
      rcases ih h₁ (fun other hother => hread other (List.mem_cons_of_mem _ hother))
          (hpolicy.imp_right fun hall other hother => hall other (List.mem_cons_of_mem _ hother))
          (fun other hother => hapart other (List.mem_cons_of_mem _ hother)) with
        ⟨hplace, error, disk', herror⟩ | ⟨progress', disk', h', hrest'⟩
      · exact Or.inl ⟨hplace, error, disk',
          fun rest => (hrest₁ (inputs ++ rest)).trans (herror rest)⟩
      · exact Or.inr ⟨progress', disk', h',
          fun rest => (hrest₁ (inputs ++ rest)).trans (hrest' rest)⟩
    · have hpass : settings.policy = .keepGoing ∨ IsComplete bytes := by
        refine hpolicy.imp_right fun hall => ?_
        have hcomplete := hall input List.mem_cons_self
        rwa [bytesAt_of_read hbytes] at hcomplete
      obtain ⟨⟨path, hpath, hplace⟩, error, disk', herror⟩ := hends hpass
      rw [← asFound_append_singleton hbytes, reach_asFound] at hpath
      exact Or.inl ⟨⟨path, touched_append _ _ hpath, hplace⟩, error, disk',
        fun rest => herror (inputs ++ rest)⟩

/-- A conversion of inputs that it reads as they were is finished with what they decide, unless a
file cannot be created. -/
theorem run_asFound (hinputs : inputs ≠ [])
    (hread : ∀ input ∈ inputs, ∃ bytes, disk.read input = .ok bytes)
    (hpolicy : settings.policy = .keepGoing ∨ ∀ input ∈ inputs, IsComplete (bytesAt disk input))
    (hapart : ∀ input ∈ inputs, ∀ path ∈ touched settings disk inputs, disk.Apart input path) :
    ((∃ path ∈ insert (outputPath settings disk inputs) (touched settings disk inputs),
        disk.place? path = none) ∧
        ∃ error disk', disk.perform (run Disk.storage settings inputs) = (.error error, disk')) ∨
      ∃ summary disk', disk.perform (run Disk.storage settings inputs) = (.ok summary, disk') ∧
        Finished settings disk inputs (asFound disk inputs) summary disk' := by
  have hnil : Follows settings disk (asFound disk []) {} disk := follows_nil settings disk
  rw [run_eq_convertAll settings hinputs]
  rcases follows_or_error hnil inputs hread hpolicy hapart with
    ⟨⟨path, hpath, hplace⟩, error, disk', herror⟩ | ⟨progress, disk₁, h, hrest⟩
  · have herror := herror []
    rw [List.append_nil] at herror
    exact Or.inl ⟨⟨path, Or.inr hpath, hplace⟩, error, disk', herror⟩
  · have hrest := hrest []
    rw [List.append_nil] at hrest
    rw [hrest]
    rcases finish_of_follows h with
      ⟨hplace, cause, herror⟩ | ⟨summary, disk', hfinish, -, hfinished⟩
    · rw [List.nil_append, destination_asFound] at hplace
      exact Or.inl ⟨⟨_, Or.inl rfl, hplace⟩, _, disk₁, herror⟩
    · rw [List.nil_append, map_input_asFound] at hfinished
      exact Or.inr ⟨summary, disk', hfinish, hfinished⟩

end MifirReport.Batch
