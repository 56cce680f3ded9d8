import MifirReport.Proofs.Batch.Contents
import MifirReport.Proofs.Batch.Placed
import MifirReport.Proofs.Batch.Steps

/-!
# What a conversion reads

A conversion can write to files that it reads later : the output, or a diagnostic, may be one of the
inputs. What it does follows from what it reads, whatever the inputs are. `readings` lists the
inputs that a conversion reads, with the bytes that each has when its turn comes, and the rest is a
function of that list : the path of the output (`destination`), its rows (`rowsRead`), the inputs
with a diagnostic (`failures`) and what is left at the places of diagnostics (`remains`).

`Follows` is the law of the loop : progress and disk are what the readings so far make them. It
holds at the start (`follows_nil`), and an input that the conversion goes on after carries it on, be
it complete (`Follows.converted`) or not (`Follows.diagnosed`). So far the conversion has written
within its `reach` alone (`Follows.changedAt`).
-/

namespace MifirReport.Batch

open Files Report Table Disk

/-! ## Files as they were read -/

/-- A file as a conversion reads it : its path, and the bytes that it has at that moment. -/
structure Reading where
  input : String
  bytes : ByteArray

/-- The first report that was read. -/
def firstReport? (done : List Reading) : Option TransactionReport :=
  done.findSome? fun reading => reportOf? reading.bytes

/-- The party that executed the first transaction of the first report. -/
def firstParty? (done : List Reading) : Option String :=
  (firstReport? done).bind (·.firstParty?)

/-- The path of the output, which the first report decides. -/
def destination (settings : Settings) (done : List Reading) : String :=
  settings.target.resolve (firstParty? done) settings.time

/-- The rows that were read, in order. -/
def rowsRead (settings : Settings) (done : List Reading) : List Row :=
  done.flatMap fun reading => fileRows settings.mode reading.bytes

/-- The readings that a diagnostic stands for. -/
def failures (done : List Reading) : List Reading :=
  done.filter fun reading => ¬IsComplete reading.bytes

/-- What a conversion that goes on leaves at a place that is not the output's : the diagnostic of
the last failure that goes there, or what was there at the start. -/
def remains (settings : Settings) (start : Disk) (done : List Reading) (c : List String) :
    Option Node :=
  match (failures done).reverse.find? fun failure =>
      start.place? (diagnosticAt settings failure.input) = some c with
  | some failure => some (.file (diagnosticText failure.bytes))
  | none => start.find? c

variable {settings : Settings} {start disk disk' : Disk} {done more : List Reading}
  {reading : Reading} {inputs : List String} {c : List String}

theorem firstReport?_append (done more : List Reading) :
    firstReport? (done ++ more) = (firstReport? done).or (firstReport? more) :=
  List.findSome?_append

theorem firstReport?_singleton : firstReport? [reading] = reportOf? reading.bytes := by
  simp [firstReport?]

/-- Later readings do not change the path once there was a report. -/
theorem destination_append (h : (firstReport? done).isSome = true) (more : List Reading) :
    destination settings (done ++ more) = destination settings done := by
  obtain ⟨report, hreport⟩ := Option.isSome_iff_exists.1 h
  rw [destination, destination, firstParty?, firstParty?, firstReport?_append, hreport,
    Option.some_or]

theorem destination_of_none (h : firstReport? done = none) :
    destination settings done = settings.target.resolve none settings.time := by
  rw [destination, firstParty?, h, Option.bind_none]

theorem rowsRead_append :
    rowsRead settings (done ++ more) = rowsRead settings done ++ rowsRead settings more :=
  List.flatMap_append

theorem rowsRead_singleton :
    rowsRead settings [reading] = fileRows settings.mode reading.bytes :=
  List.flatMap_singleton _ _

/-- Without a report there are no rows. -/
theorem rowsRead_of_none (h : firstReport? done = none) : rowsRead settings done = [] := by
  rw [rowsRead, List.flatMap_eq_nil_iff]
  exact fun reading hreading => fileRows_of_none _ (List.findSome?_eq_none_iff.1 h reading hreading)

/-- A complete reading is no failure. -/
theorem failures_append_of_complete (h : IsComplete reading.bytes) :
    failures (done ++ [reading]) = failures done := by
  simp [failures, List.filter_append, h]

theorem failures_singleton (h : ¬IsComplete reading.bytes) : failures [reading] = [reading] := by
  simp [failures, h]

/-- A reading that is not complete is one more failure. -/
theorem failures_append_of_not (h : ¬IsComplete reading.bytes) :
    failures (done ++ [reading]) = failures done ++ [reading] := by
  rw [failures, List.filter_append, ← failures, ← failures, failures_singleton h]

theorem remains_append_of_complete (h : IsComplete reading.bytes) :
    remains settings start (done ++ [reading]) c = remains settings start done c := by
  rw [remains, failures_append_of_complete h, remains]

/-- A failure leaves its diagnostic at the place of the diagnostic, and nothing elsewhere. -/
theorem remains_append_of_not (h : ¬IsComplete reading.bytes) :
    remains settings start (done ++ [reading]) c =
      if start.place? (diagnosticAt settings reading.input) = some c then
        some (.file (diagnosticText reading.bytes))
      else remains settings start done c := by
  rw [remains, failures_append_of_not h, List.reverse_append, List.reverse_singleton,
    List.singleton_append]
  split_ifs with hplace
  · rw [List.find?_cons_of_pos (by simpa using hplace)]
  · rw [List.find?_cons_of_neg (by simpa using hplace), remains]

/-! ## The output -/

/-- The output is open once a report was read, at the path that the first report decides. -/
def OutputAt (settings : Settings) (done : List Reading) (disk : Disk) :
    Option (Output Disk.storage) → Prop
  | none => firstReport? done = none
  | some output => (firstReport? done).isSome = true ∧
      output.path = destination settings done ∧ output.Placed disk

/-- The output, if it is open, holds the rows that were read. -/
def HoldsRead (settings : Settings) (done : List Reading) (disk : Disk) :
    Option (Output Disk.storage) → Prop
  | none => True
  | some output => output.Holds disk .empty (rowsRead settings done)

/-- The places that a conversion writes rows to. -/
def writtenTo (settings : Settings) (done : List Reading) : Set String :=
  {path | (firstReport? done).isSome = true ∧ path = destination settings done}

variable {output : Option (Output Disk.storage)}

/-- The output for a report is the one there is or a new one, unless that cannot be created. -/
theorem ensureOutput_of_outputAt {report : TransactionReport}
    (h : OutputAt settings done disk output) (hreport : reportOf? reading.bytes = some report) :
    (disk.place? (destination settings (done ++ [reading])) = none ∧
        ∃ cause, disk.perform (ensureOutput Disk.storage settings output report) =
          (.error (.file cause), disk)) ∨
      ∃ (output' : Output Disk.storage) (disk' : Disk),
        disk.perform (ensureOutput Disk.storage settings output report) = (.ok output', disk') ∧
        output'.path = destination settings (done ++ [reading]) ∧ output'.Placed disk' ∧
        disk.ChangedAt {destination settings (done ++ [reading])} disk' ∧
        (HoldsRead settings done disk output →
          output'.Holds disk' .empty (rowsRead settings done)) := by
  cases output with
  | some output =>
    obtain ⟨hbefore, hpath, hplaced⟩ := h
    rw [destination_append hbefore]
    exact Or.inr ⟨output, disk, rfl, hpath, hplaced, .refl disk _, id⟩
  | none =>
    have hpath : destination settings (done ++ [reading]) =
        settings.target.resolve report.firstParty? settings.time := by
      rw [destination, firstParty?, firstReport?_append, h, firstReport?_singleton, hreport]
      rfl
    rw [hpath, rowsRead_of_none h]
    cases hplace : disk.place? (settings.target.resolve report.firstParty? settings.time) with
    | none => exact Or.inl ⟨rfl, perform_create_of_none hplace⟩
    | some c =>
      obtain ⟨output', disk', hcreate, hholds, hpath', hchange⟩ := holds_create hplace
      exact Or.inr ⟨output', disk', hcreate, hpath', hholds.placed, hchange, fun _ => hholds⟩

/-- Converting a file fails just if it is not complete, unless the output cannot be created. It
keeps the output at its place, and the table in it if there is one. -/
theorem convert_of_outputAt (h : OutputAt settings done disk output) (reading : Reading) :
    ((∃ path ∈ writtenTo settings (done ++ [reading]), disk.place? path = none) ∧
        ∃ cause, disk.perform (convert Disk.storage settings output reading.bytes) =
          ((output, some (.file cause)), disk)) ∨
      ∃ (output' : Option (Output Disk.storage)) (failure : Option Error) (disk' : Disk),
        disk.perform (convert Disk.storage settings output reading.bytes) =
          ((output', failure), disk') ∧
        OutputAt settings (done ++ [reading]) disk' output' ∧
        (failure = none ↔ IsComplete reading.bytes) ∧
        (∀ error, failure = some error → error.isInvalidDocument = true) ∧
        disk.ChangedAt (writtenTo settings (done ++ [reading])) disk' ∧
        (HoldsRead settings done disk output →
          HoldsRead settings (done ++ [reading]) disk' output') := by
  cases hreport : reportOf? reading.bytes with
  | none =>
    obtain ⟨error, hread, hinvalid⟩ := readReport_of_reportOf?_eq_none hreport
    have hsame : firstReport? (done ++ [reading]) = firstReport? done := by
      rw [firstReport?_append, firstReport?_singleton, hreport, Option.or_none]
    have hrows : rowsRead settings (done ++ [reading]) = rowsRead settings done := by
      rw [rowsRead_append, rowsRead_singleton, fileRows_of_none _ hreport, List.append_nil]
    refine Or.inr ⟨output, some error, disk, by simp only [convert, hread]; rfl, ?_, ?_, ?_,
      .refl disk _, ?_⟩
    · cases output with
      | none => exact hsame.trans h
      | some output =>
        obtain ⟨hsome, hpath, hplaced⟩ := h
        exact ⟨by rwa [hsame], by rw [hpath, destination_append hsome], hplaced⟩
    · simp [IsComplete, hreport]
    · rintro _ ⟨⟩
      exact hinvalid
    · cases output with
      | none => exact fun _ => trivial
      | some output =>
        intro hholds
        rw [HoldsRead, hrows]
        exact hholds
  | some report =>
    have hsome : (firstReport? (done ++ [reading])).isSome = true := by
      rw [firstReport?_append, firstReport?_singleton, hreport, Option.isSome_or]
      simp
    obtain ⟨failure, hfile, hcomplete, hinvalid⟩ := rows_eq hreport settings.mode
    have hread := readReport_of_reportOf? hreport
    rcases ensureOutput_of_outputAt h hreport with
      ⟨hplace, cause, hensure⟩ |
      ⟨output₁, disk₁, hensure, hpath₁, hplaced₁, hchange₁, hholds₁⟩
    · refine Or.inl ⟨⟨_, ⟨hsome, rfl⟩, hplace⟩, cause, ?_⟩
      simp only [convert, hread, perform_bind, hensure]
      rfl
    · obtain ⟨output₂, disk₂, hadd, hplaced₂, hpath₂, hchange₂, hholds₂⟩ :=
        placed_addRows hplaced₁ (fileRows settings.mode reading.bytes)
      refine Or.inr ⟨some output₂, failure, disk₂, ?_, ⟨hsome, ?_, hplaced₂⟩, hcomplete,
        hinvalid, ?_, fun hholds => ?_⟩
      · simp only [convert, hread, perform_bind, hensure, hfile, hadd]
        rfl
      · rw [hpath₂, hpath₁]
      · rw [hpath₁] at hchange₂
        refine (hchange₁.trans hchange₂).mono ?_
        rintro path rfl
        exact ⟨hsome, rfl⟩
      · rw [HoldsRead, rowsRead_append, rowsRead_singleton]
        exact hholds₂ _ (hholds₁ hholds)

/-- On the way out the error stays, only the output is written to, and its table is completed if
there is one. -/
theorem abandon_of_outputAt (α : Type) (h : OutputAt settings done disk output) (error : Error) :
    ∃ disk', disk.perform (abandon Disk.storage output error : StateM Disk (Except Error α)) =
        (.error error, disk') ∧
      disk.ChangedAt (writtenTo settings done) disk' ∧
      (HoldsRead settings done disk output → ∀ path ∈ writtenTo settings done,
        disk'.read path = .ok (tableText (rowsRead settings done))) := by
  cases output with
  | none =>
    refine ⟨disk, rfl, .refl disk _, ?_⟩
    rintro - path ⟨hsome, -⟩
    rw [OutputAt] at h
    simp [h] at hsome
  | some output =>
    obtain ⟨hsome, hpath, hplaced⟩ := h
    obtain ⟨output', disk', hflush, -, hchange, hread⟩ := placed_flush hplaced
    refine ⟨disk', by simp only [abandon, perform_bind, hflush]; rfl, hchange.mono ?_, ?_⟩
    · rintro path rfl
      exact ⟨hsome, hpath⟩
    · rintro hholds path ⟨-, rfl⟩
      rw [← hpath]
      exact (hread _ hholds).2

/-! ## The loop, one input at a time -/

/-- Converts one input, and writes its diagnostic if it has one and the policy is to go on. Returns
the progress that the conversion goes on with, unless it ends here. -/
def pass (settings : Settings) (progress : Progress Disk.storage) (reading : Reading) :
    StateM Disk (Option (Progress Disk.storage)) := do
  match ← convert Disk.storage settings progress.output reading.bytes with
  | (output, none) =>
    return some { progress with output, processed := progress.processed + 1 }
  | (output, some error) =>
    if error.isInvalidDocument = true ∧ settings.policy = .keepGoing then
      match ← writeDiagnostic Disk.storage (diagnosticAt settings reading.input) reading.bytes with
      | .error _ => return none
      | .ok () => return some { progress with output, failed := reading.input :: progress.failed }
    else return none

section Pass

variable {progress : Progress Disk.storage} {output' : Option (Output Disk.storage)}
  {error error' : Error} {disk₁ disk₂ : Disk}

theorem pass_converted
    (hconvert : disk.perform (convert Disk.storage settings progress.output reading.bytes) =
      ((output', none), disk₁)) :
    disk.perform (pass settings progress reading) =
      (some { progress with output := output', processed := progress.processed + 1 }, disk₁) := by
  rw [pass, perform_bind, hconvert]
  rfl

section Failure

variable (hconvert : disk.perform (convert Disk.storage settings progress.output reading.bytes) =
  ((output', some error), disk₁))

include hconvert

theorem pass_ended
    (herror : ¬(error.isInvalidDocument = true ∧ settings.policy = .keepGoing)) :
    disk.perform (pass settings progress reading) = (none, disk₁) := by
  rw [pass, perform_bind, hconvert]
  dsimp only
  rw [if_neg herror]
  rfl

theorem pass_diagnosed (herror : error.isInvalidDocument = true)
    (hpolicy : settings.policy = .keepGoing)
    (hwrite : disk₁.perform (writeDiagnostic Disk.storage (diagnosticAt settings reading.input)
      reading.bytes) = (.ok (), disk₂)) :
    disk.perform (pass settings progress reading) =
      (some { progress with output := output', failed := reading.input :: progress.failed },
        disk₂) := by
  rw [pass, perform_bind, hconvert]
  dsimp only
  rw [if_pos ⟨herror, hpolicy⟩, perform_bind, hwrite]
  rfl

theorem pass_undiagnosed (herror : error.isInvalidDocument = true)
    (hpolicy : settings.policy = .keepGoing)
    (hwrite : disk₁.perform (writeDiagnostic Disk.storage (diagnosticAt settings reading.input)
      reading.bytes) = (.error error', disk₂)) :
    disk.perform (pass settings progress reading) = (none, disk₂) := by
  rw [pass, perform_bind, hconvert]
  dsimp only
  rw [if_pos ⟨herror, hpolicy⟩, perform_bind, hwrite]
  rfl

end Failure

end Pass

/-- Converts inputs and returns what was read. -/
def readAll (settings : Settings) (progress : Progress Disk.storage) :
    List String → StateM Disk (List Reading)
  | [] => return []
  | input :: inputs => do
    match ← Disk.storage.read input with
    | .error _ => return []
    | .ok bytes =>
      match ← pass settings progress ⟨input, bytes⟩ with
      | none => return [⟨input, bytes⟩]
      | some progress => return ⟨input, bytes⟩ :: (← readAll settings progress inputs)

/-- The inputs that a conversion reads, with the bytes that each has when its turn comes. -/
def readings (settings : Settings) (disk : Disk) (inputs : List String) : List Reading :=
  (disk.perform (readAll settings {} inputs)).1

/-- The progress and the disk are what the readings make them. -/
structure Follows (settings : Settings) (start : Disk) (done : List Reading)
    (progress : Progress Disk.storage) (disk : Disk) : Prop where
  directories : start.SameDirectories disk
  tally : progress.processed + progress.failed.length = done.length
  failed : progress.failed.reverse = (failures done).map (·.input)
  placed : ∀ failure ∈ failures done,
    start.place? (diagnosticAt settings failure.input) ≠ none
  output : OutputAt settings done disk progress.output
  table : (∀ failure ∈ failures done,
    start.Apart (destination settings done) (diagnosticAt settings failure.input)) →
      HoldsRead settings done disk progress.output
  others : ∀ c, (∀ path ∈ writtenTo settings done, start.place? path ≠ some c) →
    disk.find? c = remains settings start done c

/-- The law holds before anything is read. -/
theorem follows_nil (settings : Settings) (disk : Disk) : Follows settings disk [] {} disk where
  directories := .refl disk
  tally := rfl
  failed := rfl
  placed := by simp [failures]
  output := rfl
  table _ := trivial
  others _ _ := rfl

/-- The paths that a conversion has written to after some readings : that of the output, once there
was a report, and those of the diagnostics. -/
def reach (settings : Settings) (done : List Reading) : Set String :=
  {path | path ∈ writtenTo settings done ∨
    ∃ failure ∈ failures done, path = diagnosticAt settings failure.input}

theorem writtenTo_append (done more : List Reading) :
    writtenTo settings done ⊆ writtenTo settings (done ++ more) := by
  rintro path ⟨hsome, rfl⟩
  refine ⟨?_, (destination_append hsome more).symm⟩
  rw [firstReport?_append, Option.isSome_or, hsome, Bool.true_or]

/-- With more readings a conversion has written to no fewer paths. -/
theorem reach_append (done more : List Reading) :
    reach settings done ⊆ reach settings (done ++ more) := by
  rintro path (hpath | ⟨failure, hfailure, rfl⟩)
  · exact Or.inl (writtenTo_append done more hpath)
  · refine Or.inr ⟨failure, ?_, rfl⟩
    rw [failures, List.filter_append]
    exact List.mem_append_left _ hfailure

section Follows

variable {progress : Progress Disk.storage} (h : Follows settings start done progress disk)

include h

/-- So far a conversion has written within its reach alone. -/
theorem Follows.changedAt : start.ChangedAt (reach settings done) disk := by
  refine ⟨h.directories, fun c hc => ?_⟩
  rw [h.others c fun path hpath => hc path (Or.inl hpath), remains]
  split
  · rename_i failure hfailure
    have hplace := List.find?_some hfailure
    rw [decide_eq_true_iff] at hplace
    have hmem := List.mem_reverse.1 (List.mem_of_find?_eq_some hfailure)
    exact absurd hplace (hc _ (Or.inr ⟨failure, hmem, rfl⟩))
  · rfl

/-- As long as no diagnostic goes to the output, the output holds what was read. -/
theorem Follows.holdsRead (hapart : (firstReport? done).isSome = true → ∀ failure ∈ failures done,
      start.Apart (destination settings done) (diagnosticAt settings failure.input)) :
    HoldsRead settings done disk progress.output := by
  have houtput := h.output
  have htable := h.table
  cases hopen : progress.output with
  | none => trivial
  | some output =>
    rw [hopen] at houtput htable
    exact htable (hapart houtput.1)

/-- What is not written to by converting a file is as it was. -/
theorem Follows.others_of_changedAt
    (hchange : disk.ChangedAt (writtenTo settings (done ++ more)) disk') {c : List String}
    (hc : ∀ path ∈ writtenTo settings (done ++ more), start.place? path ≠ some c) :
    disk'.find? c = remains settings start done c := by
  rw [← h.others c fun path hpath => hc path (writtenTo_append done more hpath)]
  refine hchange.others c fun path hpath => ?_
  rw [place?_of_sameDirectories h.directories]
  exact hc path hpath

section Pass

variable {output' : Option (Output Disk.storage)} {disk₁ : Disk}
  (houtput : OutputAt settings (done ++ [reading]) disk₁ output')
  (hchange : disk.ChangedAt (writtenTo settings (done ++ [reading])) disk₁)
  (hholds : HoldsRead settings done disk progress.output →
    HoldsRead settings (done ++ [reading]) disk₁ output')

include houtput hchange hholds

/-- A complete reading carries the law on. -/
theorem Follows.converted (hcomplete : IsComplete reading.bytes) :
    Follows settings start (done ++ [reading])
      { progress with output := output', processed := progress.processed + 1 } disk₁ where
  directories := h.directories.trans hchange.directories
  tally := by
    rw [List.length_append, List.length_singleton, ← h.tally, Nat.add_right_comm]
  failed := by rw [failures_append_of_complete hcomplete, h.failed]
  placed := by
    rw [failures_append_of_complete hcomplete]
    exact h.placed
  output := houtput
  table hapart := by
    rw [failures_append_of_complete hcomplete] at hapart
    exact hholds (h.holdsRead fun hsome => destination_append hsome [reading] ▸ hapart)
  others c hc := by
    rw [remains_append_of_complete hcomplete, h.others_of_changedAt hchange hc]

/-- A diagnostic that is written is what remains at its place. -/
theorem Follows.diagnosed (hincomplete : ¬IsComplete reading.bytes) {disk₂ : Disk}
    (hread : disk₂.read (diagnosticAt settings reading.input) =
      .ok (diagnosticText reading.bytes))
    (hwrite : disk₁.ChangedAt {diagnosticAt settings reading.input} disk₂) :
    Follows settings start (done ++ [reading])
      { progress with output := output', failed := reading.input :: progress.failed } disk₂ where
  directories := (h.directories.trans hchange.directories).trans hwrite.directories
  tally := by
    rw [List.length_append, List.length_singleton, List.length_cons, ← h.tally, Nat.add_assoc]
  failed := by
    rw [failures_append_of_not hincomplete, List.reverse_cons, h.failed, List.map_append,
      List.map_singleton]
  placed := by
    obtain ⟨c, hplace, -⟩ := read_eq_ok_iff.1 hread
    have hsame := (h.directories.trans hchange.directories).trans hwrite.directories
    rw [place?_of_sameDirectories hsame] at hplace
    rw [failures_append_of_not hincomplete, List.forall_mem_append, List.forall_mem_singleton,
      hplace]
    exact ⟨h.placed, by simp⟩
  output := by
    cases output' with
    | none => exact houtput
    | some output =>
      obtain ⟨hsome, hpath, hplaced⟩ := houtput
      exact ⟨hsome, hpath, hplaced.of_changedAt hwrite⟩
  table hapart := by
    rw [failures_append_of_not hincomplete, List.forall_mem_append,
      List.forall_mem_singleton] at hapart
    have hbefore := hholds
      (h.holdsRead fun hsome => destination_append hsome [reading] ▸ hapart.1)
    cases output' with
    | none => trivial
    | some output =>
      refine Output.Holds.of_changedAt hbefore hwrite ?_
      rintro path rfl
      rw [houtput.2.1]
      exact hapart.2.of_sameDirectories (h.directories.trans hchange.directories)
  others c hc := by
    rw [remains_append_of_not hincomplete]
    obtain ⟨c', hplace, hfind⟩ := read_eq_ok_iff.1 hread
    have hsame := (h.directories.trans hchange.directories).trans hwrite.directories
    rw [place?_of_sameDirectories hsame] at hplace
    split_ifs with hhere
    · rw [hplace, Option.some.injEq] at hhere
      rw [← hhere, hfind]
    · rw [← h.others_of_changedAt hchange hc]
      refine hwrite.others c ?_
      rintro path rfl
      rwa [place?_of_sameDirectories (h.directories.trans hchange.directories)]

end Pass

end Follows

end MifirReport.Batch
