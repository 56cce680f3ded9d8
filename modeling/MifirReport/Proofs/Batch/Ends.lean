import MifirReport.Proofs.Batch.Readings

/-!
# How a conversion ends

A conversion ends when no input is left (`finish_of_follows`), or with an input, which is then the
last one that is read (`EndsAt`). After any other input it goes on (`pass_of_follows`).

`ended_run` says how every conversion ends : it has written to its `footprint` at most, a summary
names the output, and one that goes on has left the diagnostics and the table that follow from its
readings (`Finished`). `read_of_mem_readings` compares the bytes that were read with those at the
start.
-/

namespace MifirReport.Batch

open Files Report Table Disk

variable {settings : Settings} {start disk disk' : Disk} {done more : List Reading}
  {reading : Reading} {inputs : List String} {output : Option (Output Disk.storage)}

/-! ## Stopping and finishing -/

/-- A conversion that is stopped leaves the diagnostic as the whole output, unless that cannot be
created. It writes to the output alone. -/
theorem stop_of_outputAt (progress : Progress Disk.storage)
    (h : OutputAt settings done disk progress.output) (input : String) (bytes : ByteArray) :
    (disk.place? (destination settings done) = none ∧ ∃ cause disk',
        disk.perform (stop Disk.storage settings progress input bytes) =
          (.error (.file cause), disk') ∧
        disk.ChangedAt {destination settings done} disk') ∨
      ∃ disk', disk.perform (stop Disk.storage settings progress input bytes) =
          (.ok ⟨0, progress.processed, (input :: progress.failed).reverse,
            destination settings done⟩, disk') ∧
        disk.ChangedAt {destination settings done} disk' ∧
        disk'.read (destination settings done) = .ok (diagnosticText bytes) := by
  -- What was kept back is flushed before the file is created again.
  have hbegin : ∃ disk₁, disk.ChangedAt {destination settings done} disk₁ ∧
      ∀ result disk₂,
        disk₁.perform (writeDiagnostic Disk.storage (destination settings done) bytes) =
          (result, disk₂) →
        disk.perform (stop Disk.storage settings progress input bytes) =
          (result.map fun _ => ⟨0, progress.processed, (input :: progress.failed).reverse,
            destination settings done⟩, disk₂) := by
    unfold stop
    cases hopen : progress.output with
    | none =>
      rw [hopen] at h
      rw [destination_of_none h]
      refine ⟨disk, .refl disk _, fun result disk₂ hwrite => ?_⟩
      simp only [perform_bind, perform_pure, hwrite]
      cases result <;> rfl
    | some output =>
      rw [hopen] at h
      obtain ⟨-, hpath, hplaced⟩ := h
      obtain ⟨output', disk₁, hflush, -, hchange, -⟩ := placed_flush hplaced
      rw [← hpath]
      refine ⟨disk₁, hchange, fun result disk₂ hwrite => ?_⟩
      simp only [perform_bind, perform_pure, hflush, hwrite]
      cases result <;> rfl
  obtain ⟨disk₁, hchange, hstop⟩ := hbegin
  cases hplace : disk₁.place? (destination settings done) with
  | none =>
    obtain ⟨cause, hwrite⟩ := perform_writeDiagnostic_of_none hplace bytes
    rw [hchange.place?_eq] at hplace
    exact Or.inl ⟨hplace, cause, disk₁, hstop _ _ hwrite, hchange⟩
  | some c =>
    obtain ⟨disk', hwrite, hread, hchange'⟩ := perform_writeDiagnostic hplace bytes
    exact Or.inr ⟨disk', hstop _ _ hwrite, hchange.trans hchange', hread⟩

/-- A conversion that is finished writes to the output alone, unless that cannot be created, and
leaves the whole table if nothing was written over it. -/
theorem finish_of_outputAt {progress : Progress Disk.storage}
    (h : OutputAt settings done disk progress.output) :
    (disk.place? (destination settings done) = none ∧ ∃ cause,
        disk.perform (finish Disk.storage settings progress) = (.error (.file cause), disk)) ∨
      ∃ transactions disk', disk.perform (finish Disk.storage settings progress) =
          (.ok ⟨transactions, progress.processed, progress.failed.reverse,
            destination settings done⟩, disk') ∧
        disk.ChangedAt {destination settings done} disk' ∧
        (HoldsRead settings done disk progress.output →
          transactions = (rowsRead settings done).length ∧
          disk'.read (destination settings done) = .ok (tableText (rowsRead settings done))) := by
  unfold finish
  cases hopen : progress.output with
  | some output =>
    rw [hopen] at h
    obtain ⟨-, hpath, hplaced⟩ := h
    obtain ⟨output', disk', hflush, hpath', hchange, htable⟩ := placed_flush hplaced
    rw [← hpath, ← hpath']
    refine Or.inr ⟨_, disk', by simp only [perform_bind, perform_pure, hflush]; rfl, ?_,
      fun hholds => ?_⟩
    · rwa [hpath']
    · obtain ⟨hholds', hread⟩ := htable _ hholds
      rw [hpath']
      exact ⟨hholds'.count, hread⟩
  | none =>
    rw [hopen] at h
    rw [destination_of_none h, rowsRead_of_none h]
    cases hplace : disk.place? (settings.target.resolve none settings.time) with
    | none =>
      obtain ⟨cause, hcreate⟩ := perform_create_of_none hplace
      exact Or.inl ⟨rfl, cause, by simp only [perform_bind, hcreate]; rfl⟩
    | some c =>
      obtain ⟨output, disk₁, hcreate, hholds, hpath, hchange₁⟩ := holds_create hplace
      obtain ⟨output', disk', hflush, hholds', hpath', hread, hchange⟩ := holds_flush hholds
      rw [hpath] at hread hchange hpath'
      refine Or.inr ⟨_, disk', ?_, hchange₁.trans hchange, fun _ => ⟨hholds'.count, hread⟩⟩
      simp only [perform_bind, hcreate, hflush, hpath']
      rfl

/-! ## Ending with an input -/

/-- All paths that a conversion may write to. -/
def footprint (settings : Settings) (done : List Reading) : Set String :=
  {path | path = destination settings done ∨
    ∃ failure ∈ failures done, path = diagnosticAt settings failure.input}

theorem reach_subset_footprint (settings : Settings) (done : List Reading) :
    reach settings done ⊆ footprint settings done := by
  rintro path (⟨-, hpath⟩ | hpath)
  · exact Or.inl hpath
  · exact Or.inr hpath

/-- A last change of the output keeps a conversion within its footprint. -/
theorem changedAt_footprint (h : start.ChangedAt (reach settings done) disk)
    (hchange : disk.ChangedAt {destination settings done} disk') :
    start.ChangedAt (footprint settings done) disk' :=
  (h.mono (reach_subset_footprint _ _)).trans (hchange.mono fun _ hpath => Or.inl hpath)

/-- A conversion that has ended within its inputs : it has written to no other path, and there is a
summary only if it fails fast, and then one with an input that failed. -/
def Broken (settings : Settings) (start : Disk) (done : List Reading)
    (result : Except Error Summary × Disk) : Prop :=
  start.ChangedAt (footprint settings done) result.2 ∧
    ∀ summary, result.1 = .ok summary →
      settings.policy = .failFast ∧ summary.output = destination settings done ∧
        summary.failed ≠ []

/-- On the way out a conversion has ended within its inputs, with an error. -/
theorem broken_abandon {all : List Reading} (hchanged : start.ChangedAt (reach settings all) disk)
    (hwritten : writtenTo settings done ⊆ writtenTo settings all)
    (houtput : OutputAt settings done disk output) (error : Error) :
    ∃ disk', disk.perform (abandon Disk.storage output error) =
        ((.error error : Except Error Summary), disk') ∧
      Broken settings start all (.error error, disk') := by
  obtain ⟨disk', habandon, hchange, -⟩ := abandon_of_outputAt Summary houtput error
  have hreach := hchanged.trans (hchange.mono fun path hpath => Or.inl (hwritten hpath))
  refine ⟨disk', habandon, hreach.mono (reach_subset_footprint _ _), ?_⟩
  rintro summary ⟨⟩

/-- A conversion that is stopped has ended within its inputs, with one that failed. -/
theorem broken_stop {progress : Progress Disk.storage} (hpolicy : settings.policy = .failFast)
    (hchanged : start.ChangedAt (reach settings done) disk)
    (houtput : OutputAt settings done disk progress.output) (input : String) (bytes : ByteArray) :
    Broken settings start done
      (disk.perform (stop Disk.storage settings progress input bytes)) := by
  rcases stop_of_outputAt progress houtput input bytes with
    ⟨-, cause, disk', hstop, hchange⟩ | ⟨disk', hstop, hchange, -⟩
  · rw [hstop]
    exact ⟨changedAt_footprint hchanged hchange, by rintro summary ⟨⟩⟩
  · rw [hstop]
    refine ⟨changedAt_footprint hchanged hchange, ?_⟩
    rintro summary ⟨⟩
    exact ⟨hpolicy, rfl, by simp⟩

/-- A conversion that ends with an input. If the input is complete or the policy is to go on, it
ends with an error, as a file cannot be created. -/
structure EndsAt (settings : Settings) (start : Disk) (done : List Reading)
    (progress : Progress Disk.storage) (disk : Disk) (reading : Reading) : Prop where
  passed : ∃ disk', disk.perform (pass settings progress reading) = (none, disk')
  error : settings.policy = .keepGoing ∨ IsComplete reading.bytes →
    (∃ path ∈ reach settings (done ++ [reading]), start.place? path = none) ∧
      ∃ error disk', ∀ rest,
        disk.perform (convertAll Disk.storage settings progress (reading.input :: rest)) =
          (.error error, disk')
  broken : ∀ rest, Broken settings start (done ++ [reading])
    (disk.perform (convertAll Disk.storage settings progress (reading.input :: rest)))

/-- On the way out, after a file could not be created. -/
theorem endsAt_abandon {progress : Progress Disk.storage} {opened : List Reading} {disk₁ : Disk}
    {error : Error} {path : String}
    (hchanged : start.ChangedAt (reach settings (done ++ [reading])) disk₁)
    (hwritten : writtenTo settings opened ⊆ writtenTo settings (done ++ [reading]))
    (houtput : OutputAt settings opened disk₁ output)
    (hpath : path ∈ reach settings (done ++ [reading])) (hplace : start.place? path = none)
    (hpass : disk.perform (pass settings progress reading) = (none, disk₁))
    (habandon : ∀ rest,
      disk.perform (convertAll Disk.storage settings progress (reading.input :: rest)) =
        disk₁.perform (abandon Disk.storage output error)) :
    EndsAt settings start done progress disk reading := by
  obtain ⟨disk', herror, hbroken⟩ := broken_abandon hchanged hwritten houtput error
  refine ⟨⟨disk₁, hpass⟩, fun _ => ⟨⟨path, hpath, hplace⟩, error, disk', fun rest => ?_⟩,
    fun rest => ?_⟩
  · rw [habandon, herror]
  · rw [habandon, herror]
    exact hbroken

/-- A conversion goes on after an input as it goes on after a pass, or ends with it. -/
theorem pass_of_follows {progress : Progress Disk.storage}
    (h : Follows settings start done progress disk) (reading : Reading)
    (hread : disk.read reading.input = .ok reading.bytes) :
    (∃ progress' disk', disk.perform (pass settings progress reading) = (some progress', disk') ∧
        Follows settings start (done ++ [reading]) progress' disk' ∧
        ∀ rest, disk.perform (convertAll Disk.storage settings progress (reading.input :: rest)) =
          disk'.perform (convertAll Disk.storage settings progress' rest)) ∨
      EndsAt settings start done progress disk reading := by
  have hreach := h.changedAt.mono (reach_append done [reading])
  rcases convert_of_outputAt h.output reading with
    ⟨⟨path, hpath, hplace⟩, cause, hconvert⟩ |
    ⟨output', failure, disk₁, hconvert, houtput, hcomplete, hinvalid, hchange, hholds⟩
  · rw [place?_of_sameDirectories h.directories] at hplace
    exact Or.inr (endsAt_abandon hreach (writtenTo_append done [reading]) h.output (Or.inl hpath)
      hplace (pass_ended hconvert fun herror => Bool.false_ne_true herror.1)
      fun rest => convertAll_aborted settings rest hread hconvert rfl)
  have hreach₁ := hreach.trans (hchange.mono fun path hpath => Or.inl hpath)
  by_cases hc : IsComplete reading.bytes
  · rw [hcomplete.2 hc] at hconvert
    exact Or.inl ⟨_, disk₁, pass_converted hconvert, h.converted houtput hchange hholds hc,
      fun rest => convertAll_converted settings rest hread hconvert⟩
  obtain ⟨error, rfl⟩ := Option.ne_none_iff_exists'.1 fun e => hc (hcomplete.1 e)
  have herror := hinvalid error rfl
  cases hpolicy : settings.policy with
  | failFast =>
    refine Or.inr ⟨⟨disk₁, pass_ended hconvert fun hboth => ?_⟩, fun hgoes => ?_, fun rest => ?_⟩
    · rw [hpolicy] at hboth
      cases hboth.2
    · rw [hpolicy] at hgoes
      cases hgoes.resolve_right hc
    · rw [convertAll_stopped settings rest hread hconvert herror hpolicy]
      exact broken_stop hpolicy hreach₁ houtput _ _
  | keepGoing =>
    cases hplace : disk₁.place? (diagnosticAt settings reading.input) with
    | none =>
      obtain ⟨cause, hwrite⟩ := perform_writeDiagnostic_of_none hplace reading.bytes
      rw [place?_of_sameDirectories (h.directories.trans hchange.directories)] at hplace
      have hfailure : reading ∈ failures (done ++ [reading]) := by
        rw [failures_append_of_not hc]
        exact List.mem_append_right _ List.mem_cons_self
      exact Or.inr (endsAt_abandon hreach₁ subset_rfl houtput (Or.inr ⟨reading, hfailure, rfl⟩)
        hplace (pass_undiagnosed hconvert herror hpolicy hwrite)
        fun rest => convertAll_undiagnosed settings rest hread hconvert herror hpolicy hwrite)
    | some c =>
      obtain ⟨disk₂, hwrite, hdiagnostic, hchange₂⟩ := perform_writeDiagnostic hplace reading.bytes
      exact Or.inl ⟨_, disk₂, pass_diagnosed hconvert herror hpolicy hwrite,
        h.diagnosed houtput hchange hholds hc hdiagnostic hchange₂,
        fun rest => convertAll_diagnosed settings rest hread hconvert herror hpolicy hwrite⟩

/-! ## The whole run -/

/-- What a conversion that goes on has done when it is finished : every input was read, the summary
tells the inputs that failed from the others, every place but that of the output is as the
diagnostics leave it, and the output holds what was read, unless it was open when a diagnostic went
there. -/
structure Finished (settings : Settings) (start : Disk) (inputs : List String)
    (done : List Reading) (summary : Summary) (disk : Disk) : Prop where
  inputs : done.map (·.input) = inputs
  output : summary.output = destination settings done
  tally : summary.processed + summary.failed.length = done.length
  failed : summary.failed = (failures done).map (·.input)
  placed : ∀ failure ∈ failures done,
    start.place? (diagnosticAt settings failure.input) ≠ none
  others : ∀ c, start.place? (destination settings done) ≠ some c →
    disk.find? c = remains settings start done c
  table : ((firstReport? done).isSome = true → ∀ failure ∈ failures done,
    start.Apart (destination settings done) (diagnosticAt settings failure.input)) →
      summary.transactions = (rowsRead settings done).length ∧
      disk.read (destination settings done) = .ok (tableText (rowsRead settings done))

/-- A conversion that has come to its end : it has written to the output and to its diagnostics
alone, and a summary names the output. A conversion that goes on returns one if there are inputs, it
could read all of them, and all files can be created. It is finished with a summary if it goes on or
if nothing failed. -/
structure Ended (settings : Settings) (start : Disk) (inputs : List String) (done : List Reading)
    (result : Except Error Summary × Disk) : Prop where
  changed : start.ChangedAt (footprint settings done) result.2
  output : ∀ summary, result.1 = .ok summary → summary.output = destination settings done
  returns : settings.policy = .keepGoing → inputs ≠ [] → done.map (·.input) = inputs →
    (∀ path ∈ footprint settings done, start.place? path ≠ none) →
      ∃ summary, result.1 = .ok summary
  finished : ∀ summary, result.1 = .ok summary → settings.policy = .keepGoing →
    Finished settings start inputs done summary result.2
  faultless : ∀ summary, result.1 = .ok summary → summary.failed = [] →
    Finished settings start inputs done summary result.2

theorem Broken.ended {result : Except Error Summary × Disk}
    (h : Broken settings start done result) {inputs : List String}
    (hcause : settings.policy = .keepGoing → done.map (·.input) = inputs →
      ∃ path ∈ footprint settings done, start.place? path = none) :
    Ended settings start inputs done result where
  changed := h.1
  output summary hsummary := (h.2 summary hsummary).2.1
  returns hpolicy _ hinputs hplaces := by
    obtain ⟨path, hpath, hplace⟩ := hcause hpolicy hinputs
    exact absurd hplace (hplaces path hpath)
  finished summary hsummary hpolicy := by
    rw [(h.2 summary hsummary).1] at hpolicy
    cases hpolicy
  faultless summary hsummary hfailed := absurd hfailed (h.2 summary hsummary).2.2

/-- A conversion without an input left is finished, unless the output cannot be created. -/
theorem finish_of_follows {progress : Progress Disk.storage}
    (h : Follows settings start done progress disk) :
    (start.place? (destination settings done) = none ∧ ∃ cause,
        disk.perform (finish Disk.storage settings progress) = (.error (.file cause), disk)) ∨
      ∃ summary disk', disk.perform (finish Disk.storage settings progress) =
          (.ok summary, disk') ∧
        disk.ChangedAt {destination settings done} disk' ∧
        Finished settings start (done.map (·.input)) done summary disk' := by
  rcases finish_of_outputAt h.output with
    ⟨hplace, herror⟩ | ⟨transactions, disk', hfinish, hchange, htable⟩
  · rw [place?_of_sameDirectories h.directories] at hplace
    exact Or.inl ⟨hplace, herror⟩
  · refine Or.inr ⟨_, disk', hfinish, hchange, rfl, rfl, ?_, h.failed, h.placed, fun c hc => ?_,
      fun hapart => htable (h.holdsRead hapart)⟩
    · rw [List.length_reverse, h.tally]
    · rw [← h.others c]
      · refine hchange.others c ?_
        rintro path rfl
        rwa [place?_of_sameDirectories h.directories]
      · rintro path ⟨-, rfl⟩
        exact hc

/-- A conversion without an input left has come to its end. -/
theorem ended_finish {progress : Progress Disk.storage}
    (h : Follows settings start done progress disk) :
    Ended settings start (done.map (·.input)) done
      (disk.perform (finish Disk.storage settings progress)) := by
  rcases finish_of_follows h with
    ⟨hplace, cause, hfinish⟩ | ⟨summary, disk', hfinish, hchange, hfinished⟩
  · rw [hfinish]
    exact ⟨h.changedAt.mono (reach_subset_footprint _ _), by rintro summary ⟨⟩,
      fun _ _ _ hplaces => absurd hplace (hplaces _ (Or.inl rfl)), by rintro summary ⟨⟩,
      by rintro summary ⟨⟩⟩
  · rw [hfinish]
    refine ⟨changedAt_footprint h.changedAt hchange, ?_, fun _ _ _ _ => ⟨summary, rfl⟩, ?_, ?_⟩
    · rintro _ ⟨⟩
      exact hfinished.output
    · rintro _ ⟨⟩ -
      exact hfinished
    · rintro _ ⟨⟩ -
      exact hfinished

/-- The inputs that are left are read and converted, or end the conversion. -/
theorem ended_convertAll {progress : Progress Disk.storage}
    (h : Follows settings start done progress disk) (inputs : List String) :
    Ended settings start (done.map (·.input) ++ inputs)
      (done ++ (disk.perform (readAll settings progress inputs)).1)
      (disk.perform (convertAll Disk.storage settings progress inputs)) := by
  induction inputs generalizing done progress disk with
  | nil =>
    rw [List.append_nil, readAll, perform_pure, List.append_nil]
    exact ended_finish h
  | cons input inputs ih =>
    rw [readAll, perform_bind, perform_read]
    cases hread : disk.read input with
    | error cause =>
      have hchanged := h.changedAt.mono (reach_append done [])
      obtain ⟨disk', habandon, hbroken⟩ :=
        broken_abandon hchanged (writtenTo_append done []) h.output (.file cause)
      rw [convertAll_unreadable settings inputs hread, habandon]
      refine hbroken.ended fun _ hinputs => ?_
      rw [List.append_nil, List.self_eq_append_right] at hinputs
      cases hinputs
    | ok bytes =>
      dsimp only
      rw [perform_bind]
      rcases pass_of_follows h ⟨input, bytes⟩ hread with
        ⟨progress', disk', hpass, h', hrest⟩ | ⟨⟨disk', hpass⟩, hcause, hbroken⟩
      · have hlater := ih h'
        rw [List.map_append, List.map_singleton, List.append_assoc, List.append_assoc,
          List.singleton_append, List.singleton_append, ← hrest inputs] at hlater
        rw [hpass]
        exact hlater
      · rw [hpass]
        refine (hbroken inputs).ended fun hpolicy _ => ?_
        obtain ⟨⟨path, hpath, hplace⟩, -⟩ := hcause (Or.inl hpolicy)
        exact ⟨path, reach_subset_footprint _ _ hpath, hplace⟩

/-- Every conversion ends with what it has read. -/
theorem ended_run (settings : Settings) (disk : Disk) (inputs : List String) :
    Ended settings disk inputs (readings settings disk inputs)
      (disk.perform (run Disk.storage settings inputs)) := by
  rcases inputs with _ | ⟨input, inputs⟩
  · exact ⟨.refl disk _, by rintro summary ⟨⟩, fun _ hinputs => absurd rfl hinputs,
      by rintro summary ⟨⟩, by rintro summary ⟨⟩⟩
  · have hended := ended_convertAll (follows_nil settings disk) (input :: inputs)
    rwa [List.map_nil, List.nil_append, List.nil_append, ← run_eq_convertAll settings (by simp)]
      at hended

theorem Follows.read_iff {progress : Progress Disk.storage} {input : String} {bytes : ByteArray}
    (h : Follows settings start done progress disk)
    (hapart : ∀ path ∈ footprint settings (done ++ more), start.Apart input path) :
    disk.read input = .ok bytes ↔ start.read input = .ok bytes :=
  h.changedAt.read_iff fun path hpath =>
    hapart path (reach_subset_footprint _ _ (reach_append done more hpath))

theorem read_of_mem_readAll {progress : Progress Disk.storage}
    (h : Follows settings start done progress disk) (inputs : List String) :
    ∀ reading ∈ (disk.perform (readAll settings progress inputs)).1,
      (∀ path ∈ footprint settings (done ++ (disk.perform (readAll settings progress inputs)).1),
        start.Apart reading.input path) → start.read reading.input = .ok reading.bytes := by
  induction inputs generalizing done progress disk with
  | nil =>
    rw [readAll, perform_pure]
    exact List.forall_mem_nil _
  | cons input inputs ih =>
    rw [readAll, perform_bind, perform_read]
    cases hread : disk.read input with
    | error cause => exact List.forall_mem_nil _
    | ok bytes =>
      dsimp only
      rw [perform_bind]
      rcases pass_of_follows h ⟨input, bytes⟩ hread with
        ⟨progress', disk', hpass, h', -⟩ | ⟨⟨disk', hpass⟩, -, -⟩
      · rw [hpass]
        refine List.forall_mem_cons.2 ⟨fun hapart => (h.read_iff hapart).1 hread, ?_⟩
        have hlater := ih h'
        rw [List.append_assoc, List.singleton_append] at hlater
        exact hlater
      · rw [hpass]
        exact List.forall_mem_singleton.2 fun hapart => (h.read_iff hapart).1 hread

/-- A conversion of one input that can be read reads that input alone. -/
theorem readings_singleton {input : String} {bytes : ByteArray}
    (hread : disk.read input = .ok bytes) :
    readings settings disk [input] = [⟨input, bytes⟩] := by
  rw [readings, readAll, perform_bind, perform_read, hread]
  dsimp only
  rw [perform_bind]
  cases (disk.perform (pass settings {} ⟨input, bytes⟩)).1 with
  | none => rfl
  | some progress => rfl

/-- An input that the conversion does not write to is read as it was at the start. -/
theorem read_of_mem_readings (hreading : reading ∈ readings settings disk inputs)
    (hapart : ∀ path ∈ footprint settings (readings settings disk inputs),
      disk.Apart reading.input path) : disk.read reading.input = .ok reading.bytes :=
  read_of_mem_readAll (follows_nil settings disk) inputs reading hreading hapart

end MifirReport.Batch
