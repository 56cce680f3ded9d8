import MifirReport.Proofs.Batch.KeepGoing
import MifirReport.Proofs.Files.Growth

/-!
# An input that cannot be read

An input that cannot be read ends a conversion with an error, whatever follows it. The inputs before
it have had their effect by then : an output that they opened is completed on the way out, and the
diagnostics are where they were written (`run_unreadable`). Nothing else is changed, so that a
conversion that met no report leaves no output.

The error is that of the input when its turn comes. It is the one at the start unless a file was
written where the path of the input met nothing before (`read_error_of_grows`).
-/

namespace MifirReport.Batch

open Files Report Table Disk

variable {settings : Settings} {disk disk' : Disk} {inputs before : List String} {input : String}

/-! ## Diagnostics -/

/-- The last of some inputs whose diagnostic goes where that of a given input goes. -/
def lastDiagnosed? (settings : Settings) (disk : Disk) (inputs : List String) (input : String) :
    Option String :=
  (inputs.filter fun other =>
    disk.place? (diagnosticAt settings other) = disk.place? (diagnosticAt settings input)).getLast?

theorem exists_lastDiagnosed? (settings : Settings) (disk : Disk) (h : input ∈ inputs) :
    ∃ last, lastDiagnosed? settings disk inputs input = some last := by
  have hmem : input ∈ inputs.filter fun other =>
      disk.place? (diagnosticAt settings other) = disk.place? (diagnosticAt settings input) :=
    List.mem_filter.2 ⟨h, decide_eq_true rfl⟩
  exact ⟨_, List.getLast?_eq_some_getLast (List.ne_nil_of_mem hmem)⟩

/-- What remains at the place of a diagnostic is the diagnostic of the last input that has it
there. -/
theorem remains_asFound {last : String} {c : List String}
    (hplace : disk.place? (diagnosticAt settings input) = some c)
    (hlast : lastDiagnosed? settings disk (incompleteAt disk inputs) input = some last) :
    remains settings disk (asFound disk inputs) c =
      some (.file (diagnosticText (bytesAt disk last))) := by
  have hfind : (failures (asFound disk inputs)).reverse.find? (fun failure =>
      disk.place? (diagnosticAt settings failure.input) = some c) =
        some ⟨last, bytesAt disk last⟩ := by
    rw [lastDiagnosed?, hplace, List.getLast?_eq_head?_reverse, ← List.filter_reverse,
      List.head?_filter] at hlast
    rw [failures_asFound, asFound, ← List.map_reverse, List.find?_map, Function.comp_def, hlast,
      Option.map_some]
  rw [remains, hfind]

/-- No output is where a diagnostic of the inputs goes, if one that is given is not. -/
theorem apart_resolve (hgiven : ∀ path, settings.target = .file path →
      ∀ failed ∈ incompleteAt disk inputs, disk.Apart path (diagnosticAt settings failed))
    (party : Option String) {failed : String} (h : failed ∈ incompleteAt disk inputs) :
    disk.Apart (settings.target.resolve party settings.time) (diagnosticAt settings failed) := by
  cases htarget : settings.target with
  | file path => exact hgiven path htarget failed h
  | directory path =>
    rw [← htarget]
    exact apart_resolve_diagnosticAt htarget party failed

/-! ## On the way out -/

variable {start : Disk} {done : List Reading} {progress : Progress Disk.storage}

/-- What a conversion leaves that ends between two inputs : the output, if there is one, is the
whole table, and every other place is as the diagnostics leave it. -/
structure Left (settings : Settings) (start : Disk) (done : List Reading) (disk : Disk) :
    Prop where
  changed : start.ChangedAt (reach settings done) disk
  table : ∀ path ∈ writtenTo settings done,
    disk.read path = .ok (tableText (rowsRead settings done))
  others : ∀ c, (∀ path ∈ writtenTo settings done, start.place? path ≠ some c) →
    disk.find? c = remains settings start done c

/-- An output that is open is a file. -/
theorem exists_read_of_holdsRead (h : OutputAt settings done disk progress.output)
    (hholds : HoldsRead settings done disk progress.output) :
    ∀ path ∈ writtenTo settings done, ∃ bytes, disk.read path = .ok bytes := by
  rintro path ⟨hsome, rfl⟩
  cases hopen : progress.output with
  | none =>
    rw [hopen, OutputAt] at h
    simp [h] at hsome
  | some output =>
    rw [hopen] at h hholds
    obtain ⟨c, written, hplace, hfind, -⟩ := Output.Holds.file hholds
    rw [← h.2.1]
    exact ⟨written, read_eq_ok_iff.2 ⟨c, hplace, hfind⟩⟩

/-- On the way out the output is completed, and no file is added or taken away. -/
theorem left_abandon (h : Follows settings start done progress disk)
    (hapart : (firstReport? done).isSome = true → ∀ failure ∈ failures done,
      start.Apart (destination settings done) (diagnosticAt settings failure.input))
    (error : Error) :
    ∃ disk', disk.perform (abandon Disk.storage progress.output error :
        StateM Disk (Except Error Summary)) = (.error error, disk') ∧
      Left settings start done disk' ∧ disk.Grows disk' ∧ disk'.Grows disk := by
  have hholds := h.holdsRead hapart
  obtain ⟨disk', habandon, hchange, htable⟩ := abandon_of_outputAt Summary h.output error
  refine ⟨disk', habandon, ⟨?_, htable hholds, fun c hc => ?_⟩, ?_, ?_⟩
  · exact h.changedAt.trans (hchange.mono fun path hpath => Or.inl hpath)
  · rw [← h.others c hc]
    refine hchange.others c fun path hpath => ?_
    rw [place?_of_sameDirectories h.directories]
    exact hc path hpath
  · exact grows_of_changedAt hchange fun path hpath _ => ⟨_, htable hholds path hpath⟩
  · exact grows_of_changedAt hchange.symm fun path hpath _ =>
      exists_read_of_holdsRead h.output hholds path hpath

/-! ## The whole run -/

/-- The diagnostic of each failed input is in its file, unless a later one took its place. -/
theorem read_diagnosticAt_of_left (h : Left settings disk (asFound disk before) disk')
    (hplaces : ∀ path ∈ touched settings disk before, disk.place? path ≠ none)
    (hgiven : ∀ path, settings.target = .file path →
      ∀ failed ∈ incompleteAt disk before, disk.Apart path (diagnosticAt settings failed))
    {failed last : String} (hfailed : failed ∈ incompleteAt disk before)
    (hlast : lastDiagnosed? settings disk (incompleteAt disk before) failed = some last) :
    disk'.read (diagnosticAt settings failed) = .ok (diagnosticText (bytesAt disk last)) := by
  obtain ⟨c, hplace⟩ := Option.ne_none_iff_exists'.1 (hplaces _ (Or.inr ⟨failed, hfailed, rfl⟩))
  refine read_eq_ok_iff.2 ⟨c, by rw [h.changed.place?_eq, hplace], ?_⟩
  rw [h.others c, remains_asFound hplace hlast]
  rintro path ⟨-, rfl⟩ hpath
  exact apart_resolve hgiven _ hfailed c hpath hplace

/-- A conversion that meets an input that it cannot read ends with the error of that input, whatever
comes after it. The output is there just if a report was read before, and holds all rows up to that
input. The diagnostics of the failed inputs before it are written, the last one where several go to
one place, and nothing else is changed. No input that is read may be where the conversion writes,
and all files that it writes to can be created. -/
theorem run_unreadable {cause : Cause}
    (hpolicy : settings.policy = .keepGoing ∨ ∀ other ∈ before, IsComplete (bytesAt disk other))
    (hbefore : ∀ other ∈ before, ∃ bytes, disk.read other = .ok bytes)
    (hinput : disk.read input = .error cause)
    (hapart : ∀ other ∈ before ++ [input], ∀ path ∈ touched settings disk before,
      disk.Apart other path)
    (hgiven : ∀ path, settings.target = .file path →
      ∀ failed ∈ incompleteAt disk before, disk.Apart path (diagnosticAt settings failed))
    (hplaces : ∀ path ∈ touched settings disk before, disk.place? path ≠ none) :
    ∃ cause' disk',
      (∀ after, disk.perform (run Disk.storage settings (before ++ input :: after)) =
        (.error (.file cause'), disk')) ∧
      (disk'.read input = .error cause' ∧
        (cause' = cause ∨ cause = .notFound ∧ cause' = .notDirectory)) ∧
      (HasReport disk before → disk'.read (outputPath settings disk before) =
        .ok (tableText (rowsAt settings disk before))) ∧
      (¬HasReport disk before → ∀ party c,
        disk.place? (settings.target.resolve party settings.time) = some c →
          disk'.find? c = disk.find? c) ∧
      (∀ failed ∈ incompleteAt disk before, ∃ last table,
        lastDiagnosed? settings disk (incompleteAt disk before) failed = some last ∧
        diagnostic (Text.Utf8.decodeLossy (bytesAt disk last).data.toList) = .ok table ∧
        disk'.read (diagnosticAt settings failed) = .ok table) ∧
      disk.ChangedAt (touched settings disk before) disk' := by
  have hnil : Follows settings disk (asFound disk []) {} disk := follows_nil settings disk
  obtain ⟨progress, disk₁, h, hrest⟩ := (follows_or_error hnil before hbefore hpolicy
    fun other hother => hapart other (List.mem_append_left _ hother)).resolve_left
      fun ⟨⟨path, hpath, hnone⟩, _⟩ => hplaces path hpath hnone
  rw [List.nil_append] at h
  have hreach : reach settings (asFound disk before) = touched settings disk before :=
    reach_asFound
  have hunread : ∀ {disk₂ : Disk}, disk.ChangedAt (touched settings disk before) disk₂ →
      ∀ bytes, disk₂.read input ≠ .ok bytes := by
    intro disk₂ hchanged bytes hread
    rw [hchanged.read_iff (hapart input (by simp)), hinput] at hread
    cases hread
  cases hcause' : disk₁.read input with
  | ok bytes => exact absurd hcause' (hunread (hreach ▸ h.changedAt) bytes)
  | error cause' =>
    obtain ⟨disk', habandon, hleft, hgrows, hgrows'⟩ := left_abandon h (by
      rintro - failure hfailure
      rw [failures_asFound] at hfailure
      obtain ⟨failed, hfailed, rfl⟩ := List.mem_map.1 hfailure
      exact apart_resolve hgiven _ hfailed) (.file cause')
    have hchanged : disk.ChangedAt (touched settings disk before) disk' := hreach ▸ hleft.changed
    have hread' := read_error_eq hgrows hgrows' hcause' (hunread hchanged)
    have htable : HasReport disk before → disk'.read (outputPath settings disk before) =
        .ok (tableText (rowsAt settings disk before)) := by
      intro hhas
      rw [← destination_asFound, ← rowsRead_asFound]
      exact hleft.table _ ⟨isSome_firstReport?_asFound.2 hhas, rfl⟩
    have hdiagnostic : ∀ failed ∈ incompleteAt disk before, ∃ last,
        lastDiagnosed? settings disk (incompleteAt disk before) failed = some last ∧
        disk'.read (diagnosticAt settings failed) =
          .ok (diagnosticText (bytesAt disk last)) := by
      intro failed hfailed
      obtain ⟨last, hlast⟩ := exists_lastDiagnosed? settings disk hfailed
      exact ⟨last, hlast, read_diagnosticAt_of_left hleft hplaces hgiven hfailed hlast⟩
    have hall : disk.Grows disk' := by
      refine grows_of_changedAt hchanged ?_
      rintro path (⟨hhas, rfl⟩ | ⟨failed, hfailed, rfl⟩) -
      · exact ⟨_, htable hhas⟩
      · obtain ⟨last, -, hread⟩ := hdiagnostic failed hfailed
        exact ⟨_, hread⟩
    refine ⟨cause', disk', fun after => ?_, ⟨hread', ?_⟩, htable, ?_, ?_, hchanged⟩
    · rw [run_eq_convertAll settings (by simp), hrest,
        convertAll_unreadable settings after hcause', habandon]
    · obtain ⟨cause'', hread'', hcause⟩ := read_error_of_grows hall hinput (hunread hchanged)
      rw [hread', Except.error.injEq] at hread''
      rwa [← hread''] at hcause
    · intro hno party c hplace
      refine hchanged.others c ?_
      rintro path (⟨hhas, -⟩ | ⟨failed, hfailed, rfl⟩) hpath
      · exact hno hhas
      · exact apart_resolve hgiven party hfailed c hplace hpath
    · intro failed hfailed
      obtain ⟨last, hlast, hread⟩ := hdiagnostic failed hfailed
      refine ⟨last, diagnosticText (bytesAt disk last), hlast, ?_, hread⟩
      rw [diagnostic_eq, ← tableText_eq, ← diagnosticText]

/-- A conversion of two inputs that fail, one of them after a row, ends with a third that is not
there. -/
theorem run_unreadable_missing :
    ∃ cause disk', (∀ after, mixedDisk.perform
        (run Disk.storage mixedSettings (["a.xml", "b.xml"] ++ "missing.xml" :: after)) =
          (.error (.file cause), disk')) ∧
      disk'.read "missing.xml" = .error cause ∧
      disk'.read "out.csv" =
        .ok (tableText (rowsAt mixedSettings mixedDisk ["a.xml", "b.xml"])) ∧
      (rowsAt mixedSettings mixedDisk ["a.xml", "b.xml"]).length = 1 ∧
      ∃ table, diagnostic
          (Text.Utf8.decodeLossy (bytesAt mixedDisk "b.xml").data.toList) = .ok table ∧
        disk'.read (diagnosticAt mixedSettings "b.xml") = .ok table := by
  have hread : ∀ other ∈ ["a.xml", "b.xml"], ∃ bytes, mixedDisk.read other = .ok bytes := by
    simp only [List.forall_mem_cons]
    exact ⟨⟨_, rfl⟩, ⟨_, rfl⟩, List.forall_mem_nil _⟩
  have hfailed : incompleteAt mixedDisk ["a.xml", "b.xml"] = ["a.xml", "b.xml"] := by
    decide +kernel
  have htouched : ∀ path ∈ touched mixedSettings mixedDisk ["a.xml", "b.xml"],
      path ∈ ["out.csv", diagnosticAt mixedSettings "a.xml",
        diagnosticAt mixedSettings "b.xml"] := by
    rintro path (⟨-, rfl⟩ | ⟨failed, hmem, rfl⟩)
    · exact List.mem_cons_self
    · rw [hfailed] at hmem
      exact List.mem_cons_of_mem _ (List.mem_map_of_mem hmem)
  have hplaces : ∀ path ∈ ["out.csv", diagnosticAt mixedSettings "a.xml",
      diagnosticAt mixedSettings "b.xml"], mixedDisk.place? path ≠ none ∧
        ∀ other ∈ ["a.xml", "b.xml", "missing.xml"],
          mixedDisk.place? other ≠ mixedDisk.place? path := by
    decide
  have hgiven : ∀ failed ∈ ["a.xml", "b.xml"],
      mixedDisk.place? "out.csv" ≠ mixedDisk.place? (diagnosticAt mixedSettings failed) := by
    decide
  obtain ⟨cause', disk', hrun, ⟨hinput, -⟩, htable, -, hdiagnostics, -⟩ :=
    @run_unreadable mixedSettings mixedDisk ["a.xml", "b.xml"] "missing.xml" .notFound (Or.inl rfl)
      hread rfl
      (fun other hother path hpath =>
        apart_of_place?_ne ((hplaces path (htouched path hpath)).2 other hother))
      (by
        rintro path ⟨⟩ failed hmem
        rw [hfailed] at hmem
        exact apart_of_place?_ne (hgiven failed hmem))
      fun path hpath => (hplaces path (htouched path hpath)).1
  have hhas : HasReport mixedDisk ["a.xml", "b.xml"] := ⟨"b.xml", by simp, by decide +kernel⟩
  obtain ⟨last, table, hlast, hown, hdiagnostic⟩ := hdiagnostics "b.xml" (by simp [hfailed])
  have hb : lastDiagnosed? mixedSettings mixedDisk ["a.xml", "b.xml"] "b.xml" = some "b.xml" := by
    decide
  rw [hfailed, hb, Option.some.injEq] at hlast
  subst hlast
  exact ⟨cause', disk', hrun, hinput, htable hhas, by decide +kernel, table, hown, hdiagnostic⟩

end MifirReport.Batch
