import MifirReport.Proofs.Batch.Untouched
import MifirReport.Proofs.Files.Path

/-!
# Going on after a diagnostic

Under `Policy.keepGoing` the output holds the rows that each input contributes, in the order of the
inputs, whatever is wrong with some of them, and the summary tells the inputs with a diagnostic from
the others : `run_keepGoing`. No input may be where the conversion writes, and an output that is
given may not be where a diagnostic goes. One that is generated never is
(`apart_outputPath_diagnosticAt`), as their names end differently.

`exists_run_keepGoing` is the converse : the conversion ends with a summary if all files can be
created.
-/

namespace MifirReport.Batch

open Files Report Table Disk

/-! ## Names of outputs and diagnostics -/

variable {settings : Settings} {disk disk' : Disk} {inputs : List String} {summary : Summary}

/-- Generated names of outputs have one ending, whatever the party and the time. -/
theorem suffix_outputName (party : String) (time : Timestamp) :
    "PUT_0000.csv".toList <:+ (outputName party time).toList := by
  have hend : "PUT_0000.csv".toList <:+ "_NNIPOUTPUT_0000.csv".toList := by decide
  unfold outputName
  rw [String.toList_append]
  exact hend.trans (List.suffix_append _ _)

/-- So have the paths of diagnostics, but another one. -/
theorem suffix_diagnosticAt (settings : Settings) (input : String) :
    ".invalid.csv".toList <:+ (diagnosticAt settings input).toList := by
  have hname : ".invalid.csv".toList <:+ (diagnosticName input).toList := by
    unfold diagnosticName
    rw [String.toList_append]
    exact List.suffix_append _ _
  exact hname.trans (Path.suffix_join _ _)

/-- An output in a directory is not where a diagnostic goes, whatever the party. -/
theorem apart_resolve_diagnosticAt {directory : String}
    (htarget : settings.target = .directory directory) (party : Option String) (input : String) :
    disk.Apart (settings.target.resolve party settings.time) (diagnosticAt settings input) := by
  have hend : "PUT_0000.csv".toList <:+
      (settings.target.resolve party settings.time).toList := by
    rw [htarget]
    exact (suffix_outputName _ _).trans (Path.suffix_join _ _)
  exact apart_of_endings (by decide) (by decide) (by decide) (by decide) (by decide) hend
    (suffix_diagnosticAt settings input)

theorem apart_outputPath_diagnosticAt {directory : String}
    (htarget : settings.target = .directory directory) (input : String) :
    disk.Apart (outputPath settings disk inputs) (diagnosticAt settings input) :=
  apart_resolve_diagnosticAt htarget _ input

/-! ## The whole run -/

/-- The paths that a conversion of some inputs may write to are clear of these inputs, and of each
other as far as the content of the output depends on it. -/
structure Clear (settings : Settings) (disk : Disk) (inputs : List String) : Prop where
  output : ∀ input ∈ inputs, disk.Apart input (outputPath settings disk inputs)
  diagnostics : ∀ input ∈ inputs, ∀ other ∈ inputs,
    disk.Apart input (diagnosticAt settings other)
  given : ∀ path, settings.target = .file path →
    ∀ input ∈ inputs, disk.Apart path (diagnosticAt settings input)

/-- An output is clear of the diagnostics, be it given or generated. -/
theorem Clear.apart_outputPath (h : Clear settings disk inputs) {input : String}
    (hinput : input ∈ inputs) :
    disk.Apart (outputPath settings disk inputs) (diagnosticAt settings input) := by
  cases htarget : settings.target with
  | file path =>
    rw [outputPath, htarget]
    exact h.given path htarget input hinput
  | directory path => exact apart_outputPath_diagnosticAt htarget input

/-- The inputs are clear of all that is written. -/
theorem Clear.apart_touched (h : Clear settings disk inputs) :
    ∀ input ∈ inputs, ∀ path ∈ touched settings disk inputs, disk.Apart input path := by
  rintro input hinput path (⟨-, rfl⟩ | ⟨other, hother, rfl⟩)
  · exact h.output input hinput
  · exact h.diagnostics input hinput other (List.mem_filter.1 hother).1

/-- A conversion that goes on ends with a summary if all files can be created. -/
theorem exists_run_keepGoing (hpolicy : settings.policy = .keepGoing) (hinputs : inputs ≠ [])
    (hread : ∀ input ∈ inputs, ∃ bytes, disk.read input = .ok bytes)
    (hclear : Clear settings disk inputs)
    (hplaces : ∀ path ∈ insert (outputPath settings disk inputs) (touched settings disk inputs),
      disk.place? path ≠ none) :
    ∃ summary disk', disk.perform (run Disk.storage settings inputs) = (.ok summary, disk') := by
  rcases run_asFound hinputs hread (Or.inl hpolicy) hclear.apart_touched with
    ⟨⟨path, hpath, hplace⟩, -⟩ | ⟨summary, disk', hrun, -⟩
  · exact absurd hplace (hplaces path hpath)
  · exact ⟨summary, disk', hrun⟩

/-- A conversion that goes on and ends with a summary has written the header row and the rows that
its inputs contribute, in their order. The summary counts these rows, and lists the inputs that a
diagnostic stands for. -/
theorem run_keepGoing (hpolicy : settings.policy = .keepGoing) (hinputs : inputs ≠ [])
    (hread : ∀ input ∈ inputs, ∃ bytes, disk.read input = .ok bytes)
    (houtput : ∀ input ∈ inputs, disk.Apart input (outputPath settings disk inputs))
    (hdiagnostics : ∀ input ∈ inputs, ∀ other ∈ inputs,
      disk.Apart input (diagnosticAt settings other))
    (hgiven : ∀ path, settings.target = .file path →
      ∀ input ∈ inputs, disk.Apart path (diagnosticAt settings input))
    (hrun : disk.perform (run Disk.storage settings inputs) = (.ok summary, disk')) :
    summary.output = outputPath settings disk inputs ∧
      disk'.read summary.output = .ok (tableText (rowsAt settings disk inputs)) ∧
      summary.transactions = (rowsAt settings disk inputs).length ∧
      summary.failed = inputs.filter (fun input => ¬IsComplete (bytesAt disk input)) ∧
      summary.processed + summary.failed.length = inputs.length := by
  have hclear : Clear settings disk inputs := ⟨houtput, hdiagnostics, hgiven⟩
  rcases run_asFound hinputs hread (Or.inl hpolicy) hclear.apart_touched with
    ⟨-, error, disk₁, herror⟩ | ⟨summary', disk₁, hdone, hfinished⟩
  · rw [hrun] at herror
    cases herror
  rw [hrun] at hdone
  cases hdone
  have htable := hfinished.table fun _ failure hfailure => by
    rw [failures_asFound] at hfailure
    obtain ⟨input, hinput, rfl⟩ := List.mem_map.1 hfailure
    rw [destination_asFound]
    exact hclear.apart_outputPath (List.mem_filter.1 hinput).1
  have hlength : (asFound disk inputs).length = inputs.length := List.length_map _
  have hfailed := hfinished.failed
  have hpath := hfinished.output
  rw [destination_asFound, rowsRead_asFound] at htable
  rw [failures_asFound, map_input_asFound] at hfailed
  rw [destination_asFound] at hpath
  exact ⟨hpath, hpath ▸ htable.2, htable.1, hfailed, hlength ▸ hfinished.tally⟩

/-- The bytes of a report with given transactions. -/
def reportBytes (transactions : String) : ByteArray :=
  ("<Document><FinInstrmRptgTxRpt>" ++ transactions ++ "</FinInstrmRptgTxRpt></Document>").toUTF8

/-- A disk with a file that is not text, a report whose second transaction has no content, and a
report whose only transaction is cancelled. -/
def mixedDisk : Disk where
  nodes := [
    (["a.xml"], .file ⟨#[0xff]⟩),
    (["b.xml"], .file (reportBytes "<Tx><New/></Tx><Tx/><Tx><New/></Tx>")),
    (["c.xml"], .file (reportBytes "<Tx><Cxl/></Tx>"))]

/-- Settings to go on, with an output that is given. -/
def mixedSettings : Settings where
  mode := .standard
  policy := .keepGoing
  target := .file "out.csv"
  time := ⟨2018, 1, 3, 9, 30, 0, by decide⟩

theorem run_keepGoing_mixed :
    let inputs := ["a.xml", "b.xml", "c.xml", "a.xml"]
    ∃ summary disk', mixedDisk.perform (run Disk.storage mixedSettings inputs) =
        (.ok summary, disk') ∧
      disk'.read "out.csv" = .ok (tableText (rowsAt mixedSettings mixedDisk inputs)) ∧
      summary = ⟨2, 1, ["a.xml", "b.xml", "a.xml"], "out.csv"⟩ := by
  intro inputs
  have hread : ∀ input ∈ inputs, ∃ bytes, mixedDisk.read input = .ok bytes := by
    simp only [inputs, List.forall_mem_cons]
    exact ⟨⟨_, rfl⟩, ⟨_, rfl⟩, ⟨_, rfl⟩, ⟨_, rfl⟩, by simp⟩
  have houtput : ∀ input ∈ inputs, mixedDisk.place? input ≠ mixedDisk.place? "out.csv" := by
    decide
  have hdiagnostics : ∀ input ∈ inputs, ∀ other ∈ inputs,
      mixedDisk.place? input ≠ mixedDisk.place? (diagnosticAt mixedSettings other) := by
    decide
  have hgiven : ∀ input ∈ inputs,
      mixedDisk.place? "out.csv" ≠ mixedDisk.place? (diagnosticAt mixedSettings input) := by
    decide
  have hplaces : ∀ input ∈ inputs, mixedDisk.place? (diagnosticAt mixedSettings input) ≠ none := by
    decide
  have hclear : Clear mixedSettings mixedDisk inputs := by
    refine ⟨fun input hinput => apart_of_place?_ne (houtput input hinput),
      fun input hinput other hother => apart_of_place?_ne (hdiagnostics input hinput other hother),
      ?_⟩
    rintro path hpath input hinput
    cases hpath
    exact apart_of_place?_ne (hgiven input hinput)
  obtain ⟨summary, disk', hrun⟩ := exists_run_keepGoing rfl (by decide) hread hclear (by
    rintro path (rfl | ⟨-, rfl⟩ | ⟨input, hinput, rfl⟩)
    · decide
    · decide
    · exact hplaces input (List.mem_filter.1 hinput).1)
  obtain ⟨hpath, htable, hrows, hfailed, hsum⟩ :=
    run_keepGoing rfl (by decide) hread hclear.output hclear.diagnostics hclear.given hrun
  have hcount : (rowsAt mixedSettings mixedDisk inputs).length = 2 := by decide +kernel
  have hmixed : inputs.filter (fun input => ¬IsComplete (bytesAt mixedDisk input)) =
      ["a.xml", "b.xml", "a.xml"] := by
    decide +kernel
  rw [hfailed, hmixed] at hsum
  have hprocessed : summary.processed = 1 := Nat.add_right_cancel hsum
  refine ⟨summary, disk', hrun, by rwa [hpath] at htable, ?_⟩
  obtain ⟨transactions, processed, failed, output⟩ := summary
  rw [Summary.mk.injEq]
  exact ⟨hrows.trans hcount, hprocessed, hfailed.trans hmixed, hpath⟩

end MifirReport.Batch
