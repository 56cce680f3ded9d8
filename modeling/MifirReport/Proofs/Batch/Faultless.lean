import MifirReport.Proofs.Batch.Untouched
import Mathlib.Data.List.Forall2

/-!
# A conversion without failures

A summary that lists no failed input says that every input was read and held a report with content
in all of its transactions, and that the whole table is in the output, whatever the policy
(`run_faultless`). The inputs have to be apart from the output : those up to the first report are
read before anything is written, and the others after the path of the output is decided, so that all
of them are read as they were (`readAll_eq_asFound`).

Conversely, a conversion of such inputs ends with a summary of this kind if the output can be
created (`exists_run_of_isComplete`).
-/

namespace MifirReport.Batch

open Client Files Report Table Disk Xml

/-! ## Rows of complete files -/

/-- A file holds a report, with a row for each of its transactions, in order. -/
def MapsTo (disk : Disk) (mode : ClientMode) (path : String) (rows : List Row) : Prop :=
  ∃ bytes report, disk.read path = .ok bytes ∧ readReport bytes = .ok report ∧
    List.Forall₂ (fun tx row => ∀ index, mapElement report.lookup mode tx index = .ok row)
      report.transactions rows

theorem forall₂_leadingRows (x : Lookup) (mode : ClientMode) (txs : List Element)
    (h : ∀ tx ∈ txs, hasContent x tx = true) :
    List.Forall₂ (fun tx row => ∀ index, mapElement x mode tx index = .ok row) txs
      (leadingRows x mode txs) := by
  induction txs with
  | nil => exact .nil
  | cons tx txs ih =>
    obtain ⟨hcontent, hothers⟩ := List.forall_mem_cons.1 h
    rw [← isSome_row? x mode, Option.isSome_iff_exists] at hcontent
    obtain ⟨row, hrow⟩ := hcontent
    rw [leadingRows_cons, hrow]
    refine .cons (fun index => ?_) (ih hothers)
    rw [mapElement_eq, hrow]

variable {settings : Settings} {start disk disk' : Disk} {inputs done : List String}
  {input : String} {bytes : ByteArray} {summary : Summary}

theorem mapsTo_of_isComplete (mode : ClientMode) (hread : disk.read input = .ok bytes)
    (h : IsComplete bytes) : MapsTo disk mode input (fileRows mode (bytesAt disk input)) := by
  obtain ⟨report, hreport, hcontent⟩ := h
  refine ⟨bytes, report, hread, readReport_of_reportOf? hreport, ?_⟩
  rw [bytesAt_of_read hread, fileRows, hreport]
  exact forall₂_leadingRows report.lookup mode report.transactions hcontent

/-- The rows of complete inputs are those of their transactions. -/
theorem exists_rowsAt_eq (settings : Settings) (inputs : List String)
    (h : ∀ input ∈ inputs, ∃ bytes, disk.read input = .ok bytes ∧ IsComplete bytes) :
    ∃ tables, List.Forall₂ (MapsTo disk settings.mode) inputs tables ∧
      rowsAt settings disk inputs = tables.flatten := by
  refine ⟨inputs.map fun input => fileRows settings.mode (bytesAt disk input), ?_,
    List.flatMap_def⟩
  rw [List.forall₂_map_right_iff, List.forall₂_same]
  intro input hinput
  obtain ⟨bytes, hread, hcomplete⟩ := h input hinput
  exact mapsTo_of_isComplete settings.mode hread hcomplete

/-! ## The inputs are read as they were -/

/-- As long as all that is read is complete, the inputs that are left are read as they were. -/
theorem readAll_eq_asFound {progress : Progress Disk.storage}
    (h : Follows settings start (asFound start done) progress disk) (inputs : List String)
    (hinputs : (disk.perform (readAll settings progress inputs)).1.map (·.input) = inputs)
    (hcomplete : ∀ reading ∈ asFound start done ++
      (disk.perform (readAll settings progress inputs)).1, IsComplete reading.bytes)
    (hapart : ∀ input ∈ inputs, HasReport start (done ++ inputs) →
      start.Apart input (outputPath settings start (done ++ inputs))) :
    (disk.perform (readAll settings progress inputs)).1 = asFound start inputs := by
  induction inputs generalizing done progress disk with
  | nil => rfl
  | cons input inputs ih =>
    have hdone : ∀ other ∈ done, IsComplete (bytesAt start other) :=
      fun other hother => hcomplete _ (List.mem_append_left _ (List.mem_map_of_mem hother))
    have hsame : ∀ bytes, disk.read input = .ok bytes ↔ start.read input = .ok bytes := by
      refine fun bytes => h.read_iff_of_apart fun path hpath => ?_
      obtain ⟨hhas, rfl⟩ := eq_of_mem_touched hdone hpath
      have hlater := hapart input List.mem_cons_self (hhas.append _)
      rwa [outputPath_append hhas] at hlater
    rw [readAll, perform_bind, perform_read] at hinputs hcomplete ⊢
    cases hread : disk.read input with
    | error cause =>
      rw [hread] at hinputs
      cases hinputs
    | ok bytes =>
      rw [hread] at hinputs hcomplete
      have hstart := (hsame bytes).1 hread
      dsimp only at hinputs hcomplete ⊢
      rw [perform_bind] at hinputs hcomplete ⊢
      rw [asFound_cons hstart]
      rcases pass_of_follows h ⟨input, bytes⟩ hread with
        ⟨progress', disk₁, hpass, h', -⟩ | ⟨⟨disk₁, hpass⟩, -, -⟩
      · have hsplit : done ++ input :: inputs = done ++ [input] ++ inputs := by simp
        rw [hpass] at hinputs hcomplete ⊢
        rw [← asFound_append_singleton hstart] at h'
        rw [hsplit] at hapart
        refine congrArg _ (ih h' (List.cons.inj hinputs).2 ?_
          fun other hother => hapart other (List.mem_cons_of_mem _ hother))
        rw [asFound_append_singleton hstart, List.append_assoc]
        exact hcomplete
      · rw [hpass] at hinputs ⊢
        rw [← (List.cons.inj hinputs).2]
        rfl

/-! ## The whole run -/

/-- A conversion that ends with a summary in which nothing failed has read every input as it was,
and each is complete. The output is the whole table, and no other file was written. -/
theorem run_faultless (hapart : ∀ input ∈ inputs,
      disk.Apart input (outputPath settings disk inputs))
    (hrun : disk.perform (run Disk.storage settings inputs) = (.ok summary, disk'))
    (hfailed : summary.failed = []) :
    (∀ input ∈ inputs, ∃ bytes, disk.read input = .ok bytes ∧ IsComplete bytes) ∧
      summary.output = outputPath settings disk inputs ∧
      disk'.read summary.output = .ok (tableText (rowsAt settings disk inputs)) ∧
      disk.ChangedAt {summary.output} disk' := by
  have hended := ended_run settings disk inputs
  rw [hrun] at hended
  have hfinished := hended.faultless summary rfl hfailed
  have hnone : failures (readings settings disk inputs) = [] := by
    rw [← List.map_eq_nil_iff, ← hfinished.failed, hfailed]
  have hcomplete : ∀ reading ∈ readings settings disk inputs, IsComplete reading.bytes := by
    intro reading hreading
    by_contra hincomplete
    have hmem : reading ∈ failures (readings settings disk inputs) :=
      List.mem_filter.2 ⟨hreading, decide_eq_true hincomplete⟩
    rw [hnone] at hmem
    cases hmem
  have hreadings : readings settings disk inputs = asFound disk inputs := by
    have hnil : Follows settings disk (asFound disk []) {} disk := follows_nil settings disk
    refine readAll_eq_asFound hnil inputs hfinished.inputs hcomplete fun input hinput _ => ?_
    exact hapart input hinput
  have hpath : summary.output = outputPath settings disk inputs := by
    rw [hended.output summary rfl, hreadings, destination_asFound]
  have hfootprint : footprint settings (readings settings disk inputs) = {summary.output} := by
    rw [footprint, hnone, hended.output summary rfl]
    refine Set.ext fun path => ⟨?_, Or.inl⟩
    rintro (rfl | ⟨failure, hfailure, -⟩)
    · rfl
    · cases hfailure
  refine ⟨fun input hinput => ?_, hpath, ?_, ?_⟩
  · have hmem : (⟨input, bytesAt disk input⟩ : Reading) ∈ readings settings disk inputs := by
      rw [hreadings]
      exact List.mem_map_of_mem hinput
    refine ⟨bytesAt disk input, read_of_mem_readings hmem ?_, hcomplete _ hmem⟩
    rw [hfootprint, hpath]
    rintro path rfl
    exact hapart input hinput
  · have htable := hfinished.table fun _ failure hfailure => by
      rw [hnone] at hfailure
      cases hfailure
    rw [← hended.output summary rfl, hreadings, rowsRead_asFound] at htable
    exact htable.2
  · rw [← hfootprint]
    exact hended.changed

/-- Complete inputs are converted without a failure if the output can be created. -/
theorem exists_run_of_isComplete (hinputs : inputs ≠ [])
    (hcomplete : ∀ input ∈ inputs, ∃ bytes, disk.read input = .ok bytes ∧ IsComplete bytes)
    (hapart : ∀ input ∈ inputs, disk.Apart input (outputPath settings disk inputs))
    (hplace : disk.place? (outputPath settings disk inputs) ≠ none) :
    ∃ summary disk', disk.perform (run Disk.storage settings inputs) = (.ok summary, disk') ∧
      summary.failed = [] := by
  have hfound : ∀ input ∈ inputs, IsComplete (bytesAt disk input) := by
    intro input hinput
    obtain ⟨bytes, hread, hbytes⟩ := hcomplete input hinput
    rwa [bytesAt_of_read hread]
  have hreach : ∀ path ∈ touched settings disk inputs, path = outputPath settings disk inputs :=
    fun path hpath => (eq_of_mem_touched hfound hpath).2
  rcases run_asFound hinputs (fun input hinput => (hcomplete input hinput).imp fun _ => And.left)
      (Or.inr hfound) (fun input hinput path hpath => hreach path hpath ▸ hapart input hinput) with
    ⟨⟨path, hpath, hnone⟩, -⟩ | ⟨summary, disk', hrun, hfinished⟩
  · rcases hpath with rfl | hpath
    · exact absurd hnone hplace
    · exact absurd hnone (hreach path hpath ▸ hplace)
  · refine ⟨summary, disk', hrun, ?_⟩
    rw [hfinished.failed, failures_asFound, incompleteAt_eq_nil hfound]
    rfl

end MifirReport.Batch
