import MifirReport.Proofs.Batch.KeepGoing
import Mathlib.Data.List.Basic

/-!
# Diagnostics that stay

The diagnostic of an input is named after the stem of the input. Under `Policy.keepGoing` it stays
what it was written as, unless a later diagnostic with another text goes to the same place, or the
output does : `run_keepGoing_diagnostics`. The last file that is put in a place decides
(`remains_of_failure`), and `run_keepGoing_lost` has a diagnostic lost in either way. Which
diagnostics are the same is `diagnosticText_inj`.

A diagnostic shows the bytes that the input had when it was read. These are the bytes at the start
for inputs that the conversion does not write to (`readings_eq`).
-/

namespace MifirReport.Batch

open Files Report Table Disk

/-- A table can be told from its text. -/
theorem tableText_inj {rows rows' : List Row} (h : tableText rows = tableText rows') :
    rows = rows' := by
  have hread := readTable?_rowsText rows
  rw [← tableText_eq, h, tableText_eq, readTable?_rowsText] at hread
  have hvalues := (List.cons.inj (Option.some.inj hread)).2
  exact List.map_injective_iff.2 (fun _ _ => Row.ext_values) hvalues.symm

/-- Two files have the same diagnostic just if they have the same text on one line. -/
theorem diagnosticText_inj {bytes bytes' : ByteArray} :
    diagnosticText bytes = diagnosticText bytes' ↔
      Text.collapse (Text.Utf8.decodeLossy bytes.data.toList).toList =
        Text.collapse (Text.Utf8.decodeLossy bytes'.data.toList).toList := by
  constructor
  · intro h
    have hcell : (Row.invalid _).cell (.detail .reference) =
        (Row.invalid _).cell (.detail .reference) :=
      congrArg (Row.cell · (.detail .reference)) (List.singleton_inj.1 (tableText_inj h))
    exact String.ofList_injective hcell
  · intro h
    rw [diagnosticText, diagnosticText, Row.invalid, Row.invalid, h]

theorem tableText_nil_ne (bytes : ByteArray) : tableText [] ≠ diagnosticText bytes := by
  intro h
  cases tableText_inj h

variable {settings : Settings} {disk disk' : Disk} {inputs : List String} {summary : Summary}

/-- What remains at the place of a diagnostic is the diagnostic, if every later failure that goes
there has the same. -/
theorem remains_of_failure {done before after : List Reading} {failure : Reading}
    {c : List String} (hfailures : failures done = before ++ failure :: after)
    (hplace : disk.place? (diagnosticAt settings failure.input) = some c)
    (hlater : ∀ later ∈ after, disk.place? (diagnosticAt settings later.input) = some c →
      diagnosticText later.bytes = diagnosticText failure.bytes) :
    remains settings disk done c = some (.file (diagnosticText failure.bytes)) := by
  rw [remains, hfailures, List.reverse_append, List.reverse_cons, List.append_assoc,
    List.find?_append]
  cases hfind : after.reverse.find? fun later =>
      disk.place? (diagnosticAt settings later.input) = some c with
  | none =>
    rw [Option.none_or, List.singleton_append, List.find?_cons_of_pos (by simpa using hplace)]
  | some later =>
    have hmem := List.mem_reverse.1 (List.mem_of_find?_eq_some hfind)
    have hthere := List.find?_some hfind
    rw [decide_eq_true_iff] at hthere
    rw [Option.some_or]
    dsimp only
    rw [hlater later hmem hthere]

/-- The diagnostic of a failure is in its file when the conversion is finished, if the output and
later diagnostics that differ from it go elsewhere. -/
theorem read_diagnosticAt {done before after : List Reading} {failure : Reading}
    (hchanged : disk.ChangedAt (footprint settings done) disk')
    (hfinished : Finished settings disk inputs done summary disk')
    (hfailures : failures done = before ++ failure :: after)
    (hapart : disk.Apart (diagnosticAt settings failure.input) (destination settings done))
    (hlater : ∀ later ∈ after, diagnosticText later.bytes ≠ diagnosticText failure.bytes →
      disk.Apart (diagnosticAt settings failure.input) (diagnosticAt settings later.input)) :
    disk'.read (diagnosticAt settings failure.input) = .ok (diagnosticText failure.bytes) := by
  obtain ⟨c, hplace⟩ := Option.ne_none_iff_exists'.1
    (hfinished.placed failure (by rw [hfailures]; simp))
  refine read_eq_ok_iff.2 ⟨c, by rw [hchanged.place?_eq, hplace], ?_⟩
  rw [hfinished.others c (hapart c hplace)]
  refine remains_of_failure hfailures hplace fun later hmem hthere => ?_
  by_contra hother
  exact hlater later hmem hother c hplace hthere

/-! ## Files that are read as they were -/

/-- Inputs that a conversion does not write to are read as they were at the start. -/
theorem readings_eq {path : String} (htarget : settings.target = .file path)
    (hpolicy : settings.policy = .keepGoing) (hclear : Clear settings disk inputs)
    (hrun : disk.perform (run Disk.storage settings inputs) = (.ok summary, disk')) :
    readings settings disk inputs = asFound disk inputs := by
  have hended := ended_run settings disk inputs
  rw [hrun] at hended
  have hinputs := (hended.finished summary rfl hpolicy).inputs
  have hmem : ∀ reading ∈ readings settings disk inputs, reading.input ∈ inputs := by
    intro reading hreading
    rw [← hinputs]
    exact List.mem_map_of_mem hreading
  refine eq_asFound hinputs fun reading hreading => ?_
  have hinput := hmem reading hreading
  refine read_of_mem_readings hreading ?_
  rintro other (rfl | ⟨failure, hfailure, rfl⟩)
  · have houtput := hclear.output reading.input hinput
    rw [outputPath, htarget] at houtput
    rw [destination, htarget]
    exact houtput
  · exact hclear.diagnostics _ hinput _ (hmem failure (List.mem_filter.1 hfailure).1)

/-- An output that is given, inputs and diagnostics are clear of each other if they lead to other
places. -/
theorem clear_of_place?_ne {path : String} (htarget : settings.target = .file path)
    (houtput : ∀ input ∈ inputs, disk.place? input ≠ disk.place? path)
    (hdiagnostics : ∀ input ∈ inputs, ∀ other ∈ inputs,
      disk.place? input ≠ disk.place? (diagnosticAt settings other))
    (hgiven : ∀ input ∈ inputs, disk.place? path ≠ disk.place? (diagnosticAt settings input)) :
    Clear settings disk inputs where
  output input hinput := by
    rw [outputPath, htarget]
    exact apart_of_place?_ne (houtput input hinput)
  diagnostics input hinput other hother :=
    apart_of_place?_ne (hdiagnostics input hinput other hother)
  given other hother input hinput := by
    rw [htarget, Target.file.injEq] at hother
    rw [← hother]
    exact apart_of_place?_ne (hgiven input hinput)

/-- A conversion into an output that is given ends with a summary, if its inputs can be read and all
paths lead to places for files. -/
theorem exists_run_of_place?_ne {path : String} (htarget : settings.target = .file path)
    (hpolicy : settings.policy = .keepGoing) (hinputs : inputs ≠ [])
    (hreads : ∀ input ∈ inputs, ∃ bytes, disk.read input = .ok bytes)
    (hclear : Clear settings disk inputs) (houtput : disk.place? path ≠ none)
    (hdiagnostics : ∀ input ∈ inputs, disk.place? (diagnosticAt settings input) ≠ none) :
    ∃ summary disk', disk.perform (run Disk.storage settings inputs) = (.ok summary, disk') := by
  have hpath : outputPath settings disk inputs = path := by
    rw [outputPath, htarget]
    rfl
  refine exists_run_keepGoing hpolicy hinputs hreads hclear ?_
  rintro other (rfl | ⟨-, rfl⟩ | ⟨input, hinput, rfl⟩)
  · rwa [hpath]
  · rwa [hpath]
  · exact hdiagnostics input (List.mem_filter.1 hinput).1

theorem of_mem_failures_asFound {failure : Reading} (h : failure ∈ failures (asFound disk inputs)) :
    failure.input ∈ inputs ∧ failure.bytes = bytesAt disk failure.input := by
  obtain ⟨input, hinput, rfl⟩ := List.mem_map.1 (List.mem_filter.1 h).1
  exact ⟨hinput, rfl⟩

/-! ## The whole run -/

/-- A conversion that goes on and ends with a summary has read every input, and lists those that
were not complete when it read them. Each of these has its diagnostic in its file, unless the output
goes to the same place, or a later one with another diagnostic. The output holds what was read,
unless it was open when a diagnostic went to its place. In a directory that does not happen. -/
theorem run_keepGoing_diagnostics (hpolicy : settings.policy = .keepGoing)
    (hrun : disk.perform (run Disk.storage settings inputs) = (.ok summary, disk')) :
    let done := readings settings disk inputs
    done.map (·.input) = inputs ∧
      (∀ reading ∈ done, (∀ path ∈ footprint settings done, disk.Apart reading.input path) →
        disk.read reading.input = .ok reading.bytes) ∧
      summary.failed = (failures done).map (·.input) ∧
      (∀ before failure after, failures done = before ++ failure :: after →
        disk.Apart (diagnosticAt settings failure.input) summary.output →
        (∀ later ∈ after, diagnosticText later.bytes ≠ diagnosticText failure.bytes →
          disk.Apart (diagnosticAt settings failure.input)
            (diagnosticAt settings later.input)) →
        ∃ table, diagnostic (Text.Utf8.decodeLossy failure.bytes.data.toList) = .ok table ∧
          disk'.read (diagnosticAt settings failure.input) = .ok table) ∧
      (((firstReport? done).isSome = true → ∀ failure ∈ failures done,
          disk.Apart summary.output (diagnosticAt settings failure.input)) →
        disk'.read summary.output = .ok (tableText (rowsRead settings done))) ∧
      ∀ directory, settings.target = .directory directory → ∀ input,
        disk.Apart summary.output (diagnosticAt settings input) := by
  intro done
  have hended := ended_run settings disk inputs
  rw [hrun] at hended
  have houtput := hended.output summary rfl
  have hfinished := hended.finished summary rfl hpolicy
  refine ⟨hfinished.inputs, fun _ => read_of_mem_readings, hfinished.failed, ?_, ?_, ?_⟩
  · intro before failure after hfailures hapart hlater
    refine ⟨diagnosticText failure.bytes, ?_, ?_⟩
    · rw [diagnostic_eq, ← tableText_eq, ← diagnosticText]
    · exact read_diagnosticAt hended.changed hfinished hfailures (houtput ▸ hapart) hlater
  · rw [houtput]
    exact fun hapart => (hfinished.table hapart).2
  · intro directory htarget input
    rw [houtput]
    exact apart_resolve_diagnosticAt htarget _ input

/-- Diagnostics and the output side by side. -/
theorem run_keepGoing_diagnostics_mixed :
    ∃ summary disk', mixedDisk.perform
        (run Disk.storage mixedSettings ["a.xml", "b.xml"]) = (.ok summary, disk') ∧
      summary.failed = ["a.xml", "b.xml"] ∧
      (∀ input ∈ summary.failed, ∃ bytes table, mixedDisk.read input = .ok bytes ∧
        diagnostic (Text.Utf8.decodeLossy bytes.data.toList) = .ok table ∧
        disk'.read (diagnosticAt mixedSettings input) = .ok table) ∧
      disk'.read "out.csv" =
        .ok (tableText (rowsAt mixedSettings mixedDisk ["a.xml", "b.xml"])) := by
  have hreads : ∀ input ∈ ["a.xml", "b.xml"], ∃ bytes, mixedDisk.read input = .ok bytes := by
    simp only [List.forall_mem_cons]
    exact ⟨⟨_, rfl⟩, ⟨_, rfl⟩, List.forall_mem_nil _⟩
  have hclear : Clear mixedSettings mixedDisk ["a.xml", "b.xml"] :=
    clear_of_place?_ne rfl (by decide) (by decide) (by decide)
  obtain ⟨summary, disk', hrun⟩ := exists_run_of_place?_ne rfl rfl (by decide) hreads hclear
    (by decide) (by decide)
  have hdiagnostics := run_keepGoing_diagnostics rfl hrun
  rw [readings_eq rfl rfl hclear hrun] at hdiagnostics
  obtain ⟨-, -, hfailed, hdiagnostics, htable, -⟩ := hdiagnostics
  have hall : (failures (asFound mixedDisk ["a.xml", "b.xml"])).map (·.input) =
      ["a.xml", "b.xml"] := by
    decide +kernel
  have hended := ended_run mixedSettings mixedDisk ["a.xml", "b.xml"]
  rw [hrun] at hended
  have houtput : summary.output = "out.csv" := hended.output summary rfl
  have hapart : ∀ input ∈ ["a.xml", "b.xml"], ∀ other ∈ ["a.xml", "b.xml"], input ≠ other →
      mixedDisk.place? (diagnosticAt mixedSettings input) ≠
        mixedDisk.place? (diagnosticAt mixedSettings other) := by
    decide
  refine ⟨summary, disk', hrun, hfailed.trans hall, fun input hinput => ?_, ?_⟩
  · rw [hfailed] at hinput
    obtain ⟨failure, hfailure, rfl⟩ := List.mem_map.1 hinput
    obtain ⟨before, after, hsplit⟩ := List.append_of_mem hfailure
    obtain ⟨hfirst, hbytes⟩ := of_mem_failures_asFound hfailure
    obtain ⟨table, hown, hread⟩ := hdiagnostics before failure after hsplit
      (houtput ▸ (hclear.given _ rfl _ hfirst).symm) (by
        intro later hlater hother
        obtain ⟨hsecond, hbytes'⟩ := of_mem_failures_asFound (hsplit ▸
          List.mem_append_right _ (List.mem_cons_of_mem _ hlater))
        refine apart_of_place?_ne (hapart _ hfirst _ hsecond fun hsame => hother ?_)
        rw [hbytes, hbytes', hsame])
    obtain ⟨bytes, hbefore⟩ := hreads _ hfirst
    rw [← bytesAt_of_read hbefore, ← hbytes] at hbefore
    exact ⟨failure.bytes, table, hbefore, hown, hread⟩
  · rw [← houtput, htable fun _ failure hfailure =>
      houtput ▸ hclear.given _ rfl _ (of_mem_failures_asFound hfailure).1]
    rfl

/-! ## Diagnostics that are lost -/

/-- Two files with one stem that hold no report. -/
def sameStemDisk : Disk where
  nodes := [(["a.xml"], .file ⟨#[0x41]⟩), (["a.txt"], .file ⟨#[0x42]⟩)]

/-- Settings to go on, with an output where a diagnostic goes. -/
def meetingSettings : Settings :=
  { mixedSettings with target := .file "a.invalid.csv" }

/-- A byte of ASCII stands for its character. -/
theorem decodeLossy_ascii {b : UInt8} (h : b < 0x80) :
    Text.Utf8.decodeLossy [b] = "".push (Char.ofNat b.toNat) := by
  simp [Text.Utf8.decodeLossy, Text.Utf8.foldl, Text.Utf8.next, Text.Utf8.Lead.ofByte?,
    Text.Utf8.following, h]

theorem clear_sameStem : Clear mixedSettings sameStemDisk ["a.xml", "a.txt"] :=
  clear_of_place?_ne rfl (by decide) (by decide) (by decide)

theorem diagnostic_lost_sameStem :
    ∃ summary disk', sameStemDisk.perform
        (run Disk.storage mixedSettings ["a.xml", "a.txt"]) = (.ok summary, disk') ∧
      summary.failed = ["a.xml", "a.txt"] ∧
      disk'.read (diagnosticAt mixedSettings "a.xml") = .ok (diagnosticText ⟨#[0x42]⟩) := by
  have hreads : ∀ input ∈ ["a.xml", "a.txt"], ∃ bytes, sameStemDisk.read input = .ok bytes := by
    simp only [List.forall_mem_cons]
    exact ⟨⟨_, rfl⟩, ⟨_, rfl⟩, List.forall_mem_nil _⟩
  obtain ⟨summary, disk', hrun⟩ := exists_run_of_place?_ne rfl rfl (by decide) hreads
    clear_sameStem (by decide) (by decide)
  have hended := ended_run mixedSettings sameStemDisk ["a.xml", "a.txt"]
  rw [hrun, readings_eq rfl rfl clear_sameStem hrun] at hended
  have hfinished := hended.finished summary rfl rfl
  have hincomplete : ¬IsComplete ⟨#[0x41]⟩ := by decide +kernel
  have hincomplete' : ¬IsComplete ⟨#[0x42]⟩ := by decide +kernel
  have hfailures : failures (asFound sameStemDisk ["a.xml", "a.txt"]) =
      [⟨"a.xml", ⟨#[0x41]⟩⟩] ++ ⟨"a.txt", ⟨#[0x42]⟩⟩ :: [] := by
    change failures ([⟨"a.xml", ⟨#[0x41]⟩⟩] ++ [⟨"a.txt", ⟨#[0x42]⟩⟩]) = _
    rw [failures_append_of_not hincomplete', failures_singleton hincomplete]
  have hsame : diagnosticAt mixedSettings "a.xml" = diagnosticAt mixedSettings "a.txt" := by decide
  have hplaces : sameStemDisk.place? (diagnosticAt mixedSettings "a.txt") ≠
      sameStemDisk.place? "out.csv" := by
    decide
  have hdiagnostic := read_diagnosticAt hended.changed hfinished hfailures
    (apart_of_place?_ne hplaces) (List.forall_mem_nil _)
  exact ⟨summary, disk', hrun, by rw [hfinished.failed, hfailures]; rfl, hsame ▸ hdiagnostic⟩

theorem diagnostic_lost_meeting :
    ∃ summary disk', sameStemDisk.perform (run Disk.storage meetingSettings ["a.xml"]) =
        (.ok summary, disk') ∧
      summary.failed = ["a.xml"] ∧
      disk'.read (diagnosticAt meetingSettings "a.xml") = .ok (tableText []) := by
  have hread : sameStemDisk.read "a.xml" = .ok ⟨#[0x41]⟩ := rfl
  have hfailures : failures [⟨"a.xml", ⟨#[0x41]⟩⟩] = [⟨"a.xml", ⟨#[0x41]⟩⟩] :=
    failures_singleton (by decide +kernel)
  have hended := ended_run meetingSettings sameStemDisk ["a.xml"]
  rw [readings_singleton hread] at hended
  rcases hrun : sameStemDisk.perform (run Disk.storage meetingSettings ["a.xml"]) with
    ⟨outcome, disk'⟩
  rw [hrun] at hended
  obtain ⟨summary, rfl⟩ := hended.returns rfl (by simp) rfl (by
    rw [footprint, hfailures]
    rintro path (rfl | ⟨failure, hfailure, rfl⟩)
    · decide
    · rw [List.mem_singleton.1 hfailure]
      decide)
  have hfinished := hended.finished summary rfl rfl
  have hnone : firstReport? [⟨"a.xml", ⟨#[0x41]⟩⟩] = none := by
    rw [firstReport?_singleton, ← Option.isNone_iff_eq_none]
    decide +kernel
  have hmeets : destination meetingSettings [⟨"a.xml", ⟨#[0x41]⟩⟩] =
      diagnosticAt meetingSettings "a.xml" := by
    decide
  have htable := hfinished.table (by simp [hnone])
  rw [rowsRead_of_none hnone, hmeets] at htable
  refine ⟨summary, disk', rfl, ?_, htable.2⟩
  rw [hfinished.failed, hfailures, List.map_singleton]

/-- The diagnostic of a file is lost if a later one has the same stem and another text, and if the
output goes to the same place. -/
theorem run_keepGoing_lost :
    (∃ summary disk', sameStemDisk.perform
        (run Disk.storage mixedSettings ["a.xml", "a.txt"]) = (.ok summary, disk') ∧
      "a.xml" ∈ summary.failed ∧ sameStemDisk.read "a.xml" = .ok ⟨#[0x41]⟩ ∧
      ∃ table, diagnostic (Text.Utf8.decodeLossy [0x41]) = .ok table ∧
        disk'.read (diagnosticAt mixedSettings "a.xml") ≠ .ok table) ∧
    ∃ summary disk', sameStemDisk.perform (run Disk.storage meetingSettings ["a.xml"]) =
        (.ok summary, disk') ∧
      "a.xml" ∈ summary.failed ∧
      ∃ table, diagnostic (Text.Utf8.decodeLossy [0x41]) = .ok table ∧
        disk'.read (diagnosticAt meetingSettings "a.xml") ≠ .ok table := by
  have hown : diagnostic (Text.Utf8.decodeLossy [0x41]) = .ok (diagnosticText ⟨#[0x41]⟩) := by
    rw [diagnostic_eq, ← tableText_eq]
    rfl
  obtain ⟨summary, disk', hrun, hfailed, hread⟩ := diagnostic_lost_sameStem
  obtain ⟨summary', disk'', hrun', hfailed', hread'⟩ := diagnostic_lost_meeting
  refine ⟨⟨summary, disk', hrun, by rw [hfailed]; simp, rfl, _, hown, ?_⟩,
    summary', disk'', hrun', by rw [hfailed']; simp, _, hown, ?_⟩
  · rw [hread]
    intro hsame
    have hcollapse := diagnosticText_inj.1 (Except.ok.inj hsame)
    rw [decodeLossy_ascii (by decide), decodeLossy_ascii (by decide)] at hcollapse
    revert hcollapse
    decide
  · rw [hread']
    intro hsame
    exact tableText_nil_ne _ (Except.ok.inj hsame)

end MifirReport.Batch
