import MifirReport.Proofs.Batch.Directory

/-!
# The party in the name of an output

The name of an output in a directory is settled before a row is mapped, from the party that executed
the first transaction of the first report. That party is found by a way of its own
(`TransactionReport.firstParty?`), and it is the one in the row of the transaction
(`firstParty?_eq_some_iff`). `run_directory_party` follows it into the name : inputs before the
first report and inputs after it have no part in it.
-/

namespace MifirReport.Report

open Client Table Xml

/-- The party that a report names : it is in the row of the first transaction, and not empty. -/
def TransactionReport.Names (report : TransactionReport) (mode : ClientMode) (party : String) :
    Prop :=
  ∃ tx txs row, report.transactions = tx :: txs ∧
    mapElement report.lookup mode tx 1 = .ok row ∧
    row.cell (.detail .executingParty) = party ∧ party ≠ ""

/-- New transactions and cancellations have their party in the same place. -/
theorem cell_executingParty (x : Lookup) (mode : ClientMode) (transaction : Transaction) :
    (transaction.row x mode).cell (.detail .executingParty) =
      x.text transaction.content "ExctgPty" := by
  obtain ⟨_ | _, content⟩ := transaction <;> rfl

/-- The party that is found without a row is the one in the row. -/
theorem firstParty?_eq_some_iff {report : TransactionReport} {party : String}
    (mode : ClientMode) : report.firstParty? = some party ↔ report.Names mode party := by
  unfold TransactionReport.firstParty? TransactionReport.Names
  cases htxs : report.transactions with
  | nil => simp
  | cons tx txs =>
    cases htx : Transaction.ofElement report.lookup tx 1 with
    | error cause => simp [mapElement, htx, Except.map]
    | ok transaction =>
      have hrow : mapElement report.lookup mode tx 1 =
          .ok (transaction.row report.lookup mode) := by
        rw [mapElement, htx]
        rfl
      simp only [htx]
      constructor
      · intro h
        split_ifs at h with hempty
        obtain rfl := Option.some.inj h
        exact ⟨tx, txs, _, rfl, hrow, cell_executingParty .., hempty⟩
      · rintro ⟨tx', txs', row, hlist, hrow', hcell, hne⟩
        obtain ⟨rfl, rfl⟩ := List.cons.inj hlist
        obtain rfl := Except.ok.inj (hrow.symm.trans hrow')
        rw [cell_executingParty] at hcell
        rw [hcell, if_neg hne]

end MifirReport.Report

namespace MifirReport.Batch

open Client Files Report Disk

variable {settings : Settings} {done before after : List Reading} {reading : Reading}
  {report : TransactionReport}

/-- The first report that was read, with what was read before it and after it. -/
theorem firstReport?_eq_some_iff : firstReport? done = some report ↔
    ∃ before reading after, done = before ++ reading :: after ∧
      reportOf? reading.bytes = some report ∧
      ∀ earlier ∈ before, reportOf? earlier.bytes = none :=
  List.findSome?_eq_some_iff

theorem firstReport?_eq_none_iff :
    firstReport? done = none ↔ ∀ reading ∈ done, reportOf? reading.bytes = none :=
  List.findSome?_eq_none_iff

/-- The party in the name is the one that the first report names, if it names one. -/
theorem partyRead_of_first (mode : ClientMode) (hreport : firstReport? done = some report) :
    report.Names mode (partyRead done) ∨
      (∀ party, ¬report.Names mode party) ∧ partyRead done = unknownParty := by
  rw [partyRead, firstParty?, hreport, Option.bind_some]
  cases hparty : report.firstParty? with
  | some party => exact Or.inl ((firstParty?_eq_some_iff mode).1 hparty)
  | none =>
    refine Or.inr ⟨fun party hnames => ?_, rfl⟩
    rw [(firstParty?_eq_some_iff mode).2 hnames] at hparty
    cases hparty

theorem partyRead_of_none (hnone : firstReport? done = none) : partyRead done = unknownParty := by
  rw [partyRead, firstParty?, hnone]
  rfl

/-- A conversion that is finished has read all of its inputs, be it that it goes on or that nothing
failed. -/
theorem finished_of_goesOn {disk disk' : Disk} {inputs : List String} {summary : Summary}
    (hrun : disk.perform (run Disk.storage settings inputs) = (.ok summary, disk'))
    (hgoes : settings.policy = .keepGoing ∨ summary.failed = []) :
    Finished settings disk inputs (readings settings disk inputs) summary disk' := by
  have hended := ended_run settings disk inputs
  rw [hrun] at hended
  rcases hgoes with hpolicy | hfailed
  · exact hended.finished summary rfl hpolicy
  · exact hended.faultless summary rfl hfailed

/-- The party that is found for a name is the executing party in the row of the first transaction,
whatever the mode. A conversion into a directory that is not stopped has read all of its inputs,
each as it was unless the conversion writes to it, and its output is named after the party that the
first report among them names. If that report names none, or if there is no report, the name is that
for an unknown party. -/
theorem run_directory_party :
    (∀ (report : TransactionReport) (mode : ClientMode) (party : String),
      report.firstParty? = some party ↔ report.Names mode party) ∧
    ∀ (settings : Settings) (disk disk' : Disk) (inputs : List String) (directory : String)
      (summary : Summary), settings.target = .directory directory →
      disk.perform (run Disk.storage settings inputs) = (.ok summary, disk') →
      settings.policy = .keepGoing ∨ summary.failed = [] →
      let done := readings settings disk inputs
      done.map (·.input) = inputs ∧
      (∀ reading ∈ done, (∀ path ∈ footprint settings done, disk.Apart reading.input path) →
        disk.read reading.input = .ok reading.bytes) ∧
      ∃ party, summary.output = Path.join directory (outputName party settings.time) ∧
        (∀ before reading after report, done = before ++ reading :: after →
          (∀ earlier ∈ before, reportOf? earlier.bytes = none) →
          reportOf? reading.bytes = some report →
          report.Names settings.mode party ∨
            (∀ other, ¬report.Names settings.mode other) ∧ party = "UNKNOWN") ∧
        ((∀ reading ∈ done, reportOf? reading.bytes = none) → party = "UNKNOWN") := by
  refine ⟨fun report mode party => firstParty?_eq_some_iff mode, ?_⟩
  intro settings disk disk' inputs directory summary htarget hrun hgoes done
  have hended := ended_run settings disk inputs
  rw [hrun] at hended
  refine ⟨(finished_of_goesOn hrun hgoes).inputs, fun _ => read_of_mem_readings,
    partyRead done, ?_, ?_, fun hnone => partyRead_of_none (firstReport?_eq_none_iff.2 hnone)⟩
  · rw [hended.output summary rfl, destination_eq htarget]
  · intro before reading after report hdone hbefore hreport
    exact partyRead_of_first _
      (firstReport?_eq_some_iff.2 ⟨before, reading, after, hdone, hreport, hbefore⟩)

/-! ## A party between other inputs -/

/-- An output in a directory and the diagnostics have one extension. -/
theorem suffix_resolve {directory : String} (htarget : settings.target = .directory directory)
    (party : Option String) :
    ".csv".toList <:+ (settings.target.resolve party settings.time).toList := by
  have hend : ".csv".toList <:+ "PUT_0000.csv".toList := by decide
  rw [htarget]
  exact hend.trans ((suffix_outputName _ _).trans (Path.suffix_join _ _))

theorem extension_diagnosticAt (settings : Settings) (input : String) :
    ".csv".toList <:+ (diagnosticAt settings input).toList := by
  have hend : ".csv".toList <:+ ".invalid.csv".toList := by decide
  exact hend.trans (suffix_diagnosticAt settings input)

/-- A path with another extension is not where they are. -/
theorem apart_of_extensions {disk : Disk} {path other : String}
    (hpath : ".xml".toList <:+ path.toList) (hother : ".csv".toList <:+ other.toList) :
    disk.Apart path other := by
  have hlength : ".xml".toList.length = ".csv".toList.length := by decide
  exact apart_of_endings (by decide) (by decide) (by decide) hlength (by decide) hpath hother

/-- A report whose first transaction is new for one party and has a cancellation as well. -/
def firstPartyBytes : ByteArray :=
  reportBytes "<Tx><Cxl/><New><ExctgPty>X</ExctgPty></New></Tx>"

/-- A disk with a file that is not text, this report, and another one. -/
def partiesDisk : Disk where
  nodes := [
    (["in"], .directory),
    (["out"], .directory),
    (["in", "a.xml"], .file ⟨#[0xff]⟩),
    (["in", "b.xml"], .file firstPartyBytes),
    (["in", "c.xml"], .file (partyBytes "Z"))]

/-- The inputs, the first of which is not text. -/
def partiesInputs : List String :=
  ["in/a.xml", "in/b.xml", "in/c.xml"]

theorem reportOf?_notText : reportOf? ⟨#[0xff]⟩ = none := by
  rw [← Option.isNone_iff_eq_none]
  decide +kernel

theorem exists_reportOf?_firstPartyBytes : ∃ report, reportOf? firstPartyBytes = some report ∧
    report.firstParty? = some "X" := by
  have hparty : (reportOf? firstPartyBytes).bind (·.firstParty?) = some "X" := by decide +kernel
  exact Option.bind_eq_some_iff.1 hparty

theorem suffix_of_mem_partiesInputs : ∀ input ∈ partiesInputs, ".xml".toList <:+ input.toList := by
  decide

theorem exists_run_partiesDisk : ∃ summary disk',
    partiesDisk.perform (run Disk.storage directorySettings partiesInputs) =
      (.ok summary, disk') := by
  have hread : ∀ input ∈ partiesInputs, ∃ bytes, partiesDisk.read input = .ok bytes := by
    simp only [partiesInputs, List.forall_mem_cons]
    exact ⟨⟨_, rfl⟩, ⟨_, rfl⟩, ⟨_, rfl⟩, List.forall_mem_nil _⟩
  have hplace : partiesDisk.place? (outputPath directorySettings partiesDisk partiesInputs) ≠
      none := by
    obtain ⟨report, hreport, hparty⟩ := exists_reportOf?_firstPartyBytes
    have hfirst : partiesInputs.findSome? (reportAt? partiesDisk) = some report :=
      List.findSome?_eq_some_iff.2 ⟨["in/a.xml"], "in/b.xml", ["in/c.xml"], rfl, hreport,
        List.forall_mem_singleton.2 reportOf?_notText⟩
    rw [outputPath, hfirst, Option.bind_some, hparty]
    decide
  have hdiagnostics : ∀ input ∈ partiesInputs,
      partiesDisk.place? (diagnosticAt directorySettings input) ≠ none := by
    decide
  refine exists_run_keepGoing rfl (by decide) hread ⟨?_, ?_, ?_⟩ ?_
  · intro input hinput
    exact apart_of_extensions (suffix_of_mem_partiesInputs input hinput) (suffix_resolve rfl _)
  · intro input hinput other hother
    exact apart_of_extensions (suffix_of_mem_partiesInputs input hinput)
      (extension_diagnosticAt directorySettings other)
  · intro path htarget
    cases htarget
  · rintro path (hpath | ⟨-, hpath⟩ | ⟨input, hinput, rfl⟩)
    · rwa [hpath]
    · rwa [hpath]
    · exact hdiagnostics input (List.mem_filter.1 hinput).1

theorem readings_partiesDisk
    (hinputs : (readings directorySettings partiesDisk partiesInputs).map (·.input) =
      partiesInputs) :
    readings directorySettings partiesDisk partiesInputs = [⟨"in/a.xml", ⟨#[0xff]⟩⟩] ++
      ⟨"in/b.xml", firstPartyBytes⟩ :: [⟨"in/c.xml", partyBytes "Z"⟩] := by
  refine eq_asFound hinputs fun reading hreading => read_of_mem_readings hreading ?_
  have hinput : reading.input ∈ partiesInputs := hinputs ▸ List.mem_map_of_mem hreading
  rintro path (hpath | ⟨failure, -, hpath⟩)
  · rw [hpath, destination]
    exact apart_of_extensions (suffix_of_mem_partiesInputs _ hinput) (suffix_resolve rfl _)
  · rw [hpath]
    exact apart_of_extensions (suffix_of_mem_partiesInputs _ hinput)
      (extension_diagnosticAt directorySettings failure.input)

/-- The name has the party of the second input : the first is no report, its cancellation does not
count, and neither does the third input. -/
theorem run_directory_party_parties : ∃ summary disk',
    partiesDisk.perform (run Disk.storage directorySettings partiesInputs) = (.ok summary, disk') ∧
      summary.output = "out/X_MIFID__20180103_093000_NNIPOUTPUT_0000.csv" := by
  obtain ⟨summary, disk', hrun⟩ := exists_run_partiesDisk
  obtain ⟨report, hreport, hparty⟩ := exists_reportOf?_firstPartyBytes
  obtain ⟨hnames, hall⟩ := run_directory_party
  obtain ⟨hinputs, -, party, houtput, hfirst, -⟩ :=
    hall directorySettings partiesDisk disk' partiesInputs "out" summary rfl hrun (Or.inl rfl)
  have hnamed : report.Names directorySettings.mode "X" := (hnames report _ _).1 hparty
  refine ⟨summary, disk', hrun, ?_⟩
  rcases hfirst _ _ _ report (readings_partiesDisk hinputs)
      (List.forall_mem_singleton.2 reportOf?_notText) hreport with hnames' | ⟨hnone, -⟩
  · rw [← hnames, hparty, Option.some.injEq] at hnames'
    rw [houtput, ← hnames']
    decide
  · exact absurd hnamed (hnone "X")

end MifirReport.Batch
