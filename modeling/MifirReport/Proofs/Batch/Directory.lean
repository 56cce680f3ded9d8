import MifirReport.Proofs.Batch.KeepGoing
import MifirReport.Proofs.Batch.Names

/-!
# Outputs in a directory

The name of an output in a directory begins with the party that the first report names, as it is
written there. `run_directory` says where the files of a conversion are, for any inputs and any
party : diagnostics are directly in the directory (`within_diagnosticAt`), and so is the output if
the party leads into the directory (`Path.LeadsInto`), as it does if it has no slash
(`Path.leadsInto_of_not_mem`). Otherwise the output has another parent, and it can be outside
(`run_directory_outside`).
-/

namespace MifirReport.Batch

open Files Report Table Disk

/-! ## Places in the directory -/

variable {settings : Settings} {disk disk' : Disk} {inputs : List String} {directory : String}
  {c : List String}

/-- A name that leads into a directory leads directly to it when it is joined. -/
theorem within_of_leadsInto {path : String} {before ending : List Char}
    (hpath : path.toList = before ++ ending) (hslash : '/' ∉ ending) (hlong : 2 < ending.length)
    (hleads : Path.LeadsInto directory before)
    (hplace : disk.place? (Path.join directory path) = some c) : disk.Within directory c := by
  obtain ⟨start, hjoin⟩ := Path.suffix_join directory path
  rw [hpath, ← List.append_assoc] at hjoin
  exact (within_parent hjoin.symm hslash hlong hplace).congr
    ((Path.same_parent_join_iff hpath hslash hlong).2 hleads)

/-- A diagnostic is directly in the directory, whatever its input is. -/
theorem within_diagnosticAt (htarget : settings.target = .directory directory) {input : String}
    (hplace : disk.place? (diagnosticAt settings input) = some c) : disk.Within directory c := by
  rw [diagnosticAt, htarget] at hplace
  exact within_of_leadsInto (List.nil_append _).symm (not_mem_diagnosticName input)
    (length_diagnosticName input) (Path.leadsInto_of_not_mem List.not_mem_nil directory) hplace

/-- The party in the name of an output : that of the first report, or the name for none. -/
def partyRead (done : List Reading) : String :=
  (firstParty? done).getD unknownParty

theorem destination_eq (htarget : settings.target = .directory directory) (done : List Reading) :
    destination settings done =
      Path.join directory (outputName (partyRead done) settings.time) := by
  rw [destination, htarget]
  rfl

/-- A summary of a conversion into a directory names an output with the ending of such names. Its
parent is the directory just if the party leads into it, and then no place is changed but those
directly in the directory. In any case no other place is changed but that of the output. -/
theorem run_directory (htarget : settings.target = .directory directory)
    {outcome : Except Error Summary}
    (hrun : disk.perform (run Disk.storage settings inputs) = (outcome, disk')) :
    let party := partyRead (readings settings disk inputs)
    let output := Path.join directory (outputName party settings.time)
    (∀ summary, outcome = .ok summary →
      summary.output = output ∧
      (∃ name, Path.fileName? output.toList = some name ∧
        "_NNIPOUTPUT_0000.csv".toList <:+ name) ∧
      (Path.Same (Path.parent output) directory ↔ Path.LeadsInto directory party.toList)) ∧
    (∀ c, disk'.find? c ≠ disk.find? c →
      disk.Within directory c ∨ disk.place? output = some c) ∧
    (Path.LeadsInto directory party.toList →
      ∀ c, disk'.find? c ≠ disk.find? c → disk.Within directory c) := by
  intro party output
  have hended := ended_run settings disk inputs
  rw [hrun] at hended
  have hname : (outputName party settings.time).toList =
      party.toList ++ (outputEnding settings.time).toList := by
    rw [outputName_eq, String.toList_append]
  have hslash := not_mem_outputEnding settings.time
  have hlong := length_outputEnding settings.time
  have hchanged : ∀ c, disk'.find? c ≠ disk.find? c →
      disk.Within directory c ∨ disk.place? output = some c := by
    intro c hc
    by_contra hno
    rw [not_or] at hno
    refine hc (hended.changed.others c ?_)
    rintro path (rfl | ⟨failure, -, rfl⟩) hplace
    · rw [destination_eq htarget] at hplace
      exact hno.2 hplace
    · exact hno.1 (within_diagnosticAt htarget hplace)
  refine ⟨fun summary hsummary => ⟨?_, ?_, ?_⟩, hchanged, fun hleads c hc => ?_⟩
  · rw [hended.output summary hsummary, destination_eq htarget]
  · obtain ⟨start, hstart⟩ := Path.exists_fileName?_join directory hname hslash hlong
    exact ⟨_, hstart, (suffix_outputEnding settings.time).trans (List.suffix_append _ _)⟩
  · exact Path.same_parent_join_iff hname hslash hlong
  · rcases hchanged c hc with hwithin | hplace
    · exact hwithin
    · exact within_of_leadsInto hname hslash hlong hleads hplace

/-- A report whose first transaction was executed by a party. -/
def partyBytes (party : String) : ByteArray :=
  reportBytes ("<Tx><New><ExctgPty>" ++ party ++ "</ExctgPty></New></Tx>")

/-- A disk with a directory that holds a report by a party, and another that is empty. -/
def partyDisk (party : String) : Disk where
  nodes := [
    (["in"], .directory),
    (["out"], .directory),
    (["in", "a.xml"], .file (partyBytes party))]

/-- Settings to go on, with an output in a directory. -/
def directorySettings : Settings :=
  { mixedSettings with target := .directory "out" }

theorem readings_partyDisk (party : String) :
    readings directorySettings (partyDisk party) ["in/a.xml"] =
      [⟨"in/a.xml", partyBytes party⟩] :=
  readings_singleton rfl

theorem place?_diagnosticAt_partyDisk (party : String) :
    (partyDisk party).place? (diagnosticAt directorySettings "in/a.xml") =
      some ["out", "a.invalid.csv"] :=
  rfl

theorem exists_run_partyDisk {party : String} (hplace : (partyDisk party).place?
      (destination directorySettings [⟨"in/a.xml", partyBytes party⟩]) ≠ none) :
    ∃ summary disk', (partyDisk party).perform
      (run Disk.storage directorySettings ["in/a.xml"]) = (.ok summary, disk') := by
  have hended := ended_run directorySettings (partyDisk party) ["in/a.xml"]
  rw [readings_partyDisk] at hended
  rcases hrun : (partyDisk party).perform (run Disk.storage directorySettings ["in/a.xml"]) with
    ⟨outcome, disk'⟩
  rw [hrun] at hended
  obtain ⟨summary, rfl⟩ := hended.returns rfl (by simp) rfl fun path hpath => by
    rcases hpath with hpath | ⟨failure, hfailure, hpath⟩
    · rwa [hpath]
    · rw [hpath, List.mem_singleton.1 (List.mem_filter.1 hfailure).1,
        place?_diagnosticAt_partyDisk]
      exact Option.some_ne_none _
  exact ⟨summary, disk', rfl⟩

theorem firstParty?_inside : firstParty? [⟨"in/a.xml", partyBytes "X"⟩] = some "X" := by
  decide +kernel

/-- A party without a slash. -/
theorem run_directory_inside :
    ∃ summary disk', (partyDisk "X").perform
        (run Disk.storage directorySettings ["in/a.xml"]) = (.ok summary, disk') ∧
      summary.output = "out/X_MIFID__20180103_093000_NNIPOUTPUT_0000.csv" ∧
      Path.Same (Path.parent summary.output) "out" ∧
      ∀ c, disk'.find? c ≠ (partyDisk "X").find? c → (partyDisk "X").Within "out" c := by
  have hdestination : destination directorySettings [⟨"in/a.xml", partyBytes "X"⟩] =
      "out/X_MIFID__20180103_093000_NNIPOUTPUT_0000.csv" := by
    rw [destination, firstParty?_inside]
    decide
  obtain ⟨summary, disk', hrun⟩ := exists_run_partyDisk (by
    rw [hdestination]
    decide)
  have hleads : Path.LeadsInto "out" "X".toList := Path.leadsInto_of_not_mem (by decide) _
  have hdirectory := run_directory rfl hrun
  rw [readings_partyDisk, partyRead, firstParty?_inside] at hdirectory
  obtain ⟨hsummary, -, hinside⟩ := hdirectory
  obtain ⟨houtput, -, hparent⟩ := hsummary summary rfl
  refine ⟨summary, disk', hrun, ?_, houtput ▸ hparent.2 hleads, hinside hleads⟩
  rw [houtput]
  decide

theorem firstParty?_outside :
    firstParty? [⟨"in/a.xml", partyBytes "../in/X"⟩] = some "../in/X" := by
  decide +kernel

/-- A party whose text climbs out of the directory takes the output with it. -/
theorem run_directory_outside :
    ∃ summary disk', (partyDisk "../in/X").perform
        (run Disk.storage directorySettings ["in/a.xml"]) = (.ok summary, disk') ∧
      ¬Path.Same (Path.parent summary.output) "out" ∧
      ∃ c, disk'.find? c ≠ (partyDisk "../in/X").find? c ∧
        ¬(partyDisk "../in/X").Within "out" c := by
  have hdestination : destination directorySettings [⟨"in/a.xml", partyBytes "../in/X"⟩] =
      "out/../in/X_MIFID__20180103_093000_NNIPOUTPUT_0000.csv" := by
    rw [destination, firstParty?_outside]
    decide
  have hplace : (partyDisk "../in/X").place?
      "out/../in/X_MIFID__20180103_093000_NNIPOUTPUT_0000.csv" =
        some ["in", "X_MIFID__20180103_093000_NNIPOUTPUT_0000.csv"] := by
    decide
  obtain ⟨summary, disk', hrun⟩ := exists_run_partyDisk (by
    rw [hdestination, hplace]
    exact Option.some_ne_none _)
  have hended := ended_run directorySettings (partyDisk "../in/X") ["in/a.xml"]
  rw [hrun, readings_partyDisk] at hended
  have houtput := hended.output summary rfl
  obtain ⟨-, htable⟩ := (hended.finished summary rfl rfl).table fun _ failure _ =>
    apart_resolve_diagnosticAt rfl _ failure.input
  rw [hdestination] at houtput htable
  obtain ⟨c, hc, hfile⟩ := read_eq_ok_iff.1 htable
  rw [hended.changed.place?_eq, hplace, Option.some.injEq] at hc
  refine ⟨summary, disk', hrun, ?_, c, ?_, ?_⟩
  · rw [houtput]
    decide
  · have hnone : (partyDisk "../in/X").find?
        ["in", "X_MIFID__20180103_093000_NNIPOUTPUT_0000.csv"] = none := by
      decide
    rw [hfile, ← hc, hnone]
    exact Option.some_ne_none _
  · rintro ⟨d, name, hwalk, hd⟩
    have hout : (partyDisk "../in/X").walk [] ((Path.components "out".toList).map String.ofList) =
        .ok ⟨["out"], some .directory, true⟩ := by
      decide
    rw [hout, Except.ok.injEq, Place.mk.injEq] at hwalk
    rw [← hc, ← hwalk.1, List.singleton_append, List.cons.injEq] at hd
    exact absurd hd.1 (by decide)

end MifirReport.Batch
