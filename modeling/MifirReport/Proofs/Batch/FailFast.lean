import MifirReport.Proofs.Batch.KeepGoing

/-!
# Ending with a diagnostic

Under `Policy.failFast` the first input that is not complete ends the conversion. Its diagnostic
takes the place of the output, and of all rows in it, and what follows among the inputs has no part
in the result. Without such an input the policy has none : `run_failFast`.

The inputs before the first one that is not complete have the same effect under all policies, be it
that they carry the law of the loop on or that they end it with an error (`convertAll_of_valid`).
-/

namespace MifirReport.Batch

open Files Report Table Disk

/-- Settings with another policy. -/
def Settings.withPolicy (settings : Settings) (policy : Policy) : Settings :=
  { settings with policy }

/-- A file can be read, but is not complete. -/
def IsInvalid (disk : Disk) (path : String) : Prop :=
  ∃ bytes, disk.read path = .ok bytes ∧ ¬IsComplete bytes

variable {settings : Settings} {start disk disk' : Disk} {inputs done : List String}
  {input : String} {bytes : ByteArray} {progress : Progress Disk.storage}

/-! ## Inputs that the policy has no part in -/

/-- An input that is not invalid has the same effect under all policies. It ends the conversion with
an error if it cannot be read or if the output cannot be created, and is complete otherwise. -/
theorem convertAll_cons_of_valid (h : Follows settings start (asFound start done) progress disk)
    (hread : ∀ bytes, disk.read input = .ok bytes ↔ start.read input = .ok bytes)
    (hvalid : ¬IsInvalid start input) :
    (((∀ bytes, start.read input ≠ .ok bytes) ∨ HasReport start (done ++ [input]) ∧
          start.place? (outputPath settings start (done ++ [input])) = none) ∧
        ∃ error disk', ∀ policy rest, disk.perform
          (convertAll Disk.storage (settings.withPolicy policy) progress (input :: rest)) =
            (.error error, disk')) ∨
      IsComplete (bytesAt start input) ∧ ∃ progress' disk',
        Follows settings start (asFound start (done ++ [input])) progress' disk' ∧
        ∀ policy rest, disk.perform
          (convertAll Disk.storage (settings.withPolicy policy) progress (input :: rest)) =
            disk'.perform
              (convertAll Disk.storage (settings.withPolicy policy) progress' rest) := by
  cases hinput : disk.read input with
  | error cause =>
    obtain ⟨disk', habandon, -⟩ := abandon_of_outputAt Summary h.output (.file cause)
    refine Or.inl ⟨Or.inl fun bytes hbytes => ?_, _, disk', fun policy rest =>
      (convertAll_unreadable (settings.withPolicy policy) rest hinput).trans habandon⟩
    rw [← hread, hinput] at hbytes
    cases hbytes
  | ok bytes =>
    have hbytes := (hread bytes).1 hinput
    have hcomplete : IsComplete bytes :=
      by_contra fun hincomplete => hvalid ⟨bytes, hbytes, hincomplete⟩
    have hone := asFound_append_singleton hbytes done
    rcases convert_of_outputAt h.output ⟨input, bytes⟩ with
      ⟨⟨path, ⟨hsome, hpath⟩, hplace⟩, cause, hconvert⟩ |
      ⟨output', failure, disk₁, hconvert, houtput, hsuccess, -, hchange, hholds⟩
    · obtain ⟨disk', habandon, -⟩ := abandon_of_outputAt Summary h.output (.file cause)
      rw [← hone, isSome_firstReport?_asFound] at hsome
      rw [hpath, ← hone, destination_asFound, place?_of_sameDirectories h.directories] at hplace
      exact Or.inl ⟨Or.inr ⟨hsome, hplace⟩, _, disk', fun policy rest =>
        (convertAll_aborted (settings.withPolicy policy) rest hinput hconvert rfl).trans habandon⟩
    · have hfollows := h.converted houtput hchange hholds hcomplete
      rw [hsuccess.2 hcomplete] at hconvert
      rw [← hone] at hfollows
      exact Or.inr ⟨by rwa [bytesAt_of_read hbytes], _, disk₁, hfollows, fun policy rest =>
        convertAll_converted (settings.withPolicy policy) rest hinput hconvert⟩

/-- Inputs none of which is invalid are converted, or end the conversion, in the same way under all
policies. -/
theorem convertAll_of_valid (h : Follows settings start (asFound start done) progress disk)
    (hdone : ∀ other ∈ done, IsComplete (bytesAt start other)) (inputs : List String)
    (hvalid : ∀ input ∈ inputs, ¬IsInvalid start input)
    (hapart : ∀ input ∈ inputs, HasReport start (done ++ inputs) →
      start.Apart input (outputPath settings start (done ++ inputs))) :
    (((∃ input ∈ inputs, ∀ bytes, start.read input ≠ .ok bytes) ∨
          HasReport start (done ++ inputs) ∧
            start.place? (outputPath settings start (done ++ inputs)) = none) ∧
        ∃ error disk', ∀ policy rest, disk.perform
          (convertAll Disk.storage (settings.withPolicy policy) progress (inputs ++ rest)) =
            (.error error, disk')) ∨
      (∀ other ∈ done ++ inputs, IsComplete (bytesAt start other)) ∧ ∃ progress' disk',
        Follows settings start (asFound start (done ++ inputs)) progress' disk' ∧
        ∀ policy rest, disk.perform
          (convertAll Disk.storage (settings.withPolicy policy) progress (inputs ++ rest)) =
            disk'.perform
              (convertAll Disk.storage (settings.withPolicy policy) progress' rest) := by
  induction inputs generalizing done progress disk with
  | nil =>
    rw [List.append_nil]
    exact Or.inr ⟨hdone, progress, disk, h, fun _ _ => rfl⟩
  | cons input inputs ih =>
    have hsplit : done ++ input :: inputs = done ++ [input] ++ inputs := by simp
    rw [hsplit] at hapart ⊢
    have hread : ∀ bytes, disk.read input = .ok bytes ↔ start.read input = .ok bytes := by
      refine fun bytes => h.read_iff_of_apart fun path hpath => ?_
      obtain ⟨hhas, rfl⟩ := eq_of_mem_touched hdone hpath
      rw [← outputPath_append hhas [input], ← outputPath_append (hhas.append [input]) inputs]
      exact hapart input List.mem_cons_self ((hhas.append [input]).append inputs)
    rcases convertAll_cons_of_valid h hread (hvalid input List.mem_cons_self) with
      ⟨hcause, error, disk', herror⟩ | ⟨hcomplete, progress₁, disk₁, h₁, hrest₁⟩
    · refine Or.inl ⟨hcause.imp (fun hunread => ⟨input, List.mem_cons_self, hunread⟩) ?_,
        error, disk', fun policy rest => herror policy (inputs ++ rest)⟩
      rintro ⟨hhas, hplace⟩
      exact ⟨hhas.append inputs, by rwa [outputPath_append hhas]⟩
    · have hdone₁ : ∀ other ∈ done ++ [input], IsComplete (bytesAt start other) := by
        rw [List.forall_mem_append, List.forall_mem_singleton]
        exact ⟨hdone, hcomplete⟩
      rcases ih h₁ hdone₁ (fun other hother => hvalid other (List.mem_cons_of_mem _ hother))
          (fun other hother => hapart other (List.mem_cons_of_mem _ hother)) with
        ⟨hcause, error, disk', herror⟩ | ⟨hall, progress', disk', h', hrest'⟩
      · refine Or.inl ⟨hcause.imp_left ?_, error, disk',
          fun policy rest => (hrest₁ policy (inputs ++ rest)).trans (herror policy rest)⟩
        rintro ⟨other, hother, hunread⟩
        exact ⟨other, List.mem_cons_of_mem _ hother, hunread⟩
      · exact Or.inr ⟨hall, progress', disk', h',
          fun policy rest => (hrest₁ policy (inputs ++ rest)).trans (hrest' policy rest)⟩

/-! ## The diagnostic in place of the output -/

/-- An input that is not complete ends a conversion that fails fast. -/
theorem convertAll_stop {done : List Reading} (hpolicy : settings.policy = .failFast)
    (h : Follows settings start done progress disk) (reading : Reading)
    (hread : disk.read reading.input = .ok reading.bytes)
    (hincomplete : ¬IsComplete reading.bytes) :
    (start.place? (destination settings (done ++ [reading])) = none ∧
        ∃ error disk', ∀ rest, disk.perform
          (convertAll Disk.storage settings progress (reading.input :: rest)) =
            (.error error, disk')) ∨
      ∃ disk', (∀ rest, disk.perform
          (convertAll Disk.storage settings progress (reading.input :: rest)) =
            (.ok ⟨0, progress.processed, (reading.input :: progress.failed).reverse,
              destination settings (done ++ [reading])⟩, disk')) ∧
        disk.ChangedAt {destination settings (done ++ [reading])} disk' ∧
        disk'.read (destination settings (done ++ [reading])) =
          .ok (diagnosticText reading.bytes) := by
  rcases convert_of_outputAt h.output reading with
    ⟨⟨path, ⟨-, rfl⟩, hplace⟩, cause, hconvert⟩ |
    ⟨output', failure, disk₁, hconvert, houtput, hcomplete, hinvalid, hchange, -⟩
  · obtain ⟨disk', habandon, -⟩ := abandon_of_outputAt Summary h.output (.file cause)
    rw [place?_of_sameDirectories h.directories] at hplace
    exact Or.inl ⟨hplace, _, disk', fun rest =>
      (convertAll_aborted _ rest hread hconvert rfl).trans habandon⟩
  · obtain ⟨error, rfl⟩ := Option.ne_none_iff_exists'.1 fun e => hincomplete (hcomplete.1 e)
    have hreach rest := convertAll_stopped _ rest hread hconvert (hinvalid error rfl) hpolicy
    rcases stop_of_outputAt { progress with output := output' } houtput reading.input
        reading.bytes with ⟨hplace, cause, disk', hstop, -⟩ | ⟨disk', hstop, hchange', hread'⟩
    · rw [place?_of_sameDirectories (h.directories.trans hchange.directories)] at hplace
      exact Or.inl ⟨hplace, _, disk', fun rest => (hreach rest).trans hstop⟩
    · refine Or.inr ⟨disk', fun rest => (hreach rest).trans hstop, ?_, hread'⟩
      refine (hchange.mono ?_).trans hchange'
      rintro path ⟨-, rfl⟩
      rfl

/-! ## The whole run -/

/-- Without an invalid input the policies agree on the outcome and on the disk. -/
theorem perform_run_of_valid (hvalid : ∀ input ∈ inputs, ¬IsInvalid disk input)
    (hapart : ∀ input ∈ inputs, disk.Apart input (outputPath settings disk inputs))
    (policy policy' : Policy) :
    disk.perform (run Disk.storage (settings.withPolicy policy) inputs) =
      disk.perform (run Disk.storage (settings.withPolicy policy') inputs) := by
  by_cases hinputs : inputs = []
  · subst hinputs
    rfl
  have hnil : Follows settings disk (asFound disk []) {} disk := follows_nil settings disk
  rw [run_eq_convertAll _ hinputs, run_eq_convertAll _ hinputs, ← List.append_nil inputs]
  rcases convertAll_of_valid hnil (List.forall_mem_nil _) inputs hvalid
      (fun input hinput _ => hapart input hinput) with
    ⟨-, error, disk', herror⟩ | ⟨-, progress, disk', -, hrest⟩
  · rw [herror, herror]
  · rw [hrest, hrest]
    rfl

/-- The first invalid input ends a conversion that fails fast, and leaves its diagnostic in place of
the output, unless an error comes before. -/
theorem perform_run_of_invalid {before : List String} (hpolicy : settings.policy = .failFast)
    (hvalid : ∀ other ∈ before, ¬IsInvalid disk other) (hread : disk.read input = .ok bytes)
    (hincomplete : ¬IsComplete bytes)
    (hapart : ∀ other ∈ before ++ [input],
      disk.Apart other (outputPath settings disk (before ++ [input]))) :
    (((∃ other ∈ before, ∀ bytes, disk.read other ≠ .ok bytes) ∨
          disk.place? (outputPath settings disk (before ++ [input])) = none) ∧
        ∃ error disk', ∀ after,
          disk.perform (run Disk.storage settings (before ++ input :: after)) =
            (.error error, disk')) ∨
      ∃ disk', (∀ after,
          disk.perform (run Disk.storage settings (before ++ input :: after)) =
            (.ok ⟨0, before.length, [input], outputPath settings disk (before ++ [input])⟩,
              disk')) ∧
        disk'.read (outputPath settings disk (before ++ [input])) = .ok (diagnosticText bytes) ∧
        disk.ChangedAt {outputPath settings disk (before ++ [input])} disk' := by
  have hsame : settings.withPolicy .failFast = settings := by rw [Settings.withPolicy, ← hpolicy]
  have hsome : ∀ after, before ++ input :: after ≠ [] := by simp
  have hnil : Follows settings disk (asFound disk []) {} disk := follows_nil settings disk
  rcases convertAll_of_valid hnil (List.forall_mem_nil _) before hvalid (fun other hother hhas =>
      outputPath_append hhas [input] ▸ hapart other (List.mem_append_left _ hother)) with
    ⟨hcause, error, disk', herror⟩ | ⟨hcomplete, progress, disk₁, h, hrest⟩
  · have hreason := hcause.imp_right fun h => outputPath_append h.1 [input] ▸ h.2
    refine Or.inl ⟨hreason, error, disk', fun after => ?_⟩
    rw [run_eq_convertAll _ (hsome after), ← hsame, herror]
  rw [List.nil_append] at hcomplete h
  have hrest := hrest .failFast
  rw [hsame] at hrest
  have hchanged : disk.ChangedAt {outputPath settings disk (before ++ [input])} disk₁ := by
    refine h.changedAt.mono fun path hpath => ?_
    rw [reach_asFound] at hpath
    obtain ⟨hhas, rfl⟩ := eq_of_mem_touched hcomplete hpath
    exact (outputPath_append hhas [input]).symm
  have hread₁ : disk₁.read input = .ok bytes := by
    refine (hchanged.read_iff ?_).2 hread
    rintro path rfl
    exact hapart input (by simp)
  have hfailed : progress.failed = [] := by
    rw [← List.reverse_eq_nil_iff, h.failed, failures_asFound, incompleteAt_eq_nil hcomplete]
    rfl
  have hprocessed : progress.processed = before.length := by
    have htally := h.tally
    rwa [hfailed, List.length_nil, Nat.add_zero, asFound, List.length_map] at htally
  have hone : destination settings (asFound disk before ++ [⟨input, bytes⟩]) =
      outputPath settings disk (before ++ [input]) := by
    rw [← asFound_append_singleton hread, destination_asFound]
  rcases convertAll_stop hpolicy h ⟨input, bytes⟩ hread₁ hincomplete with
    ⟨hplace, error, disk', herror⟩ | ⟨disk', hstop, hchange, hdiagnostic⟩
  · rw [hone] at hplace
    refine Or.inl ⟨Or.inr hplace, error, disk', fun after => ?_⟩
    rw [run_eq_convertAll _ (hsome after), hrest, herror]
  · rw [hone] at hchange hdiagnostic hstop
    refine Or.inr ⟨disk', fun after => ?_, hdiagnostic, hchanged.trans hchange⟩
    rw [run_eq_convertAll _ (hsome after), hrest, hstop, hprocessed, hfailed,
      List.reverse_singleton]

/-- A conversion that fails fast ends at its first invalid input with a summary, if the inputs
before it can be read and the output can be created. -/
theorem exists_run_failFast {before : List String} (hpolicy : settings.policy = .failFast)
    (hbefore : ∀ other ∈ before, ∃ bytes, disk.read other = .ok bytes)
    (hvalid : ∀ other ∈ before, ¬IsInvalid disk other) (hinvalid : IsInvalid disk input)
    (hapart : ∀ other ∈ before ++ [input],
      disk.Apart other (outputPath settings disk (before ++ [input])))
    (hplace : disk.place? (outputPath settings disk (before ++ [input])) ≠ none)
    (after : List String) :
    ∃ summary disk',
      disk.perform (run Disk.storage settings (before ++ input :: after)) =
        (.ok summary, disk') := by
  obtain ⟨bytes, hread, hincomplete⟩ := hinvalid
  rcases perform_run_of_invalid hpolicy hvalid hread hincomplete hapart with
    ⟨⟨other, hother, hunread⟩ | hnone, -⟩ | ⟨disk', hrun, -⟩
  · obtain ⟨bytes', hread'⟩ := hbefore other hother
    exact absurd hread' (hunread bytes')
  · exact absurd hnone hplace
  · exact ⟨_, disk', hrun after⟩

/-- A conversion that fails fast ends at the first invalid input : its diagnostic is the whole
output, no other file is changed, and the inputs after it have no part in the outcome. Without an
invalid input the conversion is the one that goes on. -/
theorem run_failFast (hpolicy : settings.policy = .failFast) (inputs : List String) :
    (∀ before input after summary disk', inputs = before ++ input :: after →
      (∀ other ∈ before, ¬IsInvalid disk other) → IsInvalid disk input →
      (∀ other ∈ before ++ [input],
        disk.Apart other (outputPath settings disk (before ++ [input]))) →
      disk.perform (run Disk.storage settings inputs) = (.ok summary, disk') →
      summary.failed = [input] ∧ summary.processed = before.length ∧ summary.transactions = 0 ∧
        summary.output = outputPath settings disk (before ++ [input]) ∧
        (∃ table, diagnostic (Text.Utf8.decodeLossy (bytesAt disk input).data.toList) = .ok table ∧
          disk'.read summary.output = .ok table) ∧
        disk.ChangedAt {summary.output} disk' ∧
        ∀ after', disk.perform (run Disk.storage settings (before ++ input :: after')) =
          (.ok summary, disk')) ∧
      ((∀ input ∈ inputs, ¬IsInvalid disk input) →
        (∀ input ∈ inputs, disk.Apart input (outputPath settings disk inputs)) →
        disk.perform (run Disk.storage settings inputs) =
          disk.perform (run Disk.storage (settings.withPolicy .keepGoing) inputs)) := by
  refine ⟨?_, fun hvalid hapart => ?_⟩
  · rintro before input after summary disk' rfl hvalid ⟨bytes, hread, hincomplete⟩ hapart hrun
    rcases perform_run_of_invalid hpolicy hvalid hread hincomplete hapart with
      ⟨-, cause, disk₁, herror⟩ | ⟨disk₁, hstop, hdiagnostic, hchange⟩
    · rw [herror] at hrun
      cases hrun
    · have hsame := hstop after
      rw [hrun] at hsame
      cases hsame
      refine ⟨rfl, rfl, rfl, rfl, ⟨diagnosticText bytes, ?_, hdiagnostic⟩, hchange, hstop⟩
      rw [bytesAt_of_read hread, diagnostic_eq, ← tableText_eq, ← diagnosticText]
  · have hsame : settings.withPolicy .failFast = settings := by rw [Settings.withPolicy, ← hpolicy]
    have hagree := perform_run_of_valid hvalid hapart .failFast .keepGoing
    rwa [hsame] at hagree

theorem run_failFast_mixed :
    let settings := mixedSettings.withPolicy .failFast
    (∃ summary disk', mixedDisk.perform
          (run Disk.storage settings ["c.xml", "b.xml", "missing.xml"]) = (.ok summary, disk') ∧
        summary.failed = ["b.xml"] ∧ summary.processed = 1 ∧ summary.output = "out.csv" ∧
        mixedDisk.ChangedAt {"out.csv"} disk') ∧
      mixedDisk.perform (run Disk.storage settings ["c.xml"]) =
        mixedDisk.perform (run Disk.storage mixedSettings ["c.xml"]) := by
  intro settings
  have hcomplete : IsComplete (bytesAt mixedDisk "c.xml") := by decide +kernel
  have hincomplete : ¬IsComplete (bytesAt mixedDisk "b.xml") := by decide +kernel
  have hread : mixedDisk.read "b.xml" = .ok (bytesAt mixedDisk "b.xml") := rfl
  have hbefore : ∀ other ∈ ["c.xml"], ∃ bytes, mixedDisk.read other = .ok bytes := by
    intro other hother
    rw [List.mem_singleton.1 hother]
    exact ⟨_, rfl⟩
  have hvalid : ∀ other ∈ ["c.xml"], ¬IsInvalid mixedDisk other := by
    rintro other hother ⟨bytes, hother', hbytes⟩
    rw [List.mem_singleton.1 hother] at hother'
    exact hbytes (bytesAt_of_read hother' ▸ hcomplete)
  have hplaces : ∀ other ∈ ["c.xml", "b.xml"],
      mixedDisk.place? other ≠ mixedDisk.place? "out.csv" := by
    decide
  have hapart : ∀ other ∈ ["c.xml"] ++ ["b.xml"], mixedDisk.Apart other "out.csv" :=
    fun other hother => apart_of_place?_ne (hplaces other hother)
  have hinvalid : IsInvalid mixedDisk "b.xml" := ⟨_, hread, hincomplete⟩
  have hpolicy : settings.policy = .failFast := rfl
  obtain ⟨summary, disk', hrun⟩ :=
    exists_run_failFast hpolicy hbefore hvalid hinvalid hapart (by decide) ["missing.xml"]
  obtain ⟨hstop, -⟩ :=
    @run_failFast settings mixedDisk hpolicy ["c.xml", "b.xml", "missing.xml"]
  obtain ⟨-, hagree⟩ := @run_failFast settings mixedDisk hpolicy ["c.xml"]
  obtain ⟨hfailed, hprocessed, -, hpath, -, hchange, -⟩ :=
    hstop ["c.xml"] "b.xml" ["missing.xml"] summary disk' rfl hvalid hinvalid hapart hrun
  have hout : summary.output = "out.csv" := hpath
  rw [hout] at hchange
  refine ⟨⟨summary, disk', hrun, hfailed, hprocessed, hout, hchange⟩, ?_⟩
  exact hagree hvalid fun other hother => hapart other (List.mem_append_left _ hother)

end MifirReport.Batch
