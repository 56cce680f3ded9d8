import MifirReport.Proofs.Batch.Output

/-!
# Steps of a conversion

Each step of the loop ends in one of few ways, which the outcome of reading, of converting and of
writing a diagnostic decides : the loop goes on with the inputs that are left
(`convertAll_converted`, `convertAll_diagnosed`), it is stopped (`convertAll_stopped`), or it is
abandoned with an error (`convertAll_unreadable`, `convertAll_aborted`, `convertAll_undiagnosed`).
-/

namespace MifirReport.Batch

open Files Disk

/-- The path of the diagnostic for an input. -/
def diagnosticAt (settings : Settings) (input : String) : String :=
  diagnosticPath input settings.target.around

theorem run_eq_convertAll {inputs : List String} (settings : Settings) (h : inputs ≠ []) :
    run Disk.storage settings inputs = convertAll Disk.storage settings {} inputs := by
  have hempty : inputs.isEmpty = false := by simp [h]
  rw [run, hempty]
  rfl

variable {progress : Progress Disk.storage} {disk disk₁ disk₂ : Disk} {input : String}
  {bytes : ByteArray} {output' : Option (Output Disk.storage)} {error : Error} {cause : Cause}
  (settings : Settings) (rest : List String)

attribute [local simp] convertAll perform_bind perform_read

/-- An input that cannot be read ends the conversion on the way out. -/
theorem convertAll_unreadable (hread : disk.read input = .error cause) :
    disk.perform (convertAll Disk.storage settings progress (input :: rest)) =
      disk.perform (abandon Disk.storage progress.output (.file cause)) := by
  simp [hread]

/-- Past an input without a failure the conversion goes on, with one more input processed. -/
theorem convertAll_converted (hread : disk.read input = .ok bytes)
    (hconvert : disk.perform (convert Disk.storage settings progress.output bytes) =
      ((output', none), disk₁)) :
    disk.perform (convertAll Disk.storage settings progress (input :: rest)) =
      disk₁.perform (convertAll Disk.storage settings
        { progress with output := output', processed := progress.processed + 1 } rest) := by
  simp [hread, hconvert]

section Failure

variable (hread : disk.read input = .ok bytes)
  (hconvert : disk.perform (convert Disk.storage settings progress.output bytes) =
    ((output', some error), disk₁))

include hread hconvert

/-- A failure that no diagnostic stands for ends the conversion, whatever the policy. -/
theorem convertAll_aborted (herror : error.isInvalidDocument = false) :
    disk.perform (convertAll Disk.storage settings progress (input :: rest)) =
      disk₁.perform (abandon Disk.storage output' error) := by
  simp [hread, hconvert, herror]

/-- A conversion that fails fast is stopped with the output that the input left. -/
theorem convertAll_stopped (herror : error.isInvalidDocument = true)
    (hpolicy : settings.policy = .failFast) :
    disk.perform (convertAll Disk.storage settings progress (input :: rest)) =
      disk₁.perform (stop Disk.storage settings { progress with output := output' } input
        bytes) := by
  simp [hread, hconvert, herror, hpolicy]

/-- A conversion that goes on does so when the diagnostic is written, and keeps the input as failed.
-/
theorem convertAll_diagnosed (herror : error.isInvalidDocument = true)
    (hpolicy : settings.policy = .keepGoing)
    (hwrite : disk₁.perform (writeDiagnostic Disk.storage (diagnosticAt settings input) bytes) =
      (.ok (), disk₂)) :
    disk.perform (convertAll Disk.storage settings progress (input :: rest)) =
      disk₂.perform (convertAll Disk.storage settings
        { progress with output := output', failed := input :: progress.failed } rest) := by
  rw [diagnosticAt] at hwrite
  simp [hread, hconvert, herror, hpolicy, hwrite]

theorem convertAll_undiagnosed {error' : Error} (herror : error.isInvalidDocument = true)
    (hpolicy : settings.policy = .keepGoing)
    (hwrite : disk₁.perform (writeDiagnostic Disk.storage (diagnosticAt settings input) bytes) =
      (.error error', disk₂)) :
    disk.perform (convertAll Disk.storage settings progress (input :: rest)) =
      disk₂.perform (abandon Disk.storage output' error') := by
  rw [diagnosticAt] at hwrite
  simp [hread, hconvert, herror, hpolicy, hwrite]

end Failure

end MifirReport.Batch
