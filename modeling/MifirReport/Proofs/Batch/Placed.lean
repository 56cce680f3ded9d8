import MifirReport.Proofs.Batch.Output

/-!
# Outputs that may be written over

A diagnostic may go to the place of the output. The table that the output holds is lost then, and
what it writes next is written over the diagnostic. It stays at its place all the same
(`Output.Placed`), and nothing that it writes goes elsewhere : `placed_addRows`, `placed_flush`. As
long as it holds a table, it goes on to hold one.
-/

namespace MifirReport.Batch

open Files Report Table Disk

/-- An output that writes at the place of its path. -/
structure Output.Placed (disk : Disk) (output : Output Disk.storage) : Prop where
  place : ∃ c offset, disk.place? output.path = some c ∧ output.handle = (⟨c, offset⟩ : Handle)
  ready : output.emitter.Ready

variable {disk disk' : Disk} {output : Output Disk.storage} {due : ByteArray} {rows : List Row}

theorem Output.Holds.placed (h : output.Holds disk due rows) : output.Placed disk := by
  obtain ⟨c, written, hplace, -, hhandle, -⟩ := h.file
  exact ⟨⟨c, written.size, hplace, hhandle⟩, h.ready⟩

/-- No change of files moves an output. -/
theorem Output.Placed.of_changedAt {paths : Set String} (h : output.Placed disk)
    (hchange : disk.ChangedAt paths disk') : output.Placed disk' := by
  obtain ⟨c, offset, hplace, hhandle⟩ := h.place
  exact ⟨⟨c, offset, by rw [hchange.place?_eq, hplace], hhandle⟩, h.ready⟩

/-- Bytes that are due are written at the place of the output. -/
theorem placed_deliver (h : output.Placed disk) (due : ByteArray) :
    ∃ (handle : Handle) (disk' : Disk),
      disk.perform (Output.deliver Disk.storage output due) = (.ok { output with handle }, disk') ∧
      Output.Placed disk' { output with handle } ∧ disk.ChangedAt {output.path} disk' := by
  obtain ⟨c, offset, hplace, hhandle⟩ := h.place
  unfold Output.deliver
  by_cases hempty : due.isEmpty
  · exact ⟨output.handle, disk, by rw [if_pos hempty]; rfl, h, .refl disk _⟩
  · obtain ⟨content, hwrite⟩ : ∃ content, disk.perform (storage.write (⟨c, offset⟩ : Handle) due) =
        (.ok (⟨c, offset + due.size⟩ : Handle), disk.insert c (.file content)) := ⟨_, rfl⟩
    have hchange := changedAt_insert hplace content
    refine ⟨⟨c, offset + due.size⟩, disk.insert c (.file content), ?_, ?_, hchange⟩
    · rw [if_neg hempty, hhandle, perform_bind, hwrite]
      rfl
    · exact ⟨⟨c, offset + due.size, by rw [hchange.place?_eq, hplace], rfl⟩, h.ready⟩

theorem placed_addRows (h : output.Placed disk) (more : List Row) :
    ∃ (output' : Output Disk.storage) (disk' : Disk),
      disk.perform (Output.addRows Disk.storage output more) = (.ok output', disk') ∧
      output'.Placed disk' ∧ output'.path = output.path ∧ disk.ChangedAt {output.path} disk' ∧
      ∀ rows, output.Holds disk .empty rows → output'.Holds disk' .empty (rows ++ more) := by
  obtain ⟨due, e, hrows, hadds⟩ := Emitter.adds_addRows h.ready more
  have hready : Output.Placed disk { output with emitter := e } := ⟨h.place, hadds.ready⟩
  obtain ⟨handle, disk', hdeliver, hplaced, hchange⟩ := placed_deliver hready due
  have hadd : disk.perform (Output.addRows Disk.storage output more) =
      (.ok { output with emitter := e, handle }, disk') := by
    rw [Output.addRows, hrows]
    exact hdeliver
  refine ⟨_, disk', hadd, hplaced, rfl, hchange, fun rows hholds => ?_⟩
  obtain ⟨_, _, hadd', hholds', -⟩ := holds_addRows hholds more
  cases hadd.symm.trans hadd'
  exact hholds'

/-- A flush leaves an output at its place, and the whole table in its file if it holds one. -/
theorem placed_flush (h : output.Placed disk) :
    ∃ (output' : Output Disk.storage) (disk' : Disk),
      disk.perform (Output.flush Disk.storage output) = (.ok output', disk') ∧
      output'.path = output.path ∧ disk.ChangedAt {output.path} disk' ∧
      ∀ rows, output.Holds disk .empty rows →
        output'.Holds disk' .empty rows ∧ disk'.read output.path = .ok (tableText rows) := by
  have hadds := Emitter.adds_flush h.ready
  have hready : Output.Placed disk { output with emitter := output.emitter.flush.2 } :=
    ⟨h.place, hadds.ready⟩
  obtain ⟨handle, disk', hdeliver, -, hchange⟩ := placed_deliver hready output.emitter.flush.1
  have hflush : disk.perform (Output.flush Disk.storage output) =
      (.ok { output with emitter := output.emitter.flush.2, handle }, disk') := hdeliver
  refine ⟨_, disk', hflush, rfl, hchange, fun rows hholds => ?_⟩
  obtain ⟨_, _, hflush', hholds', -, hread, -⟩ := holds_flush hholds
  cases hflush.symm.trans hflush'
  exact ⟨hholds', hread⟩

end MifirReport.Batch
