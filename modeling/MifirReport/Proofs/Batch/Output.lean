import MifirReport.Batch.Run
import MifirReport.Proofs.Files.Disk
import MifirReport.Proofs.Table.Emission

/-!
# An output on a disk

An open output stands for a table. The bytes in its file, those that are due and those that its
emitter keeps back make up the text of the header row and the rows so far (`Output.Holds`). Each
step on an output keeps that law : `holds_create` begins with no rows, `holds_addRows` adds rows,
and `holds_flush` brings all bytes into the file, which then reads as the text. None of them touches
another place (`ChangedAt`), and none but the first can fail.

`perform_writeDiagnostic` is the same for a diagnostic, which is written at once.
-/

namespace MifirReport.Batch

open Files Report Table Disk

/-- The text of a table with a header row, in bytes. -/
def tableText (rows : List Row) : ByteArray :=
  (String.ofList (rowsText (Row.header :: rows))).toUTF8

/-- The text of a diagnostic for the bytes of a file. -/
def diagnosticText (bytes : ByteArray) : ByteArray :=
  tableText [Row.invalid (Text.Utf8.decodeLossy bytes.data.toList)]

theorem toUTF8_ofList (cs : List Char) : (String.ofList cs).toUTF8 = cs.utf8Encode :=
  String.toByteArray_ofList

theorem tableText_eq (rows : List Row) :
    tableText rows = (rowsText (Row.header :: rows)).utf8Encode := by
  rw [tableText, toUTF8_ofList]

/-- An output whose file, with the bytes that are due and those kept back, is a table of rows. -/
structure Output.Holds (disk : Disk) (output : Output Disk.storage) (due : ByteArray)
    (rows : List Row) : Prop where
  file : ∃ c written, disk.place? output.path = some c ∧ disk.find? c = some (.file written) ∧
    output.handle = (⟨c, written.size⟩ : Handle) ∧
    written ++ due ++ output.emitter.kept = tableText rows
  count : output.emitter.rows = rows.length
  ready : output.emitter.Ready

variable {disk disk' : Disk} {output : Output Disk.storage} {due : ByteArray} {rows : List Row}

/-- A change at another place leaves an output as it is. -/
theorem Output.Holds.of_changedAt {paths : Set String} (h : output.Holds disk due rows)
    (hchange : disk.ChangedAt paths disk')
    (hapart : ∀ path ∈ paths, disk.Apart output.path path) : output.Holds disk' due rows := by
  obtain ⟨c, written, hplace, hfind, hhandle, htext⟩ := h.file
  refine ⟨⟨c, written, ?_, ?_, hhandle, htext⟩, h.count, h.ready⟩
  · rw [hchange.place?_eq, hplace]
  · rw [hchange.others c fun path hpath => hapart path hpath c hplace, hfind]

/-- The bytes that are due reach the file. -/
theorem holds_deliver (h : output.Holds disk due rows) :
    ∃ (handle : Handle) (disk' : Disk),
      disk.perform (Output.deliver Disk.storage output due) = (.ok { output with handle }, disk') ∧
      Output.Holds disk' { output with handle } .empty rows ∧
      disk.ChangedAt {output.path} disk' := by
  obtain ⟨c, written, hplace, hfind, hhandle, htext⟩ := h.file
  unfold Output.deliver
  by_cases hempty : due.isEmpty
  · have nothing : due = .empty := by
      rw [ByteArray.isEmpty, beq_iff_eq] at hempty
      exact ByteArray.size_eq_zero_iff.1 hempty
    refine ⟨output.handle, disk, by rw [if_pos hempty]; rfl, ?_, .refl disk _⟩
    rw [nothing] at h
    exact h
  · have hchange := changedAt_insert hplace (written ++ due)
    refine ⟨⟨c, (written ++ due).size⟩, disk.insert c (.file (written ++ due)), ?_, ?_, hchange⟩
    · rw [if_neg hempty, hhandle, perform_bind, perform_write hfind]
      rfl
    · refine ⟨⟨c, written ++ due, ?_, ?_, rfl, ?_⟩, h.count, h.ready⟩
      · rw [hchange.place?_eq, hplace]
      · exact find?_insert_self _ _ (ne_nil_of_place? hplace)
      · rw [ByteArray.append_empty, htext]

/-- An output that holds a table takes in what a step of its emitter adds. -/
theorem Output.Holds.adds {text : List Char} {n : Nat} {e : Emitter} {more : List Row}
    (h : output.Holds disk .empty rows) (hadds : output.emitter.Adds text n due e)
    (htext : text = rowsText more) (hn : n = more.length) :
    Output.Holds disk { output with emitter := e } due (rows ++ more) := by
  obtain ⟨c, written, hplace, hfind, hhandle, hall⟩ := h.file
  refine ⟨⟨c, written, hplace, hfind, hhandle, ?_⟩, ?_, hadds.ready⟩
  · rw [ByteArray.append_empty] at hall
    rw [ByteArray.append_assoc, hadds.bytes, ← ByteArray.append_assoc, hall, htext, tableText_eq,
      tableText_eq, ← List.utf8Encode_append, ← rowsText_append, List.cons_append]
  · rw [hadds.rows, h.count, hn, List.length_append]

theorem header_eq_deliver {e : Emitter} (h : output.emitter.header = .ok (due, e)) :
    Output.header Disk.storage output =
      Output.deliver Disk.storage { output with emitter := e } due := by
  rw [Output.header, h]

/-- An output that is created holds no rows. -/
theorem holds_create {path : String} {c : List String} (hplace : disk.place? path = some c) :
    ∃ (output : Output Disk.storage) (disk' : Disk),
      disk.perform (Output.create Disk.storage path) = (.ok output, disk') ∧
      output.Holds disk' .empty [] ∧ output.path = path ∧ disk.ChangedAt {path} disk' := by
  obtain ⟨due, e, hheader, hadds⟩ := Emitter.adds_header Emitter.ready_new
  have hchange := changedAt_insert hplace .empty
  have hnew : Output.Holds (disk.insert c (.file .empty))
      (⟨path, (⟨c, 0⟩ : Handle), e⟩ : Output Disk.storage) due [] := by
    refine ⟨⟨c, .empty, ?_, find?_insert_self _ _ (ne_nil_of_place? hplace), rfl, ?_⟩, hadds.rows,
      hadds.ready⟩
    · rw [hchange.place?_eq, hplace]
    · rw [ByteArray.empty_append, hadds.bytes, Emitter.kept_new, ByteArray.empty_append,
        tableText_eq]
  obtain ⟨handle, disk', hdeliver, hholds, hlater⟩ := holds_deliver hnew
  refine ⟨_, disk', ?_, hholds, rfl, hchange.trans hlater⟩
  rw [Output.create, perform_bind, perform_create hplace]
  dsimp only
  rw [header_eq_deliver hheader]
  exact hdeliver

theorem perform_create_of_none {path : String} (hplace : disk.place? path = none) :
    ∃ cause, disk.perform (Output.create Disk.storage path) = (.error (.file cause), disk) := by
  obtain ⟨cause, hcreate⟩ := perform_create_error hplace
  refine ⟨cause, ?_⟩
  rw [Output.create, perform_bind, hcreate]
  rfl

theorem holds_addRows (h : output.Holds disk .empty rows) (more : List Row) :
    ∃ (output' : Output Disk.storage) (disk' : Disk),
      disk.perform (Output.addRows Disk.storage output more) = (.ok output', disk') ∧
      output'.Holds disk' .empty (rows ++ more) ∧ output'.path = output.path ∧
      disk.ChangedAt {output.path} disk' := by
  obtain ⟨due, e, hrows, hadds⟩ := Emitter.adds_addRows h.ready more
  obtain ⟨handle, disk', hdeliver, hholds, hchange⟩ := holds_deliver (h.adds hadds rfl rfl)
  refine ⟨_, disk', ?_, hholds, rfl, hchange⟩
  rw [Output.addRows, hrows]
  exact hdeliver

/-- After a flush the file is the whole table. -/
theorem holds_flush (h : output.Holds disk .empty rows) :
    ∃ (output' : Output Disk.storage) (disk' : Disk),
      disk.perform (Output.flush Disk.storage output) = (.ok output', disk') ∧
      output'.Holds disk' .empty rows ∧ output'.path = output.path ∧
      disk'.read output.path = .ok (tableText rows) ∧ disk.ChangedAt {output.path} disk' := by
  have hadds := Emitter.adds_flush h.ready
  have hdue : Output.Holds disk { output with emitter := output.emitter.flush.2 }
      output.emitter.flush.1 (rows ++ []) := h.adds hadds rfl rfl
  rw [List.append_nil] at hdue
  obtain ⟨handle, disk', hdeliver, hholds, hchange⟩ := holds_deliver hdue
  refine ⟨_, disk', hdeliver, hholds, rfl, ?_, hchange⟩
  obtain ⟨c, written, hplace, hfind, -, htext⟩ := hholds.file
  rw [Emitter.kept_flush, ByteArray.append_empty, ByteArray.append_empty] at htext
  exact read_eq_ok_iff.2 ⟨c, hplace, by rw [hfind, htext]⟩

/-- A diagnostic is the whole content of its file, unless the file cannot be created. -/
theorem perform_writeDiagnostic {path : String} {c : List String}
    (hplace : disk.place? path = some c) (bytes : ByteArray) :
    ∃ disk', disk.perform (writeDiagnostic Disk.storage path bytes) = (.ok (), disk') ∧
      disk'.read path = .ok (diagnosticText bytes) ∧ disk.ChangedAt {path} disk' := by
  have hempty := changedAt_insert hplace .empty
  have hplace' : (disk.insert c (.file .empty)).place? path = some c := by
    rw [hempty.place?_eq, hplace]
  have hnil := ne_nil_of_place? hplace
  have hfull := changedAt_insert hplace' (diagnosticText bytes)
  refine ⟨(disk.insert c (.file .empty)).insert c (.file (diagnosticText bytes)), ?_, ?_,
    hempty.trans hfull⟩
  · rw [writeDiagnostic, perform_bind, perform_create hplace, diagnostic_eq, ← tableText_eq,
      ← diagnosticText]
    dsimp only
    rw [perform_bind, ← ByteArray.size_empty,
      perform_write (find?_insert_self _ _ hnil), ByteArray.empty_append]
    rfl
  · exact read_eq_ok_iff.2 ⟨c, by rw [hfull.place?_eq, hplace'], find?_insert_self _ _ hnil⟩

theorem perform_writeDiagnostic_of_none {path : String} (hplace : disk.place? path = none)
    (bytes : ByteArray) :
    ∃ cause, disk.perform (writeDiagnostic Disk.storage path bytes) =
      (.error (.file cause), disk) := by
  obtain ⟨cause, hcreate⟩ := perform_create_error hplace
  refine ⟨cause, ?_⟩
  rw [writeDiagnostic, perform_bind, hcreate]
  rfl

end MifirReport.Batch
