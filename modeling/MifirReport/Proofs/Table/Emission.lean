import MifirReport.Proofs.Csv.RoundTrip
import MifirReport.Table.Emitter

/-!
# What an emitter hands on

Every row has as many values as there are columns, so an emitter that starts afresh never meets two
records of unequal lengths (`Emitter.Ready`). Each of its steps then succeeds, and what it hands on
and keeps back afterwards is what it kept back before and the text of the rows it was given
(`Emitter.Adds`) : `adds_header`, `adds_addRows` and `adds_flush`, put together by `Adds.trans`. The
text of a diagnostic follows (`diagnostic_eq`).

A session flushes any number of times, writes the header row, then writes rows and flushes in any
order, and flushes at the end. `session_lossless` : it never fails, it counts the rows, and what it
hands on reads as the header row and the rows.
-/

namespace MifirReport.Table

/-- The text of rows. -/
def rowsText (rows : List Row) : List Char :=
  rows.flatMap fun row => Csv.encodeRecord (row.values.map String.toList)

theorem rowsText_append (rows more : List Row) :
    rowsText (rows ++ more) = rowsText rows ++ rowsText more :=
  List.flatMap_append

theorem rowsText_singleton (row : Row) :
    rowsText [row] = Csv.encodeRecord (row.values.map String.toList) :=
  List.flatMap_singleton ..

namespace Emitter

/-! ## Steps -/

/-- The bytes that an emitter keeps back. -/
def kept (e : Emitter) : ByteArray := e.writer.kept

/-- No record yet, or records with a value for each column. -/
def Ready (e : Emitter) : Prop := e.writer.width.getD 82 = 82

/-- A step from `e` to `e'` that hands on `due` adds a text, which ends `n` data rows. -/
structure Adds (e : Emitter) (text : List Char) (n : Nat) (due : ByteArray) (e' : Emitter) :
    Prop where
  bytes : due ++ e'.kept = e.kept ++ text.utf8Encode
  rows : e'.rows = e.rows + n
  ready : e'.Ready

variable {e e₁ e₂ : Emitter} {text more : List Char} {n k : Nat} {due rest : ByteArray}

theorem Adds.refl (h : e.Ready) : e.Adds [] 0 .empty e :=
  ⟨by simp, rfl, h⟩

/-- Two steps hand on what each of them does, and add one text after the other. -/
theorem Adds.trans (h₁ : e.Adds text n due e₁) (h₂ : e₁.Adds more k rest e₂) :
    e.Adds (text ++ more) (n + k) (due ++ rest) e₂ where
  bytes := by
    rw [ByteArray.append_assoc, h₂.bytes, ← ByteArray.append_assoc, h₁.bytes,
      ByteArray.append_assoc, List.utf8Encode_append]
  rows := by rw [h₂.rows, h₁.rows, Nat.add_assoc]
  ready := h₂.ready

/-- A writer that is ready takes in any row, and loses nothing. -/
theorem record_values (h : e.Ready) (row : Row) :
    ∃ due writer, e.writer.record row.values = .ok (due, writer) ∧ writer.width = some 82 ∧
      due ++ writer.kept = e.kept ++ (rowsText [row]).utf8Encode := by
  have width : e.writer.width.getD row.values.length = 82 := by rw [row.length_values]; exact h
  have written := Csv.Writer.putAll_kept .empty { e.writer with width := some 82 }
    ((Csv.recordPieces (row.values.map String.toList)).flatMap Csv.Piece.parts)
  rw [Csv.flatten_flatMap_parts, ByteArray.empty_append, ← Csv.encodeRecord,
    ← rowsText_singleton] at written
  refine ⟨_, _, ?_, Csv.Writer.putAll_width .., written⟩
  rw [Csv.Writer.record, width, if_pos row.length_values]

/-- The header row is no data row. -/
theorem adds_header (h : e.Ready) :
    ∃ due e', e.header = .ok (due, e') ∧ e.Adds (rowsText [Row.header]) 0 due e' := by
  obtain ⟨due, writer, hrecord, width, bytes⟩ := record_values h Row.header
  refine ⟨due, { e with writer }, by rw [header, hrecord]; rfl, bytes, rfl, ?_⟩
  simp [Ready, width]

theorem adds_row (h : e.Ready) (row : Row) :
    ∃ due e', e.row row = .ok (due, e') ∧ e.Adds (rowsText [row]) 1 due e' := by
  obtain ⟨due, writer, hrecord, width, bytes⟩ := record_values h row
  refine ⟨due, { writer, rows := e.rows + 1 }, by rw [Emitter.row, hrecord]; rfl, bytes, rfl, ?_⟩
  simp [Ready, width]

/-- Rows are written in order, and nothing of them is lost. -/
theorem adds_addRows (h : e.Ready) (rows : List Row) :
    ∃ due e', e.addRows rows = .ok (due, e') ∧ e.Adds (rowsText rows) rows.length due e' := by
  induction rows generalizing e with
  | nil => exact ⟨.empty, e, rfl, Adds.refl h⟩
  | cons row rows ih =>
    obtain ⟨due, e₁, hrow, first⟩ := adds_row h row
    obtain ⟨more, e₂, hrows, others⟩ := ih first.ready
    refine ⟨due ++ more, e₂, by simp only [addRows, hrow, hrows], ?_⟩
    have both := first.trans others
    rwa [← rowsText_append, List.singleton_append, Nat.add_comm] at both

/-- A flush adds no row, and leaves nothing behind. -/
theorem adds_flush (h : e.Ready) : e.Adds [] 0 e.flush.1 e.flush.2 where
  bytes := by simp [flush, kept, Csv.Writer.flush, Csv.Writer.kept]
  rows := rfl
  ready := h

@[simp] theorem kept_flush (e : Emitter) : e.flush.2.kept = .empty := by
  simp [flush, kept, Csv.Writer.flush, Csv.Writer.kept]

theorem ready_new : ({} : Emitter).Ready := rfl

@[simp] theorem kept_new : ({} : Emitter).kept = .empty := by
  simp [kept, Csv.Writer.kept]

end Emitter

/-- A diagnostic is the header row and the row for the text. -/
theorem diagnostic_eq (content : String) :
    diagnostic content = .ok (rowsText [Row.header, Row.invalid content]).utf8Encode := by
  obtain ⟨first, e₁, hheader, adds₁⟩ := Emitter.adds_header Emitter.ready_new
  obtain ⟨second, e₂, hrow, adds₂⟩ := Emitter.adds_row adds₁.ready (Row.invalid content)
  have bytes := ((adds₁.trans adds₂).trans (Emitter.adds_flush adds₂.ready)).bytes
  have pair : rowsText [Row.header, Row.invalid content] =
      rowsText [Row.header] ++ rowsText [Row.invalid content] := rowsText_append [_] [_]
  rw [Emitter.kept_flush, Emitter.kept_new, ByteArray.append_empty, ByteArray.empty_append,
    List.append_nil, ← pair] at bytes
  rw [diagnostic, hheader]
  dsimp only [Except.bind]
  rw [hrow]
  dsimp only [Except.map]
  rw [bytes]

/-! ## Sessions -/

namespace Emitter

/-- What may be done with an emitter after the header row. -/
inductive Step
  | row (row : Row)
  | flush
  deriving Inhabited

/-- The row that a step writes. -/
def Step.row? : Step → Option Row
  | .row r => some r
  | .flush => none

/-- Takes a step. -/
def step (e : Emitter) : Step → Except Csv.Cause (ByteArray × Emitter)
  | .row r => e.row r
  | .flush => .ok e.flush

/-- Takes steps in order. -/
def steps (e : Emitter) : List Step → Except Csv.Cause (ByteArray × Emitter)
  | [] => .ok (.empty, e)
  | s :: rest =>
    match e.step s with
    | .error cause => .error cause
    | .ok (due, e) =>
      match e.steps rest with
      | .error cause => .error cause
      | .ok (more, e) => .ok (due ++ more, e)

/-- Flushes a new emitter `before` times, writes the header row, takes steps and flushes at the end.
Returns all that was handed on. -/
def session (before : Nat) (taken : List Step) : Except Csv.Cause (ByteArray × Emitter) := do
  let (first, e) ← ({} : Emitter).steps (List.replicate before .flush)
  let (second, e) ← e.header
  let (third, e) ← e.steps taken
  return (first ++ second ++ third ++ e.flush.1, e.flush.2)

theorem adds_step {e : Emitter} (h : e.Ready) (s : Step) :
    ∃ due e', e.step s = .ok (due, e') ∧
      e.Adds (rowsText s.row?.toList) s.row?.toList.length due e' := by
  cases s with
  | row r => exact adds_row h r
  | flush => exact ⟨_, _, rfl, adds_flush h⟩

theorem adds_steps {e : Emitter} (h : e.Ready) (taken : List Step) :
    ∃ due e', e.steps taken = .ok (due, e') ∧
      e.Adds (rowsText (taken.filterMap Step.row?)) (taken.filterMap Step.row?).length due e' := by
  induction taken generalizing e with
  | nil => exact ⟨.empty, e, rfl, Adds.refl h⟩
  | cons s taken ih =>
    obtain ⟨due, e₁, hstep, first⟩ := adds_step h s
    obtain ⟨more, e₂, hsteps, others⟩ := ih first.ready
    have split : (s :: taken).filterMap Step.row? =
        s.row?.toList ++ taken.filterMap Step.row? := by
      cases s <;> rfl
    refine ⟨due ++ more, e₂, by simp only [steps, hstep, hsteps], ?_⟩
    rw [split, rowsText_append, List.length_append]
    exact first.trans others

/-- A session never fails, and hands on the header row and the rows it was given. -/
theorem session_eq (before : Nat) (taken : List Step) :
    ∃ e, session before taken =
        .ok ((rowsText (Row.header :: taken.filterMap Step.row?)).utf8Encode, e) ∧
      e.rows = (taken.filterMap Step.row?).length := by
  obtain ⟨first, e₁, hfirst, adds₁⟩ := adds_steps ready_new (List.replicate before .flush)
  obtain ⟨second, e₂, hsecond, adds₂⟩ := adds_header adds₁.ready
  obtain ⟨third, e₃, hthird, adds₃⟩ := adds_steps adds₂.ready taken
  have none : (List.replicate before Step.flush).filterMap Step.row? = [] := by
    simp [List.filterMap_eq_nil_iff, List.mem_replicate, Step.row?]
  rw [none] at adds₁
  have all := ((adds₁.trans adds₂).trans adds₃).trans (adds_flush adds₃.ready)
  have bytes := all.bytes
  rw [kept_flush, kept_new, ByteArray.append_empty, ByteArray.empty_append, List.append_nil,
    ← rowsText_append, ← rowsText_append] at bytes
  refine ⟨e₃.flush.2, ?_, ?_⟩
  · simp only [session, hfirst, hsecond, hthird, bind, Except.bind, bytes]
    rfl
  · rw [all.rows]
    simp

end Emitter

/-! ## Nothing is lost -/

theorem data_rowsText (rows : List Row) :
    (rowsText rows).utf8Encode.data.toList = Csv.tableBytes (rows.map Row.values) := by
  rw [Csv.toList_utf8Encode, Csv.tableBytes, List.flatMap_map, rowsText, Csv.utf8,
    List.flatMap_assoc]
  rfl

/-- The header row does not begin with a byte order mark. -/
theorem dropMark_tableBytes_header (records : List (List String)) :
    Client.dropMark (Csv.tableBytes (Row.header.values :: records)) =
      Csv.tableBytes (Row.header.values :: records) :=
  rfl

/-- The text of the header row and rows reads as their values. -/
theorem readTable?_rowsText (rows : List Row) :
    Csv.readTable? (rowsText (Row.header :: rows)).utf8Encode.data.toList =
      some (Row.header.values :: rows.map Row.values) := by
  have width : ∀ record ∈ Row.header.values :: rows.map Row.values, record.length = 82 := by
    rw [← List.map_cons]
    intro record hrecord
    obtain ⟨row, -, rfl⟩ := List.mem_map.1 hrecord
    exact row.length_values
  rw [data_rowsText, List.map_cons]
  exact Csv.readTable?_tableBytes (by decide) width (dropMark_tableBytes_header _)

/-- A session with any rows and any flushes succeeds and counts the rows. What it hands on reads as
the header row and then the rows in order, with a field for each of the eighty-two columns. -/
theorem session_lossless (before : Nat) (taken : List Emitter.Step) :
    ∃ bytes e, Emitter.session before taken = .ok (bytes, e) ∧
      e.rows = (taken.filterMap Emitter.Step.row?).length ∧
      Csv.readTable? bytes.data.toList =
        some (Row.header.values :: (taken.filterMap Emitter.Step.row?).map Row.values) ∧
      ∀ row ∈ Row.header :: taken.filterMap Emitter.Step.row?, row.values.length = 82 := by
  obtain ⟨e, hsession, count⟩ := Emitter.session_eq before taken
  exact ⟨_, e, hsession, count, readTable?_rowsText _, fun row _ => row.length_values⟩

end MifirReport.Table
