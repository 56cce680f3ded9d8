import MifirReport.Csv.Writer
import MifirReport.Table.Row

/-!
# Emitting rows

An `Emitter` writes rows as records and counts the data rows. Like the writer below it, each step
returns the bytes that are due. `diagnostic` is the whole text of the table that stands for an
unreadable document: the header row and the row that holds the document on one line.
-/

namespace MifirReport.Table

/-- A writer of rows with the number of data rows written so far. -/
structure Emitter where
  writer : Csv.Writer := {}
  rows : Nat := 0

namespace Emitter

/-- Writes the header row. -/
def header (emitter : Emitter) : Except Csv.Cause (ByteArray × Emitter) :=
  (emitter.writer.record Row.header.values).map fun (due, writer) => (due, { emitter with writer })

/-- Writes a data row. -/
def row (emitter : Emitter) (row : Row) : Except Csv.Cause (ByteArray × Emitter) :=
  (emitter.writer.record row.values).map fun (due, writer) =>
    (due, { writer, rows := emitter.rows + 1 })

/-- Writes data rows in order. -/
def addRows (emitter : Emitter) : List Row → Except Csv.Cause (ByteArray × Emitter)
  | [] => .ok (.empty, emitter)
  | r :: rows =>
    match emitter.row r with
    | .error cause => .error cause
    | .ok (due, emitter) =>
      match emitter.addRows rows with
      | .error cause => .error cause
      | .ok (more, emitter) => .ok (due ++ more, emitter)

/-- Returns all bytes that were kept back. -/
def flush (emitter : Emitter) : ByteArray × Emitter :=
  let (due, writer) := emitter.writer.flush
  (due, { emitter with writer })

end Emitter

/-- The table for a text that is not a report. -/
def diagnostic (content : String) : Except Csv.Cause ByteArray :=
  ({} : Emitter).header.bind fun (first, emitter) =>
    (emitter.row (Row.invalid content)).map fun (second, emitter) =>
      first ++ second ++ emitter.flush.1

end MifirReport.Table
