import MifirReport.Table.Column
import MifirReport.Text.Line

/-!
# Rows

A row gives each column a text, so that it has as many values as there are columns whatever was done
to it. A cell that repeats holds its entries in order with a bar between them.
-/

namespace MifirReport.Table

/-- A row of the output table. -/
@[ext] structure Row where
  cell : Column → String

namespace Row

/-- A row of empty cells. -/
def blank : Row := ⟨fun _ => ""⟩

/-- The header row. -/
def header : Row := ⟨Column.label⟩

/-- The entries of a cell that repeats. -/
def joined (entries : List String) : String :=
  String.intercalate "|" entries

/-- Puts a text into a cell. -/
def set (row : Row) (column : Column) (value : String) : Row :=
  ⟨fun c => if c = column then value else row.cell c⟩

/-- Puts entries into a cell. -/
def setList (row : Row) (column : Column) (entries : List String) : Row :=
  row.set column (joined entries)

/-- The word in the first cell of a diagnostic. -/
def invalidMark : String := "INVALID_XML"

/-- The diagnostic for a text that is not a report: the mark, then the text on one line. -/
def invalid (content : String) : Row :=
  (blank.set (.detail .status) invalidMark).set (.detail .reference)
    (String.ofList (Text.collapse content.toList))

/-- The values in the order of the columns. -/
def values (row : Row) : List String :=
  Column.all.map row.cell

/-- The columns with a value that is not empty, in order. -/
def populated (row : Row) : List Column :=
  Column.all.filter fun column => row.cell column ≠ ""

instance : BEq Row := ⟨fun a b => a.values == b.values⟩

theorem length_values (row : Row) : row.values.length = 82 := by
  simp [values, Column.length_all]

theorem ext_values {a b : Row} (h : a.values = b.values) : a = b :=
  Row.ext (funext fun column => List.map_inj_left.1 h column (Column.mem_all column))

end Row

end MifirReport.Table
