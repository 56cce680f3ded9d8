import MifirReport.Csv.Record

/-!
# Reading records

A record ends at a line feed or a carriage return outside quotes, and lines that are empty are no
records. A field is quoted only if it begins with a quote; two quotes inside it stand for one, and
what follows the closing quote belongs to the field as it is. A quote that is never closed takes in
the rest of the table.
-/

namespace MifirReport.Csv

/-- Where a reader stands: before a record, before a field, in a plain field, in a quoted field, or
after a quote in a quoted field. -/
inductive Place
  | recordStart
  | fieldStart
  | plain
  | quoted
  | afterQuote
  deriving DecidableEq, Repr

/-- Reads one record: its fields and what follows. The fields so far and the symbols of the field at
hand are given in reverse. -/
def readFrom {α : Type} (symbol : α → Symbol) (place : Place) (fields : List (List α))
    (field : List α) : List α → Option (List (List α) × List α)
  | [] => if place = .recordStart then none else some ((field.reverse :: fields).reverse, [])
  | a :: rest =>
    match place, symbol a with
    | .recordStart, .lineEnd => readFrom symbol .recordStart fields field rest
    | .recordStart, .quote => readFrom symbol .quoted fields field rest
    | .fieldStart, .quote => readFrom symbol .quoted fields field rest
    | .quoted, .quote => readFrom symbol .afterQuote fields field rest
    | .quoted, _ => readFrom symbol .quoted fields (a :: field) rest
    | .afterQuote, .quote => readFrom symbol .quoted fields (a :: field) rest
    | _, .comma => readFrom symbol .fieldStart (field.reverse :: fields) [] rest
    | _, .lineEnd => some ((field.reverse :: fields).reverse, rest)
    | _, _ => readFrom symbol .plain fields (a :: field) rest

/-- The first record of a table and what follows it. -/
def read? {α : Type} (symbol : α → Symbol) (table : List α) :
    Option (List (List α) × List α) :=
  readFrom symbol .recordStart [] [] table

end MifirReport.Csv
