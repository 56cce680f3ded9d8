/-!
# Times in names

The name of a generated file holds the time of the conversion: year, month and day, an underscore,
then hour, minute and second, in digits. Every part but the year has two digits. The year has four,
or more with a sign: a plus above 9999, a minus before the year zero.
-/

namespace MifirReport.Batch

/-- A local time to the second. A minute with a leap second has a second 60. -/
structure Timestamp where
  year : Int
  month : Nat
  day : Nat
  hour : Nat
  minute : Nat
  second : Nat
  inRange : month ≤ 12 ∧ day ≤ 31 ∧ hour ≤ 23 ∧ minute ≤ 59 ∧ second ≤ 60
  deriving DecidableEq, Repr

namespace Timestamp

/-- The time with given parts, if they are in range. -/
def ofParts? (year : Int) (month day hour minute second : Nat) : Option Timestamp :=
  if h : month ≤ 12 ∧ day ≤ 31 ∧ hour ≤ 23 ∧ minute ≤ 59 ∧ second ≤ 60 then
    some ⟨year, month, day, hour, minute, second, h⟩
  else none

/-- A number in at least `width` digits. -/
def padded (width n : Nat) : List Char :=
  let digits := Nat.toDigits 10 n
  List.replicate (width - digits.length) '0' ++ digits

/-- A year in digits. -/
def yearText (year : Int) : List Char :=
  if year < 0 then '-' :: padded 4 year.natAbs
  else if year > 9999 then '+' :: padded 4 year.natAbs
  else padded 4 year.natAbs

/-- A time in digits. -/
def text (t : Timestamp) : List Char :=
  yearText t.year ++ padded 2 t.month ++ padded 2 t.day ++ ['_'] ++ padded 2 t.hour ++
    padded 2 t.minute ++ padded 2 t.second

end Timestamp

end MifirReport.Batch
