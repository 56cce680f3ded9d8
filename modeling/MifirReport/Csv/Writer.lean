import MifirReport.Csv.Record
import MifirReport.Files.Cause

/-!
# Writing records

A `Writer` collects records and hands them on in blocks, so that each step returns the bytes that
are due and keeps the others back: `flush` returns those too. A block ends when the next part of a
record does not fit, so that it is full unless a pair of quotes comes next. A full block is handed
on, and one that is a byte short is held until the next block ends. All records of a table have as
many fields as the first; `Writer.record` refuses another number.

Wherever the blocks end, no byte is lost or moved (`put_kept`, `putAll_kept`), and the number of
fields stays (`putAll_width`).
-/

namespace MifirReport.Csv

/-- The causes for which a table cannot be written or read. -/
inductive Cause
  | file (cause : Files.Cause)
  | unequalLengths (expected found : Nat)
  | notUtf8 (field validBytes : Nat)
  deriving DecidableEq, Repr

/-- The wording of a cause. The position is that of the first record. -/
def Cause.message : Cause → String
  | file cause => cause.message
  | unequalLengths expected found =>
    "found record with " ++ toString found ++ " fields, but the previous record has " ++
      toString expected ++ " fields"
  | notUtf8 field validBytes =>
    "CSV parse error: record 0 (line 1, field: " ++ toString field ++
      ", byte: 0): invalid utf-8: invalid UTF-8 in field " ++ toString field ++
      " near byte index " ++ toString validBytes

/-- What is kept back, and the number of fields of the first record: the block that is being filled,
and before it a block that ended early, if there is one. -/
structure Writer where
  held : ByteArray := .empty
  block : ByteArray := .empty
  width : Option Nat := none

namespace Writer

/-- The number of bytes in a block. -/
def blockSize : Nat := 8192

/-- The bytes that are kept back. -/
def kept (writer : Writer) : ByteArray := writer.held ++ writer.block

/-- Ends a block. A full one is due with what is held, and one that ends early is held itself. -/
def endBlock (writer : Writer) : ByteArray × Writer :=
  if writer.block.size = blockSize then
    (writer.kept, { writer with held := .empty, block := .empty })
  else (writer.held, { writer with held := writer.block, block := .empty })

/-- Takes a part in. A block ends when the part that follows does not fit. -/
def put (writer : Writer) (part : ByteArray) : ByteArray × Writer :=
  if writer.block.size + part.size ≤ blockSize then
    (.empty, { writer with block := writer.block ++ part })
  else
    let (due, writer) := writer.endBlock
    (due, { writer with block := part })

/-- Takes parts in, with the bytes that are due already. -/
def putAll (due : ByteArray) (writer : Writer) : List ByteArray → ByteArray × Writer
  | [] => (due, writer)
  | part :: parts =>
    let (more, writer) := writer.put part
    putAll (due ++ more) writer parts

/-- Takes a record in and returns the bytes that are due. -/
def record (writer : Writer) (fields : List String) : Except Cause (ByteArray × Writer) :=
  let width := writer.width.getD fields.length
  if fields.length = width then
    .ok (putAll .empty { writer with width := some width }
      ((recordPieces (fields.map String.toList)).flatMap Piece.parts))
  else .error (.unequalLengths width fields.length)

/-- Returns all bytes that were kept back. -/
def flush (writer : Writer) : ByteArray × Writer :=
  (writer.kept, { writer with held := .empty, block := .empty })

/-! ## Nothing is lost -/

theorem endBlock_block (writer : Writer) : writer.endBlock.2.block = .empty := by
  unfold endBlock
  split <;> rfl

/-- A block that ends loses no byte, whether it is due or held. -/
theorem endBlock_kept (writer : Writer) :
    writer.endBlock.1 ++ writer.endBlock.2.kept = writer.kept := by
  unfold endBlock
  split <;> simp [kept]

/-- What is due and what is kept back afterwards is what was kept back, then the part. -/
theorem put_kept (writer : Writer) (part : ByteArray) :
    (writer.put part).1 ++ (writer.put part).2.kept = writer.kept ++ part := by
  unfold put
  split
  · simp [kept, ByteArray.append_assoc]
  · have hended := writer.endBlock_kept
    rw [kept, endBlock_block, ByteArray.append_empty] at hended
    dsimp only
    rw [kept, ← ByteArray.append_assoc, hended]

theorem putAll_kept (due : ByteArray) (writer : Writer) (parts : List ByteArray) :
    (putAll due writer parts).1 ++ (putAll due writer parts).2.kept =
      due ++ writer.kept ++ parts.foldr (· ++ ·) .empty := by
  induction parts generalizing due writer with
  | nil => simp [putAll]
  | cons part parts ih =>
    rw [putAll, ih, List.foldr_cons, ByteArray.append_assoc (a := due), put_kept]
    simp [ByteArray.append_assoc]

/-! ## The number of fields stays -/

theorem endBlock_width (writer : Writer) : writer.endBlock.2.width = writer.width := by
  unfold endBlock
  split <;> rfl

/-- A part is not the end of a record. -/
theorem put_width (writer : Writer) (part : ByteArray) :
    (writer.put part).2.width = writer.width := by
  unfold put
  split
  · rfl
  · exact writer.endBlock_width

/-- Parts do not change the number of fields that a record has. -/
theorem putAll_width (due : ByteArray) (writer : Writer) (parts : List ByteArray) :
    (putAll due writer parts).2.width = writer.width := by
  induction parts generalizing due writer with
  | nil => rfl
  | cons part parts ih => rw [putAll, ih, put_width]

end Writer

end MifirReport.Csv
