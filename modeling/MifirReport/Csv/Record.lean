/-!
# Records as text

A record is a list of fields on a line, with commas between them. A field is quoted if it holds a
comma, a quote, a carriage return or a line feed, and a quote inside it is written twice. A record
that would be an empty line is written as a pair of quotes. A table that is written in blocks is cut
anywhere, even inside a character, but not inside such a pair, and so a record comes in pieces first
(`recordPieces`) and as a text after that (`encodeRecord`).

`Symbol` sorts what a table is written in, be it characters or bytes, by what it means there.
-/

namespace MifirReport.Csv

/-- What a character or a byte means in a table. -/
inductive Symbol
  | comma
  | quote
  | lineEnd
  | other
  deriving DecidableEq, Repr

def Symbol.ofChar (c : Char) : Symbol :=
  if c = ',' then .comma
  else if c = '"' then .quote
  else if c = '\n' ∨ c = '\r' then .lineEnd
  else .other

def Symbol.ofByte (b : UInt8) : Symbol :=
  if b = 0x2C then .comma
  else if b = 0x22 then .quote
  else if b = 0x0A ∨ b = 0x0D then .lineEnd
  else .other

/-! ## Pieces -/

/-- What a table is put together from: characters, and pairs of quotes, which are not separated. -/
inductive Piece
  | char (c : Char)
  | quotePair
  deriving DecidableEq, Repr

/-- The characters of a piece. -/
def Piece.chars : Piece → List Char
  | char c => [c]
  | quotePair => ['"', '"']

/-- The bytes of a piece, in the parts between which it can be cut. -/
def Piece.parts : Piece → List ByteArray
  | char c => (String.utf8EncodeChar c).map fun b => [b].toByteArray
  | quotePair => [[0x22, 0x22].toByteArray]

/-- A field between quotes. -/
def quoted (field : List Char) : List Piece :=
  .char '"' :: field.map (fun c => if c = '"' then .quotePair else .char c) ++ [.char '"']

/-- A field in pieces. -/
def fieldPieces (field : List Char) : List Piece :=
  if field.all (Symbol.ofChar · = .other) then field.map .char else quoted field

/-- A record in pieces, with the end of its line. -/
def recordPieces (fields : List (List Char)) : List Piece :=
  let line := [Piece.char ','].intercalate (fields.map fieldPieces)
  (if line.isEmpty then [.quotePair] else line) ++ [.char '\n']

/-! ## Text -/

/-- A field as it is written. -/
def encodeField (field : List Char) : List Char :=
  (fieldPieces field).flatMap Piece.chars

/-- A record as it is written. -/
def encodeRecord (fields : List (List Char)) : List Char :=
  (recordPieces fields).flatMap Piece.chars

/-! ## Parts put together -/

theorem foldr_singletons (bytes : List UInt8) :
    (bytes.map fun b => [b].toByteArray).foldr (· ++ ·) .empty = bytes.toByteArray := by
  induction bytes with
  | nil => rfl
  | cons b bytes ih =>
    rw [List.map_cons, List.foldr_cons, ih, ← List.toByteArray_append]
    rfl

/-- Parts in front of some bytes are put together on their own. -/
theorem foldr_parts (parts : List ByteArray) (bytes : ByteArray) :
    parts.foldr (· ++ ·) bytes = parts.foldr (· ++ ·) .empty ++ bytes := by
  induction parts with
  | nil => rw [List.foldr_nil, List.foldr_nil, ByteArray.empty_append]
  | cons part parts ih => rw [List.foldr_cons, ih, List.foldr_cons, ByteArray.append_assoc]

/-- The parts of a piece make up its characters. -/
theorem Piece.flatten_parts (piece : Piece) :
    piece.parts.foldr (· ++ ·) .empty = piece.chars.utf8Encode := by
  cases piece with
  | quotePair => rfl
  | char c => simp [parts, chars, foldr_singletons, List.utf8Encode_singleton]

/-- The parts of pieces make up their characters. -/
theorem flatten_flatMap_parts (pieces : List Piece) :
    (pieces.flatMap Piece.parts).foldr (· ++ ·) .empty =
      (pieces.flatMap Piece.chars).utf8Encode := by
  induction pieces with
  | nil => rfl
  | cons piece pieces ih =>
    rw [List.flatMap_cons, List.foldr_append, foldr_parts, ih, Piece.flatten_parts,
      List.flatMap_cons, List.utf8Encode_append]

end MifirReport.Csv
