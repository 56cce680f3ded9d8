import MifirReport.Client.Table
import MifirReport.Csv.Reading
import Mathlib.Tactic.SplitIfs

/-!
# Reading back what was written

A table is written in characters and read in bytes. A byte of a character means in a table what the
character means (`Symbol.ofByte_eq_ofChar`), since the characters that count are ASCII and no other
character has an ASCII byte. So the bytes of a field, plain or quoted, lead the reader from the
start of the field to a place where the field may end, with the bytes of the field behind it
(`readFrom_encodeField`). The line of a record is read as its fields by any byte that ends a line
(`read?_lineBytes`), so a record that is followed by anything at all is read as its fields and
leaves what follows (`read?_encodeRecord`).

`readTable?` reads all records of a table by the rules for a table without a header row : every
field is UTF-8, and all records are as long as the first. It reads back the records that a table was
written from (`readTable?_tableBytes`).
-/

namespace MifirReport.Csv

/-! ## The bytes of characters -/

/-- The bytes of a text. -/
def utf8 (cs : List Char) : List UInt8 :=
  cs.flatMap String.utf8EncodeChar

@[simp] theorem utf8_nil : utf8 [] = [] := rfl

@[simp] theorem utf8_cons (c : Char) (cs : List Char) :
    utf8 (c :: cs) = String.utf8EncodeChar c ++ utf8 cs := rfl

@[simp] theorem utf8_append (as bs : List Char) : utf8 (as ++ bs) = utf8 as ++ utf8 bs :=
  List.flatMap_append

theorem toList_utf8Encode (cs : List Char) : cs.utf8Encode.data.toList = utf8 cs :=
  List.toList_data_toByteArray

/-- The bytes of a text read as the text. -/
theorem fieldText?_utf8 (s : String) : Client.fieldText? (utf8 s.toList) = some s := by
  have bytes : (⟨(utf8 s.toList).toArray⟩ : ByteArray) = s.toByteArray := by
    rw [← String.utf8Encode_toList, ← toList_utf8Encode]
  rw [Client.fieldText?, bytes]
  exact dif_pos s.isValidUTF8

/-- An ASCII character is its own byte, and any other character has bytes above ASCII only. -/
theorem mem_utf8EncodeChar {c : Char} {b : UInt8} (h : b ∈ String.utf8EncodeChar c) :
    (c.toNat < 128 ∧ b = UInt8.ofNat c.toNat) ∨ (128 ≤ c.toNat ∧ 128 ≤ b.toNat) := by
  have toNat_val : c.val.toNat = c.toNat := rfl
  unfold String.utf8EncodeChar at h
  simp only [toNat_val] at h
  split at h
  · exact Or.inl ⟨by omega, List.mem_singleton.1 h⟩
  · refine Or.inr ⟨by omega, ?_⟩
    split at h
    · simp only [List.mem_cons, List.not_mem_nil, or_false] at h
      rcases h with rfl | rfl <;> simp only [UInt8.toNat_ofNat'] <;> omega
    · split at h
      · simp only [List.mem_cons, List.not_mem_nil, or_false] at h
        rcases h with rfl | rfl | rfl <;> simp only [UInt8.toNat_ofNat'] <;> omega
      · simp only [List.mem_cons, List.not_mem_nil, or_false] at h
        rcases h with rfl | rfl | rfl | rfl <;> simp only [UInt8.toNat_ofNat'] <;> omega

/-- A byte of a character means what the character means. -/
theorem Symbol.ofByte_eq_ofChar {c : Char} {b : UInt8} (h : b ∈ String.utf8EncodeChar c) :
    Symbol.ofByte b = Symbol.ofChar c := by
  have char_eq : ∀ d : Char, c = d ↔ c.toNat = d.toNat := fun d =>
    ⟨congrArg _, fun e => by rw [← Char.ofNat_toNat c, ← Char.ofNat_toNat d, e]⟩
  have byte_eq : ∀ d : UInt8, b = d ↔ b.toNat = d.toNat := fun d => UInt8.toNat_inj.symm
  simp only [Symbol.ofByte, Symbol.ofChar, char_eq, byte_eq]
  rcases mem_utf8EncodeChar h with ⟨hc, rfl⟩ | ⟨hc, hb⟩
  · rw [UInt8.toNat_ofNat', Nat.mod_eq_of_lt (by omega)]
    rfl
  · simp only [Char.reduceToNat, UInt8.reduceToNat]
    rw [if_neg (by omega), if_neg (by omega), if_neg (by omega), if_neg (by omega),
      if_neg (by omega), if_neg (by omega)]

theorem Symbol.ofChar_eq_quote {c : Char} : Symbol.ofChar c = .quote ↔ c = '"' := by
  unfold Symbol.ofChar
  refine ⟨fun h => ?_, fun h => by rw [h]; rfl⟩
  split_ifs at h with hcomma hquote
  exact hquote

/-! ## Steps of the reader -/

section Steps

variable {α : Type} {symbol : α → Symbol} {place : Place} {a : α} {run rest : List α}
  {fields : List (List α)} {field : List α}

attribute [local simp] readFrom

/-- Outside quotes a symbol without meaning goes on the field. -/
theorem readFrom_other (hplace : place ≠ .quoted) (ha : symbol a = .other) :
    readFrom symbol place fields field (a :: rest) =
      readFrom symbol .plain fields (a :: field) rest := by
  cases place <;> simp_all

/-- Outside quotes a run of symbols without meaning goes on the field. -/
theorem readFrom_plain (hplace : place ≠ .quoted) (hrun : ∀ a ∈ run, symbol a = .other)
    (hne : run ≠ []) :
    readFrom symbol place fields field (run ++ rest) =
      readFrom symbol .plain fields (run.reverse ++ field) rest := by
  induction run generalizing place field with
  | nil => exact absurd rfl hne
  | cons a run ih =>
    rw [List.cons_append, readFrom_other hplace (hrun a List.mem_cons_self)]
    cases run with
    | nil => rfl
    | cons b run =>
      rw [ih (by simp) (fun c hc => hrun c (List.mem_cons_of_mem _ hc)) (by simp)]
      simp

/-- Inside quotes everything but a quote goes on the field. -/
theorem readFrom_quoted (hrun : ∀ a ∈ run, symbol a ≠ .quote) :
    readFrom symbol .quoted fields field (run ++ rest) =
      readFrom symbol .quoted fields (run.reverse ++ field) rest := by
  induction run generalizing field with
  | nil => rfl
  | cons a run ih =>
    have ha := hrun a List.mem_cons_self
    have step : readFrom symbol .quoted fields field (a :: (run ++ rest)) =
        readFrom symbol .quoted fields (a :: field) (run ++ rest) := by
      cases hs : symbol a <;> simp_all
    rw [List.cons_append, step, ih fun c hc => hrun c (List.mem_cons_of_mem _ hc)]
    simp

/-- Two quotes inside quotes are one quote of the field. -/
theorem readFrom_quotePair (ha : symbol a = .quote) :
    readFrom symbol .quoted fields field (a :: a :: rest) =
      readFrom symbol .quoted fields (a :: field) rest := by
  simp [ha]

/-- A quote begins a quoted field. -/
theorem readFrom_openQuote (hplace : place = .recordStart ∨ place = .fieldStart)
    (ha : symbol a = .quote) :
    readFrom symbol place fields field (a :: rest) = readFrom symbol .quoted fields field rest := by
  rcases hplace with rfl | rfl <;> simp [ha]

/-- A quote ends a quoted field. -/
theorem readFrom_closeQuote (ha : symbol a = .quote) :
    readFrom symbol .quoted fields field (a :: rest) =
      readFrom symbol .afterQuote fields field rest := by
  simp [ha]

/-- A comma outside quotes ends a field. -/
theorem readFrom_comma (hplace : place ≠ .quoted) (ha : symbol a = .comma) :
    readFrom symbol place fields field (a :: rest) =
      readFrom symbol .fieldStart (field.reverse :: fields) [] rest := by
  cases place <;> simp_all

/-- A line end outside quotes ends a record that has begun. -/
theorem readFrom_lineEnd (hplace : place ≠ .quoted) (hstart : place ≠ .recordStart)
    (ha : symbol a = .lineEnd) :
    readFrom symbol place fields field (a :: rest) =
      some ((field.reverse :: fields).reverse, rest) := by
  cases place <;> simp_all

end Steps

/-! ## Fields -/

/-- The bytes of pieces. -/
def piecesBytes (pieces : List Piece) : List UInt8 :=
  utf8 (pieces.flatMap Piece.chars)

@[simp] theorem piecesBytes_append (ps qs : List Piece) :
    piecesBytes (ps ++ qs) = piecesBytes ps ++ piecesBytes qs := by
  simp [piecesBytes]

theorem piecesBytes_cons (p : Piece) (ps : List Piece) :
    piecesBytes (p :: ps) = utf8 p.chars ++ piecesBytes ps := by
  simp [piecesBytes]

theorem piecesBytes_map_char (cs : List Char) : piecesBytes (cs.map .char) = utf8 cs := by
  induction cs with
  | nil => rfl
  | cons c cs ih => rw [List.map_cons, piecesBytes_cons, ih]; simp [Piece.chars]

/-- The inside of a quoted field, in pieces. -/
def quotedBody (field : List Char) : List Piece :=
  field.map fun c => if c = '"' then .quotePair else .char c

/-- The inside of a quoted field goes on the field as it was before it was written. -/
theorem readFrom_quotedBody (cs : List Char) (fields : List (List UInt8))
    (field rest : List UInt8) :
    readFrom .ofByte .quoted fields field (piecesBytes (quotedBody cs) ++ rest) =
      readFrom .ofByte .quoted fields ((utf8 cs).reverse ++ field) rest := by
  induction cs generalizing field with
  | nil => rfl
  | cons c cs ih =>
    rw [quotedBody, List.map_cons, piecesBytes_cons, List.append_assoc, ← quotedBody]
    by_cases hc : c = '"'
    · subst hc
      have pair : utf8 Piece.quotePair.chars = [0x22, 0x22] := rfl
      have quote : utf8 ('"' :: cs) = 0x22 :: utf8 cs := rfl
      rw [if_pos rfl, pair, List.cons_append, List.cons_append, List.nil_append,
        readFrom_quotePair rfl, ih, quote]
      simp
    · have plain : ∀ b ∈ String.utf8EncodeChar c, Symbol.ofByte b ≠ .quote := fun b hb h =>
        hc (Symbol.ofChar_eq_quote.1 (Symbol.ofByte_eq_ofChar hb ▸ h))
      rw [if_neg hc]
      simp only [Piece.chars, utf8_cons, utf8_nil, List.append_nil]
      rw [readFrom_quoted plain, ih]
      simp

/-- A field as it is written leads from the start of a field to a place where it may end. That place
is still the start of the record only if nothing was written. -/
theorem readFrom_encodeField (cs : List Char) {place : Place}
    (hplace : place = .recordStart ∨ place = .fieldStart) :
    ∃ after, after ≠ .quoted ∧ (after = .recordStart → place = .recordStart ∧ cs = []) ∧
      ∀ fields rest, readFrom .ofByte place fields [] (piecesBytes (fieldPieces cs) ++ rest) =
        readFrom .ofByte after fields (utf8 cs).reverse rest := by
  have unquoted : place ≠ .quoted := by rcases hplace with rfl | rfl <;> decide
  unfold fieldPieces
  split_ifs with hplain
  · rw [piecesBytes_map_char]
    cases cs with
    | nil => exact ⟨place, unquoted, fun h => ⟨h, rfl⟩, fun _ _ => rfl⟩
    | cons c cs =>
      refine ⟨.plain, by decide, by simp, fun fields rest => ?_⟩
      have other : ∀ b ∈ utf8 (c :: cs), Symbol.ofByte b = .other := by
        intro b hb
        obtain ⟨d, hd, hbd⟩ := List.mem_flatMap.1 hb
        rw [Symbol.ofByte_eq_ofChar hbd]
        simpa using List.all_eq_true.1 hplain d hd
      have ne : utf8 (c :: cs) ≠ [] := by simp [String.utf8EncodeChar_ne_nil]
      rw [readFrom_plain unquoted other ne, List.append_nil]
  · refine ⟨.afterQuote, by decide, by simp, fun fields rest => ?_⟩
    have bytes : piecesBytes (quoted cs) = 0x22 :: (piecesBytes (quotedBody cs) ++ [0x22]) := by
      rw [quoted, List.cons_append, piecesBytes_cons, piecesBytes_append]
      rfl
    rw [bytes, List.cons_append, readFrom_openQuote hplace rfl, List.append_assoc,
      readFrom_quotedBody, List.append_nil]
    exact readFrom_closeQuote rfl

/-! ## Records -/

/-- The line of a record is read as its fields. A line with nothing on it would be skipped. -/
theorem readFrom_line (cs : List Char) (more : List (List Char)) {place : Place}
    (hplace : place = .recordStart ∨ place = .fieldStart)
    (hline : place = .recordStart → cs :: more ≠ [[]]) (fields : List (List UInt8)) {b : UInt8}
    (hb : Symbol.ofByte b = .lineEnd) (rest : List UInt8) :
    readFrom .ofByte place fields []
        (piecesBytes ([Piece.char ','].intercalate ((cs :: more).map fieldPieces)) ++ b :: rest) =
      some (fields.reverse ++ (cs :: more).map utf8, rest) := by
  induction more generalizing cs place fields with
  | nil =>
    obtain ⟨after, unquoted, hafter, hread⟩ := readFrom_encodeField cs hplace
    have begun : after ≠ .recordStart := fun h => hline (hafter h).1 (by rw [(hafter h).2])
    rw [List.map_singleton, List.intercalate_singleton, hread,
      readFrom_lineEnd unquoted begun hb]
    simp
  | cons ds more ih =>
    obtain ⟨after, unquoted, -, hread⟩ := readFrom_encodeField cs hplace
    have comma : piecesBytes [Piece.char ','] = [0x2C] := rfl
    rw [List.map_cons, List.map_cons, List.intercalate_cons_cons, ← List.map_cons,
      piecesBytes_append, piecesBytes_append, comma, List.append_assoc, List.append_assoc, hread,
      List.cons_append, readFrom_comma unquoted rfl, List.nil_append,
      ih ds (Or.inr rfl) (by simp)]
    simp

/-- The bytes of a record as it is written. -/
def recordBytes (fields : List (List Char)) : List UInt8 :=
  utf8 (encodeRecord fields)

theorem intercalate_fieldPieces_eq_nil {cs : List Char} {more : List (List Char)}
    (h : [Piece.char ','].intercalate ((cs :: more).map fieldPieces) = []) : cs :: more = [[]] := by
  cases more with
  | nil =>
    rw [List.map_singleton, List.intercalate_singleton] at h
    unfold fieldPieces quoted at h
    split_ifs at h with hplain
    · simpa using h
    · simp at h
  | cons ds more =>
    rw [List.map_cons, List.map_cons, List.intercalate_cons_cons] at h
    simp at h

/-- The pieces of a record without the line feed at its end. -/
def linePieces (fields : List (List Char)) : List Piece :=
  let line := [Piece.char ','].intercalate (fields.map fieldPieces)
  if line.isEmpty then [.quotePair] else line

theorem recordPieces_eq (fields : List (List Char)) :
    recordPieces fields = linePieces fields ++ [.char '\n'] :=
  rfl

/-- The bytes of a record without the line feed at its end. -/
def lineBytes (fields : List (List Char)) : List UInt8 :=
  piecesBytes (linePieces fields)

theorem recordBytes_eq (fields : List (List Char)) :
    recordBytes fields = lineBytes fields ++ [0x0A] := by
  rw [recordBytes, encodeRecord, ← piecesBytes, recordPieces_eq, piecesBytes_append]
  rfl

/-- The line of a record is read as its fields, whatever byte ends it and whatever follows. -/
theorem read?_lineBytes {fields : List (List Char)} (hne : fields ≠ []) {b : UInt8}
    (hb : Symbol.ofByte b = .lineEnd) (rest : List UInt8) :
    read? .ofByte (lineBytes fields ++ b :: rest) = some (fields.map utf8, rest) := by
  obtain ⟨cs, more, rfl⟩ := List.exists_cons_of_ne_nil hne
  rw [read?]
  by_cases hempty : cs :: more = [[]]
  · have hpair : lineBytes [[]] = [0x22, 0x22] := rfl
    have hquote : Symbol.ofByte 0x22 = .quote := rfl
    rw [hempty, hpair, List.cons_append, readFrom_openQuote (Or.inl rfl) hquote, List.cons_append,
      readFrom_closeQuote hquote, List.nil_append, readFrom_lineEnd (by decide) (by decide) hb]
    rfl
  · have written : ¬([Piece.char ','].intercalate ((cs :: more).map fieldPieces)).isEmpty = true :=
      fun h => hempty (intercalate_fieldPieces_eq_nil (List.isEmpty_iff.1 h))
    rw [lineBytes, linePieces, if_neg written,
      readFrom_line cs more (Or.inl rfl) (fun _ => hempty) [] hb]
    rfl

/-- A record is read as its fields, whatever follows it. -/
theorem read?_encodeRecord {fields : List (List Char)} (hne : fields ≠ []) (rest : List UInt8) :
    read? .ofByte (recordBytes fields ++ rest) = some (fields.map utf8, rest) := by
  rw [recordBytes_eq, List.append_assoc]
  exact read?_lineBytes hne rfl rest

/-! ## Tables -/

theorem length_lt_of_readFrom {α : Type} {symbol : α → Symbol} {place : Place}
    {fields record : List (List α)} {field table rest : List α}
    (h : readFrom symbol place fields field table = some (record, rest)) :
    rest.length < table.length ∨ table = [] ∧ place ≠ .recordStart := by
  induction table generalizing place fields field with
  | nil =>
    by_cases hp : place = .recordStart
    · simp [readFrom, hp] at h
    · exact Or.inr ⟨rfl, hp⟩
  | cons a table ih =>
    refine Or.inl ?_
    have later : ∀ {p fs f}, readFrom symbol p fs f table = some (record, rest) →
        rest.length < (a :: table).length := by
      intro p fs f h'
      rcases ih h' with h' | ⟨rfl, -⟩
      · exact Nat.lt_succ_of_lt h'
      · by_cases hp : p = .recordStart
        · simp [readFrom, hp] at h'
        · simp only [readFrom, if_neg hp, Option.some.injEq, Prod.mk.injEq] at h'
          simp [← h'.2]
    unfold readFrom at h
    split at h
    all_goals first
      | exact later h
      | (simp only [Option.some.injEq, Prod.mk.injEq] at h
         rw [← h.2]
         exact Nat.lt_succ_self _)

/-- A record takes at least one symbol. -/
theorem length_lt_of_read? {α : Type} {symbol : α → Symbol} {table rest : List α}
    {record : List (List α)} (h : read? symbol table = some (record, rest)) :
    rest.length < table.length := by
  rcases length_lt_of_readFrom h with h | ⟨-, h⟩
  · exact h
  · exact absurd rfl h

/-- All records of a table, in order. -/
def readAll {α : Type} (symbol : α → Symbol) (table : List α) : List (List (List α)) :=
  match _h : read? symbol table with
  | none => []
  | some (record, rest) => record :: readAll symbol rest
termination_by table.length
decreasing_by exact length_lt_of_read? _h

theorem readAll_of_none {α : Type} {symbol : α → Symbol} {table : List α}
    (h : read? symbol table = none) : readAll symbol table = [] := by
  rw [readAll]
  split <;> simp_all

theorem readAll_of_some {α : Type} {symbol : α → Symbol} {table rest : List α}
    {record : List (List α)} (h : read? symbol table = some (record, rest)) :
    readAll symbol table = record :: readAll symbol rest := by
  rw [readAll]
  split <;> simp_all

/-- Reads a table without a header row. The bytes may begin with a byte order mark, and they are no
table if a field is not UTF-8 or a record is longer or shorter than the first. -/
def readTable? (table : List UInt8) : Option (List (List String)) :=
  let records := readAll .ofByte (Client.dropMark table)
  if records.all (·.length = (records.headD []).length) then
    records.mapM (·.mapM Client.fieldText?)
  else none

/-- The bytes of a table whose records are given. -/
def tableBytes (records : List (List String)) : List UInt8 :=
  records.flatMap fun record => recordBytes (record.map String.toList)

theorem readAll_tableBytes {records : List (List String)} (hne : [] ∉ records) :
    readAll .ofByte (tableBytes records) = records.map (·.map fun s => utf8 s.toList) := by
  induction records with
  | nil => exact readAll_of_none rfl
  | cons record records ih =>
    have first : record.map String.toList ≠ [] := by
      intro h
      exact hne (List.map_eq_nil_iff.1 h ▸ List.mem_cons_self)
    rw [tableBytes, List.flatMap_cons, ← tableBytes,
      readAll_of_some (read?_encodeRecord first (tableBytes records)),
      ih fun h => hne (List.mem_cons_of_mem _ h), List.map_cons, List.map_map]
    rfl

theorem mapM_fieldText?_utf8 (record : List String) :
    (record.map fun s => utf8 s.toList).mapM Client.fieldText? = some record := by
  induction record with
  | nil => rfl
  | cons s record ih => simp [List.mapM_cons, fieldText?_utf8, ih]

/-- A table that does not begin with a byte order mark reads as the records it was written from. -/
theorem readTable?_tableBytes {records : List (List String)} {width : Nat} (hwidth : 0 < width)
    (hall : ∀ record ∈ records, record.length = width)
    (hmark : Client.dropMark (tableBytes records) = tableBytes records) :
    readTable? (tableBytes records) = some records := by
  have hne : [] ∉ records := fun h => by
    have := hall [] h
    simp at this
    omega
  have texts : (records.map (·.map fun s => utf8 s.toList)).mapM
      (·.mapM Client.fieldText?) = some records := by
    clear hall hmark hne
    induction records with
    | nil => rfl
    | cons record records ih =>
      rw [List.map_cons, List.mapM_cons, mapM_fieldText?_utf8, ih]
      rfl
  rw [readTable?, hmark, readAll_tableBytes hne, if_pos, texts]
  cases records with
  | nil => rfl
  | cons record records =>
    rw [List.all_eq_true]
    intro fields hfields
    obtain ⟨r, hr, rfl⟩ := List.mem_map.1 hfields
    simp [hall r hr, hall record List.mem_cons_self]

end MifirReport.Csv
