import MifirReport.Error
import MifirReport.Proofs.Csv.RoundTrip
import MifirReport.Proofs.Text.Line

/-!
# What a client table says

A reader passes over empty lines (`read?_emptyLines_append`) and reads a record back whatever
follows it. So a table with empty lines before its first two records gives these records, and
nothing after them is looked at. No byte order mark is taken off a table whose first cell does not
begin with one (`dropMark_emptyLines_append`, `not_mark_isPrefix_line`). Hence the client is the
first cell of the second record, trimmed, and there is none just if there are fewer than two
records : `clientOfTable_written`.
-/

namespace MifirReport.Csv

/-! ## Empty lines -/

/-- Nothing but the ends of lines. -/
def EmptyLines (bytes : List UInt8) : Prop :=
  ∀ b ∈ bytes, Symbol.ofByte b = .lineEnd

/-- Empty lines before a record are passed over. -/
theorem read?_emptyLines_append {gap : List UInt8} (h : EmptyLines gap) (rest : List UInt8) :
    read? .ofByte (gap ++ rest) = read? .ofByte rest := by
  induction gap with
  | nil => rfl
  | cons b gap ih =>
    have hstep : read? .ofByte (b :: (gap ++ rest)) = read? .ofByte (gap ++ rest) := by
      simp [read?, readFrom, h b List.mem_cons_self]
    rw [List.cons_append, hstep, ih fun b hb => h b (List.mem_cons_of_mem _ hb)]

/-- What can end a line. -/
inductive LineEnd
  | lineFeed
  | carriageReturn
  | both

/-- The bytes that end a line. -/
def LineEnd.bytes : LineEnd → List UInt8
  | lineFeed => [0x0A]
  | carriageReturn => [0x0D]
  | both => [0x0D, 0x0A]

/-- The first byte ends the line, and if there is another, it is an empty line. -/
theorem LineEnd.exists_bytes_eq (ending : LineEnd) :
    ∃ b left, ending.bytes = b :: left ∧ Symbol.ofByte b = .lineEnd ∧ EmptyLines left := by
  cases ending with
  | lineFeed => exact ⟨0x0A, [], rfl, rfl, List.forall_mem_nil _⟩
  | carriageReturn => exact ⟨0x0D, [], rfl, rfl, List.forall_mem_nil _⟩
  | both => exact ⟨0x0D, [0x0A], rfl, rfl, List.forall_mem_singleton.2 rfl⟩

/-! ## The byte order mark -/

/-- Only the mark has the bytes of the mark. -/
theorem eq_of_mark_isPrefix {c : Char} {rest : List UInt8}
    (h : [0xEF, 0xBB, 0xBF] <+: String.utf8EncodeChar c ++ rest) : c = '\uFEFF' := by
  have hbyte : ∀ (b : UInt8) (n : Nat), b = UInt8.ofNat n → b.toNat = n % 256 := by
    rintro _ n rfl
    exact UInt8.toNat_ofNat'
  have hval : c.val.toNat = c.toNat := rfl
  unfold String.utf8EncodeChar at h
  simp only [hval] at h
  split_ifs at h <;> simp only [List.cons_append, List.cons_prefix_cons] at h
  · have hfirst := hbyte _ _ h.1
    simp only [UInt8.reduceToNat] at hfirst
    omega
  · have hfirst := hbyte _ _ h.1
    simp only [UInt8.reduceToNat] at hfirst
    omega
  · have hfirst := hbyte _ _ h.1
    have hsecond := hbyte _ _ h.2.1
    have hthird := hbyte _ _ h.2.2.1
    simp only [UInt8.reduceToNat] at hfirst hsecond hthird
    have hnumber : c.toNat = 0xFEFF := by omega
    rw [← Char.ofNat_toNat c, hnumber]
  · have hfirst := hbyte _ _ h.1
    simp only [UInt8.reduceToNat] at hfirst
    omega

/-- The line of a record begins as its first field does, or with a character of the format. -/
theorem exists_line_eq_cons (field : List Char) (more : List (List Char)) :
    ∃ c cs, (linePieces (field :: more)).flatMap Piece.chars = c :: cs ∧
      (field.head? = some c ∨ c = '"' ∨ c = ',') := by
  obtain ⟨after, hafter⟩ : ∃ after, [Piece.char ','].intercalate ((field :: more).map fieldPieces) =
      fieldPieces field ++ after := by
    cases more with
    | nil => exact ⟨[], by simp⟩
    | cons next more =>
      exact ⟨_, by rw [List.map_cons, List.map_cons, List.intercalate_cons_cons, List.append_assoc]⟩
  by_cases hplain : field.all (Symbol.ofChar · = .other) = true
  · cases field with
    | cons c field =>
      rw [fieldPieces, if_pos hplain] at hafter
      rw [linePieces, hafter]
      exact ⟨c, _, rfl, Or.inl rfl⟩
    | nil =>
      cases more with
      | nil => exact ⟨_, _, rfl, Or.inr (Or.inl rfl)⟩
      | cons next more =>
        rw [linePieces, List.map_cons, List.map_cons, List.intercalate_cons_cons]
        exact ⟨_, _, rfl, Or.inr (Or.inr rfl)⟩
  · rw [fieldPieces, if_neg hplain, quoted] at hafter
    rw [linePieces, hafter]
    exact ⟨_, _, rfl, Or.inr (Or.inl rfl)⟩

theorem not_mark_isPrefix_line {field : List Char} (hmark : field.head? ≠ some '\uFEFF')
    (more : List (List Char)) (rest : List UInt8) :
    ¬[0xEF, 0xBB, 0xBF] <+: lineBytes (field :: more) ++ rest := by
  intro hprefix
  obtain ⟨c, cs, hline, hc⟩ := exists_line_eq_cons field more
  rw [lineBytes, piecesBytes, hline, utf8_cons, List.append_assoc] at hprefix
  obtain rfl := eq_of_mark_isPrefix hprefix
  rcases hc with hc | hc | hc
  · exact hmark hc
  · exact absurd hc (by decide)
  · exact absurd hc (by decide)

/-- Empty lines bring no byte order mark about. -/
theorem dropMark_emptyLines_append {before rest : List UInt8} (hbefore : EmptyLines before)
    (hrest : ¬[0xEF, 0xBB, 0xBF] <+: rest) :
    Client.dropMark (before ++ rest) = before ++ rest := by
  have hnot : ¬[0xEF, 0xBB, 0xBF] <+: before ++ rest := by
    cases before with
    | nil => exact hrest
    | cons b before =>
      intro hprefix
      rw [List.cons_append, List.cons_prefix_cons] at hprefix
      have hlineEnd := hbefore b List.mem_cons_self
      rw [← hprefix.1] at hlineEnd
      exact absurd hlineEnd (by decide)
  unfold Client.dropMark
  split
  · rename_i bytes htable
    exact absurd (htable ▸ ⟨bytes, rfl⟩) hnot
  · rfl

end MifirReport.Csv

namespace MifirReport.Client

open Csv

/-! ## The client -/

theorem recordText_utf8 (number : Nat) (cells : List String) :
    recordText number (cells.map fun cell => utf8 cell.toList) = .ok cells := by
  induction cells generalizing number with
  | nil => rfl
  | cons cell cells ih =>
    rw [List.map_cons, recordText, fieldText?_utf8, ih]
    rfl

/-- Blanks around the name of a client do not matter to its mode. -/
theorem ofClient_trim (client : String) :
    ClientMode.ofClient (String.ofList (Text.trim client.toList)) = ClientMode.ofClient client := by
  rw [ClientMode.ofClient, ClientMode.ofClient, String.toList_ofList,
    (Text.trimmed_trim client.toList).trim_eq]

/-- The client is named in the first field of the second record. -/
theorem clientOfTable_of_read? {table : ByteArray} {header : List (List UInt8)}
    {rest rest' : List UInt8} {cell : String} {cells : List String}
    (hheader : read? .ofByte (dropMark table.data.toList) = some (header, rest))
    (hrow : read? .ofByte rest = some ((cell :: cells).map fun cell => utf8 cell.toList, rest')) :
    clientOfTable table = .ok (String.ofList (Text.trim cell.toList)) := by
  unfold clientOfTable
  rw [hheader]
  simp only [hrow, recordText_utf8, List.headD_cons]

/-- A data row is missing just if there is no second record. -/
theorem clientOfTable_eq_noDataRow_iff (table : ByteArray) :
    clientOfTable table = .error .noDataRow ↔
      (readAll .ofByte (dropMark table.data.toList)).length < 2 := by
  unfold clientOfTable
  cases hheader : read? .ofByte (dropMark table.data.toList) with
  | none => simp [readAll_of_none hheader]
  | some header =>
    obtain ⟨header, rest⟩ := header
    rw [readAll_of_some hheader]
    dsimp only
    cases hrow : read? .ofByte rest with
    | none => simp [readAll_of_none hrow]
    | some row =>
      obtain ⟨row, rest'⟩ := row
      rw [readAll_of_some hrow]
      dsimp only
      cases recordText 0 row <;> simp

/-- The bytes of a record of cells, however its line ends. -/
def rowBytes (record : List String) (ending : LineEnd) : List UInt8 :=
  lineBytes (record.map String.toList) ++ ending.bytes

/-- A record is read as its cells, and what is left of its ending as empty lines. -/
theorem exists_read?_rowBytes (cell : String) (cells : List String) (ending : LineEnd) :
    ∃ left, EmptyLines left ∧ ∀ rest, read? .ofByte (rowBytes (cell :: cells) ending ++ rest) =
      some ((cell :: cells).map fun cell => utf8 cell.toList, left ++ rest) := by
  obtain ⟨b, left, hending, hb, hleft⟩ := ending.exists_bytes_eq
  refine ⟨left, hleft, fun rest => ?_⟩
  rw [rowBytes, hending, List.append_assoc, List.cons_append, read?_lineBytes (by simp) hb,
    List.map_map]
  rfl

/-- The header of a table is read, whatever follows it. -/
theorem exists_read?_header {before : List UInt8} (hbefore : EmptyLines before) {label : String}
    (hmark : label.toList.head? ≠ some '\uFEFF') (labels : List String) (ending : LineEnd) :
    ∃ left, EmptyLines left ∧ ∀ rest,
      read? .ofByte (dropMark (before ++ (rowBytes (label :: labels) ending ++ rest))) =
        some ((label :: labels).map fun cell => utf8 cell.toList, left ++ rest) := by
  obtain ⟨left, hleft, hread⟩ := exists_read?_rowBytes label labels ending
  refine ⟨left, hleft, fun rest => ?_⟩
  have hmark' := not_mark_isPrefix_line hmark (labels.map String.toList) (ending.bytes ++ rest)
  rw [← List.map_cons, ← List.append_assoc, ← rowBytes] at hmark'
  rw [dropMark_emptyLines_append hbefore hmark', read?_emptyLines_append hbefore, hread]

theorem read?_emptyLines {gap : List UInt8} (h : EmptyLines gap) : read? .ofByte gap = none := by
  have hread := read?_emptyLines_append h []
  rwa [List.append_nil] at hread

/-- A table with empty lines before its first two records and any bytes after them names the client
in the first cell of the second record, trimmed, and has the mode of that cell. A table fails for
want of a data row just if it has fewer than two records, as a header between empty lines has, or
empty lines alone. -/
theorem clientOfTable_written :
    (∀ (before between rest : List UInt8) (label cell : String) (labels cells : List String)
      (ending ending' : LineEnd),
      EmptyLines before → EmptyLines between → label.toList.head? ≠ some '\uFEFF' →
      ∃ client, clientOfTable (before ++ (rowBytes (label :: labels) ending ++ (between ++
          (rowBytes (cell :: cells) ending' ++ rest)))).toByteArray = .ok client ∧
        client = String.ofList (Text.trim cell.toList) ∧
        ClientMode.ofClient client = ClientMode.ofClient cell) ∧
    (∀ table, (clientOfTable table).mapError Error.ofTable = .error .noDataRow ↔
      (readAll .ofByte (dropMark table.data.toList)).length < 2) ∧
    ∀ (before after : List UInt8) (label : String) (labels : List String) (ending : LineEnd),
      EmptyLines before → EmptyLines after → label.toList.head? ≠ some '\uFEFF' →
      clientOfTable (before ++ (rowBytes (label :: labels) ending ++ after)).toByteArray =
        .error .noDataRow ∧
      clientOfTable before.toByteArray = .error .noDataRow := by
  refine ⟨fun before between rest label cell labels cells ending ending' hbefore hbetween hmark =>
    ?_, fun table => ?_, fun before after label labels ending hbefore hafter hmark => ⟨?_, ?_⟩⟩
  · obtain ⟨left, hleft, hheader⟩ := exists_read?_header hbefore hmark labels ending
    obtain ⟨left', -, hrow⟩ := exists_read?_rowBytes cell cells ending'
    have hrow := hrow rest
    rw [← read?_emptyLines_append hbetween, ← read?_emptyLines_append hleft] at hrow
    have hheader := hheader (between ++ (rowBytes (cell :: cells) ending' ++ rest))
    rw [← @List.toList_data_toByteArray (before ++ _)] at hheader
    exact ⟨_, clientOfTable_of_read? hheader hrow, rfl, ofClient_trim cell⟩
  · rw [← clientOfTable_eq_noDataRow_iff]
    rcases clientOfTable table with (cause | _) | client <;> simp [Except.mapError, Error.ofTable]
  · obtain ⟨left, hleft, hheader⟩ := exists_read?_header hbefore hmark labels ending
    have hnone := read?_emptyLines_append hleft after
    rw [read?_emptyLines hafter] at hnone
    rw [clientOfTable_eq_noDataRow_iff, List.toList_data_toByteArray,
      readAll_of_some (hheader after), readAll_of_none hnone]
    exact Nat.lt_succ_self 1
  · have hnot : ¬[(0xEF : UInt8), 0xBB, 0xBF] <+: [] := by decide
    have hsame := dropMark_emptyLines_append hbefore hnot
    rw [List.append_nil] at hsame
    rw [clientOfTable_eq_noDataRow_iff, List.toList_data_toByteArray, hsame,
      readAll_of_none (read?_emptyLines hbefore)]
    exact Nat.zero_lt_succ 1

/-- A table with empty lines of two kinds, a comma in the header, blanks around the client, a quote
in the row, and bytes after it that are not UTF-8 and leave a quote open. -/
theorem clientOfTable_written_quoted :
    EmptyLines [0x0D, 0x0A] ∧ EmptyLines [0x0A] ∧ "client, name".toList.head? ≠ some '\uFEFF' ∧
    (∃ client, clientOfTable ([0x0D, 0x0A] ++ (rowBytes ["client, name", "region"] .both ++
        ([0x0A] ++ (rowBytes ["\u00A0nnip ", "a\"b"] .lineFeed ++ [0xFF, 0x22])))).toByteArray =
          .ok client ∧
      client = "nnip" ∧ ClientMode.ofClient client = .nnip) ∧
    clientOfTable ([0x0D, 0x0A] ++
        (rowBytes ["client, name", "region"] .both ++ [0x0A])).toByteArray =
      .error .noDataRow := by
  have hbefore : EmptyLines [0x0D, 0x0A] := by simp [EmptyLines, Symbol.ofByte]
  have hbetween : EmptyLines [0x0A] := by simp [EmptyLines, Symbol.ofByte]
  have hmark : "client, name".toList.head? ≠ some '\uFEFF' := by decide
  have hname : String.ofList (Text.trim "\u00A0nnip ".toList) = "nnip" := by decide
  have hmode : ClientMode.ofClient "\u00A0nnip " = .nnip := by decide
  obtain ⟨client, hclient, htrim, hsame⟩ := clientOfTable_written.1 [0x0D, 0x0A] [0x0A] [0xFF, 0x22]
    "client, name" "\u00A0nnip " ["region"] ["a\"b"] .both .lineFeed hbefore hbetween hmark
  exact ⟨hbefore, hbetween, hmark, ⟨client, hclient, htrim.trans hname, hsame.trans hmode⟩,
    (clientOfTable_written.2.2 _ _ _ _ .both hbefore hbetween hmark).1⟩

end MifirReport.Client
