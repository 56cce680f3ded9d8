import MifirReport.Proofs.Table.Emission
import MifirReport.Proofs.Text.Line

/-!
# What a diagnostic shows

A record is written with the characters of its fields, quotes and commas, and a line feed at its
end. If the fields have no line feed, it is a line (`exists_encodeRecord`). So are the header and
the row of a diagnostic, since no label has a line feed and no collapsed text has one, and a
diagnostic has two lines : `diagnostic_readable`. It reads as the header and a record with the mark,
the collapsed content and empty cells. The collapsed content is the content without line feeds and
without the blanks at both ends of its lines.
-/

namespace MifirReport.Csv

/-! ## Records on a line -/

variable {c : Char} {field : List Char} {fields : List (List Char)}

theorem mem_encodeField (h : c ∈ encodeField field) : c = '"' ∨ c ∈ field := by
  unfold encodeField fieldPieces at h
  obtain ⟨piece, hpiece, hc⟩ := List.mem_flatMap.1 h
  split_ifs at hpiece
  · obtain ⟨d, hd, rfl⟩ := List.mem_map.1 hpiece
    exact Or.inr (List.mem_singleton.1 hc ▸ hd)
  · rw [quoted, List.mem_append, List.mem_cons, List.mem_map, List.mem_singleton] at hpiece
    rcases hpiece with (rfl | ⟨d, hd, rfl⟩) | rfl
    · exact Or.inl (List.mem_singleton.1 hc)
    · split_ifs at hc
      · exact Or.inl (by simpa [Piece.chars] using hc)
      · exact Or.inr (List.mem_singleton.1 hc ▸ hd)
    · exact Or.inl (List.mem_singleton.1 hc)

/-- What stands on the line of a record. -/
theorem mem_line (h : c ∈ ([Piece.char ','].intercalate (fields.map fieldPieces)).flatMap
    Piece.chars) : c = ',' ∨ c = '"' ∨ ∃ field ∈ fields, c ∈ field := by
  induction fields with
  | nil => cases h
  | cons field fields ih =>
    have hfirst : c ∈ encodeField field → c = '"' ∨ ∃ f ∈ field :: fields, c ∈ f := fun hc =>
      (mem_encodeField hc).imp_right fun hc => ⟨field, List.mem_cons_self, hc⟩
    cases fields with
    | nil =>
      rw [List.map_singleton, List.intercalate_singleton] at h
      exact Or.inr (hfirst h)
    | cons next fields =>
      rw [List.map_cons, List.map_cons, List.intercalate_cons_cons, ← List.map_cons,
        List.flatMap_append, List.flatMap_append, List.mem_append, List.mem_append] at h
      rcases h with (h | h) | h
      · exact Or.inr (hfirst h)
      · exact Or.inl (List.mem_singleton.1 h)
      · exact (ih h).imp_right (Or.imp_right fun ⟨f, hf, hc⟩ => ⟨f, List.mem_cons_of_mem _ hf, hc⟩)

/-- A record without line feeds in its fields is a line. -/
theorem exists_encodeRecord (h : ∀ field ∈ fields, '\n' ∉ field) :
    ∃ line, encodeRecord fields = line ++ ['\n'] ∧ '\n' ∉ line := by
  rw [encodeRecord, recordPieces_eq, List.flatMap_append]
  refine ⟨_, rfl, ?_⟩
  rw [linePieces]
  split_ifs
  · decide
  · intro hmem
    rcases mem_line hmem with hc | hc | ⟨field, hfield, hc⟩
    · exact absurd hc (by decide)
    · exact absurd hc (by decide)
    · exact h field hfield hc

end MifirReport.Csv

namespace MifirReport.Table

/-! ## The rows of a diagnostic -/

theorem not_mem_label (column : Column) : '\n' ∉ column.label.toList := by
  have hside : ∀ side, '\n' ∉ (Column.sideLabel side).toList := by
    rintro (_ | _) <;> simp [Column.sideLabel]
  have hrole : ∀ role, '\n' ∉ (Column.roleLabel role).toList := by
    rintro (_ | _) <;> simp [Column.roleLabel]
  have hparty : ∀ field, '\n' ∉ (Column.partyLabel field).toList := by
    rintro (_ | _) <;> simp [Column.partyLabel]
  have htrade : ∀ field, '\n' ∉ (Column.tradeLabel field).toList := by
    rintro (_ | _ | ⟨_ | _⟩ | _ | ⟨_ | _⟩ | _) <;> simp [Column.tradeLabel]
  have hinstrument : ∀ field, '\n' ∉ (Column.instrumentLabel field).toList := by
    rintro (_ | _ | _ | _ | _ | _ | ⟨_ | _⟩ | _ | ⟨_ | _⟩ | _) <;> simp [Column.instrumentLabel]
  have htraderRole : ∀ role, '\n' ∉ (Column.traderRoleLabel role).toList := by
    rintro (_ | _) <;> simp [Column.traderRoleLabel]
  have htrader : ∀ field, '\n' ∉ (Column.traderLabel field).toList := by
    rintro (_ | _) <;> simp [Column.traderLabel]
  unfold Column.label
  split <;> simp [hside, hrole, hparty, htrade, hinstrument, htraderRole, htrader]

theorem values_invalid (content : String) :
    (Row.invalid content).values =
      Row.invalidMark :: String.ofList (Text.collapse content.toList) :: List.replicate 80 "" :=
  rfl

/-- A diagnostic is two lines. -/
theorem exists_diagnostic_lines (content : String) :
    ∃ first second, rowsText [Row.header, Row.invalid content] =
        first ++ '\n' :: (second ++ ['\n']) ∧ '\n' ∉ first ∧ '\n' ∉ second := by
  have hheader : ∀ field ∈ Row.header.values.map String.toList, '\n' ∉ field := by
    intro field hfield
    rw [Row.values, List.map_map] at hfield
    obtain ⟨column, -, rfl⟩ := List.mem_map.1 hfield
    exact not_mem_label column
  have hinvalid : ∀ field ∈ (Row.invalid content).values.map String.toList, '\n' ∉ field := by
    intro field hfield
    obtain ⟨value, hvalue, rfl⟩ := List.mem_map.1 hfield
    rw [values_invalid, List.mem_cons, List.mem_cons] at hvalue
    rcases hvalue with rfl | rfl | hvalue
    · decide
    · rw [String.toList_ofList]
      exact Text.not_mem_collapse _
    · rw [List.eq_of_mem_replicate hvalue]
      decide
  obtain ⟨first, hfirst, hnot⟩ := Csv.exists_encodeRecord hheader
  obtain ⟨second, hsecond, hnot'⟩ := Csv.exists_encodeRecord hinvalid
  refine ⟨first, second, ?_, hnot, hnot'⟩
  rw [← List.singleton_append, rowsText_append, rowsText_singleton, rowsText_singleton, hfirst,
    hsecond, List.append_assoc, List.singleton_append]

/-- A diagnostic has two line feeds, the second at its end. It reads as the header and a record with
the mark, the content on one line and empty cells. The content on one line has no line feed and all
that is not blank of the content, and nothing more goes when it is put on one line again. A line
feed parts a text into two that are put on one line separately, and of a line only the blanks at
both ends go. -/
theorem diagnostic_readable (content : String) :
    let shown := Text.collapse content.toList
    (∃ text : List Char, diagnostic content = .ok text.utf8Encode ∧
      text.count '\n' = 2 ∧ text.getLast? = some '\n' ∧
      Csv.readTable? text.utf8Encode.data.toList =
        some [Column.labels, Row.invalidMark :: String.ofList shown :: List.replicate 80 ""]) ∧
    '\n' ∉ shown ∧
    Text.visible shown = Text.visible content.toList ∧
    Text.collapse shown = shown ∧
    (∀ before after,
      Text.collapse (before ++ '\n' :: after) = Text.collapse before ++ Text.collapse after) ∧
    ∀ line, '\n' ∉ line → ∃ before after, line = before ++ Text.collapse line ++ after ∧
      (∀ c ∈ before ++ after, Text.isBlank c = true) ∧ Text.Trimmed (Text.collapse line) := by
  intro shown
  obtain ⟨first, second, hlines, hfirst, hsecond⟩ := exists_diagnostic_lines content
  refine ⟨⟨_, diagnostic_eq content, ?_, ?_, ?_⟩, Text.not_mem_collapse _, Text.visible_collapse _,
    Text.collapse_collapse _, Text.collapse_append_lineFeed, fun line hline => ?_⟩
  · rw [hlines, List.count_append, List.count_cons_self, List.count_append,
      List.count_eq_zero.2 hfirst, List.count_eq_zero.2 hsecond, List.count_singleton_self]
  · rw [hlines, ← List.cons_append, ← List.append_assoc, List.getLast?_concat]
  · rw [readTable?_rowsText, List.map_singleton, values_invalid]
    rfl
  · rw [Text.collapse_of_not_mem hline]
    obtain ⟨before, after, hbefore, hblank⟩ := Text.exists_eq_trim line
    exact ⟨before, after, hbefore, hblank, Text.trimmed_trim line⟩

/-- Content on three lines, the first with a carriage return at its end and the second between a
space and a no-break space. -/
theorem diagnostic_readable_threeLines :
    (∃ text : List Char, diagnostic "<a>\r\n b c\u00A0\n</a>" = .ok text.utf8Encode ∧
      text.count '\n' = 2 ∧ text.getLast? = some '\n' ∧
      Csv.readTable? text.utf8Encode.data.toList =
        some [Column.labels, "INVALID_XML" :: "<a>b c</a>" :: List.replicate 80 ""]) ∧
    '\n' ∉ [' ', 'b', ' ', 'c', '\u00A0'] ∧
    ∃ before after, [' ', 'b', ' ', 'c', '\u00A0'] = before ++ ['b', ' ', 'c'] ++ after ∧
      ∀ c ∈ before ++ after, Text.isBlank c = true := by
  have hshown : String.ofList (Text.collapse "<a>\r\n b c\u00A0\n</a>".toList) = "<a>b c</a>" := by
    decide
  have hline : '\n' ∉ [' ', 'b', ' ', 'c', '\u00A0'] := by
    decide
  have hcollapse : Text.collapse [' ', 'b', ' ', 'c', '\u00A0'] = ['b', ' ', 'c'] := by
    decide
  obtain ⟨hdiagnostic, -, -, -, -, hlines⟩ := diagnostic_readable "<a>\r\n b c\u00A0\n</a>"
  obtain ⟨before, after, hbefore, hblank, -⟩ := hlines _ hline
  rw [hshown] at hdiagnostic
  rw [hcollapse] at hbefore
  exact ⟨hdiagnostic, hline, before, after, hbefore, hblank⟩

end MifirReport.Table
