import MifirReport.Batch.Run

/-!
# What a file contributes

A file holds a report if its bytes are UTF-8, parse, and have the root `Document` (`reportOf?`). It
contributes the rows of its transactions up to the first that has neither new content nor a
cancellation (`fileRows`), and it is complete if there is no such transaction (`IsComplete`). These
are said without the order in which a conversion finds them out. `readReport` and
`TransactionReport.rows` compute them, and fail only in ways that a diagnostic stands for
(`readReport_of_reportOf?`, `rows_eq`).
-/

namespace MifirReport.Batch

open Client Report Table Xml

/-- The report that the bytes of a file hold. -/
def reportOf? (bytes : ByteArray) : Option TransactionReport :=
  match String.fromUTF8? bytes with
  | none => none
  | some text =>
    match Document.parse text with
    | .error _ => none
    | .ok root => if h : root.name = "Document" then some ⟨root, h⟩ else none

/-- The row of a transaction element: that of its new content, or else that of its cancellation. -/
def row? (x : Lookup) (mode : ClientMode) (tx : Element) : Option Row :=
  match x.child? tx "New", x.child? tx "Cxl" with
  | some new, _ => some ⟨newCell x mode new⟩
  | none, some cancellation => some ⟨cancellationCell x cancellation⟩
  | none, none => none

/-- The rows of transaction elements up to the first that has none. -/
def leadingRows (x : Lookup) (mode : ClientMode) (txs : List Element) : List Row :=
  ((txs.map (row? x mode)).takeWhile Option.isSome).filterMap id

/-- Whether a transaction element has new content or a cancellation. -/
def hasContent (x : Lookup) (tx : Element) : Bool :=
  x.has tx "New" || x.has tx "Cxl"

/-- The rows that a file contributes. -/
def fileRows (mode : ClientMode) (bytes : ByteArray) : List Row :=
  match reportOf? bytes with
  | none => []
  | some report => leadingRows report.lookup mode report.transactions

/-- Whether a file holds a report whose transactions all have content. -/
def IsComplete (bytes : ByteArray) : Prop :=
  ∃ report, reportOf? bytes = some report ∧
    ∀ tx ∈ report.transactions, hasContent report.lookup tx = true

instance (bytes : ByteArray) : Decidable (IsComplete bytes) :=
  match h : reportOf? bytes with
  | none => isFalse (by simp [IsComplete, h])
  | some report =>
    decidable_of_iff (∀ tx ∈ report.transactions, hasContent report.lookup tx = true)
      (by simp [IsComplete, h])

theorem fileRows_of_none {bytes : ByteArray} (mode : ClientMode) (h : reportOf? bytes = none) :
    fileRows mode bytes = [] := by
  simp [fileRows, h]

/-! ## Reading a report -/

theorem readReport_of_reportOf? {bytes : ByteArray} {report : TransactionReport}
    (h : reportOf? bytes = some report) : readReport bytes = .ok report := by
  unfold reportOf? at h
  split at h
  · simp at h
  · rename_i text htext
    split at h
    · simp at h
    · rename_i root hroot
      split at h
      · rename_i hname
        obtain rfl := Option.some.inj h
        simp [readReport, htext, TransactionReport.parse, parseRoot, hroot,
          TransactionReport.ofRoot, hname, bind, Except.bind]
      · simp at h

/-- A file that holds no report is refused as an invalid document. -/
theorem readReport_of_reportOf?_eq_none {bytes : ByteArray} (h : reportOf? bytes = none) :
    ∃ error, readReport bytes = .error error ∧ error.isInvalidDocument = true := by
  unfold reportOf? at h
  split at h
  · rename_i htext
    exact ⟨.notUtf8, by simp [readReport, htext], rfl⟩
  · rename_i text htext
    split at h
    · rename_i cause hroot
      exact ⟨.xml cause, by
        simp [readReport, htext, TransactionReport.parse, parseRoot, hroot, bind, Except.bind], rfl⟩
    · rename_i root hroot
      split at h
      · simp at h
      · rename_i hname
        exact ⟨.unrecognizedRoot root.name, by
          simp [readReport, htext, TransactionReport.parse, parseRoot, hroot,
            TransactionReport.ofRoot, hname, bind, Except.bind], rfl⟩

/-! ## Rows of a report -/

/-- A transaction element is mapped to its row, or refused if it has none. -/
theorem mapElement_eq (x : Lookup) (mode : ClientMode) (tx : Element) (index : Nat) :
    mapElement x mode tx index =
      match row? x mode tx with
      | some row => .ok row
      | none => .error (.missingVariant index) := by
  simp only [mapElement, Transaction.ofElement, row?, Kind.tag]
  cases x.child? tx "New" with
  | some new => rfl
  | none =>
    cases x.child? tx "Cxl" with
    | some cancellation => rfl
    | none => rfl

theorem isSome_row? (x : Lookup) (mode : ClientMode) (tx : Element) :
    (row? x mode tx).isSome = hasContent x tx := by
  unfold row? hasContent Lookup.has
  cases x.child? tx "New" <;> cases x.child? tx "Cxl" <;> rfl

theorem leadingRows_cons (x : Lookup) (mode : ClientMode) (tx : Element) (txs : List Element) :
    leadingRows x mode (tx :: txs) =
      match row? x mode tx with
      | some row => row :: leadingRows x mode txs
      | none => [] := by
  unfold leadingRows
  rw [List.map_cons]
  cases row? x mode tx <;> simp

/-- The rows that are mapped in order are the leading ones. All are mapped if every element has
content; otherwise the mapping ends with an invalid document. -/
theorem rowsFrom_eq (x : Lookup) (mode : ClientMode) (index : Nat) (txs : List Element) :
    ∃ failure, rowsFrom x mode index txs = (leadingRows x mode txs, failure) ∧
      (failure = none ↔ ∀ tx ∈ txs, hasContent x tx = true) ∧
      ∀ error, failure = some error → error.isInvalidDocument = true := by
  induction txs generalizing index with
  | nil => exact ⟨none, rfl, by simp, by simp⟩
  | cons tx txs ih =>
    obtain ⟨failure, hrows, hall, hinvalid⟩ := ih (index + 1)
    have hcontent := isSome_row? x mode tx
    rw [leadingRows_cons, rowsFrom, mapElement_eq]
    cases hrow : row? x mode tx with
    | some row =>
      rw [hrow, Option.isSome_some] at hcontent
      refine ⟨failure, by rw [hrows], ?_, hinvalid⟩
      rw [hall, List.forall_mem_cons, ← hcontent]
      exact (and_iff_right rfl).symm
    | none =>
      rw [hrow, Option.isSome_none] at hcontent
      refine ⟨some (.missingVariant index), rfl, ?_, ?_⟩
      · rw [List.forall_mem_cons, ← hcontent]
        simp
      · rintro error h
        obtain rfl := Option.some.inj h
        rfl

/-- The rows of the report in a file are those that the file contributes, and their mapping fails
unless the file is complete. -/
theorem rows_eq {bytes : ByteArray} {report : TransactionReport} (h : reportOf? bytes = some report)
    (mode : ClientMode) :
    ∃ failure, report.rows mode = (fileRows mode bytes, failure) ∧
      (failure = none ↔ IsComplete bytes) ∧
      ∀ error, failure = some error → error.isInvalidDocument = true := by
  obtain ⟨failure, hrows, hall, hinvalid⟩ := rowsFrom_eq report.lookup mode 1 report.transactions
  refine ⟨failure, ?_, ?_, hinvalid⟩
  · rw [TransactionReport.rows, hrows, fileRows, h]
  · rw [hall, IsComplete, h]
    simp

end MifirReport.Batch
