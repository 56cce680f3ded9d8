import MifirReport.Table.Row

/-!
# Entries of a cell

The entries of a cell that repeats are joined by bars, and whoever reads the cell parts it at its
bars. Nothing marks a bar that belongs to an entry, so that there are as many parts as entries just
when no entry has a bar (`Row.length_entries_joined_eq_iff`). Of blank entries only the bars are
written (`Row.joined_replicate_blank`).
-/

namespace MifirReport.Table.Row

/-- The parts of a cell between its bars. -/
def entries (cell : String) : List String :=
  (cell.toList.splitOn '|').map String.ofList

/-- Cells that fall into equally many parts. -/
def Aligned (cells : List String) : Prop :=
  ∀ c ∈ cells, ∀ d ∈ cells, (entries c).length = (entries d).length

theorem length_splitOn {α : Type} [BEq α] (a : α) (xs : List α) :
    (xs.splitOn a).length = xs.count a + 1 := by
  induction xs with
  | nil => rfl
  | cons x xs ih =>
    rw [List.splitOn_cons_eq_if_modifyHead, List.count_cons]
    split
    · rw [List.length_cons, ih]
    · rw [List.length_modifyHead, ih, Nat.add_zero]

/-- A cell has one part more than it has bars. -/
theorem length_entries (cell : String) : (entries cell).length = cell.toList.count '|' + 1 := by
  rw [entries, List.length_map, length_splitOn]

/-- A cell of some entries has a part for each entry and one more for each bar inside an entry. -/
theorem length_entries_joined {values : List String} (h : values ≠ []) :
    (entries (joined values)).length =
      values.length + (values.flatMap String.toList).count '|' := by
  obtain ⟨value, values, rfl⟩ := List.exists_cons_of_ne_nil h
  rw [length_entries]
  clear h
  induction values generalizing value with
  | nil =>
    rw [joined, String.intercalate_singleton, List.flatMap_singleton]
    exact Nat.add_comm _ 1
  | cons next values ih =>
    specialize ih next
    have hbar : "|".toList.count '|' = 1 := rfl
    rw [List.flatMap_cons, List.count_append]
    rw [joined, String.intercalate_cons_cons, String.toList_append, String.toList_append,
      List.count_append, List.count_append, ← joined, List.length_cons]
    omega

/-- The parts of a cell are its entries just when no entry has a bar. -/
theorem length_entries_joined_eq_iff {values : List String} (h : values ≠ []) :
    (entries (joined values)).length = values.length ↔ ∀ entry ∈ values, '|' ∉ entry.toList := by
  rw [length_entries_joined h, Nat.add_eq_left, List.count_eq_zero, List.mem_flatMap]
  simp only [not_exists, not_and]

/-- Of blank entries only the bars between them are written. -/
theorem joined_replicate_blank (n : Nat) :
    joined (List.replicate n "") = String.ofList (List.replicate (n - 1) '|') := by
  cases n with
  | zero => rfl
  | succ n =>
    induction n with
    | zero => rfl
    | succ n ih =>
      have hbar : "|" = String.singleton '|' := rfl
      rw [List.replicate_succ, List.replicate_succ, joined, String.intercalate_cons_cons,
        ← List.replicate_succ, ← joined, ih, String.empty_append, Nat.add_sub_cancel,
        Nat.add_sub_cancel, List.replicate_succ, String.ofList_cons, hbar]

end MifirReport.Table.Row
