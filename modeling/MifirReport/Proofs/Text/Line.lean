import MifirReport.Text.Line
import Mathlib.Data.List.DropRight

/-!
# What trimming and collapsing keep

A text is trimmed if there is no blank at either end of it (`Trimmed`). Trimming takes blanks away
from the ends and nothing else (`exists_eq_trim`), what it leaves is trimmed (`trimmed_trim`), and a
trimmed text stays as it is (`Trimmed.trim_eq`).

A text without line feeds collapses to what trimming leaves of it (`collapse_of_not_mem`), and a
line feed parts a text into two that collapse on their own (`collapse_append_lineFeed`). The laws of
collapsed texts follow by induction over the lines (`lines_induction`) : they are trimmed, have no
line feed and keep what is not blank. So collapsing a second time is trimming a trimmed text
(`collapse_collapse`).
-/

namespace MifirReport.Text

variable {cs as bs : List Char}

/-! ## Trimming -/

/-- No blank at either end. -/
def Trimmed (cs : List Char) : Prop :=
  (∀ c, cs.head? = some c → isBlank c = false) ∧ ∀ c, cs.getLast? = some c → isBlank c = false

theorem trimEnd_eq (cs : List Char) : trimEnd cs = cs.rdropWhile isBlank := rfl

/-- Of trimmed texts the first that is not empty begins the whole, and the last ends it. -/
theorem Trimmed.append (ha : Trimmed as) (hb : Trimmed bs) : Trimmed (as ++ bs) := by
  rcases List.eq_nil_or_concat as with rfl | ⟨as', a, rfl⟩
  · exact hb
  rcases bs with _ | ⟨b, bs⟩
  · rwa [List.append_nil]
  refine ⟨fun c hc => ha.1 c ?_, fun c hc => hb.2 c ?_⟩
  · rwa [List.head?_append_of_ne_nil _ (by simp)] at hc
  · rwa [List.getLast?_append_of_ne_nil _ (by simp)] at hc

/-- Nothing is taken from a trimmed text. -/
theorem Trimmed.trim_eq (h : Trimmed cs) : trim cs = cs := by
  cases cs with
  | nil => rfl
  | cons c cs =>
    have hhead : ¬isBlank c = true := by simp [h.1 c rfl]
    rw [trim, List.dropWhile_cons_of_neg hhead, trimEnd_eq, List.rdropWhile_eq_self_iff]
    intro hne
    simp [h.2 _ (List.getLast?_eq_some_getLast hne)]

/-- What trimming leaves is trimmed. -/
theorem trimmed_trim (cs : List Char) : Trimmed (trim cs) := by
  rw [trim, trimEnd_eq]
  constructor
  · intro c hc
    -- what is left begins as it did before the end was trimmed
    obtain ⟨after, hafter⟩ := List.rdropWhile_prefix isBlank (cs.dropWhile isBlank)
    have hhead : (cs.dropWhile isBlank).head? = some c := by
      rw [← hafter, List.head?_append, hc, Option.some_or]
    have hnot := List.head?_dropWhile_not isBlank cs
    rwa [hhead] at hnot
  · intro c hc
    have hne : (cs.dropWhile isBlank).rdropWhile isBlank ≠ [] := by
      intro h
      rw [h] at hc
      cases hc
    rw [List.getLast?_eq_some_getLast hne, Option.some.injEq] at hc
    rw [← hc]
    exact Bool.eq_false_iff.2 (List.rdropWhile_last_not _ _ hne)

/-- Trimming takes blanks away from both ends. -/
theorem exists_eq_trim (cs : List Char) :
    ∃ before after, cs = before ++ trim cs ++ after ∧ ∀ c ∈ before ++ after, isBlank c = true := by
  refine ⟨cs.takeWhile isBlank, (cs.dropWhile isBlank).rtakeWhile isBlank, ?_, fun c hc => ?_⟩
  · rw [trim, trimEnd_eq, List.append_assoc, List.rdropWhile_append_rtakeWhile,
      List.takeWhile_append_dropWhile]
  · rcases List.mem_append.1 hc with hc | hc
    · exact List.mem_takeWhile_imp hc
    · exact List.mem_rtakeWhile_imp hc

/-- The characters of a text that are not blank. -/
def visible (cs : List Char) : List Char :=
  cs.filter (!isBlank ·)

@[simp] theorem visible_append (as bs : List Char) :
    visible (as ++ bs) = visible as ++ visible bs :=
  List.filter_append ..

theorem visible_eq_nil (h : ∀ c ∈ cs, isBlank c = true) : visible cs = [] := by
  simpa [visible, List.filter_eq_nil_iff] using h

/-- Trimming keeps all that is not blank. -/
theorem visible_trim (cs : List Char) : visible (trim cs) = visible cs := by
  obtain ⟨before, after, hcs, hblank⟩ := exists_eq_trim cs
  rw [List.forall_mem_append] at hblank
  conv_rhs => rw [hcs]
  rw [visible_append, visible_append, visible_eq_nil hblank.1, visible_eq_nil hblank.2,
    List.nil_append, List.append_nil]

/-! ## Collapsing -/

/-- A single line is trimmed. -/
theorem collapse_of_not_mem (h : '\n' ∉ cs) : collapse cs = trim cs := by
  rw [collapse, lines, List.splitOn_eq_singleton h, List.flatMap_singleton]

/-- The lines on both sides of a line feed collapse on their own. -/
theorem collapse_append_lineFeed (as bs : List Char) :
    collapse (as ++ '\n' :: bs) = collapse as ++ collapse bs := by
  rw [collapse, lines, List.splitOn_append_cons_self, List.flatMap_append]
  rfl

/-- A text is a line, or a line with a line feed and a text after it. -/
@[elab_as_elim]
theorem lines_induction {motive : List Char → Prop} (line : ∀ cs, '\n' ∉ cs → motive cs)
    (next : ∀ as bs, '\n' ∉ as → motive bs → motive (as ++ '\n' :: bs)) (cs : List Char) :
    motive cs := by
  induction hlength : cs.length using Nat.strong_induction_on generalizing cs with
  | _ n ih =>
    by_cases hmem : '\n' ∈ cs
    · obtain ⟨as, bs, rfl, has⟩ := List.eq_append_cons_of_mem hmem
      refine next as bs has (ih bs.length ?_ bs rfl)
      rw [← hlength, List.length_append, List.length_cons]
      omega
    · exact line cs hmem

theorem not_mem_trim {c : Char} (h : c ∉ cs) : c ∉ trim cs := by
  obtain ⟨before, after, hcs, -⟩ := exists_eq_trim cs
  intro hc
  rw [hcs] at h
  exact h (List.mem_append_left _ (List.mem_append_right _ hc))

/-- A collapsed text is a single line. -/
theorem not_mem_collapse (cs : List Char) : '\n' ∉ collapse cs := by
  induction cs using lines_induction with
  | line cs h =>
    rw [collapse_of_not_mem h]
    exact not_mem_trim h
  | next as bs has ih =>
    rw [collapse_append_lineFeed, collapse_of_not_mem has, List.mem_append, not_or]
    exact ⟨not_mem_trim has, ih⟩

theorem trimmed_collapse (cs : List Char) : Trimmed (collapse cs) := by
  induction cs using lines_induction with
  | line cs h =>
    rw [collapse_of_not_mem h]
    exact trimmed_trim cs
  | next as bs has ih =>
    rw [collapse_append_lineFeed, collapse_of_not_mem has]
    exact (trimmed_trim as).append ih

theorem visible_collapse (cs : List Char) : visible (collapse cs) = visible cs := by
  induction cs using lines_induction with
  | line cs h => rw [collapse_of_not_mem h, visible_trim]
  | next as bs has ih =>
    have hlineFeed : visible ('\n' :: bs) = visible bs := rfl
    rw [collapse_append_lineFeed, collapse_of_not_mem has, visible_append, visible_trim, ih,
      visible_append, hlineFeed]

/-- Collapsing twice is collapsing once. -/
theorem collapse_collapse (cs : List Char) : collapse (collapse cs) = collapse cs := by
  rw [collapse_of_not_mem (not_mem_collapse cs), (trimmed_collapse cs).trim_eq]

end MifirReport.Text
