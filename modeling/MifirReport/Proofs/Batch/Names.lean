import MifirReport.Batch.Target
import MifirReport.Proofs.Files.Folder

/-!
# Names of outputs and diagnostics

The name of an output is taken apart from its end. What follows the year has a fixed length, and the
year has no underscore (`not_mem_yearText`), so that it begins after the last one that is left.
Hence the name tells the party and the time, even if the party has digits and underscores, or is
itself the name of an output : `outputName_inj`.

The name of a diagnostic has no slash and is longer than the components that name nothing. Joined to
a directory it is one component more, which the last component of the input decides :
`diagnosticPath_inside`.
-/

namespace MifirReport.Batch

open Files

namespace Timestamp

/-! ## Numbers in digits -/

/-- The zeros that fill a number up are digits as well. -/
theorem isDigit_of_mem_padded {width n : Nat} {c : Char} (h : c ∈ padded width n) :
    c.isDigit = true := by
  rcases List.mem_append.1 h with h | h
  · rw [List.eq_of_mem_replicate h]
    rfl
  · exact Nat.isDigit_of_mem_toDigits (by decide) (by decide) h

theorem not_mem_padded {c : Char} (hc : c.isDigit = false) (width n : Nat) : c ∉ padded width n :=
  fun h => Bool.eq_false_iff.1 hc (isDigit_of_mem_padded h)

/-- Zeros before a number do not change it. -/
theorem ofDigitChars_padded (width n : Nat) : Nat.ofDigitChars 10 (padded width n) 0 = n := by
  have hzeros : ∀ k, Nat.ofDigitChars 10 (List.replicate k '0') 0 = 0 := by
    intro k
    induction k with
    | zero => rfl
    | succ k ih => rwa [List.replicate_succ, Nat.ofDigitChars, List.foldl_cons]
  rw [padded, Nat.ofDigitChars_append, hzeros, Nat.ofDigitChars_ten_toDigits]

/-- Numbers that fill the same width are told apart by their digits. -/
theorem padded_injective (width : Nat) : Function.Injective (padded width) := by
  intro m n h
  rw [← ofDigitChars_padded width m, h, ofDigitChars_padded]

theorem length_padded_two {n : Nat} (h : n < 100) : (padded 2 n).length = 2 := by
  have hlength : (Nat.toDigits 10 n).length ≤ 2 :=
    (Nat.length_toDigits_le_iff (by decide) (by decide)).2 h
  rw [padded, List.length_append, List.length_replicate]
  omega

/-! ## Years -/

/-- A year is made of digits and a sign. -/
theorem not_mem_yearText {c : Char} (hc : c.isDigit = false) (hplus : c ≠ '+') (hminus : c ≠ '-')
    (year : Int) : c ∉ yearText year := by
  unfold yearText
  split_ifs <;> simp [not_mem_padded hc, hplus, hminus]

/-- A sign is no digit. -/
theorem padded_ne_cons {c : Char} (hc : c.isDigit = false) (width n : Nat) (cs : List Char) :
    padded width n ≠ c :: cs :=
  fun h => not_mem_padded hc width n (h ▸ List.mem_cons_self)

/-- The year that a text says. -/
def readYear : List Char → Int
  | '-' :: digits => -Nat.ofDigitChars 10 digits 0
  | '+' :: digits => Nat.ofDigitChars 10 digits 0
  | digits => Nat.ofDigitChars 10 digits 0

/-- A year is read back from its digits, with or without a sign. -/
theorem readYear_yearText (year : Int) : readYear (yearText year) = year := by
  unfold yearText
  split_ifs with hnegative hlarge
  · rw [readYear, ofDigitChars_padded]
    omega
  · rw [readYear, ofDigitChars_padded]
    omega
  · have hunsigned : readYear (padded 4 year.natAbs) =
        Nat.ofDigitChars 10 (padded 4 year.natAbs) 0 := by
      unfold readYear
      split
      · rename_i digits h
        exact absurd h (padded_ne_cons rfl 4 _ digits)
      · rename_i digits h
        exact absurd h (padded_ne_cons rfl 4 _ digits)
      · rfl
    rw [hunsigned, ofDigitChars_padded]
    omega

theorem yearText_injective : Function.Injective yearText :=
  Function.LeftInverse.injective readYear_yearText

/-! ## Times -/

/-- What follows the year of a time. -/
def clock (t : Timestamp) : List Char :=
  padded 2 t.month ++ padded 2 t.day ++ ['_'] ++ padded 2 t.hour ++ padded 2 t.minute ++
    padded 2 t.second

/-- A time is the digits of its year and then the rest. -/
theorem text_eq (t : Timestamp) : t.text = yearText t.year ++ t.clock := by
  simp [text, clock]

theorem length_padded_parts (t : Timestamp) :
    (padded 2 t.month).length = 2 ∧ (padded 2 t.day).length = 2 ∧ (padded 2 t.hour).length = 2 ∧
      (padded 2 t.minute).length = 2 ∧ (padded 2 t.second).length = 2 := by
  obtain ⟨hmonth, hday, hhour, hminute, hsecond⟩ := t.inRange
  exact ⟨length_padded_two (by omega), length_padded_two (by omega), length_padded_two (by omega),
    length_padded_two (by omega), length_padded_two (by omega)⟩

/-- All parts of a time but the year have a fixed width. -/
theorem length_clock (t : Timestamp) : t.clock.length = 11 := by
  obtain ⟨hmonth, hday, hhour, hminute, hsecond⟩ := t.length_padded_parts
  simp only [clock, List.length_append, List.length_singleton, hmonth, hday, hhour, hminute,
    hsecond]

/-- Times of the same year that end alike are the same. -/
theorem eq_of_clock_eq {t u : Timestamp} (hyear : t.year = u.year) (h : t.clock = u.clock) :
    t = u := by
  obtain ⟨hmonth, hday, hhour, hminute, hsecond⟩ := t.length_padded_parts
  obtain ⟨hmonth', hday', hhour', hminute', hsecond'⟩ := u.length_padded_parts
  unfold clock at h
  obtain ⟨h, hs⟩ := List.append_inj' h (hsecond.trans hsecond'.symm)
  obtain ⟨h, hm⟩ := List.append_inj' h (hminute.trans hminute'.symm)
  obtain ⟨h, hh⟩ := List.append_inj' h (hhour.trans hhour'.symm)
  obtain ⟨h, hd⟩ := List.append_inj' (List.append_cancel_right h) (hday.trans hday'.symm)
  cases t
  cases u
  simp only [Timestamp.mk.injEq]
  exact ⟨hyear, padded_injective 2 h, padded_injective 2 hd, padded_injective 2 hh,
    padded_injective 2 hm, padded_injective 2 hs⟩

theorem not_mem_text (t : Timestamp) : '/' ∉ t.text := by
  have hyear := not_mem_yearText (c := '/') rfl (by decide) (by decide) t.year
  simp [text, hyear, not_mem_padded (c := '/') rfl]

end Timestamp

/-! ## Names of outputs -/

/-- What follows the party in the name of an output. -/
def outputEnding (time : Timestamp) : String :=
  "_MIFID__" ++ String.ofList time.text ++ "_NNIPOUTPUT_0000.csv"

/-- The party comes first in the name of an output, as it is. -/
theorem outputName_eq (party : String) (time : Timestamp) :
    outputName party time = party ++ outputEnding time := by
  rw [outputName, outputEnding, String.append_assoc, String.append_assoc, String.append_assoc]

theorem not_mem_outputEnding (time : Timestamp) : '/' ∉ (outputEnding time).toList := by
  have hfirst : '/' ∉ "_MIFID__".toList := by decide
  have hlast : '/' ∉ "_NNIPOUTPUT_0000.csv".toList := by decide
  have htime : '/' ∉ (String.ofList time.text).toList := by
    rw [String.toList_ofList]
    exact time.not_mem_text
  rw [outputEnding, String.toList_append, String.toList_append, List.mem_append, List.mem_append,
    not_or, not_or]
  exact ⟨⟨hfirst, htime⟩, hlast⟩

theorem suffix_outputEnding (time : Timestamp) :
    "_NNIPOUTPUT_0000.csv".toList <:+ (outputEnding time).toList := by
  rw [outputEnding, String.toList_append]
  exact List.suffix_append _ _

/-- The end of a name alone is longer than a component that names nothing. -/
theorem length_outputEnding (time : Timestamp) : 2 < (outputEnding time).toList.length := by
  have hlast : 2 < "_NNIPOUTPUT_0000.csv".toList.length := by decide
  exact hlast.trans_le (suffix_outputEnding time).length_le

/-- What follows the last of a mark is told from what is before it. -/
theorem append_cons_inj_of_last {α : Type} {a : α} {before after before' after' : List α}
    (ha : a ∉ after) (ha' : a ∉ after') (h : before ++ a :: after = before' ++ a :: after') :
    before = before' ∧ after = after' := by
  rcases List.append_eq_append_iff.1 h with ⟨between, rfl, hbetween⟩ | ⟨between, rfl, hbetween⟩
  · cases between with
    | nil => exact ⟨(List.append_nil _).symm, (List.cons.inj hbetween).2⟩
    | cons b between =>
      rw [List.cons_append, List.cons.injEq] at hbetween
      exact absurd (hbetween.2 ▸ List.mem_append_right _ List.mem_cons_self) ha
  · cases between with
    | nil => exact ⟨List.append_nil _, (List.cons.inj hbetween).2.symm⟩
    | cons b between =>
      rw [List.cons_append, List.cons.injEq] at hbetween
      exact absurd (hbetween.2 ▸ List.mem_append_right _ List.mem_cons_self) ha'

/-- Outputs have the same name just if they have the same party and the same time. -/
theorem outputName_inj {party party' : String} {time time' : Timestamp} :
    outputName party time = outputName party' time' ↔ party = party' ∧ time = time' := by
  refine ⟨fun h => ?_, fun ⟨hparty, htime⟩ => by rw [hparty, htime]⟩
  have htext : ∀ (party : String) (time : Timestamp), (outputName party time).toList =
      party.toList ++ "_MIFID_".toList ++ '_' :: Timestamp.yearText time.year ++ time.clock ++
        "_NNIPOUTPUT_0000.csv".toList := by
    intro party time
    have hfirst : "_MIFID__".toList = "_MIFID_".toList ++ ['_'] := rfl
    simp only [outputName, String.toList_append, String.toList_ofList, Timestamp.text_eq, hfirst,
      List.append_assoc, List.cons_append, List.nil_append]
  replace h := congrArg String.toList h
  rw [htext, htext] at h
  obtain ⟨h, hclock⟩ := List.append_inj' (List.append_cancel_right h)
    (time.length_clock.trans time'.length_clock.symm)
  have hyear : ∀ year, '_' ∉ Timestamp.yearText year :=
    Timestamp.not_mem_yearText rfl (by decide) (by decide)
  obtain ⟨hparty, hsame⟩ := append_cons_inj_of_last (hyear _) (hyear _) h
  exact ⟨String.toList_inj.1 (List.append_cancel_right hparty),
    Timestamp.eq_of_clock_eq (Timestamp.yearText_injective hsame) hclock⟩

/-! ## Names of diagnostics -/

theorem not_mem_diagnosticName (input : String) : '/' ∉ (diagnosticName input).toList := by
  have hlast : '/' ∉ ".invalid.csv".toList := by decide
  have hstem : '/' ∉ ((Path.fileStem? input).getD "input").toList := by
    cases hinput : Path.fileStem? input with
    | none => decide
    | some stem => exact Path.not_mem_fileStem? hinput
  rw [diagnosticName, String.toList_append, List.mem_append, not_or]
  exact ⟨hstem, hlast⟩

theorem length_diagnosticName (input : String) : 2 < (diagnosticName input).toList.length := by
  have hlast : 2 < ".invalid.csv".toList.length := by decide
  rw [diagnosticName, String.toList_append, List.length_append]
  omega

/-- What a diagnostic is named after : the stem of the last component of its input, unless there is
none or it leads to a parent. -/
def namesake (last : Option (List Char)) : List Char :=
  match last with
  | none => "input".toList
  | some name => if name = ['.', '.'] then "input".toList else Path.stem name

/-- The name of a diagnostic depends on the last component of its input. -/
theorem toList_diagnosticName (input : String) :
    (diagnosticName input).toList =
      namesake (Path.components input.toList).getLast? ++ ".invalid.csv".toList := by
  rw [diagnosticName, String.toList_append, Path.fileStem?, Path.fileName?,
    Path.reversedComponents_eq, ← List.head?_reverse]
  congr 1
  cases (Path.components input.toList).reverse with
  | nil => rfl
  | cons name before =>
    simp only [List.head?_cons, namesake]
    split_ifs
    · rfl
    · exact String.toList_ofList

/-- The path of a diagnostic is the directory with one component more, which is a name and not a
step to a parent. It is decided by the last component of the input, or by there being none. -/
theorem diagnosticPath_inside (input directory : String) :
    let name := namesake (Path.components input.toList).getLast? ++ ".invalid.csv".toList
    Path.IsComponent name ∧ name ≠ ['.', '.'] ∧
    (diagnosticPath input directory).toList =
      directory.toList ++ (if directory.toList.getLast?.getD '/' = '/' then [] else ['/']) ++
        name ∧
    Path.components (diagnosticPath input directory).toList =
      Path.components directory.toList ++ [name] ∧
    Path.isAbsolute (diagnosticPath input directory).toList =
      Path.isAbsolute directory.toList ∧
    Path.Same (Path.parent (diagnosticPath input directory)) directory := by
  intro name
  have hname : (diagnosticName input).toList = name := toList_diagnosticName input
  have hlong : 2 < name.length := hname ▸ length_diagnosticName input
  have hcomponent : Path.IsComponent name :=
    ⟨Path.counts_of_length (by omega), hname ▸ not_mem_diagnosticName input⟩
  have htext := Path.toList_join_of_isComponent directory (hname ▸ hcomponent)
  have hcomponents := Path.components_join_of_isComponent directory (hname ▸ hcomponent)
  have habsolute := Path.isAbsolute_join_of_isComponent directory (hname ▸ hcomponent)
  rw [← diagnosticPath] at htext hcomponents habsolute
  rw [hname] at htext hcomponents
  refine ⟨hcomponent, ?_, htext, hcomponents, habsolute, ?_, Path.components_parent hcomponents⟩
  · intro hparent
    rw [hparent] at hlong
    exact absurd hlong (by decide)
  · rw [Path.isAbsolute_parent hcomponents, habsolute]

end MifirReport.Batch
