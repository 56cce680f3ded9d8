import MifirReport.Xml.Reference
import Mathlib.Tactic.SplitIfs

/-!
# Escaping and its inverse

A character may be written as it is, unless it is `<` or `&`, or as a reference : by a predefined
name, or by its number in decimal or in hexadecimal digits, with any number of leading zeros and in
either case (`Denotes`). `Escapes` relates a text to all its writings of this kind. Replacing the
references gives the text back, whatever was chosen for each character : `expand_escapes`. The
character with the number zero cannot be written by number.
-/

namespace MifirReport.Xml.Reference

/-! ## References -/

/-- Digits that write a number, after others that write `value`. -/
inductive Numeral (base : Nat) : Nat → List Char → Nat → Prop
  | nil {value : Nat} : Numeral base value [] value
  | cons {value digit n : Nat} {c : Char} {cs : List Char} : digit < base →
      c = Nat.digitChar digit ∨ c = (Nat.digitChar digit).toUpper →
      Numeral base (value * base + digit) cs n → Numeral base value (c :: cs) n

/-- The predefined names. -/
def predefined : List (String × Char) :=
  [("lt", '<'), ("gt", '>'), ("amp", '&'), ("apos", '\''), ("quot", '"')]

/-- The names that a reference to a character may have. -/
inductive Denotes : List Char → Char → Prop
  | named {name : String} {c : Char} : (name, c) ∈ predefined → Denotes name.toList c
  | decimal {digits : List Char} {c : Char} : digits ≠ [] → Numeral 10 0 digits c.toNat →
      Denotes ('#' :: digits) c
  | hexadecimal {digits : List Char} {c : Char} : digits ≠ [] → Numeral 16 0 digits c.toNat →
      Denotes ('#' :: 'x' :: digits) c

/-- The writings of a text. -/
inductive Escapes : List Char → List Char → Prop
  | nil : Escapes [] []
  | plain {c : Char} {cs raw : List Char} : c ≠ '<' → c ≠ '&' → Escapes cs raw →
      Escapes (c :: cs) (c :: raw)
  | reference {c : Char} {name cs raw : List Char} : Denotes name c → Escapes cs raw →
      Escapes (c :: cs) ('&' :: name ++ ';' :: raw)

variable {base value n : Nat} {c : Char} {cs digits name raw : List Char}

/-! ## Numbers -/

theorem digitValue?_of_digitChar {digit : Nat} (h : digit < 16)
    (hc : c = Nat.digitChar digit ∨ c = (Nat.digitChar digit).toUpper) :
    digitValue? c = some digit := by
  have hall : ∀ d < 16, digitValue? (Nat.digitChar d) = some d ∧
      digitValue? (Nat.digitChar d).toUpper = some d := by
    decide
  rcases hc with rfl | rfl
  · exact (hall digit h).1
  · exact (hall digit h).2

theorem isAlphanum_of_digitChar {digit : Nat} (h : digit < 16)
    (hc : c = Nat.digitChar digit ∨ c = (Nat.digitChar digit).toUpper) :
    c.isAlphanum = true := by
  have hall : ∀ d < 16, (Nat.digitChar d).isAlphanum = true ∧
      (Nat.digitChar d).toUpper.isAlphanum = true := by
    decide
  rcases hc with rfl | rfl
  · exact (hall digit h).1
  · exact (hall digit h).2

/-- A digit is none of the characters that have no value. -/
theorem ne_of_digitValue? {digit : Nat} {special : Char} (h : digitValue? c = some digit)
    (hspecial : digitValue? special = none) : c ≠ special := by
  rintro rfl
  rw [hspecial] at h
  cases h

/-- Further digits do not make a number smaller. -/
theorem Numeral.le (h : Numeral base value digits n) (hbase : 1 ≤ base) : value ≤ n := by
  induction h with
  | nil => exact Nat.le_refl _
  | @cons value digit n c cs _ _ _ ih =>
    calc value = value * 1 := (Nat.mul_one value).symm
      _ ≤ value * base := Nat.mul_le_mul_left value hbase
      _ ≤ value * base + digit := Nat.le_add_right _ _
      _ ≤ n := ih

theorem readDigits_of_numeral (h : Numeral base value digits n) (hone : 1 ≤ base)
    (hbase : base ≤ 16) (hn : n < UInt32.size) : readDigits base value digits = .ok n := by
  induction h with
  | nil => rfl
  | @cons value digit n c cs hdigit hc hrest ih =>
    have hvalue := digitValue?_of_digitChar (Nat.lt_of_lt_of_le hdigit hbase) hc
    have hsmall : value * base + digit < UInt32.size := Nat.lt_of_le_of_lt (hrest.le hone) hn
    rw [readDigits, hvalue]
    dsimp only
    rw [if_pos hdigit, if_pos hsmall]
    exact ih hn

/-- A number may begin with any digit, but not with a sign. -/
theorem readNumber_of_numeral (h : Numeral base 0 digits n) (hdigits : digits ≠ [])
    (hone : 1 ≤ base) (hbase : base ≤ 16) (hn : n < UInt32.size) :
    readNumber base digits = .ok n := by
  have hread := readDigits_of_numeral h hone hbase hn
  cases h with
  | nil => exact absurd rfl hdigits
  | @cons _ digit _ c cs hdigit hc _ =>
    have hvalue := digitValue?_of_digitChar (Nat.lt_of_lt_of_le hdigit hbase) hc
    rw [readNumber]
    · exact hread
    · simp
    · rintro _ e
      exact ne_of_digitValue? hvalue (by decide) (List.cons.inj e).1
    · rintro _ e
      exact ne_of_digitValue? hvalue (by decide) (List.cons.inj e).1

theorem charOfNumber_toNat (h : c ≠ '\x00') : charOfNumber c.toNat = .ok c := by
  have hzero : c.toNat ≠ 0 := by
    intro e
    exact h (Char.toNat_inj.1 e)
  have hvalid : c.toNat.isValidChar := c.valid
  rw [charOfNumber, if_neg hzero, if_pos hvalid, Char.ofNat_toNat]

/-! ## Names -/

/-- Decimal digits do not look like a hexadecimal number. -/
theorem numbered_of_decimal (h : Numeral 10 0 digits n) (hdigits : digits ≠ []) :
    numbered digits = readNumber 10 digits >>= charOfNumber := by
  cases h with
  | nil => exact absurd rfl hdigits
  | @cons _ digit _ c cs hdigit hc _ =>
    have hvalue := digitValue?_of_digitChar (Nat.lt_of_lt_of_le hdigit (by decide)) hc
    rw [numbered]
    rintro _ e
    exact ne_of_digitValue? hvalue (by decide) (List.cons.inj e).1

/-- A name stands for its character. -/
theorem resolve_of_denotes (h : Denotes name c) (hc : c ≠ '\x00') (position : Nat) :
    resolve position name = .ok c := by
  have hsmall : c.toNat < UInt32.size := c.val.toNat_lt
  cases h with
  | named hname =>
    simp only [predefined, List.mem_cons, Prod.mk.injEq, List.not_mem_nil, or_false] at hname
    rcases hname with ⟨rfl, rfl⟩ | ⟨rfl, rfl⟩ | ⟨rfl, rfl⟩ | ⟨rfl, rfl⟩ | ⟨rfl, rfl⟩ <;> rfl
  | @decimal digits _ hne hdigits =>
    have hread := readNumber_of_numeral hdigits hne (by decide) (by decide) hsmall
    have hchar : numbered digits = .ok c := by
      rw [numbered_of_decimal hdigits hne, hread]
      exact charOfNumber_toNat hc
    rw [resolve, hchar]
  | @hexadecimal digits _ hne hdigits =>
    have hread := readNumber_of_numeral hdigits hne (by decide) (by decide) hsmall
    have hchar : numbered ('x' :: digits) = .ok c := by
      rw [numbered, hread]
      exact charOfNumber_toNat hc
    rw [resolve, hchar]

theorem isAlphanum_of_numeral (h : Numeral base value digits n) (hbase : base ≤ 16) :
    ∀ d ∈ digits, d.isAlphanum = true := by
  induction h with
  | nil => simp
  | @cons value digit n c cs hdigit hc _ ih =>
    rw [List.forall_mem_cons]
    exact ⟨isAlphanum_of_digitChar (Nat.lt_of_lt_of_le hdigit hbase) hc, ih⟩

/-- Names are made of letters, digits and the `#`. -/
theorem isAlphanum_of_denotes (h : Denotes name c) :
    ∀ d ∈ name, d = '#' ∨ d.isAlphanum = true := by
  cases h with
  | named hname =>
    simp only [predefined, List.mem_cons, Prod.mk.injEq, List.not_mem_nil, or_false] at hname
    rcases hname with ⟨rfl, rfl⟩ | ⟨rfl, rfl⟩ | ⟨rfl, rfl⟩ | ⟨rfl, rfl⟩ | ⟨rfl, rfl⟩ <;> simp
  | decimal _ hdigits =>
    rw [List.forall_mem_cons]
    exact ⟨Or.inl rfl, fun d hd => Or.inr (isAlphanum_of_numeral hdigits (by decide) d hd)⟩
  | hexadecimal _ hdigits =>
    rw [List.forall_mem_cons, List.forall_mem_cons]
    exact ⟨Or.inl rfl, Or.inr (by decide),
      fun d hd => Or.inr (isAlphanum_of_numeral hdigits (by decide) d hd)⟩

theorem ne_of_denotes (h : Denotes name c) {d : Char} (hd : d ∈ name) (special : Char)
    (hspecial : special ≠ '#' ∧ special.isAlphanum = false) : d ≠ special := by
  rintro rfl
  rcases isAlphanum_of_denotes h d hd with rfl | hd
  · exact hspecial.1 rfl
  · rw [hspecial.2] at hd
    cases hd

/-! ## Texts -/

/-- A `<` is never written as it is. -/
theorem not_mem_of_escapes (h : Escapes cs raw) : '<' ∉ raw := by
  induction h with
  | nil => simp
  | plain hc _ _ ih =>
    rw [List.mem_cons, not_or]
    exact ⟨Ne.symm hc, ih⟩
  | @reference c name cs raw hname _ ih =>
    have : '<' ∉ name := fun hmem => ne_of_denotes hname hmem '<' (by decide) rfl
    simp [this, ih]

/-- A reference is replaced by the character that it stands for. -/
theorem expandFrom_reference {position : Nat} (hgo : ∀ d ∈ name, (!endsName d) = true)
    (hresolve : resolve (position + 1) name = .ok c) (size : Nat) (raw : List Char) :
    expandFrom size position ('&' :: (name ++ ';' :: raw)) =
      (c :: ·) <$> expandFrom size (position + 1 + Text.byteLength name + 1) raw := by
  have htake : (name ++ ';' :: raw).takeWhile (!endsName ·) = name := by
    rw [List.takeWhile_append_of_pos hgo]
    simp [endsName]
  have hdrop : (name ++ ';' :: raw).dropWhile (!endsName ·) = ';' :: raw := by
    rw [List.dropWhile_append_of_pos hgo]
    simp [endsName]
  rw [expandFrom, if_pos rfl]
  split
  · rename_i rest hrest
    rw [hdrop] at hrest
    obtain ⟨-, rfl⟩ := List.cons.inj hrest
    dsimp only
    rw [htake, hresolve]
  · rename_i hother
    exact absurd hdrop (hother raw)

theorem expandFrom_of_escapes (h : Escapes cs raw) (hnul : '\x00' ∉ cs) (size position : Nat) :
    expandFrom size position raw = .ok cs := by
  induction h generalizing position with
  | nil => rw [expandFrom]
  | plain _ hc _ ih =>
    rw [List.mem_cons, not_or] at hnul
    rw [expandFrom, if_neg hc, ih hnul.2]
    rfl
  | @reference c name cs raw hname _ ih =>
    rw [List.mem_cons, not_or] at hnul
    have hgo : ∀ d ∈ name, (!endsName d) = true := by
      intro d hd
      have h₁ := ne_of_denotes hname hd ';' (by decide)
      have h₂ := ne_of_denotes hname hd '&' (by decide)
      simp [endsName, h₁, h₂]
    rw [List.cons_append, expandFrom_reference hgo (resolve_of_denotes hname (Ne.symm hnul.1) _),
      ih hnul.2]
    rfl

/-- Replacing the references of a writing gives the text back. -/
theorem expand_escapes (h : Escapes cs raw) (hnul : '\x00' ∉ cs) : expand raw = .ok cs :=
  expandFrom_of_escapes h hnul _ _

end MifirReport.Xml.Reference
