import MifirReport.Text.Case
import Mathlib.Data.List.Basic
import Mathlib.Tactic.SplitIfs

/-!
# Lower case and ASCII words

The lower case of a text is made of that of its characters (`unicodeLower`), but for the capital
sigma, which has another one at the end of a word (`unicodeLowerText`). A text is a word in lower
case, as `isWord` compares them, just if its lower case is that word (`isWord_iff`) : beside the
ASCII letters, only the Kelvin sign and the dotted capital I have a lower case with an ASCII letter
in it, and that of the latter is not ASCII as a whole.

So the two ways to compare a word differ in the Kelvin sign alone, and agree on words without a `k`
(`isWord_iff_isWordAscii`).
-/

namespace MifirReport.Text

/-! ## The lower case of a text -/

/-- Characters whose lower case is a single one : the code points from `first` to `last` in steps of
`step`, with the lower case of `first`. That of the others is as far from it as they are from
`first`. -/
structure CaseRange where
  first : Nat
  last : Nat
  step : Nat
  lowered : Nat

/-- Whether a code point is in a range. -/
def CaseRange.covers (range : CaseRange) (n : Nat) : Bool :=
  range.first ≤ n && n ≤ range.last && (n - range.first) % range.step == 0

/-- The ranges of Unicode 14, in ascending order. -/
def caseRanges : List CaseRange :=
  [⟨0x41, 0x5A, 1, 0x61⟩, ⟨0xC0, 0xD6, 1, 0xE0⟩, ⟨0xD8, 0xDE, 1, 0xF8⟩, ⟨0x100, 0x12E, 2, 0x101⟩,
    ⟨0x132, 0x136, 2, 0x133⟩, ⟨0x139, 0x147, 2, 0x13A⟩, ⟨0x14A, 0x176, 2, 0x14B⟩,
    ⟨0x178, 0x178, 1, 0xFF⟩, ⟨0x179, 0x17D, 2, 0x17A⟩, ⟨0x181, 0x181, 1, 0x253⟩,
    ⟨0x182, 0x184, 2, 0x183⟩, ⟨0x186, 0x186, 1, 0x254⟩, ⟨0x187, 0x187, 1, 0x188⟩,
    ⟨0x189, 0x18A, 1, 0x256⟩, ⟨0x18B, 0x18B, 1, 0x18C⟩, ⟨0x18E, 0x18E, 1, 0x1DD⟩,
    ⟨0x18F, 0x18F, 1, 0x259⟩, ⟨0x190, 0x190, 1, 0x25B⟩, ⟨0x191, 0x191, 1, 0x192⟩,
    ⟨0x193, 0x193, 1, 0x260⟩, ⟨0x194, 0x194, 1, 0x263⟩, ⟨0x196, 0x196, 1, 0x269⟩,
    ⟨0x197, 0x197, 1, 0x268⟩, ⟨0x198, 0x198, 1, 0x199⟩, ⟨0x19C, 0x19C, 1, 0x26F⟩,
    ⟨0x19D, 0x19D, 1, 0x272⟩, ⟨0x19F, 0x19F, 1, 0x275⟩, ⟨0x1A0, 0x1A4, 2, 0x1A1⟩,
    ⟨0x1A6, 0x1A6, 1, 0x280⟩, ⟨0x1A7, 0x1A7, 1, 0x1A8⟩, ⟨0x1A9, 0x1A9, 1, 0x283⟩,
    ⟨0x1AC, 0x1AC, 1, 0x1AD⟩, ⟨0x1AE, 0x1AE, 1, 0x288⟩, ⟨0x1AF, 0x1AF, 1, 0x1B0⟩,
    ⟨0x1B1, 0x1B2, 1, 0x28A⟩, ⟨0x1B3, 0x1B5, 2, 0x1B4⟩, ⟨0x1B7, 0x1B7, 1, 0x292⟩,
    ⟨0x1B8, 0x1B8, 1, 0x1B9⟩, ⟨0x1BC, 0x1BC, 1, 0x1BD⟩, ⟨0x1C4, 0x1C4, 1, 0x1C6⟩,
    ⟨0x1C5, 0x1C5, 1, 0x1C6⟩, ⟨0x1C7, 0x1C7, 1, 0x1C9⟩, ⟨0x1C8, 0x1C8, 1, 0x1C9⟩,
    ⟨0x1CA, 0x1CA, 1, 0x1CC⟩, ⟨0x1CB, 0x1DB, 2, 0x1CC⟩, ⟨0x1DE, 0x1EE, 2, 0x1DF⟩,
    ⟨0x1F1, 0x1F1, 1, 0x1F3⟩, ⟨0x1F2, 0x1F4, 2, 0x1F3⟩, ⟨0x1F6, 0x1F6, 1, 0x195⟩,
    ⟨0x1F7, 0x1F7, 1, 0x1BF⟩, ⟨0x1F8, 0x21E, 2, 0x1F9⟩, ⟨0x220, 0x220, 1, 0x19E⟩,
    ⟨0x222, 0x232, 2, 0x223⟩, ⟨0x23A, 0x23A, 1, 0x2C65⟩, ⟨0x23B, 0x23B, 1, 0x23C⟩,
    ⟨0x23D, 0x23D, 1, 0x19A⟩, ⟨0x23E, 0x23E, 1, 0x2C66⟩, ⟨0x241, 0x241, 1, 0x242⟩,
    ⟨0x243, 0x243, 1, 0x180⟩, ⟨0x244, 0x244, 1, 0x289⟩, ⟨0x245, 0x245, 1, 0x28C⟩,
    ⟨0x246, 0x24E, 2, 0x247⟩, ⟨0x370, 0x372, 2, 0x371⟩, ⟨0x376, 0x376, 1, 0x377⟩,
    ⟨0x37F, 0x37F, 1, 0x3F3⟩, ⟨0x386, 0x386, 1, 0x3AC⟩, ⟨0x388, 0x38A, 1, 0x3AD⟩,
    ⟨0x38C, 0x38C, 1, 0x3CC⟩, ⟨0x38E, 0x38F, 1, 0x3CD⟩, ⟨0x391, 0x3A1, 1, 0x3B1⟩,
    ⟨0x3A3, 0x3AB, 1, 0x3C3⟩, ⟨0x3CF, 0x3CF, 1, 0x3D7⟩, ⟨0x3D8, 0x3EE, 2, 0x3D9⟩,
    ⟨0x3F4, 0x3F4, 1, 0x3B8⟩, ⟨0x3F7, 0x3F7, 1, 0x3F8⟩, ⟨0x3F9, 0x3F9, 1, 0x3F2⟩,
    ⟨0x3FA, 0x3FA, 1, 0x3FB⟩, ⟨0x3FD, 0x3FF, 1, 0x37B⟩, ⟨0x400, 0x40F, 1, 0x450⟩,
    ⟨0x410, 0x42F, 1, 0x430⟩, ⟨0x460, 0x480, 2, 0x461⟩, ⟨0x48A, 0x4BE, 2, 0x48B⟩,
    ⟨0x4C0, 0x4C0, 1, 0x4CF⟩, ⟨0x4C1, 0x4CD, 2, 0x4C2⟩, ⟨0x4D0, 0x52E, 2, 0x4D1⟩,
    ⟨0x531, 0x556, 1, 0x561⟩, ⟨0x10A0, 0x10C5, 1, 0x2D00⟩, ⟨0x10C7, 0x10C7, 1, 0x2D27⟩,
    ⟨0x10CD, 0x10CD, 1, 0x2D2D⟩, ⟨0x13A0, 0x13EF, 1, 0xAB70⟩, ⟨0x13F0, 0x13F5, 1, 0x13F8⟩,
    ⟨0x1C90, 0x1CBA, 1, 0x10D0⟩, ⟨0x1CBD, 0x1CBF, 1, 0x10FD⟩, ⟨0x1E00, 0x1E94, 2, 0x1E01⟩,
    ⟨0x1E9E, 0x1E9E, 1, 0xDF⟩, ⟨0x1EA0, 0x1EFE, 2, 0x1EA1⟩, ⟨0x1F08, 0x1F0F, 1, 0x1F00⟩,
    ⟨0x1F18, 0x1F1D, 1, 0x1F10⟩, ⟨0x1F28, 0x1F2F, 1, 0x1F20⟩, ⟨0x1F38, 0x1F3F, 1, 0x1F30⟩,
    ⟨0x1F48, 0x1F4D, 1, 0x1F40⟩, ⟨0x1F59, 0x1F5F, 2, 0x1F51⟩, ⟨0x1F68, 0x1F6F, 1, 0x1F60⟩,
    ⟨0x1F88, 0x1F8F, 1, 0x1F80⟩, ⟨0x1F98, 0x1F9F, 1, 0x1F90⟩, ⟨0x1FA8, 0x1FAF, 1, 0x1FA0⟩,
    ⟨0x1FB8, 0x1FB9, 1, 0x1FB0⟩, ⟨0x1FBA, 0x1FBB, 1, 0x1F70⟩, ⟨0x1FBC, 0x1FBC, 1, 0x1FB3⟩,
    ⟨0x1FC8, 0x1FCB, 1, 0x1F72⟩, ⟨0x1FCC, 0x1FCC, 1, 0x1FC3⟩, ⟨0x1FD8, 0x1FD9, 1, 0x1FD0⟩,
    ⟨0x1FDA, 0x1FDB, 1, 0x1F76⟩, ⟨0x1FE8, 0x1FE9, 1, 0x1FE0⟩, ⟨0x1FEA, 0x1FEB, 1, 0x1F7A⟩,
    ⟨0x1FEC, 0x1FEC, 1, 0x1FE5⟩, ⟨0x1FF8, 0x1FF9, 1, 0x1F78⟩, ⟨0x1FFA, 0x1FFB, 1, 0x1F7C⟩,
    ⟨0x1FFC, 0x1FFC, 1, 0x1FF3⟩, ⟨0x2126, 0x2126, 1, 0x3C9⟩, ⟨0x212A, 0x212A, 1, 0x6B⟩,
    ⟨0x212B, 0x212B, 1, 0xE5⟩, ⟨0x2132, 0x2132, 1, 0x214E⟩, ⟨0x2160, 0x216F, 1, 0x2170⟩,
    ⟨0x2183, 0x2183, 1, 0x2184⟩, ⟨0x24B6, 0x24CF, 1, 0x24D0⟩, ⟨0x2C00, 0x2C2F, 1, 0x2C30⟩,
    ⟨0x2C60, 0x2C60, 1, 0x2C61⟩, ⟨0x2C62, 0x2C62, 1, 0x26B⟩, ⟨0x2C63, 0x2C63, 1, 0x1D7D⟩,
    ⟨0x2C64, 0x2C64, 1, 0x27D⟩, ⟨0x2C67, 0x2C6B, 2, 0x2C68⟩, ⟨0x2C6D, 0x2C6D, 1, 0x251⟩,
    ⟨0x2C6E, 0x2C6E, 1, 0x271⟩, ⟨0x2C6F, 0x2C6F, 1, 0x250⟩, ⟨0x2C70, 0x2C70, 1, 0x252⟩,
    ⟨0x2C72, 0x2C72, 1, 0x2C73⟩, ⟨0x2C75, 0x2C75, 1, 0x2C76⟩, ⟨0x2C7E, 0x2C7F, 1, 0x23F⟩,
    ⟨0x2C80, 0x2CE2, 2, 0x2C81⟩, ⟨0x2CEB, 0x2CED, 2, 0x2CEC⟩, ⟨0x2CF2, 0x2CF2, 1, 0x2CF3⟩,
    ⟨0xA640, 0xA66C, 2, 0xA641⟩, ⟨0xA680, 0xA69A, 2, 0xA681⟩, ⟨0xA722, 0xA72E, 2, 0xA723⟩,
    ⟨0xA732, 0xA76E, 2, 0xA733⟩, ⟨0xA779, 0xA77B, 2, 0xA77A⟩, ⟨0xA77D, 0xA77D, 1, 0x1D79⟩,
    ⟨0xA77E, 0xA786, 2, 0xA77F⟩, ⟨0xA78B, 0xA78B, 1, 0xA78C⟩, ⟨0xA78D, 0xA78D, 1, 0x265⟩,
    ⟨0xA790, 0xA792, 2, 0xA791⟩, ⟨0xA796, 0xA7A8, 2, 0xA797⟩, ⟨0xA7AA, 0xA7AA, 1, 0x266⟩,
    ⟨0xA7AB, 0xA7AB, 1, 0x25C⟩, ⟨0xA7AC, 0xA7AC, 1, 0x261⟩, ⟨0xA7AD, 0xA7AD, 1, 0x26C⟩,
    ⟨0xA7AE, 0xA7AE, 1, 0x26A⟩, ⟨0xA7B0, 0xA7B0, 1, 0x29E⟩, ⟨0xA7B1, 0xA7B1, 1, 0x287⟩,
    ⟨0xA7B2, 0xA7B2, 1, 0x29D⟩, ⟨0xA7B3, 0xA7B3, 1, 0xAB53⟩, ⟨0xA7B4, 0xA7C2, 2, 0xA7B5⟩,
    ⟨0xA7C4, 0xA7C4, 1, 0xA794⟩, ⟨0xA7C5, 0xA7C5, 1, 0x282⟩, ⟨0xA7C6, 0xA7C6, 1, 0x1D8E⟩,
    ⟨0xA7C7, 0xA7C9, 2, 0xA7C8⟩, ⟨0xA7D0, 0xA7D0, 1, 0xA7D1⟩, ⟨0xA7D6, 0xA7D8, 2, 0xA7D7⟩,
    ⟨0xA7F5, 0xA7F5, 1, 0xA7F6⟩, ⟨0xFF21, 0xFF3A, 1, 0xFF41⟩, ⟨0x10400, 0x10427, 1, 0x10428⟩,
    ⟨0x104B0, 0x104D3, 1, 0x104D8⟩, ⟨0x10570, 0x1057A, 1, 0x10597⟩, ⟨0x1057C, 0x1058A, 1, 0x105A3⟩,
    ⟨0x1058C, 0x10592, 1, 0x105B3⟩, ⟨0x10594, 0x10595, 1, 0x105BB⟩, ⟨0x10C80, 0x10CB2, 1, 0x10CC0⟩,
    ⟨0x118A0, 0x118BF, 1, 0x118C0⟩, ⟨0x16E40, 0x16E5F, 1, 0x16E60⟩, ⟨0x1E900, 0x1E921, 1, 0x1E922⟩]

/-- Lower case of a character. -/
def unicodeLower (c : Char) : List Char :=
  if c = '\u0130' then ['i', '\u0307']
  else
    match caseRanges.find? (·.covers c.toNat) with
    | some range => [Char.ofNat (range.lowered + (c.toNat - range.first))]
    | none => [c]

/-- Lower case of a text, of which the characters in `before` have been passed, the last of them
first. Whether a capital sigma ends a word is for `isFinal` to say, from what is before it and what
is after it. -/
def unicodeLowerText (isFinal : List Char → List Char → Bool) (before : List Char) :
    List Char → List Char
  | [] => []
  | c :: cs =>
    (if c = 'Σ' ∧ isFinal before cs = true then ['ς'] else unicodeLower c) ++
      unicodeLowerText isFinal (c :: before) cs

/-! ## Texts that are the same word -/

/-- Two texts are the same word, if one of them is a word of certain characters. -/
def SameWord (p : Char → Prop) (as bs : List Char) : Prop :=
  ∀ word : List Char, (∀ c ∈ word, p c) → (as = word ↔ bs = word)

/-- Both texts have a character that is not in such a word, or they are the same. -/
def Replaceable (p : Char → Prop) (as bs : List Char) : Prop :=
  as = bs ∨ (∃ c ∈ as, ¬p c) ∧ ∃ c ∈ bs, ¬p c

variable {p : Char → Prop} {as bs as' bs' : List Char} {c : Char}

theorem SameWord.append (h : Replaceable p as bs) (h' : SameWord p as' bs') :
    SameWord p (as ++ as') (bs ++ bs') := by
  intro word hword
  rcases h with rfl | ⟨⟨c, hc, hpc⟩, d, hd, hpd⟩
  · constructor
    · rintro rfl
      rw [(h' as' fun c hc => hword c (List.mem_append_right _ hc)).1 rfl]
    · rintro rfl
      rw [(h' bs' fun c hc => hword c (List.mem_append_right _ hc)).2 rfl]
  · constructor
    · rintro rfl
      exact absurd (hword c (List.mem_append_left _ hc)) hpc
    · rintro rfl
      exact absurd (hword d (List.mem_append_left _ hd)) hpd

theorem replaceable_singleton {c d : Char} (hc : ¬p c) (hd : ¬p d) : Replaceable p [c] [d] :=
  Or.inr ⟨⟨c, List.mem_cons_self, hc⟩, d, List.mem_cons_self, hd⟩

/-! ## Lower case that is ASCII -/

/-- Whether a character is ASCII. -/
def IsAscii (c : Char) : Prop :=
  c.toNat < 0x80

instance (c : Char) : Decidable (IsAscii c) :=
  inferInstanceAs (Decidable (_ < _))

/-- A range outside ASCII has its lower case outside ASCII, but for the Kelvin sign. -/
theorem caseRanges_outside : ∀ range ∈ caseRanges, 0x80 ≤ range.last →
    range.first = 0x212A ∧ range.last = 0x212A ∨ 0x80 ≤ range.lowered ∧
      (range.lowered + (range.last - range.first) < 0xD800 ∨ 0xE000 ≤ range.lowered ∧
        range.lowered + (range.last - range.first) < 0x110000) := by
  decide +kernel

/-- On ASCII `lower` gives the lower case. -/
theorem unicodeLower_of_ascii : ∀ n < 0x80, unicodeLower (Char.ofNat n) = lower (Char.ofNat n) := by
  decide +kernel

/-- Outside ASCII the lower case of a character is a single one that is not ASCII either, but for
the dotted capital I and the Kelvin sign. -/
theorem unicodeLower_of_not_ascii (hc : ¬IsAscii c) (hdotted : c ≠ '\u0130')
    (hkelvin : c ≠ '\u212A') : ∃ d, unicodeLower c = [d] ∧ ¬IsAscii d := by
  rw [unicodeLower, if_neg hdotted]
  cases hfind : caseRanges.find? (·.covers c.toNat) with
  | none => exact ⟨c, rfl, hc⟩
  | some range =>
    have hcovers := List.find?_some hfind
    simp only [CaseRange.covers, Bool.and_eq_true, decide_eq_true_eq] at hcovers
    obtain ⟨⟨hfirst, hlast⟩, -⟩ := hcovers
    refine ⟨_, rfl, ?_⟩
    rcases caseRanges_outside range (List.mem_of_find?_eq_some hfind)
      (Nat.le_trans (Nat.le_of_not_lt hc) hlast) with ⟨hfirst', hlast'⟩ | ⟨hlowered, hbound⟩
    · have hnumber : c.toNat = 0x212A := by omega
      exact absurd (by rw [← Char.ofNat_toNat c, hnumber]) hkelvin
    · have hvalid : (range.lowered + (c.toNat - range.first)).isValidChar := by
        rw [Nat.isValidChar]
        omega
      rw [IsAscii, Char.ofNat, dif_pos hvalid]
      exact Nat.not_lt.2 (Nat.le_add_right_of_le hlowered)

/-- Outside ASCII `lower` changes the same two characters only. -/
theorem lower_of_not_ascii (hc : ¬IsAscii c) (hdotted : c ≠ '\u0130') (hkelvin : c ≠ '\u212A') :
    lower c = [c] := by
  have hletter : ¬('A' ≤ c ∧ c ≤ 'Z') := by
    rintro ⟨-, hle⟩
    have hnumber : c.toNat ≤ 'Z'.toNat := hle
    exact hc (Nat.lt_of_le_of_lt hnumber (by decide))
  rw [lower, if_neg hdotted, if_neg hkelvin, asciiLower, if_neg hletter]

/-- Where `lower` does not give the lower case of a character, neither is ASCII. -/
theorem replaceable_unicodeLower (c : Char) : Replaceable IsAscii (unicodeLower c) (lower c) := by
  by_cases hc : IsAscii c
  · have hsame := unicodeLower_of_ascii c.toNat hc
    rw [Char.ofNat_toNat] at hsame
    exact Or.inl hsame
  by_cases hdotted : c = '\u0130'
  · exact Or.inl (by rw [hdotted]; rfl)
  by_cases hkelvin : c = '\u212A'
  · exact Or.inl (by rw [hkelvin]; decide +kernel)
  obtain ⟨d, hlowered, hd⟩ := unicodeLower_of_not_ascii hc hdotted hkelvin
  rw [hlowered, lower_of_not_ascii hc hdotted hkelvin]
  exact replaceable_singleton hd hc

/-- Neither small sigma is ASCII. -/
theorem replaceable_finalSigma : Replaceable IsAscii ['ς'] (lower 'Σ') :=
  replaceable_singleton (by decide) (by decide)

/-- Without a `k`, the lower case of a character is ASCII as far as that of ASCII letters is. -/
theorem replaceable_asciiLower (c : Char) :
    Replaceable (fun d => IsAscii d ∧ d ≠ 'k') (lower c) [asciiLower c] := by
  by_cases hdotted : c = '\u0130'
  · rw [hdotted]
    exact Or.inr ⟨⟨'\u0307', by decide, by decide⟩, '\u0130', by decide, by decide⟩
  by_cases hkelvin : c = '\u212A'
  · rw [hkelvin]
    exact Or.inr ⟨⟨'k', by decide, by decide⟩, '\u212A', by decide, by decide⟩
  · rw [lower, if_neg hdotted, if_neg hkelvin]
    exact Or.inl rfl

/-! ## Comparing words -/

/-- As far as ASCII words can tell, `lower` gives the lower case of a text. -/
theorem sameWord_unicodeLowerText (isFinal : List Char → List Char → Bool)
    (before cs : List Char) :
    SameWord IsAscii (unicodeLowerText isFinal before cs) (cs.flatMap lower) := by
  induction cs generalizing before with
  | nil => exact fun _ _ => Iff.rfl
  | cons c cs ih =>
    rw [unicodeLowerText, List.flatMap_cons]
    refine SameWord.append ?_ (ih (c :: before))
    split_ifs with hsigma
    · rw [hsigma.1]
      exact replaceable_finalSigma
    · exact replaceable_unicodeLower c

theorem sameWord_asciiLower (cs : List Char) :
    SameWord (fun d => IsAscii d ∧ d ≠ 'k') (cs.flatMap lower) (cs.map asciiLower) := by
  induction cs with
  | nil => exact fun _ _ => Iff.rfl
  | cons c cs ih =>
    rw [List.flatMap_cons, List.map_cons, ← List.singleton_append]
    exact SameWord.append (replaceable_asciiLower c) ih

/-- A text is an ASCII word in lower case just if its lower case is that word. -/
theorem isWord_iff {word : String} (hword : ∀ c ∈ word.toList, IsAscii c)
    (isFinal : List Char → List Char → Bool) (cs : List Char) :
    isWord word cs = true ↔ unicodeLowerText isFinal [] cs = word.toList := by
  rw [isWord, beq_iff_eq]
  exact (sameWord_unicodeLowerText isFinal [] cs word.toList hword).symm

/-- The two ways to compare a word agree on ASCII words without a `k`. -/
theorem isWord_iff_isWordAscii {word word' : String}
    (hword : ∀ c ∈ word.toList, IsAscii c ∧ c ≠ 'k')
    (hsame : word'.toList.map asciiLower = word.toList) (cs : List Char) :
    isWord word cs = true ↔ isWordAscii word' cs = true := by
  rw [isWord, beq_iff_eq, isWordAscii, beq_iff_eq, hsame]
  exact sameWord_asciiLower cs word.toList hword

end MifirReport.Text
