import MifirReport.Proofs.Xml.Cutting
import MifirReport.Xml.Attribute
import Mathlib.Data.List.Chain

/-!
# Pieces as they are written

A `Piece` is a piece of a document with all that its writer may choose : the blanks inside a tag,
the quotes around a value, the writing of each character. `Piece.chars` is its text and
`Piece.markup` what is left of it once it is cut off. The text of legal pieces, in which no
character data meets character data, is cut into these pieces (`cut_pieces`).
-/

namespace MifirReport.Xml

/-! ## Words -/

/-- A word ends where a character stands that does not belong to words. -/
theorem takeWhile_word {p : Char → Bool} {word : List Char} (hword : ∀ c ∈ word, p c = true)
    (rest : List Char) (hrest : ∀ c ∈ rest.head?, p c = false) :
    (word ++ rest).takeWhile p = word := by
  rw [List.takeWhile_append_of_pos hword]
  cases rest with
  | nil => rw [List.takeWhile_nil, List.append_nil]
  | cons c rest => rw [List.takeWhile_cons_of_neg (by simp [hrest c rfl]), List.append_nil]

theorem dropWhile_word {p : Char → Bool} {word : List Char} (hword : ∀ c ∈ word, p c = true)
    (rest : List Char) (hrest : ∀ c ∈ rest.head?, p c = false) :
    (word ++ rest).dropWhile p = rest := by
  rw [List.dropWhile_append_of_pos hword]
  cases rest with
  | nil => rfl
  | cons c rest => rw [List.dropWhile_cons_of_neg (by simp [hrest c rfl])]

theorem dropWhile_all {p : Char → Bool} {word : List Char} (hword : ∀ c ∈ word, p c = true) :
    word.dropWhile p = [] := by
  have := dropWhile_word hword [] (by simp)
  rwa [List.append_nil] at this

theorem decide_ne_of_not_mem {c : Char} {cs : List Char} (h : c ∉ cs) :
    ∀ d ∈ cs, decide (d ≠ c) = true := by
  intro d hd
  rw [decide_eq_true_iff]
  rintro rfl
  exact h hd

/-! ## Names -/

/-- The characters that begin a name, but for the colon, as inclusive ranges in ascending order. -/
def nameStartRanges : List (Nat × Nat) :=
  [(0x41, 0x5A), (0x5F, 0x5F), (0x61, 0x7A), (0xC0, 0xD6), (0xD8, 0xF6), (0xF8, 0x2FF),
    (0x370, 0x37D), (0x37F, 0x1FFF), (0x200C, 0x200D), (0x2070, 0x218F), (0x2C00, 0x2FEF),
    (0x3001, 0xD7FF), (0xF900, 0xFDCF), (0xFDF0, 0xFFFD), (0x10000, 0xEFFFF)]

/-- The other characters of a name : hyphen, dot, digits and marks. -/
def nameMarkRanges : List (Nat × Nat) :=
  [(0x2D, 0x2E), (0x30, 0x39), (0xB7, 0xB7), (0x300, 0x36F), (0x203F, 0x2040)]

/-- Whether a character is in one of some ranges. -/
def inRanges (ranges : List (Nat × Nat)) (c : Char) : Bool :=
  ranges.any fun range => range.1 ≤ c.toNat && c.toNat ≤ range.2

/-- Whether a character may stand in a name without a colon. -/
def isNameChar (c : Char) : Bool :=
  inRanges nameStartRanges c || inRanges nameMarkRanges c

/-- Whether a text is a name without a colon. -/
def isName : List Char → Bool
  | [] => false
  | c :: cs => inRanges nameStartRanges c && cs.all isNameChar

/-- Whether a character may stand in the name of a tag or an attribute. -/
def isTagChar (c : Char) : Bool :=
  isNameChar c || c == ':'

theorem isNameChar_of_isName {name : List Char} (h : isName name = true) :
    ∀ c ∈ name, isNameChar c = true := by
  cases name with
  | nil => cases h
  | cons c cs =>
    rw [isName, Bool.and_eq_true] at h
    rw [List.forall_mem_cons, ← List.all_eq_true]
    exact ⟨by rw [isNameChar, h.1, Bool.true_or], h.2⟩

theorem ne_nil_of_isName {name : List Char} (h : isName name = true) : name ≠ [] := by
  rintro rfl
  cases h

theorem not_mem_of_isName {name : List Char} (h : isName name = true) {c : Char}
    (hc : isNameChar c = false) : c ∉ name := by
  intro hmem
  rw [isNameChar_of_isName h c hmem] at hc
  cases hc

theorem isTagChar_of_isNameChar {c : Char} (h : isNameChar c = true) : isTagChar c = true := by
  rw [isTagChar, h, Bool.true_or]

/-- A text in which only characters of names stand. -/
def IsTagName (name : List Char) : Prop :=
  name ≠ [] ∧ ∀ c ∈ name, isTagChar c = true

theorem isTagName_of_isName {name : List Char} (h : isName name = true) : IsTagName name :=
  ⟨ne_nil_of_isName h, fun c hc => isTagChar_of_isNameChar (isNameChar_of_isName h c hc)⟩

/-- None of the characters that end a name stands in it. -/
theorem IsTagName.ne {name : List Char} (h : IsTagName name) {c : Char} (hc : c ∈ name)
    (special : Char) (hspecial : isTagChar special = false) : c ≠ special := by
  rintro rfl
  rw [h.2 c hc] at hspecial
  cases hspecial

theorem IsTagName.isSpace {name : List Char} (h : IsTagName name) {c : Char} (hc : c ∈ name) :
    isSpace c = false := by
  have h₁ := h.ne hc ' ' (by decide)
  have h₂ := h.ne hc '\t' (by decide)
  have h₃ := h.ne hc '\n' (by decide)
  have h₄ := h.ne hc '\r' (by decide)
  simp [Xml.isSpace, h₁, h₂, h₃, h₄]

/-! ## Tags -/

/-- An attribute as it is written : blanks, the key, an equals sign between blanks, and the value
between quotes. -/
structure AttributeText where
  before : List Char
  key : List Char
  left : List Char := []
  right : List Char := []
  quote : Char := '"'
  raw : List Char

namespace AttributeText

/-- The value and the quotes around it. -/
def quoted (a : AttributeText) : List Char :=
  a.quote :: a.raw ++ [a.quote]

/-- The text of an attribute. -/
def chars (a : AttributeText) : List Char :=
  a.before ++ a.key ++ a.left ++ ['='] ++ a.right ++ a.quoted

/-- An attribute is written as it may be : apart from what is before it, and with quotes that do not
stand in the value. -/
structure Legal (a : AttributeText) : Prop where
  apart : a.before ≠ []
  before : ∀ c ∈ a.before, isSpace c = true
  left : ∀ c ∈ a.left, isSpace c = true
  right : ∀ c ∈ a.right, isSpace c = true
  quote : a.quote = '"' ∨ a.quote = '\''
  raw : a.quote ∉ a.raw

end AttributeText

/-- The content of a tag as it is written : the name, attributes and blanks. -/
structure TagText where
  name : List Char
  attributes : List AttributeText := []
  gap : List Char := []

namespace TagText

/-- What follows the name. -/
def body (t : TagText) : List Char :=
  t.attributes.flatMap AttributeText.chars ++ t.gap

/-- The text of the content of a tag. -/
def chars (t : TagText) : List Char :=
  t.name ++ t.body

/-- The content of a tag is written as it may be. -/
structure Legal (t : TagText) : Prop where
  name : IsTagName t.name
  attributes : ∀ a ∈ t.attributes, a.Legal
  keys : ∀ a ∈ t.attributes, IsTagName a.key
  gap : ∀ c ∈ t.gap, isSpace c = true

end TagText

/-! ## Pieces -/

/-- A piece of a document as it is written. -/
inductive Piece
  | text (raw : List Char)
  | start (tag : TagText)
  | empty (tag : TagText)
  | close (name gap : List Char)
  | cdata (content : List Char)
  | comment (content : List Char)
  | instruction (content : List Char)

namespace Piece

/-- The text of a piece. -/
def chars : Piece → List Char
  | text raw => raw
  | start tag => '<' :: tag.chars ++ ['>']
  | empty tag => '<' :: tag.chars ++ ['/', '>']
  | close name gap => '<' :: '/' :: name ++ gap ++ ['>']
  | cdata content => "<![CDATA[".toList ++ content ++ "]]>".toList
  | comment content => "<!--".toList ++ content ++ "-->".toList
  | instruction content => "<?".toList ++ content ++ "?>".toList

/-- What a piece is cut off as. -/
def markup : Piece → Markup
  | text raw => .text raw
  | start tag => .start tag.chars
  | empty tag => .empty tag.chars
  | close name _ => .close name
  | cdata content => .cdata content
  | comment content => .comment content
  | instruction content => .instruction content

/-- Whether a piece is character data. -/
def isText (p : Piece) : Bool :=
  p.markup.isText

/-- A piece is written as it may be. Two hyphens may not stand in a comment, nor one at its end. -/
def Legal : Piece → Prop
  | text raw => raw ≠ [] ∧ '<' ∉ raw
  | start tag => tag.Legal
  | empty tag => tag.Legal
  | close name gap => IsTagName name ∧ ∀ c ∈ gap, isSpace c = true
  | cdata content => ¬"]]>".toList <:+: content
  | comment content => ¬"--".toList <:+: content ++ ['-']
  | instruction content => content.head? ≠ some '>' ∧ ¬"?>".toList <:+: content

end Piece

/-! ## Where pieces end -/

namespace Markup

/-- The search for the end of a tag passes over a text. -/
def Passes (cs : List Char) : Prop :=
  ∀ seen rest, splitTag? none seen (cs ++ rest) = splitTag? none (cs.reverse ++ seen) rest

theorem Passes.append {cs ds : List Char} (h : Passes cs) (h' : Passes ds) : Passes (cs ++ ds) := by
  intro seen rest
  rw [List.append_assoc, h, h', List.reverse_append, List.append_assoc]

theorem passes_flatMap {α : Type} {f : α → List Char} {xs : List α}
    (h : ∀ x ∈ xs, Passes (f x)) : Passes (xs.flatMap f) := by
  induction xs with
  | nil => exact fun _ _ => rfl
  | cons x xs ih =>
    rw [List.forall_mem_cons] at h
    rw [List.flatMap_cons]
    exact h.1.append (ih h.2)

/-- Only the end of a tag and the two quotes stop the search. -/
theorem passes_of_ne {cs : List Char} (h : ∀ c ∈ cs, c ≠ '>' ∧ c ≠ '"' ∧ c ≠ '\'') :
    Passes cs := by
  induction cs with
  | nil => exact fun _ _ => rfl
  | cons c cs ih =>
    rw [List.forall_mem_cons] at h
    obtain ⟨⟨hend, hdouble, hsingle⟩, h⟩ := h
    intro seen rest
    rw [List.cons_append, splitTag?, if_neg hend, if_neg (not_or.2 ⟨hdouble, hsingle⟩), ih h]
    simp

theorem passes_of_isSpace {cs : List Char} (h : ∀ c ∈ cs, isSpace c = true) : Passes cs := by
  refine passes_of_ne fun c hc => ?_
  have := h c hc
  refine ⟨?_, ?_, ?_⟩ <;>
  · rintro rfl
    exact absurd this (by decide)

theorem passes_of_isTagName {name : List Char} (h : IsTagName name) : Passes name :=
  passes_of_ne fun _ hc =>
    ⟨h.ne hc '>' (by decide), h.ne hc '"' (by decide), h.ne hc '\'' (by decide)⟩

/-- Within quotes only the same quote stops the search, so that an end of a tag may stand there. -/
theorem splitTag?_inside {quote : Char} {raw : List Char} (h : quote ∉ raw)
    (seen rest : List Char) :
    splitTag? (some quote) seen (raw ++ quote :: rest) =
      splitTag? none (quote :: (raw.reverse ++ seen)) rest := by
  induction raw generalizing seen with
  | nil => rw [List.nil_append, splitTag?, if_pos rfl, List.reverse_nil, List.nil_append]
  | cons c raw ih =>
    rw [List.mem_cons, not_or] at h
    rw [List.cons_append, splitTag?, if_neg (Ne.symm h.1), ih h.2]
    simp

/-- The search enters the quotes of a value and leaves them at the second one. -/
theorem passes_quoted {a : AttributeText} (h : a.Legal) : Passes a.quoted := by
  intro seen rest
  have hend : a.quote ≠ '>' := by rcases h.quote with hq | hq <;> rw [hq] <;> decide
  have hquoted : a.quoted ++ rest = a.quote :: (a.raw ++ a.quote :: rest) := by
    simp [AttributeText.quoted]
  rw [hquoted, splitTag?, if_neg hend, if_pos h.quote, splitTag?_inside h.raw]
  simp [AttributeText.quoted]

theorem passes_attribute {a : AttributeText} (h : a.Legal) (hkey : IsTagName a.key) :
    Passes a.chars := by
  have hequals : Passes ['='] := passes_of_ne (by simp)
  exact ((((passes_of_isSpace h.before).append (passes_of_isTagName hkey)).append
    (passes_of_isSpace h.left)).append hequals).append (passes_of_isSpace h.right)
    |>.append (passes_quoted h)

/-- The content of a tag that is written as it may be holds no end of a tag outside quotes. -/
theorem passes_tag {t : TagText} (h : t.Legal) : Passes t.chars :=
  (passes_of_isTagName h.name).append
    ((passes_flatMap fun a ha => passes_attribute (h.attributes a ha) (h.keys a ha)).append
      (passes_of_isSpace h.gap))

/-- A text that the search passes over ends at the first end of a tag behind it. -/
theorem splitTag?_of_passes {cs : List Char} (h : Passes cs) :
    splitTag? none [] (cs ++ ['>']) = some (cs, []) := by
  rw [h, List.append_nil, splitTag?, if_pos rfl, List.reverse_reverse]

/-- A text before a mark ends there if the mark does not begin within it. -/
theorem splitAtMark?_of_forall {mark content : List Char} (hmark : mark ≠ [])
    (h : ∀ before after, content = before ++ after → after ≠ [] → ¬mark <+: after ++ mark)
    (seen : List Char) :
    splitAtMark? mark seen (content ++ mark) = some (seen.reverse ++ content, []) := by
  induction content generalizing seen with
  | nil =>
    obtain ⟨c, cs, rfl⟩ := List.exists_cons_of_ne_nil hmark
    have hhere : (c :: cs).isPrefixOf (c :: cs) = true :=
      List.isPrefixOf_iff_prefix.2 (List.prefix_refl _)
    rw [List.nil_append, splitAtMark?, if_pos hhere, List.drop_length, List.append_nil]
  | cons c content ih =>
    have hhere : ¬mark.isPrefixOf (c :: (content ++ mark)) = true := fun hmarkAt =>
      h [] (c :: content) rfl (by simp) (List.isPrefixOf_iff_prefix.1 hmarkAt)
    have hlater : ∀ before after, content = before ++ after → after ≠ [] →
        ¬mark <+: after ++ mark := by
      rintro before after rfl
      exact h (c :: before) after rfl
    rw [List.cons_append, splitAtMark?, if_neg hhere, ih hlater]
    simp

/-- A text in which a mark does not occur ends at the mark, if no end of the mark is also its
beginning. -/
theorem splitAtMark?_of_not_infix {mark content : List Char} (hmark : mark ≠ [])
    (hborder : ∀ n < mark.length, 0 < n → ¬mark.drop n <+: mark) (h : ¬mark <:+: content) :
    splitAtMark? mark [] (content ++ mark) = some (content, []) := by
  refine splitAtMark?_of_forall hmark ?_ []
  rintro before after rfl hne hmarkAt
  rcases Nat.lt_or_ge after.length mark.length with hshort | hlong
  · obtain ⟨ending, rfl⟩ : after <+: mark :=
      List.prefix_of_prefix_length_le (List.prefix_append _ _) hmarkAt (Nat.le_of_lt hshort)
    refine hborder after.length hshort (List.length_pos_iff.2 hne) ?_
    rw [List.drop_left]
    exact (List.prefix_append_right_inj after).1 hmarkAt
  · have hafter : mark <+: after :=
      List.prefix_of_prefix_length_le hmarkAt (List.prefix_append _ _) hlong
    exact h (hafter.isInfix.trans (List.suffix_append before after).isInfix)

/-! ## Legal pieces are cut off -/

/-- Blanks behind the name of an end tag are not part of the name. -/
theorem closeName_append {name gap : List Char} (hname : IsTagName name)
    (hgap : ∀ c ∈ gap, isSpace c = true) : closeName (name ++ gap) = name := by
  have hblank : ¬(name ++ gap).all isSpace = true := by
    obtain ⟨c, cs, rfl⟩ := List.exists_cons_of_ne_nil hname.1
    simp [hname.isSpace List.mem_cons_self]
  have hstop : name.reverse.dropWhile isSpace = name.reverse := by
    have hne := hname.1
    rw [← List.reverse_ne_nil_iff] at hne
    obtain ⟨c, cs, hrev⟩ := List.exists_cons_of_ne_nil hne
    have hc : isSpace c = false := hname.isSpace (by rw [← List.mem_reverse, hrev]; simp)
    rw [hrev, List.dropWhile_cons_of_neg (by simp [hc])]
  rw [closeName, if_neg hblank, List.reverse_append,
    List.dropWhile_append_of_pos (by simpa using hgap), hstop, List.reverse_reverse]

/-- The content of a start tag does not end in a slash. -/
theorem getLast?_tag {t : TagText} (h : t.Legal) : t.chars.getLast? ≠ some '/' := by
  rcases List.eq_nil_or_concat t.gap with hgap | ⟨gap, c, hgap⟩
  · rcases List.eq_nil_or_concat t.attributes with hnone | ⟨attributes, a, hlast⟩
    · intro hslash
      rw [TagText.chars, TagText.body, hnone, hgap, List.flatMap_nil, List.append_nil,
        List.append_nil] at hslash
      exact h.name.ne (List.mem_of_getLast? hslash) '/' (by decide) rfl
    · have ha : a.Legal := h.attributes a (by simp [hlast])
      have hquoted : ∃ cs, t.chars = cs ++ a.quote :: a.raw ++ [a.quote] := by
        refine ⟨t.name ++ attributes.flatMap AttributeText.chars ++
          (a.before ++ a.key ++ a.left ++ ['='] ++ a.right), ?_⟩
        simp [TagText.chars, TagText.body, hgap, hlast, AttributeText.chars, AttributeText.quoted]
      obtain ⟨cs, hcs⟩ := hquoted
      rw [hcs, List.getLast?_concat]
      rcases ha.quote with hq | hq <;> rw [hq] <;> decide
  · have hspace : isSpace c = true := h.gap c (by simp [hgap])
    have hend : t.chars.getLast? = some c := by
      simp [TagText.chars, TagText.body, hgap]
    rw [hend]
    rintro ⟨⟩
    exact absurd hspace (by decide)

/-- Character data runs up to the next markup, or to the end of the document. -/
theorem next_text {raw : List Char} (hne : raw ≠ []) (hraw : '<' ∉ raw) :
    ∃ c cs, raw = c :: cs ∧ next c cs = .ok (.text raw, []) := by
  obtain ⟨c, cs, rfl⟩ := List.exists_cons_of_ne_nil hne
  rw [List.mem_cons, not_or] at hraw
  have hall := decide_ne_of_not_mem hraw.2
  have htake := takeWhile_word hall [] (by simp)
  rw [List.append_nil] at htake
  exact ⟨c, cs, rfl, by rw [next, if_neg (Ne.symm hraw.1), htake, dropWhile_all hall]⟩

/-- A `<` before the text of a tag begins a tag. -/
theorem tag_of_legal {t : TagText} (h : t.Legal) (ending : List Char) :
    tag (t.chars ++ ending) = found .unclosedTag ofTag (splitTag? none [] (t.chars ++ ending)) := by
  obtain ⟨c, cs, hname⟩ := List.exists_cons_of_ne_nil h.name.1
  have hchars : t.chars ++ ending = c :: (cs ++ t.body ++ ending) := by
    simp [TagText.chars, hname]
  have hc : c ∈ t.name := by simp [hname]
  rw [hchars, tag]
  · exact fun _ e => h.name.ne hc '!' (by decide) (List.cons.inj e).1
  · exact fun _ e => h.name.ne hc '?' (by decide) (List.cons.inj e).1
  · exact fun _ e => h.name.ne hc '/' (by decide) (List.cons.inj e).1

/-- A legal piece on its own is cut off as a whole. -/
theorem next_piece {p : Piece} (h : p.Legal) :
    ∃ c cs, p.chars = c :: cs ∧ next c cs = .ok (p.markup, []) := by
  cases p with
  | text raw => exact next_text h.1 h.2
  | start t =>
    refine ⟨'<', t.chars ++ ['>'], rfl, ?_⟩
    rw [next, if_pos rfl, tag_of_legal h, splitTag?_of_passes (passes_tag h), found, ofTag,
      if_neg (getLast?_tag h)]
    rfl
  | empty t =>
    refine ⟨'<', t.chars ++ ['/', '>'], rfl, ?_⟩
    have hslash : Passes (t.chars ++ ['/']) := (passes_tag h).append (passes_of_ne (by simp))
    have hsplit : splitTag? none [] (t.chars ++ ['/', '>']) = some (t.chars ++ ['/'], []) := by
      have := splitTag?_of_passes hslash
      rwa [List.append_assoc] at this
    rw [next, if_pos rfl, tag_of_legal h, hsplit, found, ofTag, if_pos List.getLast?_concat,
      List.dropLast_concat]
    rfl
  | close name gap =>
    obtain ⟨hname, hgap⟩ := h
    refine ⟨'<', '/' :: name ++ gap ++ ['>'], rfl, ?_⟩
    have hsplit := splitTag?_of_passes ((passes_of_isTagName hname).append (passes_of_isSpace hgap))
    have htag : tag ('/' :: name ++ gap ++ ['>']) =
        found .unclosedTag (close ∘ closeName) (splitTag? none [] (name ++ gap ++ ['>'])) := rfl
    rw [next, if_pos rfl, htag, hsplit, found, Function.comp, closeName_append hname hgap]
    rfl
  | cdata content =>
    refine ⟨'<', "![CDATA[".toList ++ content ++ "]]>".toList, rfl, ?_⟩
    have htag : tag ("![CDATA[".toList ++ content ++ "]]>".toList) =
        found .unclosedCData cdata (splitAtMark? [']', ']', '>'] [] (content ++ [']', ']', '>'])) :=
      rfl
    have hmark : ¬[']', ']', '>'] <:+: content := h
    rw [next, if_pos rfl, htag, splitAtMark?_of_not_infix (by simp) (by decide) hmark]
    rfl
  | comment content =>
    refine ⟨'<', "!--".toList ++ content ++ "-->".toList, rfl, ?_⟩
    have htag : tag ("!--".toList ++ content ++ "-->".toList) =
        found .unclosedComment comment (splitAtMark? ['-', '-', '>'] []
          (content ++ ['-', '-', '>'])) := rfl
    have hmark : ¬['-', '-', '>'] <:+: content := by
      intro hmark
      have hhyphens : "--".toList <:+: ['-', '-', '>'] := by decide
      exact h ((hhyphens.trans hmark).trans (List.prefix_append _ _).isInfix)
    rw [next, if_pos rfl, htag, splitAtMark?_of_not_infix (by simp) (by decide) hmark]
    rfl
  | instruction content =>
    obtain ⟨hfirst, h⟩ := h
    have hmark : ¬['?', '>'] <:+: content := h
    refine ⟨'<', "?".toList ++ content ++ "?>".toList, rfl, ?_⟩
    have htag : tag ("?".toList ++ content ++ "?>".toList) =
        processing (content ++ ['?', '>']) := rfl
    rw [next, if_pos rfl, htag, processing,
      splitAtMark?_of_not_infix (by simp) (by decide) hmark]
    · rfl
    · rintro tail htail
      cases content with
      | nil => cases htail
      | cons c content => exact hfirst (congrArg some (List.cons.inj htail).1)

/-- The text of legal pieces is cut into them, if no character data meets character data. -/
theorem cut_pieces {ps : List Piece} (hlegal : ∀ p ∈ ps, p.Legal)
    (hmeet : ps.IsChain fun p q => p.isText = true → q.isText = false) :
    Cut (ps.flatMap Piece.chars) (ps.map Piece.markup) := by
  induction ps with
  | nil => exact .nil
  | cons p ps ih =>
    rw [List.forall_mem_cons] at hlegal
    obtain ⟨c, cs, hchars, hnext⟩ := next_piece hlegal.1
    rw [List.flatMap_cons, List.map_cons, hchars]
    refine (Cut.singleton hnext).append (ih hlegal.2 hmeet.tail) ?_
    rintro _ ⟨⟩ n hn
    cases ps with
    | nil => cases hn
    | cons q ps =>
      cases hn
      exact (List.isChain_cons_cons.1 hmeet).1

end Markup

end MifirReport.Xml
