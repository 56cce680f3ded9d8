import MifirReport.Proofs.Xml.Syntax
import Mathlib.Data.List.TakeWhile

/-!
# Texts that end in an end tag

Where a text is followed by an end tag, its pieces are the same as without it, unless one of them
goes on into the end tag. No comment does, if the name of the end tag does not end in two hyphens,
nor anything else that has an end of its own; what is left are tags. They end where the end tag
ends, and the document with them : `next_of_append`, `cut_of_append`.
-/

namespace MifirReport.Xml.Markup

variable {mark seen cs content rest ds body name : List Char} {c : Char} {m : Markup}
  {ms : List Markup}

/-- The end tag with a given name. -/
def endTag (name : List Char) : List Char :=
  '<' :: '/' :: name ++ ['>']

/-! ## Searches that pass over a text -/

/-- What a search finds ends with the mark. -/
theorem eq_of_splitAtMark? (h : splitAtMark? mark seen cs = some (content, rest)) :
    ∃ before, cs = before ++ mark ++ rest := by
  fun_induction splitAtMark? mark seen cs with
  | case1 => simp at h
  | case2 seen c cs hmark =>
    obtain ⟨-, rfl⟩ := Prod.mk.inj (Option.some.inj h)
    obtain ⟨after, hafter⟩ := List.isPrefixOf_iff_prefix.1 hmark
    exact ⟨[], by rw [← hafter, List.drop_left, List.nil_append]⟩
  | case3 seen c cs hmark ih =>
    obtain ⟨before, rfl⟩ := ih h
    exact ⟨c :: before, rfl⟩

/-- A search finds a mark that occurs. -/
theorem splitAtMark?_ne_none (hmark : mark ≠ []) (h : mark <:+: cs) :
    splitAtMark? mark seen cs ≠ none := by
  fun_induction splitAtMark? mark seen cs with
  | case1 => exact absurd (List.infix_nil.1 h) hmark
  | case2 => simp
  | case3 seen c cs hhere ih =>
    exact ih ((List.infix_cons_iff.1 h).resolve_left (mt List.isPrefixOf_iff_prefix.2 hhere))

theorem eq_of_splitTag? {quote : Option Char}
    (h : splitTag? quote seen cs = some (content, rest)) :
    ∃ before, cs = before ++ '>' :: rest ∧ content = seen.reverse ++ before := by
  fun_induction splitTag? quote seen cs with
  | case1 => simp at h
  | case2 seen c cs q ih =>
    obtain ⟨before, rfl, rfl⟩ := ih h
    exact ⟨c :: before, rfl, by simp⟩
  | case3 seen cs =>
    obtain ⟨rfl, rfl⟩ := Prod.mk.inj (Option.some.inj h)
    exact ⟨[], rfl, by simp⟩
  | case4 seen c cs hc ih =>
    obtain ⟨before, rfl, rfl⟩ := ih h
    exact ⟨c :: before, rfl, by simp⟩

/-- A search that finds no end goes on into what follows. -/
theorem splitTag?_of_eq_none {quote : Option Char} (h : splitTag? quote seen cs = none)
    (more : List Char) : ∃ quote',
      splitTag? quote seen (cs ++ more) = splitTag? quote' (cs.reverse ++ seen) more := by
  fun_induction splitTag? quote seen cs with
  | case1 quote seen => exact ⟨quote, rfl⟩
  | case2 seen c cs q ih =>
    obtain ⟨quote', hmore⟩ := ih h
    exact ⟨quote', by rw [List.cons_append, splitTag?, hmore]; simp⟩
  | case3 => simp at h
  | case4 seen c cs hc ih =>
    obtain ⟨quote', hmore⟩ := ih h
    exact ⟨quote', by rw [List.cons_append, splitTag?, if_neg hc, hmore]; simp⟩

theorem splitBalanced?_of_eq_none {depth : Nat} (h : splitBalanced? depth seen cs = none)
    (more : List Char) : ∃ depth',
      splitBalanced? depth seen (cs ++ more) =
        splitBalanced? depth' (cs.reverse ++ seen) more := by
  fun_induction splitBalanced? depth seen cs with
  | case1 depth seen => exact ⟨depth, rfl⟩
  | case2 depth seen cs ih =>
    obtain ⟨depth', hmore⟩ := ih h
    refine ⟨depth', ?_⟩
    rw [List.cons_append]
    conv_lhs => unfold splitBalanced?
    rw [if_pos rfl, hmore]
    simp
  | case3 => simp at h
  | case4 seen cs depth hopen ih =>
    obtain ⟨depth', hmore⟩ := ih h
    refine ⟨depth', ?_⟩
    rw [List.cons_append]
    conv_lhs => unfold splitBalanced?
    rw [if_neg hopen, if_pos rfl]
    dsimp only
    rw [hmore]
    simp
  | case5 depth seen c cs hopen hclose ih =>
    obtain ⟨depth', hmore⟩ := ih h
    refine ⟨depth', ?_⟩
    rw [List.cons_append]
    conv_lhs => unfold splitBalanced?
    rw [if_neg hopen, if_neg hclose, hmore]
    simp

/-! ## Searches that end in an end tag -/

/-- In a text with its only `>` at the end, what comes before a `>` is all but the end. -/
theorem eq_of_append_singleton (before : List Char) (hbody : '>' ∉ body)
    (h : body ++ ['>'] = before ++ '>' :: rest) : before = body ∧ rest = [] := by
  rcases List.eq_nil_or_concat rest with rfl | ⟨most, last, rfl⟩
  · exact ⟨(List.append_inj' h rfl).1.symm, rfl⟩
  · have hsplit : body ++ ['>'] = before ++ '>' :: most ++ [last] := by simp [h]
    refine absurd ?_ hbody
    rw [(List.append_inj' hsplit rfl).1]
    simp

/-- A mark that ends in `>` is not found in the middle of an ending that it is no end of. -/
theorem splitAtMark?_of_append {stem : List Char} (hmark : mark = stem ++ ['>'])
    (hbody : '>' ∉ body) (hlong : mark.length ≤ (body ++ ['>']).length)
    (hend : ¬mark <:+ body ++ ['>'])
    (h : splitAtMark? mark seen (cs ++ (body ++ ['>'])) = some (content, rest)) :
    ∃ inner, splitAtMark? mark seen cs = some (content, inner) ∧
      rest = inner ++ (body ++ ['>']) := by
  cases hsplit : splitAtMark? mark seen cs with
  | some parts =>
    obtain ⟨content', inner⟩ := parts
    rw [splitAtMark?_append hsplit] at h
    obtain ⟨rfl, rfl⟩ := Prod.mk.inj (Option.some.inj h)
    exact ⟨inner, rfl, rfl⟩
  | none =>
    obtain ⟨before, hbefore⟩ := eq_of_splitAtMark? h
    have hne : mark ≠ [] := by simp [hmark]
    have hsame : cs ++ (body ++ ['>']) = (before ++ stem) ++ '>' :: rest := by
      rw [hbefore, hmark]
      simp
    rcases List.append_eq_append_iff.1 hsame with ⟨part, hstem, hpart⟩ | ⟨part, hcs, hpart⟩
    · -- The mark ends where the text does.
      obtain ⟨rfl, rfl⟩ := eq_of_append_singleton _ hbody hpart
      refine absurd ?_ hend
      refine List.suffix_of_suffix_length_le ⟨before, ?_⟩ (List.suffix_append cs _) hlong
      rw [hmark, ← List.append_assoc, hstem, List.append_assoc]
    · cases part with
      | nil =>
        obtain ⟨hnil, rfl⟩ := eq_of_append_singleton [] hbody hpart.symm
        refine absurd ?_ hend
        refine List.suffix_of_suffix_length_le ⟨before, ?_⟩ (List.suffix_append cs _) hlong
        rw [hmark, ← List.append_assoc, ← hnil, hcs]
        simp
      | cons c part =>
        obtain ⟨rfl, -⟩ := List.cons.inj hpart
        refine absurd hsplit (splitAtMark?_ne_none hne ⟨before, part, ?_⟩)
        rw [hmark, hcs]
        simp

/-- A tag ends in a text or where the text after it ends. -/
theorem splitTag?_of_append {quote : Option Char} (hbody : '>' ∉ body)
    (h : splitTag? quote seen (cs ++ (body ++ ['>'])) = some (content, rest)) :
    (∃ inner, splitTag? quote seen cs = some (content, inner) ∧
        rest = inner ++ (body ++ ['>'])) ∨
      content = seen.reverse ++ (cs ++ body) ∧ rest = [] := by
  cases hsplit : splitTag? quote seen cs with
  | some parts =>
    obtain ⟨content', inner⟩ := parts
    rw [splitTag?_append hsplit] at h
    obtain ⟨rfl, rfl⟩ := Prod.mk.inj (Option.some.inj h)
    exact Or.inl ⟨inner, rfl, rfl⟩
  | none =>
    obtain ⟨quote', hpass⟩ := splitTag?_of_eq_none hsplit (body ++ ['>'])
    rw [hpass] at h
    obtain ⟨before, hbefore, rfl⟩ := eq_of_splitTag? h
    obtain ⟨rfl, rfl⟩ := eq_of_append_singleton _ hbody hbefore
    exact Or.inr ⟨by simp, rfl⟩

/-- Angle brackets are balanced by no text in which they are themselves. -/
theorem splitBalanced?_bracketed {word : List Char} (hopen : '<' ∉ word) (hclose : '>' ∉ word)
    (depth : Nat) (seen : List Char) :
    splitBalanced? depth seen ('<' :: (word ++ ['>'])) = none := by
  have hword : ∀ seen, splitBalanced? (depth + 1) seen (word ++ ['>']) = none := by
    clear seen
    induction word with
    | nil => exact fun _ => rfl
    | cons c word ih =>
      intro seen
      rw [List.mem_cons, not_or] at hopen hclose
      rw [List.cons_append]
      unfold splitBalanced?
      rw [if_neg (Ne.symm hopen.1), if_neg (Ne.symm hclose.1)]
      exact ih hopen.2 hclose.2 _
  unfold splitBalanced?
  rw [if_pos rfl]
  exact hword _

/-- A document type ends before an end tag, since the brackets of the tag balance. -/
theorem splitBalanced?_of_append {depth : Nat} {word : List Char} (hopen : '<' ∉ word)
    (hclose : '>' ∉ word)
    (h : splitBalanced? depth seen (cs ++ '<' :: (word ++ ['>'])) = some (content, rest)) :
    ∃ inner, splitBalanced? depth seen cs = some (content, inner) ∧
      rest = inner ++ '<' :: (word ++ ['>']) := by
  cases hsplit : splitBalanced? depth seen cs with
  | some parts =>
    obtain ⟨content', inner⟩ := parts
    rw [splitBalanced?_append hsplit] at h
    obtain ⟨rfl, rfl⟩ := Prod.mk.inj (Option.some.inj h)
    exact ⟨inner, rfl, rfl⟩
  | none =>
    obtain ⟨depth', hpass⟩ := splitBalanced?_of_eq_none hsplit ('<' :: (word ++ ['>']))
    rw [hpass, splitBalanced?_bracketed hopen hclose] at h
    cases h

/-! ## Pieces before an end tag -/

theorem prefix_of_prefix_append_cons {word : List Char} (hc : c ∉ word)
    (h : word <+: cs ++ c :: ds) : word <+: cs := by
  rcases Nat.le_total word.length cs.length with hlength | hlength
  · exact List.prefix_of_prefix_length_le h (List.prefix_append cs _) hlength
  · obtain ⟨more, rfl⟩ := List.prefix_of_prefix_length_le (List.prefix_append cs _) h hlength
    cases more with
    | nil => simp
    | cons d more =>
      obtain ⟨rfl, -⟩ := List.cons_prefix_cons.1 ((List.prefix_append_right_inj cs).1 h)
      simp at hc

theorem dropWord?_of_append {word : List Char} (hword : '<' ∉ word)
    (h : dropWord? word (cs ++ '<' :: ds) = some rest) :
    ∃ inner, dropWord? word cs = some inner ∧ rest = inner ++ '<' :: ds := by
  unfold dropWord? at h ⊢
  split_ifs at h with hstart
  rcases Nat.lt_or_ge cs.length word.length with hshort | hlong
  · refine absurd ?_ hword
    rw [← hstart, List.take_append]
    obtain ⟨n, hn⟩ := Nat.exists_eq_succ_of_ne_zero (Nat.sub_ne_zero_of_lt hshort)
    rw [hn, List.take_succ_cons, List.map_append, List.map_cons]
    exact List.mem_append_right _ List.mem_cons_self
  · rw [List.take_append_of_le_length hlong] at hstart
    rw [List.drop_append_of_le_length hlong] at h
    exact ⟨cs.drop word.length, if_pos hstart, (Option.some.inj h).symm⟩

/-- If a search ends before the end tag, so does the piece. -/
theorem found_of_append {cause : MarkupError} {piece : List Char → Markup} {ending : List Char}
    {split split' : Option (List Char × List Char)}
    (h : found cause piece split' = .ok (m, rest))
    (hsplit : ∀ content rest, split' = some (content, rest) →
      ∃ inner, split = some (content, inner) ∧ rest = inner ++ ending) :
    ∃ inner, found cause piece split = .ok (m, inner) ∧ rest = inner ++ ending := by
  cases split' with
  | none => cases h
  | some parts =>
    obtain ⟨content, rest'⟩ := parts
    obtain ⟨rfl, rfl⟩ := Prod.mk.inj (Except.ok.inj h)
    obtain ⟨inner, rfl, rfl⟩ := hsplit content _ rfl
    exact ⟨inner, rfl, rfl⟩

/-- A piece that goes on into an end tag : a tag that is not closed after it, or that closes what no
name can be. -/
def Swallows : Markup → Prop
  | start _ => True
  | close name => '<' ∈ name
  | _ => False

/-- A declaration that begins with a `D` is a document type. -/
theorem declaration_doctype (hc : c = 'D' ∨ c = 'd') (cs : List Char) :
    declaration (c :: cs) =
      match dropWord? ['O', 'C', 'T', 'Y', 'P', 'E'] cs with
      | none => .error .unclosedDoctype
      | some cs => ofDoctype (splitBalanced? 0 [] cs) := by
  rcases hc with rfl | rfl
  · rfl
  · rfl

theorem mem_closeName (hmem : c ∈ content) (hc : isSpace c = false) : c ∈ closeName content := by
  unfold closeName
  split_ifs
  · exact hmem
  · have hsplit := List.takeWhile_append_dropWhile (p := isSpace) (l := content.reverse)
    rw [← List.mem_reverse, ← hsplit, List.mem_append] at hmem
    rw [List.mem_reverse]
    refine hmem.resolve_left fun hspace => ?_
    rw [List.mem_takeWhile_imp hspace] at hc
    cases hc

section EndTag

variable (hname : IsTagName name) (hhyphens : ¬"--".toList <:+ name)

include hname

/-- An end tag on its own is cut off as one. -/
theorem next_endTag : next '<' ('/' :: name ++ ['>']) = .ok (close name, []) := by
  obtain ⟨c, cs, hchars, hclose⟩ :=
    next_piece (p := .close name []) ⟨hname, List.forall_mem_nil _⟩
  have hend : (Piece.close name []).chars = '<' :: ('/' :: name ++ ['>']) :=
    congrArg (· ++ ['>']) (List.append_nil ('<' :: '/' :: name))
  obtain ⟨rfl, rfl⟩ := List.cons.inj (hend.symm.trans hchars)
  exact hclose

theorem cut_endTag : Cut (endTag name) [close name] :=
  .singleton (next_endTag hname)

theorem not_mem_endTag : '>' ∉ '<' :: '/' :: name := by
  have hmem : '>' ∉ name := fun hmem => hname.ne hmem '>' (by decide) rfl
  simp [hmem]

/-- A mark is not found in the middle of an end tag if it could only be found at the end of the
name. -/
theorem splitAtMark?_of_append_endTag (stem : List Char) (hshort : stem.length ≤ 2)
    (hslash : '/' ∉ stem) (hend : ¬stem <:+ name)
    (h : splitAtMark? (stem ++ ['>']) seen (cs ++ endTag name) = some (content, rest)) :
    ∃ inner, splitAtMark? (stem ++ ['>']) seen cs = some (content, inner) ∧
      rest = inner ++ endTag name := by
  refine splitAtMark?_of_append rfl (not_mem_endTag hname) ?_ ?_ h
  · simp only [List.length_append, List.length_cons, List.length_nil]
    omega
  · intro hsuffix
    have hstem : stem <:+ '<' :: '/' :: name := by
      obtain ⟨before, hbefore⟩ := hsuffix
      rw [← List.append_assoc] at hbefore
      exact ⟨before, (List.append_inj' hbefore rfl).1⟩
    rw [List.suffix_cons_iff, List.suffix_cons_iff] at hstem
    rcases hstem with rfl | rfl | hstem
    · simp at hslash
    · simp at hslash
    · exact hend hstem

theorem not_suffix_of_isTagName {last : Char} (hlast : isTagChar last = false)
    (stem : List Char) : ¬stem ++ [last] <:+ name := fun hsuffix =>
  hname.ne (hsuffix.subset (by simp)) last hlast rfl

theorem ofDoctype_of_append
    (h : ofDoctype (splitBalanced? 0 [] (cs ++ endTag name)) = .ok (m, rest)) :
    ∃ inner, ofDoctype (splitBalanced? 0 [] cs) = .ok (m, inner) ∧
      rest = inner ++ endTag name := by
  have hopen : '<' ∉ '/' :: name := by
    have hmem : '<' ∉ name := fun hmem => hname.ne hmem '<' (by decide) rfl
    simp [hmem]
  have hclose : '>' ∉ '/' :: name := fun hmem => not_mem_endTag hname (List.mem_cons_of_mem _ hmem)
  cases hsplit : splitBalanced? 0 [] (cs ++ endTag name) with
  | none =>
    rw [hsplit] at h
    cases h
  | some parts =>
    obtain ⟨content, rest'⟩ := parts
    rw [hsplit, ofDoctype] at h
    split_ifs at h with hblank
    obtain ⟨rfl, rfl⟩ := Prod.mk.inj (Except.ok.inj h)
    obtain ⟨inner, hinner, hrest⟩ := splitBalanced?_of_append hopen hclose hsplit
    exact ⟨inner, by rw [hinner, ofDoctype, if_neg hblank], hrest⟩

theorem processing_of_append (h : processing (cs ++ endTag name) = .ok (m, rest)) :
    ∃ inner, processing cs = .ok (m, inner) ∧ rest = inner ++ endTag name := by
  have hplain : processing (cs ++ endTag name) = found .unclosedInstruction instruction
      (splitAtMark? ['?', '>'] [] (cs ++ endTag name)) →
      ∃ inner, found .unclosedInstruction instruction (splitAtMark? ['?', '>'] [] cs) =
        .ok (m, inner) ∧ rest = inner ++ endTag name := by
    intro hfound
    rw [hfound] at h
    exact found_of_append h fun _ _ hs =>
      splitAtMark?_of_append_endTag hname ['?'] (by simp) (by simp)
        (not_suffix_of_isTagName hname (by decide) []) hs
  fun_cases processing cs with
  | case1 => cases h
  | case2 cs hfirst =>
    refine hplain ?_
    rw [processing]
    cases cs with
    | nil => exact fun _ e => by cases e
    | cons c cs => exact fun _ e => hfirst cs (by rw [(List.cons.inj e).1])

/-- A tag ends before the end tag, or it takes the whole end tag in. -/
theorem foundTag_of_append (piece : List Char → Markup)
    (h : found .unclosedTag piece (splitTag? none [] (cs ++ endTag name)) = .ok (m, rest)) :
    (∃ inner, found .unclosedTag piece (splitTag? none [] cs) = .ok (m, inner) ∧
        rest = inner ++ endTag name) ∨
      m = piece (cs ++ '<' :: '/' :: name) ∧ rest = [] := by
  cases hsplit : splitTag? none [] (cs ++ endTag name) with
  | none =>
    rw [hsplit] at h
    cases h
  | some parts =>
    obtain ⟨content, rest'⟩ := parts
    rw [hsplit] at h
    obtain ⟨rfl, rfl⟩ := Prod.mk.inj (Except.ok.inj h)
    rcases splitTag?_of_append (not_mem_endTag hname) hsplit with
      ⟨inner, hinner, rfl⟩ | ⟨rfl, rfl⟩
    · exact Or.inl ⟨inner, by rw [hinner, found], rfl⟩
    · exact Or.inr ⟨rfl, rfl⟩

/-- A tag that takes the end tag in has no slash at its end, so it is a start tag. -/
theorem swallows_ofTag (cs : List Char) : Swallows (ofTag (cs ++ '<' :: '/' :: name)) := by
  have hlast : (cs ++ '<' :: '/' :: name).getLast? ≠ some '/' := by
    rw [List.getLast?_append_of_ne_nil _ (by simp), List.getLast?_cons_cons,
      List.getLast?_cons_of_ne_nil hname.1]
    exact fun e => hname.ne (List.mem_of_getLast? e) '/' (by decide) rfl
  rw [ofTag, if_neg hlast]
  trivial

include hhyphens

/-- What has an end of its own does not go on into the end tag. -/
theorem declaration_of_append (h : declaration (cs ++ endTag name) = .ok (m, rest)) :
    ∃ inner, declaration cs = .ok (m, inner) ∧ rest = inner ++ endTag name := by
  revert h
  fun_cases declaration cs with
  | case1 cs =>
    exact fun h => found_of_append h fun _ _ hs =>
      splitAtMark?_of_append_endTag hname ['-', '-'] (by simp) (by simp) hhyphens hs
  | case2 cs hsecond =>
    intro h
    have hsecond' : ∀ ds, cs ++ endTag name ≠ '-' :: ds := by
      cases cs with
      | nil => exact fun _ e => by cases e
      | cons c cs => exact fun _ e => hsecond cs (by rw [(List.cons.inj e).1])
    rw [List.cons_append, declaration] at h
    · cases h
    · exact fun ds e => hsecond' ds e
  | case3 cs =>
    exact fun h => found_of_append h fun _ _ hs =>
      splitAtMark?_of_append_endTag hname [']', ']'] (by simp) (by simp)
        (not_suffix_of_isTagName hname (by decide) [']']) hs
  | case4 cs hword =>
    intro h
    rw [List.cons_append, declaration] at h
    · cases h
    · intro ds e
      obtain ⟨more, hmore⟩ : "CDATA[".toList <+: cs :=
        prefix_of_prefix_append_cons (by decide) ⟨ds, e.symm⟩
      exact hword more hmore.symm
  | case5 c cs _ _ _ _ hc hdrop =>
    intro h
    rw [List.cons_append, declaration_doctype hc] at h
    cases hdrop' : dropWord? ['O', 'C', 'T', 'Y', 'P', 'E'] (cs ++ endTag name) with
    | none =>
      rw [hdrop'] at h
      cases h
    | some rest' =>
      obtain ⟨inner, hinner, -⟩ := dropWord?_of_append (by decide) hdrop'
      rw [hdrop] at hinner
      cases hinner
  | case6 c cs _ _ _ _ hc cs' hdrop =>
    intro h
    rw [List.cons_append, declaration_doctype hc, dropWord?_append hdrop] at h
    exact ofDoctype_of_append hname h
  | case7 c cs _ hhyphen _ hbracket hc =>
    intro h
    rw [List.cons_append, declaration, if_neg hc] at h
    · cases h
    · exact fun _ e _ => hhyphen e
    · exact hhyphen
    · exact fun _ e _ => hbracket e
    · exact hbracket
  | case8 =>
    intro h
    cases h

/-- What begins with a `<` and is followed by an end tag ends before it or is a tag that ends with
it. -/
theorem tag_of_append (h : tag (cs ++ endTag name) = .ok (m, rest)) :
    (∃ inner, tag cs = .ok (m, inner) ∧ rest = inner ++ endTag name) ∨
      Swallows m ∧ rest = [] := by
  fun_cases tag cs with
  | case1 cs => exact Or.inl (declaration_of_append hname hhyphens h)
  | case2 cs => exact Or.inl (processing_of_append hname h)
  | case3 cs =>
    rcases foundTag_of_append hname (close ∘ closeName) h with hinner | ⟨rfl, rfl⟩
    · exact Or.inl hinner
    · exact Or.inr ⟨mem_closeName (by simp) (by decide), rfl⟩
  | case4 cs hbang hquery hslash =>
    have hfound : tag (cs ++ endTag name) =
        found .unclosedTag ofTag (splitTag? none [] (cs ++ endTag name)) := by
      cases cs with
      | nil => rfl
      | cons c cs =>
        rw [List.cons_append, tag]
        · exact fun _ e => hbang cs (by rw [(List.cons.inj e).1])
        · exact fun _ e => hquery cs (by rw [(List.cons.inj e).1])
        · exact fun _ e => hslash cs (by rw [(List.cons.inj e).1])
    rw [hfound] at h
    rcases foundTag_of_append hname ofTag h with hinner | ⟨rfl, rfl⟩
    · exact Or.inl hinner
    · exact Or.inr ⟨swallows_ofTag hname cs, rfl⟩

/-- A piece that is followed by an end tag ends before it or is a tag that ends with it. -/
theorem next_of_append (h : next c (cs ++ endTag name) = .ok (m, rest)) :
    (∃ inner, next c cs = .ok (m, inner) ∧ rest = inner ++ endTag name) ∨
      Swallows m ∧ rest = [] := by
  by_cases hc : c = '<'
  · rw [next, if_pos hc] at h ⊢
    exact tag_of_append hname hhyphens h
  · have hown : next c cs =
        .ok (text (c :: cs.takeWhile (· ≠ '<')), cs.dropWhile (· ≠ '<')) := if_neg hc
    have hstop : ∀ d ∈ (endTag name).head?, d = '<' := by rintro _ ⟨⟩; rfl
    rw [next_append hown fun _ _ => hstop] at h
    obtain ⟨rfl, rfl⟩ := Prod.mk.inj (Except.ok.inj h)
    exact Or.inl ⟨_, hown, rfl⟩

/-- The pieces of a text and an end tag are those of the text and the end tag, unless the last of
them is a tag that goes on into the end tag. -/
theorem cut_of_append (h : Cut (cs ++ endTag name) ms) :
    (∃ inner, Cut cs inner ∧ ms = inner ++ [close name]) ∨
      ∃ inner m, ms = inner ++ [m] ∧ Swallows m := by
  generalize hwhole : cs ++ endTag name = whole at h
  induction h generalizing cs with
  | nil => simp [endTag] at hwhole
  | @cons c tail rest m ms hnext hrest ih =>
    cases cs with
    | nil =>
      obtain ⟨rfl, rfl⟩ := List.cons.inj hwhole
      obtain ⟨rfl, rfl⟩ := Prod.mk.inj (Except.ok.inj ((next_endTag hname).symm.trans hnext))
      cases hrest
      exact Or.inl ⟨[], .nil, rfl⟩
    | cons d cs =>
      obtain ⟨rfl, rfl⟩ := List.cons.inj hwhole
      rcases next_of_append hname hhyphens hnext with ⟨inner, hinner, rfl⟩ | ⟨hm, rfl⟩
      · rcases ih rfl with ⟨before, hbefore, rfl⟩ | ⟨before, last, rfl, hlast⟩
        · exact Or.inl ⟨m :: before, .cons hinner hbefore, rfl⟩
        · exact Or.inr ⟨m :: before, last, rfl, hlast⟩
      · cases hrest
        exact Or.inr ⟨[], m, rfl, hm⟩

end EndTag

end MifirReport.Xml.Markup
