import MifirReport.Xml.Markup
import Mathlib.Tactic.SplitIfs

/-!
# Cutting a text into pieces

Where a piece of a text ends does not depend on what follows it (`Markup.next_append`), except that
character data goes on up to the next `<`. So the pieces of a text (`Markup.Cut`) are those of its
parts, as long as it is not cut within character data (`Cut.append`), and a run over a text is a run
over its pieces (`foldM_eq_foldlM`).
-/

namespace MifirReport.Xml.Markup

variable {mark seen cs content rest ds : List Char} {c : Char} {m : Markup} {ms ns : List Markup}

/-- Whether a piece is character data. -/
def isText : Markup → Bool
  | text _ => true
  | _ => false

/-! ## What follows a piece -/

theorem length_le_of_splitAtMark? (h : splitAtMark? mark seen cs = some (content, rest)) :
    mark.length ≤ cs.length := by
  fun_induction splitAtMark? mark seen cs with
  | case1 => simp at h
  | case2 seen c cs hmark => exact (List.isPrefixOf_iff_prefix.1 hmark).length_le
  | case3 seen c cs hmark ih => exact Nat.le_succ_of_le (ih h)

/-- A mark that is found is found whatever follows. -/
theorem splitAtMark?_append (h : splitAtMark? mark seen cs = some (content, rest))
    (more : List Char) : splitAtMark? mark seen (cs ++ more) = some (content, rest ++ more) := by
  fun_induction splitAtMark? mark seen cs with
  | case1 => simp at h
  | case2 seen c cs hmark =>
    obtain ⟨rfl, rfl⟩ := Prod.mk.inj (Option.some.inj h)
    have hmarkAt := List.isPrefixOf_iff_prefix.1 hmark
    have hmark' : mark.isPrefixOf (c :: (cs ++ more)) = true :=
      List.isPrefixOf_iff_prefix.2 (hmarkAt.trans (List.prefix_append (c :: cs) more))
    rw [List.cons_append, splitAtMark?, if_pos hmark', ← List.cons_append,
      List.drop_append_of_le_length hmarkAt.length_le]
  | case3 seen c cs hmark ih =>
    -- The mark is still to come, so it is not longer than the text.
    have hlength : mark.length ≤ (c :: cs).length := Nat.le_succ_of_le (length_le_of_splitAtMark? h)
    have hmark' : ¬mark.isPrefixOf (c :: (cs ++ more)) = true := by
      intro hmarkAt
      refine hmark (List.isPrefixOf_iff_prefix.2 ?_)
      exact List.prefix_of_prefix_length_le (List.isPrefixOf_iff_prefix.1 hmarkAt)
        (List.prefix_append (c :: cs) more) hlength
    rw [List.cons_append, splitAtMark?, if_neg hmark', ih h]

/-- So is the end of a tag. -/
theorem splitTag?_append {quote : Option Char}
    (h : splitTag? quote seen cs = some (content, rest)) (more : List Char) :
    splitTag? quote seen (cs ++ more) = some (content, rest ++ more) := by
  fun_induction splitTag? quote seen cs with
  | case1 => simp at h
  | case2 seen c cs q ih => rw [List.cons_append, splitTag?, ih h]
  | case3 seen cs =>
    obtain ⟨rfl, rfl⟩ := Prod.mk.inj (Option.some.inj h)
    rfl
  | case4 seen c cs hc ih => rw [List.cons_append, splitTag?, if_neg hc, ih h]

/-- So is the end of a document type. -/
theorem splitBalanced?_append {depth : Nat}
    (h : splitBalanced? depth seen cs = some (content, rest)) (more : List Char) :
    splitBalanced? depth seen (cs ++ more) = some (content, rest ++ more) := by
  fun_induction splitBalanced? depth seen cs with
  | case1 => simp at h
  | case2 depth seen cs ih =>
    rw [List.cons_append]
    unfold splitBalanced?
    rw [if_pos rfl, ih h]
  | case3 seen cs hopen =>
    obtain ⟨rfl, rfl⟩ := Prod.mk.inj (Option.some.inj h)
    rfl
  | case4 seen cs depth hopen ih =>
    rw [List.cons_append]
    unfold splitBalanced?
    rw [if_neg hopen, if_pos rfl]
    exact ih h
  | case5 depth seen c cs hopen hclose ih =>
    rw [List.cons_append]
    unfold splitBalanced?
    rw [if_neg hopen, if_neg hclose, ih h]

theorem dropWord?_append {word : List Char} (h : dropWord? word cs = some rest)
    (more : List Char) : dropWord? word (cs ++ more) = some (rest ++ more) := by
  unfold dropWord? at h ⊢
  split_ifs at h with hword
  have hlength : word.length ≤ cs.length := by
    have := congrArg List.length hword
    rw [List.length_map, List.length_take] at this
    omega
  rw [List.take_append_of_le_length hlength, if_pos hword, List.drop_append_of_le_length hlength,
    Option.some.inj h]

/-- A piece that ends where a search does ends there whatever follows. -/
theorem found_append {cause : MarkupError} {piece : List Char → Markup}
    {split split' : Option (List Char × List Char)} {more : List Char}
    (h : found cause piece split = .ok (m, rest))
    (hsplit : ∀ content rest, split = some (content, rest) →
      split' = some (content, rest ++ more)) :
    found cause piece split' = .ok (m, rest ++ more) := by
  cases split with
  | none => cases h
  | some parts =>
    obtain ⟨content, rest'⟩ := parts
    obtain ⟨rfl, rfl⟩ := Prod.mk.inj (Except.ok.inj h)
    rw [hsplit content rest' rfl]
    rfl

theorem ofDoctype_append (h : ofDoctype (splitBalanced? 0 [] cs) = .ok (m, rest))
    (more : List Char) : ofDoctype (splitBalanced? 0 [] (cs ++ more)) = .ok (m, rest ++ more) := by
  cases hsplit : splitBalanced? 0 [] cs with
  | none =>
    rw [hsplit] at h
    cases h
  | some parts =>
    obtain ⟨content, rest'⟩ := parts
    rw [hsplit, ofDoctype] at h
    split_ifs at h with hblank
    obtain ⟨rfl, rfl⟩ := Prod.mk.inj (Except.ok.inj h)
    rw [splitBalanced?_append hsplit more, ofDoctype, if_neg hblank]

theorem declaration_append (h : declaration cs = .ok (m, rest)) (more : List Char) :
    declaration (cs ++ more) = .ok (m, rest ++ more) := by
  revert h
  fun_cases declaration cs with
  | case1 cs => exact fun h => found_append h fun _ _ hs => splitAtMark?_append hs more
  | case2 => exact fun h => nomatch h
  | case3 cs => exact fun h => found_append h fun _ _ hs => splitAtMark?_append hs more
  | case4 => exact fun h => nomatch h
  | case5 => exact fun h => nomatch h
  | case6 c cs _ _ _ _ hc cs' hword =>
    intro h
    have hword' := dropWord?_append hword more
    have hne : c ≠ '-' ∧ c ≠ '[' := by rcases hc with rfl | rfl <;> decide
    rw [List.cons_append, declaration, if_pos hc, hword']
    · exact ofDoctype_append h more
    · exact fun _ e _ => hne.1 e
    · exact hne.1
    · exact fun _ e _ => hne.2 e
    · exact hne.2
  | case7 => exact fun h => nomatch h
  | case8 => exact fun h => nomatch h

theorem processing_append (h : processing cs = .ok (m, rest)) (more : List Char) :
    processing (cs ++ more) = .ok (m, rest ++ more) := by
  revert h
  fun_cases processing cs with
  | case1 => exact fun h => nomatch h
  | case2 cs hfirst =>
    intro h
    have hne : cs ≠ [] := by
      rintro rfl
      cases h
    obtain ⟨c, cs, rfl⟩ := List.exists_cons_of_ne_nil hne
    rw [List.cons_append, processing]
    · exact found_append h fun _ _ hs => splitAtMark?_append hs more
    · exact fun _ e => hfirst cs (by rw [(List.cons.inj e).1])

theorem tag_append (h : tag cs = .ok (m, rest)) (more : List Char) :
    tag (cs ++ more) = .ok (m, rest ++ more) := by
  revert h
  fun_cases tag cs with
  | case1 cs => exact fun h => declaration_append h more
  | case2 cs => exact fun h => processing_append h more
  | case3 cs => exact fun h => found_append h fun _ _ hs => splitTag?_append hs more
  | case4 cs hbang hquery hslash =>
    intro h
    have hne : cs ≠ [] := by
      rintro rfl
      cases h
    obtain ⟨c, cs, rfl⟩ := List.exists_cons_of_ne_nil hne
    rw [List.cons_append, tag]
    · exact found_append h fun _ _ hs => splitTag?_append hs more
    · exact fun _ e => hbang cs (by rw [(List.cons.inj e).1])
    · exact fun _ e => hquery cs (by rw [(List.cons.inj e).1])
    · exact fun _ e => hslash cs (by rw [(List.cons.inj e).1])

/-- A piece ends where it does whatever follows, unless it is character data that goes on. -/
theorem next_append (h : next c cs = .ok (m, rest)) {more : List Char}
    (hmore : m.isText = true → rest = [] → ∀ d ∈ more.head?, d = '<') :
    next c (cs ++ more) = .ok (m, rest ++ more) := by
  unfold next at h ⊢
  split_ifs at h ⊢ with hc
  · exact tag_append h more
  · obtain ⟨rfl, rfl⟩ := Prod.mk.inj (Except.ok.inj h)
    rw [List.takeWhile_append, List.dropWhile_append]
    by_cases hend : cs.dropWhile (· ≠ '<') = []
    · -- The character data reaches the end of the text.
      have hall : cs.takeWhile (· ≠ '<') = cs := by
        rw [← List.append_nil (cs.takeWhile _), ← hend, List.takeWhile_append_dropWhile]
      have hstop : more.takeWhile (· ≠ '<') = [] ∧ more.dropWhile (· ≠ '<') = more := by
        cases more with
        | nil => exact ⟨rfl, rfl⟩
        | cons d more =>
          have hd : d = '<' := hmore rfl hend d rfl
          simp [hd]
      rw [if_pos (by rw [hall]), if_pos (by rw [hend]; rfl), hstop.1, hstop.2, hall, hend,
        List.append_nil, List.nil_append]
    · have hpart : (cs.takeWhile (· ≠ '<')).length ≠ cs.length := by
        intro hlength
        have := congrArg List.length (List.takeWhile_append_dropWhile (p := (· ≠ '<')) (l := cs))
        rw [List.length_append, hlength] at this
        exact hend (List.length_eq_zero_iff.1 (by omega))
      rw [if_neg hpart, if_neg (by rwa [List.isEmpty_iff])]

/-! ## The pieces of a text -/

/-- A text is cut into pieces. -/
inductive Cut : List Char → List Markup → Prop
  | nil : Cut [] []
  | cons {c : Char} {cs rest : List Char} {m : Markup} {ms : List Markup} :
      next c cs = .ok (m, rest) → Cut rest ms → Cut (c :: cs) (m :: ms)

/-- A piece that is not character data begins with `<`. -/
theorem eq_of_next (h : next c cs = .ok (m, rest)) (hm : m.isText = false) : c = '<' := by
  unfold next at h
  split_ifs at h with hc
  · exact hc
  · obtain ⟨rfl, -⟩ := Prod.mk.inj (Except.ok.inj h)
    cases hm

/-- A piece that takes the whole text is all there is. -/
theorem Cut.singleton (h : next c cs = .ok (m, [])) : Cut (c :: cs) [m] :=
  .cons h .nil

/-- The pieces of two texts are those of the one followed by the other, unless character data meets
character data. -/
theorem Cut.append (h : Cut cs ms) (h' : Cut ds ns)
    (hmeet : ∀ m ∈ ms.getLast?, ∀ n ∈ ns.head?, m.isText = true → n.isText = false) :
    Cut (cs ++ ds) (ms ++ ns) := by
  induction h with
  | nil => exact h'
  | @cons c cs rest m ms hnext hrest ih =>
    rw [List.cons_append, List.cons_append]
    refine .cons (next_append hnext ?_) (ih fun m hm n hn => hmeet m ?_ n hn)
    · rintro htext rfl d hd
      cases hrest
      cases h' with
      | nil => cases hd
      | cons hnext' _ =>
        cases hd
        exact eq_of_next hnext' (hmeet m rfl _ rfl htext)
    · rw [List.getLast?_cons, hm]
      rfl

/-- A run over a text that begins with a piece begins with the piece. -/
theorem foldM_of_next {σ : Type} {step : σ → Markup → Except XmlError σ}
    (h : next c cs = .ok (m, rest)) (st : σ) :
    foldM step st (c :: cs) = step st m >>= fun st => foldM step st rest := by
  rw [foldM]
  split
  · rename_i cause herror
    rw [h] at herror
    cases herror
  · rename_i m' rest' hok
    obtain ⟨rfl, rfl⟩ := Prod.mk.inj (Except.ok.inj (h.symm.trans hok))
    cases step st m with
    | error cause => rfl
    | ok st' => rfl

/-- A run over a text that begins with no piece stops at once. -/
theorem foldM_of_error {σ : Type} {step : σ → Markup → Except XmlError σ} {cause : MarkupError}
    (h : next c cs = .error cause) (st : σ) : foldM step st (c :: cs) = .error (.markup cause) := by
  rw [foldM]
  split
  · rename_i cause' herror
    obtain rfl := Except.error.inj (h.symm.trans herror)
    rfl
  · rename_i m' rest' hok
    rw [h] at hok
    cases hok

/-- A run over a text is a run over its pieces. -/
theorem foldM_eq_foldlM {σ : Type} (step : σ → Markup → Except XmlError σ) (h : Cut cs ms)
    (st : σ) : foldM step st cs = ms.foldlM step st := by
  induction h generalizing st with
  | nil =>
    rw [foldM]
    rfl
  | @cons c cs rest m ms hnext _ ih =>
    rw [foldM_of_next hnext, List.foldlM_cons]
    cases step st m with
    | error cause => rfl
    | ok st' => exact ih st'

end MifirReport.Xml.Markup
