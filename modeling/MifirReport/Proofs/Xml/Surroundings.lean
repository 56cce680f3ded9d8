import MifirReport.Proofs.Xml.Runs

/-!
# What is around the root

A document is one element, and whatever is around it that is no tag is passed over : comments,
processing instructions, and character data too, be it blank or not, in brackets or not. Character
data around the root is looked at only for its references (`parse_eq_ok_iff_of_run`), so that a text
which is not well-formed reads like the document in it : `parse_surrounded`.
-/

namespace MifirReport.Xml

/-- Character data, in brackets or not. Its references have to stand for characters. -/
inductive Piece.IsData : Piece → Prop
  | text {raw chars : List Char} : Reference.expand raw = .ok chars → IsData (.text raw)
  | cdata {content : List Char} : IsData (.cdata content)

namespace Document

open Markup

variable {cs raw chars : List Char} {ms : List Markup} {m : Markup} {state : State}
  {root : Element} {document : String}

/-! ## Before the root -/

/-- A byte order mark is character data where it is not left out, and stands for itself. -/
theorem exists_expand_dropMark (raw : List Char) :
    (∃ chars, Reference.expand (dropMark raw) = .ok chars) ↔
      ∃ chars, Reference.expand raw = .ok chars := by
  have hmark : Reference.expand ['\uFEFF'] = .ok ['\uFEFF'] :=
    Reference.expandFrom_of_expands (.plain (by decide) .nil) _ _
  unfold dropMark
  split
  · constructor
    · rintro ⟨chars, h⟩
      exact ⟨_, Reference.expand_append hmark h⟩
    · rintro ⟨chars, h⟩
      exact (Reference.expand_of_append hmark h).imp fun _ h => h.1
  · exact Iff.rfl

theorem not_mem_dropMark (hraw : '<' ∉ raw) : '<' ∉ dropMark raw := by
  unfold dropMark
  split
  · exact fun hmem => hraw (List.mem_cons_of_mem _ hmem)
  · exact hraw

/-- A document is read from its first markup on, if the references before it can be read. -/
theorem parse_eq_ok_iff_of_run (hdocument : document.toList = raw ++ cs) (hraw : '<' ∉ raw)
    (hcs : ∀ c ∈ cs.head?, c = '<') :
    parse document = .ok root ↔ (∃ chars, Reference.expand raw = .ok chars) ∧
      ∃ ms state, Cut cs ms ∧ ms.foldlM State.step {} = .ok state ∧
        state.builder.finish = .ok root := by
  rw [parse_eq_ok_iff, hdocument, dropMark_append fun _ => hcs, ← exists_expand_dropMark]
  have hcut {ms : List Markup} : Cut (dropMark raw ++ cs) ms ↔ _ :=
    cut_run_append_iff (not_mem_dropMark hraw) hcs
  constructor
  · rintro ⟨state, hrun, hfinish⟩
    obtain ⟨ms, hms, hpieces⟩ := exists_cut hrun
    obtain ⟨ns, rfl, hns⟩ := hcut.1 hms
    obtain ⟨state₁, hfirst, hrest⟩ := foldlM_append_eq_ok hpieces
    obtain ⟨chars, hchars⟩ := expand_of_foldlM_run hfirst
    obtain rfl := Except.ok.inj ((foldlM_run hchars {} {}).symm.trans hfirst)
    exact ⟨⟨chars, hchars⟩, ns, state, hns, hrest, hfinish⟩
  · rintro ⟨⟨chars, hchars⟩, ns, state, hns, hrest, hfinish⟩
    refine ⟨state, ?_, hfinish⟩
    rw [foldM_eq_foldlM _ (hcut.2 ⟨ns, rfl, hns⟩), foldlM_append_of_ok (foldlM_run hchars {} {})]
    exact hrest

theorem parse_data_append {p : Piece} (hlegal : p.Legal) (hdata : p.IsData)
    (h : parse document = .ok root) : parse (String.ofList p.chars ++ document) = .ok root := by
  obtain ⟨raw, cs, hdocument, hraw, hcs⟩ := exists_run document.toList
  obtain ⟨⟨chars, hchars⟩, ms, state, hms, hrun, hfinish⟩ :=
    (parse_eq_ok_iff_of_run hdocument hraw hcs).1 h
  have hwhole : (String.ofList p.chars ++ document).toList = p.chars ++ (raw ++ cs) := by
    rw [String.toList_append, String.toList_ofList, hdocument]
  cases hdata with
  | @text before chars' hbefore =>
    have hmore : (String.ofList (Piece.text before).chars ++ document).toList =
        before ++ raw ++ cs := by
      rw [hwhole, List.append_assoc]
      rfl
    have hboth : '<' ∉ before ++ raw := by
      rw [List.mem_append, not_or]
      exact ⟨hlegal.2, hraw⟩
    exact (parse_eq_ok_iff_of_run hmore hboth hcs).2
      ⟨⟨_, Reference.expand_append hbefore hchars⟩, ms, state, hms, hrun, hfinish⟩
  | @cdata content =>
    have hbracket : ∀ c ∈ ((Piece.cdata content).chars ++ (raw ++ cs)).head?, c = '<' := by
      rintro c ⟨⟩
      rfl
    have hcut : Cut ((Piece.cdata content).chars ++ (raw ++ cs))
        (.cdata content :: (run raw ++ ms)) := by
      refine (cut_piece hlegal).append ((cut_run_append_iff hraw hcs).2 ⟨ms, rfl, hms⟩) ?_
      rintro _ ⟨⟩ n - htext
      cases htext
    have hstep : State.step {} (.cdata content) = .ok {} := rfl
    have hall : (.cdata content :: (run raw ++ ms)).foldlM State.step {} = .ok state := by
      rw [foldlM_cons_of_ok hstep, foldlM_append_of_ok (foldlM_run hchars {} {})]
      exact hrun
    rw [← List.nil_append ((Piece.cdata content).chars ++ _)] at hwhole
    exact (parse_eq_ok_iff_of_run hwhole List.not_mem_nil hbracket).2
      ⟨⟨[], Reference.expandFrom_of_expands .nil _ _⟩, _, state, hcut, hall, hfinish⟩

/-! ## After the root -/

theorem step_data_outside {p : Piece} (hdata : p.IsData) (hopened : state.builder.opened = []) :
    State.step state p.markup = .ok state := by
  cases hdata with
  | text hchars => exact step_text_outside hopened hchars
  | @cdata content =>
    obtain ⟨reader, builder⟩ := state
    have hstep : State.step ⟨reader, builder⟩ (.cdata content) =
        .ok ⟨reader, builder.addText content⟩ := rfl
    rw [Piece.markup, hstep, Builder.addText_outside hopened]

/-- Data after pieces that leave no element open can be read, and changes nothing. -/
theorem exists_cut_append_data {p : Piece} (hlegal : p.Legal) (hdata : p.IsData) (hms : Cut cs ms)
    (hrun : ms.foldlM State.step {} = .ok state) (hopened : state.builder.opened = []) :
    ∃ ns, Cut (cs ++ p.chars) ns ∧ ns.foldlM State.step {} = .ok state := by
  obtain hboth | ⟨before, a, after, rest, rfl, hp, hboth⟩ := hms.append_cases (cut_piece hlegal)
  · refine ⟨_, hboth, ?_⟩
    rw [foldlM_append_of_ok hrun, foldlM_cons_of_ok (step_data_outside hdata hopened)]
    rfl
  · -- The data goes on with the character data that the pieces end in.
    cases hdata with
    | cdata => cases hp
    | text hafter =>
      cases hp
      obtain ⟨⟨reader, builder⟩, hbefore, hlast⟩ := foldlM_concat_eq_ok hrun
      obtain ⟨-, chars, hchars⟩ := expand_of_step hlast
      have hsame : state = ⟨reader, builder⟩ := by
        rw [step_text hchars] at hlast
        obtain rfl := Except.ok.inj hlast
        have hlength := builder.length_opened_addText (keep chars)
        rw [hopened] at hlength
        rw [Builder.addText_outside (List.length_eq_zero_iff.1 hlength.symm)]
      refine ⟨_, hboth, ?_⟩
      rw [foldlM_append_of_ok hbefore, ← hsame,
        foldlM_cons_of_ok (step_text_outside hopened (Reference.expand_append hchars hafter))]
      rfl

theorem parse_append_data {p : Piece} (hlegal : p.Legal) (hdata : p.IsData)
    (h : parse document = .ok root) : parse (document ++ String.ofList p.chars) = .ok root := by
  obtain ⟨state, hrun, hfinish⟩ := parse_eq_ok_iff.1 h
  obtain ⟨ms, hms, hpieces⟩ := exists_cut hrun
  have hopened : state.builder.opened = [] := by rw [Builder.eq_of_finish hfinish]
  obtain ⟨ns, hns, hall⟩ := exists_cut_append_data hlegal hdata hms hpieces hopened
  have hne : document.toList ≠ [] := by
    intro hnil
    rw [hnil] at hms
    obtain rfl := hms.eq_nil
    obtain rfl := Except.ok.inj hpieces
    cases hfinish
  refine parse_eq_ok_iff.2 ⟨state, ?_, hfinish⟩
  rw [String.toList_append, String.toList_ofList, dropMark_append fun hnil => absurd hnil hne,
    foldM_eq_foldlM _ hns]
  exact hall

/-- Character data before and after a document makes no difference, in brackets or not : what was a
document is read as the same one. -/
theorem parse_surrounded {p : Piece} (hlegal : p.Legal) (hdata : p.IsData)
    (h : parse document = .ok root) :
    parse (String.ofList p.chars ++ document) = .ok root ∧
      parse (document ++ String.ofList p.chars) = .ok root :=
  ⟨parse_data_append hlegal hdata h, parse_append_data hlegal hdata h⟩

theorem parse_surrounded_prologue :
    parse "x&amp;y\uFEFF<?xml version='1.0'?><a>b</a>\n" = .ok ⟨"a", "", [], "b", []⟩ ∧
      parse "\uFEFF<?xml version='1.0'?><a>b</a>\nx&amp;y" = .ok ⟨"a", "", [], "b", []⟩ := by
  have hlegal : (Piece.text "x&amp;y".toList).Legal := ⟨by decide, by decide⟩
  have hexpand : Reference.expand "x&amp;y".toList = .ok "x&y".toList := by
    with_unfolding_all rfl
  have h : parse "\uFEFF<?xml version='1.0'?><a>b</a>\n" = .ok ⟨"a", "", [], "b", []⟩ := by
    with_unfolding_all rfl
  have hboth := parse_surrounded hlegal (.text hexpand) h
  have hstray : String.ofList (Piece.text "x&amp;y".toList).chars = "x&amp;y" :=
    String.ofList_toList
  simpa only [hstray, String.reduceAppend] using hboth

/-- Neither a letter nor brackets around it are refused next to the root. -/
theorem parse_besideRoot :
    (parse "x<a/>" = .ok ⟨"a", "", [], "", []⟩ ∧ parse "<a/>x" = .ok ⟨"a", "", [], "", []⟩) ∧
      parse "<![CDATA[x]]><a/>" = .ok ⟨"a", "", [], "", []⟩ ∧
        parse "<a/><![CDATA[x]]>" = .ok ⟨"a", "", [], "", []⟩ := by
  refine ⟨⟨?_, ?_⟩, ?_, ?_⟩
  · with_unfolding_all rfl
  · with_unfolding_all rfl
  · with_unfolding_all rfl
  · with_unfolding_all rfl

end Document

end MifirReport.Xml
