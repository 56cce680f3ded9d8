import MifirReport.Proofs.Xml.Interior
import MifirReport.Proofs.Xml.Joining
import MifirReport.Proofs.Xml.Tags

/-!
# Documents in fragments

What stands between the tags of an element may be cut into fragments. If each fragment is read on
its own between the same tags, then all of them together are read too, and the children of the
element are the children of the parts : `parse_fragments`. The name of the element may not end in
two hyphens, since a comment that is left open in a fragment would end in such an end tag
(`parse_fragments_commentAcross`).

A fragment that is read between two tags is `Balanced` : it leaves nothing open, nor does it close
the element around it (`balanced_of_parse`). Balanced texts may follow each other
(`Balanced.append`), and between the tags they are read again (`parse_of_balanced`).
-/

namespace MifirReport.Xml.Document

open Markup

/-! ## What may stand between two tags -/

/-- A text that may stand between the tags of an element : its pieces fill the element. -/
def Balanced (tag : OpenTag) (cs : List Char) (text : String) (children : Array Element) : Prop :=
  ∃ ms, Cut cs ms ∧ Fills tag ms text children

variable {tag : OpenTag} {frame : Frame} {cs ds content : List Char} {text text' : String}
  {children children' : Array Element} {start name inner : String} {root : Element}

theorem Balanced.nil (tag : OpenTag) : Balanced tag [] "" #[] :=
  ⟨[], .nil, .nil tag⟩

/-- What may stand between the tags of an element may stand there one after the other. -/
theorem Balanced.append (h : Balanced tag cs text children)
    (h' : Balanced tag ds text' children') :
    ∃ text, Balanced tag (cs ++ ds) text (children ++ children') := by
  obtain ⟨ms, hcut, hfills⟩ := h
  obtain ⟨ns, hcut', hfills'⟩ := h'
  obtain hboth | ⟨ms, a, b, ns, rfl, rfl, hboth⟩ := hcut.append_cases hcut'
  · exact ⟨_, _, hboth, hfills.append hfills'⟩
  · -- The character data on both sides of the border is one piece.
    obtain ⟨⟨before, hbefore⟩, chars, hchars⟩ := hfills.of_append_text
    obtain ⟨⟨chars', hchars'⟩, after, hafter⟩ := hfills'.of_cons_text
    obtain ⟨between, hbetween⟩ := fills_text (Reference.expand_append hchars hchars') tag
    have hall := hbefore.append (hbetween.append hafter)
    rw [Array.empty_append] at hall
    exact ⟨_, _, hboth, hall⟩

/-! ## A text between two tags -/

/-- A text between a start tag and the end tag with a given name. -/
def enclose (start name inner : String) : String :=
  start ++ inner ++ "</" ++ name ++ ">"

/-- A text that is one start tag, with a given name. -/
def IsStartTag (name start : String) : Prop :=
  ∃ content, Cut start.toList [.start content] ∧ (Tag.ofContent content).name = name.toList

/-- A start tag that is written as it may be is one, whatever its attributes. -/
theorem isStartTag_of_legal {t : TagText} (h : t.Legal) :
    IsStartTag (String.ofList t.name) (String.ofList ('<' :: t.chars ++ ['>'])) := by
  obtain ⟨c, cs, hchars, hnext⟩ := next_piece (p := .start t) h
  refine ⟨t.chars, ?_, ?_⟩
  · rw [String.toList_ofList]
    have hcut := Cut.singleton hnext
    rwa [← hchars] at hcut
  · rw [ofContent_chars h, String.toList_ofList]

theorem toList_enclose (start name inner : String) :
    (enclose start name inner).toList = start.toList ++ (inner.toList ++ endTag name.toList) := by
  simp [enclose, endTag]

/-- A document that begins with a start tag is read inside it. -/
theorem parse_enclose_iff_foldM (hstart : Cut start.toList [.start content]) :
    parse (enclose start name inner) = .ok root ↔ ∃ state state' : State,
      State.step {} (.start content) = .ok state ∧
        foldM State.step state (inner.toList ++ endTag name.toList) = .ok state' ∧
        state'.builder.finish = .ok root := by
  generalize hchars : start.toList = chars at hstart
  obtain ⟨⟩ | ⟨hnext, hrest⟩ := hstart
  cases hrest
  obtain rfl := eq_of_next hnext rfl
  rename_i cs
  have hwhole : dropMark (enclose start name inner).toList =
      '<' :: (cs ++ (inner.toList ++ endTag name.toList)) := by
    rw [toList_enclose, hchars]
    rfl
  have hfirst : next '<' (cs ++ (inner.toList ++ endTag name.toList)) =
      .ok (.start content, inner.toList ++ endTag name.toList) :=
    next_append hnext fun htext => absurd htext (by simp [isText])
  rw [parse, hwhole, foldM_of_next hfirst]
  cases State.step {} (.start content) with
  | error cause => simp [bind, Except.bind]
  | ok state =>
    simp only [bind, Except.bind, Except.ok.injEq, exists_and_left, exists_eq_left']
    cases foldM State.step state (inner.toList ++ endTag name.toList) with
    | error cause => simp
    | ok state' => simp

/-- After a start tag its element is open, and has no children. -/
theorem inside_of_start {state : State} (h : State.step {} (.start content) = .ok state) :
    ∃ scope frame, state = .inside ⟨(Tag.ofContent content).name, scope⟩ frame [] ∧
      frame.children = #[] := by
  obtain ⟨event, hreader, hbuilder⟩ := step_eq_ok h
  obtain ⟨scope, resolution, hopened, rfl⟩ := Reader.eq_of_start hreader
  obtain ⟨frame, hframe, hopened'⟩ := Builder.eq_of_start hbuilder
  obtain ⟨reader, builder⟩ := state
  obtain rfl := hopened
  obtain rfl := hopened'
  obtain ⟨_, _, -, -, rfl⟩ := Frame.eq_of_ofTag hframe
  exact ⟨scope, _, rfl, rfl⟩

section Enclosed

variable (hstart : Cut start.toList [.start content]) (hname : IsTagName name.toList)

include hstart hname

theorem parse_of_balanced {scope : Scope}
    (hstep : State.step {} (.start content) = .ok (.inside ⟨name.toList, scope⟩ frame []))
    (h : Balanced ⟨name.toList, scope⟩ inner.toList text children) :
    parse (enclose start name inner) = .ok (frame.grown text children).close := by
  obtain ⟨ms, hcut, hfills⟩ := h
  have hwhole : Cut (inner.toList ++ endTag name.toList) (ms ++ [.close name.toList]) :=
    hcut.append (cut_endTag hname) fun m _ n hn _ => by
      cases hn
      rfl
  refine (parse_enclose_iff_foldM hstart).2
    ⟨_, ⟨⟨[]⟩, ⟨[], some (frame.grown text children).close⟩⟩, hstep, ?_, rfl⟩
  rw [foldM_eq_foldlM State.step hwhole, List.foldlM_append, hfills frame]
  exact congrArg (· >>= _) (step_rootEnd _ scope _)

theorem balanced_of_parse (hcontent : (Tag.ofContent content).name = name.toList)
    (hhyphens : ¬"--".toList <:+ name.toList) (h : parse (enclose start name inner) = .ok root) :
    ∃ scope frame text children,
      State.step {} (.start content) = .ok (.inside ⟨name.toList, scope⟩ frame []) ∧
        frame.children = #[] ∧ Balanced ⟨name.toList, scope⟩ inner.toList text children ∧
        root = (frame.grown text children).close := by
  obtain ⟨state, state', hstep, hrun, hfinish⟩ := (parse_enclose_iff_foldM hstart).1 h
  obtain ⟨scope, frame, rfl, hempty⟩ := inside_of_start hstep
  rw [hcontent] at hstep hrun
  obtain ⟨ms, hcut, hpieces⟩ := exists_cut hrun
  rcases cut_of_append hname hhyphens hcut with ⟨ms, hinner, rfl⟩ | ⟨ms, m, rfl, hm⟩
  · obtain ⟨-, text, children, hfills, hroot⟩ := fills_of_close hpieces hfinish
    exact ⟨scope, frame, text, children, hstep, hempty, ⟨ms, hinner, hfills⟩, hroot⟩
  · cases m with
    | start content' =>
      obtain ⟨_, -, hlast⟩ := foldlM_concat_eq_ok hpieces
      exact absurd hfinish (finish_of_start hlast)
    | close name' =>
      obtain ⟨rfl, -⟩ := fills_of_close hpieces hfinish
      exact absurd rfl (hname.ne hm '<' (by decide))
    | _ => exact hm.elim

end Enclosed

/-! ## Fragments -/

/-- Texts that may stand between the tags of an element may stand there all together. The element
has their children then, in order, and is what it is with each of them otherwise. -/
theorem exists_balanced_join {fragments : List String} {roots : List Element}
    (hempty : frame.children = #[])
    (h : List.Forall₂ (fun fragment root => ∃ text children,
      Balanced tag fragment.toList text children ∧ root = (frame.grown text children).close)
      fragments roots) :
    ∃ text children, Balanced tag (String.join fragments).toList text children ∧
      children.toList = roots.flatMap (·.children) ∧
      ∀ part ∈ roots, frame.name = part.name ∧ frame.uri = part.uri ∧
        frame.attributes = part.attributes := by
  induction h with
  | nil => exact ⟨"", #[], .nil tag, rfl, by simp⟩
  | @cons fragment root fragments roots hfirst _ ih =>
    obtain ⟨text, children, hbalanced, rfl⟩ := hfirst
    obtain ⟨text', children', hbalanced', hchildren', hparts⟩ := ih
    obtain ⟨text'', hall⟩ := hbalanced.append hbalanced'
    refine ⟨text'', _, by rwa [String.join_cons, String.toList_append], ?_, ?_⟩
    · rw [Array.toList_append, hchildren', List.flatMap_cons]
      simp [Frame.close, Frame.grown, hempty]
    · rw [List.forall_mem_cons]
      exact ⟨⟨rfl, rfl, rfl⟩, hparts⟩

/-- An element may be cut into fragments between its children : if each fragment is read on its own
between the same tags, so are all of them together, and the children are those of the parts. -/
theorem parse_fragments {fragments : List String} {roots : List Element}
    (hstart : IsStartTag name start) (hname : IsTagName name.toList)
    (hhyphens : ¬"--".toList <:+ name.toList) (hfragments : fragments ≠ [])
    (h : List.Forall₂ (fun fragment root => parse (enclose start name fragment) = .ok root)
      fragments roots) :
    ∃ root, parse (enclose start name (String.join fragments)) = .ok root ∧
      root.children = roots.flatMap (·.children) ∧
      ∀ part ∈ roots, root.name = part.name ∧ root.uri = part.uri ∧
        root.attributes = part.attributes := by
  obtain ⟨content, hcut, hcontent⟩ := hstart
  obtain ⟨scope, frame, hstep, hempty⟩ : ∃ scope frame,
      State.step {} (.start content) = .ok (.inside ⟨name.toList, scope⟩ frame []) ∧
        frame.children = #[] := by
    cases h with
    | nil => exact absurd rfl hfragments
    | cons hfirst _ =>
      obtain ⟨scope, frame, _, _, hstep, hempty, -⟩ :=
        balanced_of_parse hcut hname hcontent hhyphens hfirst
      exact ⟨scope, frame, hstep, hempty⟩
  have hparts : List.Forall₂ (fun fragment root => ∃ text children,
      Balanced ⟨name.toList, scope⟩ fragment.toList text children ∧
        root = (frame.grown text children).close) fragments roots := by
    refine h.imp fun fragment root hroot => ?_
    obtain ⟨scope', frame', text, children, hstep', -, hbalanced, rfl⟩ :=
      balanced_of_parse hcut hname hcontent hhyphens hroot
    obtain ⟨-, htag, rfl⟩ := inside_inj (Except.ok.inj (hstep'.symm.trans hstep))
    exact ⟨text, children, htag ▸ hbalanced, rfl⟩
  obtain ⟨text, children, hbalanced, hchildren, hsame⟩ := exists_balanced_join hempty hparts
  refine ⟨_, parse_of_balanced hcut hname hstep hbalanced, ?_, hsame⟩
  rw [← hchildren]
  simp [Frame.close, Frame.grown, hempty]

/-- The start tag of an element in a namespace, with an attribute. -/
def namespaceTag : TagText where
  name := "Tx".toList
  attributes :=
    [{ before := [' '], key := "xmlns".toList, quote := '\'', raw := "urn:a".toList },
      { before := [' '], key := "id".toList, raw := "1".toList }]

theorem legal_namespaceTag : namespaceTag.Legal where
  name := isTagName_of_isName rfl
  attributes a ha := by
    simp only [namespaceTag, List.mem_cons, List.not_mem_nil, or_false] at ha
    rcases ha with rfl | rfl
    · constructor <;> simp [isSpace]
    · constructor <;> simp [isSpace]
  keys a ha := by
    simp only [namespaceTag, List.mem_cons, List.not_mem_nil, or_false] at ha
    rcases ha with rfl | rfl
    · exact isTagName_of_isName rfl
    · exact isTagName_of_isName rfl
  gap := List.forall_mem_nil _

theorem parse_fragments_twoParts :
    parse "<Tx xmlns='urn:a' id=\"1\"><New/>a</Tx>" =
        .ok ⟨"Tx", "urn:a", [("id", "1")], "a", [⟨"New", "urn:a", [], "", []⟩]⟩ ∧
      parse "<Tx xmlns='urn:a' id=\"1\">&lt;<p:Cxl xmlns:p='urn:p'>b</p:Cxl></Tx>" =
        .ok ⟨"Tx", "urn:a", [("id", "1")], "<", [⟨"Cxl", "urn:p", [], "b", []⟩]⟩ ∧
      ∃ root,
        parse "<Tx xmlns='urn:a' id=\"1\"><New/>a&lt;<p:Cxl xmlns:p='urn:p'>b</p:Cxl></Tx>" =
          .ok root ∧
        root.children = [⟨"New", "urn:a", [], "", []⟩, ⟨"Cxl", "urn:p", [], "b", []⟩] := by
  have hfirst : parse (enclose "<Tx xmlns='urn:a' id=\"1\">" "Tx" "<New/>a") =
      .ok ⟨"Tx", "urn:a", [("id", "1")], "a", [⟨"New", "urn:a", [], "", []⟩]⟩ := by
    with_unfolding_all rfl
  have hsecond : parse (enclose "<Tx xmlns='urn:a' id=\"1\">" "Tx"
      "&lt;<p:Cxl xmlns:p='urn:p'>b</p:Cxl>") =
      .ok ⟨"Tx", "urn:a", [("id", "1")], "<", [⟨"Cxl", "urn:p", [], "b", []⟩]⟩ := by
    with_unfolding_all rfl
  obtain ⟨root, hroot, hchildren, -⟩ := parse_fragments (isStartTag_of_legal legal_namespaceTag)
    legal_namespaceTag.name (by decide) (by simp) (.cons hfirst (.cons hsecond .nil))
  exact ⟨hfirst, hsecond, root, hroot, hchildren⟩

/-- A comment that begins in a fragment ends in the end tag if its name ends in two hyphens. It goes
on in the next fragment if there is one. -/
theorem parse_fragments_commentAcross :
    isName "a--".toList = true ∧ IsStartTag "a--" "<a-->" ∧
      parse (enclose "<a-->" "a--" "</a--><!--") = .ok ⟨"a--", "", [], "", []⟩ ∧
      parse (enclose "<a-->" "a--" "<b/>") =
        .ok ⟨"a--", "", [], "", [⟨"b", "", [], "", []⟩]⟩ ∧
      parse (enclose "<a-->" "a--" (String.join ["</a--><!--", "<b/>"])) =
        .ok ⟨"a--", "", [], "", []⟩ := by
  refine ⟨by decide, ⟨"a--".toList, ?_, rfl⟩, ?_, ?_, ?_⟩
  · exact .singleton (by rfl)
  · with_unfolding_all rfl
  · with_unfolding_all rfl
  · with_unfolding_all rfl

end MifirReport.Xml.Document
