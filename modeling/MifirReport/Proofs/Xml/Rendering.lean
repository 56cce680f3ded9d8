import MifirReport.Proofs.Xml.Interior
import MifirReport.Proofs.Xml.Style

/-!
# Rendering and parsing

A document that renders an element has many forms. The declaration of its namespace stands anywhere
among the attributes of the root. An element without text and children may be one tag or two. The
text before the children is written as it is, character by character in any escape, or in brackets
(`WritesText`). Blanks, comments and processing instructions stand between tags, and blanks inside
them. `Renders` collects these forms as pieces, and `IsRendering` as texts, which may begin with a
byte order mark.

All of them are parsed into the element : `parse_rendering`. The pieces of siblings attach them one
after the other to the innermost open element and leave all else as it is (`foldlM_renders`). That
is shown by induction on the rendering, with the scope inside the root as the one in force from
there on.
-/

namespace MifirReport.Xml

/-! ## Elements that can be rendered -/

/-- An element that can be rendered in a namespace : its names are names without a colon, its texts
and values are free of the character zero, no text is blank unless it is empty, and the elements
inside are of the same kind. -/
inductive Element.Legal (uri : String) : Element → Prop
  | intro {e : Element} : e.uri = uri → isName e.name.toList = true →
      LegalAttributes e.attributes → '\x00' ∉ e.text.toList →
      (e.text = "" ∨ ¬e.text.toList.all Text.isBlank = true) →
      (∀ child ∈ e.children, Element.Legal uri child) → Element.Legal uri e

/-! ## Renderings -/

/-- Pieces that do not count : blanks, comments and processing instructions. -/
def Piece.IsGap : Piece → Prop
  | .text raw => ∀ c ∈ raw, isSpace c = true
  | .comment _ => True
  | .instruction _ => True
  | _ => False

/-- The pieces that a text may be written as : none if it is empty, one in brackets, or one with
escapes. -/
inductive WritesText (text : String) : List Piece → Prop
  | none : text = "" → WritesText text []
  | cdata : ¬"]]>".toList <:+: text.toList → WritesText text [.cdata text.toList]
  | escaped {raw : List Char} : text ≠ "" → Reference.Escapes text.toList raw →
      WritesText text [.text raw]

/-- The content of a tag that begins an element. -/
structure WritesTag (style : Style) (root : Bool) (e : Element) (t : TagText) : Prop where
  name : t.name = style.tagName e.name
  legal : ∀ a ∈ t.attributes, a.Legal
  writes : WritesAttributes (style.declared root) e.attributes t.attributes
  gap : ∀ c ∈ t.gap, isSpace c = true

/-- The pieces that siblings may be rendered as, with what does not count between and around them.
Only the root declares the namespace. -/
inductive Renders (style : Style) : Bool → List Element → List Piece → Prop
  | nil {root : Bool} : Renders style root [] []
  | gap {root : Bool} {es : List Element} {p : Piece} {ps : List Piece} :
      p.Legal → p.IsGap → Renders style root es ps → Renders style root es (p :: ps)
  | empty {root : Bool} {e : Element} {es : List Element} {t : TagText} {ps : List Piece} :
      e.text = "" → e.children = [] → WritesTag style root e t → Renders style root es ps →
      Renders style root (e :: es) (.empty t :: ps)
  | element {root : Bool} {e : Element} {es : List Element} {t : TagText}
      {before text inner ps : List Piece} {gap : List Char} :
      WritesTag style root e t → (∀ p ∈ before, p.Legal ∧ p.IsGap) → WritesText e.text text →
      Renders style false e.children inner → (∀ c ∈ gap, isSpace c = true) →
      Renders style root es ps →
      Renders style root (e :: es)
        (.start t :: (before ++ (text ++ (inner ++ .close t.name gap :: ps))))

/-- A text renders an element : it is made of pieces that do, none of which is character data next
to character data, and may begin with a byte order mark. -/
def IsRendering (style : Style) (e : Element) (document : String) : Prop :=
  ∃ ps, Renders style true [e] ps ∧ (ps.IsChain fun p q => p.isText = true → q.isText = false) ∧
    (document.toList = ps.flatMap Piece.chars ∨
      document.toList = '\uFEFF' :: ps.flatMap Piece.chars)

variable {style : Style} {root : Bool} {e : Element} {es : List Element} {t : TagText} {p : Piece}
  {ps : List Piece}

/-! ## Renderings are legal -/

theorem WritesTag.legalTag (h : WritesTag style root e t) (hstyle : style.Legal)
    (he : e.Legal style.uri) : t.Legal := by
  obtain ⟨-, hname, hattributes, -, -, -⟩ := he
  refine ⟨?_, h.legal, ?_, h.gap⟩
  · rw [h.name]
    exact Style.isTagName_tagName hstyle hname
  · exact isTagName_of_writes h.writes hattributes (Style.isTagName_declaration hstyle)

theorem WritesText.legal {text : String} (h : WritesText text ps) : ∀ p ∈ ps, p.Legal := by
  cases h with
  | none _ => exact fun _ hp => nomatch hp
  | cdata hmark =>
    intro p hp
    rw [List.mem_singleton.1 hp]
    exact hmark
  | escaped hne hraw =>
    intro p hp
    rw [List.mem_singleton.1 hp]
    refine ⟨?_, Reference.not_mem_of_escapes hraw⟩
    rintro rfl
    cases htext : text.toList with
    | nil => exact hne (String.toList_eq_nil_iff.1 htext)
    | cons c cs =>
      rw [htext] at hraw
      cases hraw

/-- The pieces of a rendering are written as they may be. -/
theorem Renders.legal (h : Renders style root es ps) (hstyle : style.Legal)
    (hes : ∀ e ∈ es, e.Legal style.uri) : ∀ p ∈ ps, p.Legal := by
  induction h with
  | nil => exact fun _ hp => nomatch hp
  | gap hp _ _ ih =>
    rw [List.forall_mem_cons]
    exact ⟨hp, ih hes⟩
  | empty _ _ htag _ ih =>
    rw [List.forall_mem_cons] at hes ⊢
    exact ⟨htag.legalTag hstyle hes.1, ih hes.2⟩
  | @element root e es t before text inner ps gap htag hbefore htext _ hgap _ ihinner ih =>
    rw [List.forall_mem_cons] at hes
    have hlegal := htag.legalTag hstyle hes.1
    obtain ⟨-, -, -, -, -, hchildren⟩ := hes.1
    rw [List.forall_mem_cons, List.forall_mem_append, List.forall_mem_append,
      List.forall_mem_append, List.forall_mem_cons]
    exact ⟨hlegal, fun p hp => (hbefore p hp).1, htext.legal, ihinner hchildren,
      ⟨hlegal.name, hgap⟩, ih hes.2⟩

/-! ## Steps -/

section Steps

open Document

variable {reader : Reader} {builder builder' : Builder} {frame : Frame} {frames : List Frame}
  {done : Option Element}

/-- What reading makes of a tag that begins an element : the scope inside it and the frame. -/
theorem WritesTag.read (h : WritesTag style root e t) (hstyle : style.Legal)
    (he : e.Legal style.uri) :
    (style.around root).declare (Tag.ofContent t.chars).pairs = .ok style.scope ∧
      (Tag.ofContent t.chars).name = t.name ∧
      Frame.ofTag (Tag.ofContent t.chars)
          (style.scope.resolve (Tag.ofContent t.chars).name) =
        .ok { name := e.name, uri := e.uri, attributes := e.attributes } := by
  have hlegal := h.legalTag hstyle he
  obtain ⟨huri, hname, hattributes, -, -, -⟩ := he
  have hscan : Scanned t.attributes (Tag.scan ⟨t.name, t.body⟩) :=
    scanned_scan hlegal.attributes hlegal.keys hlegal.gap _
  rw [ofContent_chars hlegal]
  refine ⟨?_, rfl, ?_⟩
  · rw [Tag.pairs, read_of_scanned hscan]
    exact declare_of_writes h.writes hattributes Style.scope_of_declared_eq_none
      (Style.declareOne_declaration hstyle)
  · rw [huri]
    refine Style.ofTag_scope hstyle hname h.name ?_
    exact readAttributes_of_writes h.writes hscan hattributes
      (fun declaration hd => ⟨Style.declares_declaration declaration hd, rfl⟩) fun _ _ => rfl

theorem step_start (h : WritesTag style root e t) (hstyle : style.Legal) (he : e.Legal style.uri)
    (hscope : reader.scope = style.around root) :
    State.step ⟨reader, builder⟩ (.start t.chars) =
      .ok ⟨⟨⟨t.name, style.scope⟩ :: reader.opened⟩,
        { builder with
          opened := { name := e.name, uri := e.uri, attributes := e.attributes } ::
            builder.opened }⟩ := by
  obtain ⟨hdeclare, hname, hframe⟩ := h.read hstyle he
  rw [hname] at hframe
  simp only [State.step, Reader.step, Builder.step, hscope, hdeclare, hframe, hname]

theorem step_empty (h : WritesTag style root e t) (hstyle : style.Legal) (he : e.Legal style.uri)
    (htext : e.text = "") (hchildren : e.children = [])
    (hscope : reader.scope = style.around root) (hattach : builder.attach e = .ok builder') :
    State.step ⟨reader, builder⟩ (.empty t.chars) = .ok ⟨reader, builder'⟩ := by
  obtain ⟨hdeclare, -, hframe⟩ := h.read hstyle he
  have hclose : Frame.close { name := e.name, uri := e.uri, attributes := e.attributes } = e := by
    cases e
    rw [Frame.close, Element.mk.injEq]
    exact ⟨rfl, rfl, rfl, htext.symm, hchildren.symm⟩
  simp only [State.step, Reader.step, Builder.step, hscope, hdeclare, hframe, hclose, hattach]

theorem step_close {name : List Char} {scope : Scope} {opened : List OpenTag}
    (hattach : Builder.attach ⟨frames, done⟩ frame.close = .ok builder') :
    State.step ⟨⟨⟨name, scope⟩ :: opened⟩, ⟨frame :: frames, done⟩⟩ (.close name) =
      .ok ⟨⟨opened⟩, builder'⟩ := by
  simp only [State.step, Reader.step, Builder.step, if_pos, hattach]

theorem escapes_of_isSpace {raw : List Char} (h : ∀ c ∈ raw, isSpace c = true) :
    Reference.Escapes raw raw := by
  induction raw with
  | nil => exact .nil
  | cons c raw ih =>
    rw [List.forall_mem_cons] at h
    refine .plain ?_ ?_ (ih h.2)
    · rintro rfl
      exact absurd h.1 (by decide)
    · rintro rfl
      exact absurd h.1 (by decide)

theorem isBlank_of_isSpace {c : Char} (h : isSpace c = true) : Text.isBlank c = true := by
  simp only [isSpace, Bool.or_eq_true, beq_iff_eq] at h
  rcases h with ((rfl | rfl) | rfl) | rfl <;> decide

/-- What does not count changes nothing. -/
theorem step_gap (h : p.IsGap) : State.step ⟨reader, builder⟩ p.markup = .ok ⟨reader, builder⟩ := by
  cases p with
  | text raw =>
    have hnul : '\x00' ∉ raw := fun hmem => absurd (h _ hmem) (by decide)
    have hexpand := Reference.expand_escapes (escapes_of_isSpace h) hnul
    have hblank : raw.all Text.isBlank = true :=
      List.all_eq_true.2 fun c hc => isBlank_of_isSpace (h c hc)
    rw [Piece.markup, step_text hexpand, keep, if_pos hblank, Builder.addText_nil]
  | comment content => rfl
  | instruction content => rfl
  | start tag => exact h.elim
  | empty tag => exact h.elim
  | close name gap => exact h.elim
  | cdata content => exact h.elim

/-! ## Runs -/

theorem foldlM_gaps (h : ∀ p ∈ ps, p.IsGap) :
    (ps.map Piece.markup).foldlM State.step ⟨reader, builder⟩ = .ok ⟨reader, builder⟩ := by
  induction ps with
  | nil => rfl
  | cons p ps ih =>
    rw [List.forall_mem_cons] at h
    rw [List.map_cons, foldlM_cons_of_ok (step_gap h.1), ih h.2]

/-- The text of an element reaches its frame. -/
theorem foldlM_text {text : String} (h : WritesText text ps) (hnul : '\x00' ∉ text.toList)
    (hblank : text = "" ∨ ¬text.toList.all Text.isBlank = true) :
    (ps.map Piece.markup).foldlM State.step ⟨reader, ⟨frame :: frames, done⟩⟩ =
      .ok ⟨reader, ⟨{ frame with text := frame.text ++ text } :: frames, done⟩⟩ := by
  cases h with
  | none hempty =>
    rw [hempty, String.append_empty]
    rfl
  | cdata _ =>
    have hlist := String.ofList_toList (s := text)
    simp only [List.map_cons, List.map_nil, List.foldlM_cons, List.foldlM_nil, Piece.markup,
      State.step, Reader.step, Builder.step, Builder.addText, hlist]
    rfl
  | escaped hne hraw =>
    have hexpand := Reference.expand_escapes hraw hnul
    have hkeep : keep text.toList = text.toList := if_neg (hblank.resolve_left hne)
    rw [List.map_cons, Piece.markup, foldlM_cons_of_ok (step_text hexpand _ _), hkeep,
      Builder.addText, String.ofList_toList]
    rfl

/-- Elements that are attached one after the other to an open element are its children. -/
theorem foldlM_attach (es : List Element) (frame : Frame) :
    es.foldlM Builder.attach ⟨frame :: frames, done⟩ =
      .ok ⟨{ frame with children := frame.children ++ es.toArray } :: frames, done⟩ := by
  induction es generalizing frame with
  | nil =>
    rw [List.foldlM_nil]
    simp
    rfl
  | cons e es ih =>
    rw [List.foldlM_cons, Builder.attach]
    refine (ih _).trans ?_
    simp

/-- The pieces of siblings attach them to what is open, and leave the reader as it was. -/
theorem foldlM_renders (h : Renders style root es ps) (hstyle : style.Legal)
    (hes : ∀ e ∈ es, e.Legal style.uri) (hscope : reader.scope = style.around root)
    (hattach : es.foldlM Builder.attach builder = .ok builder') :
    (ps.map Piece.markup).foldlM State.step ⟨reader, builder⟩ = .ok ⟨reader, builder'⟩ := by
  induction h generalizing reader builder builder' with
  | nil =>
    cases hattach
    rfl
  | gap _ hp _ ih =>
    rw [List.map_cons, foldlM_cons_of_ok (step_gap hp)]
    exact ih hes hscope hattach
  | @empty root e es t ps htext hchildren htag _ ih =>
    rw [List.forall_mem_cons] at hes
    rw [List.foldlM_cons] at hattach
    cases hfirst : builder.attach e with
    | error cause =>
      rw [hfirst] at hattach
      cases hattach
    | ok builder₁ =>
      rw [hfirst] at hattach
      have hstep := step_empty htag hstyle hes.1 htext hchildren hscope hfirst
      rw [List.map_cons, Piece.markup, foldlM_cons_of_ok hstep]
      exact ih hes.2 hscope hattach
  | @element root e es t before text inner ps gap htag hbefore htext _ _ _ ihinner ih =>
    rw [List.forall_mem_cons] at hes
    rw [List.foldlM_cons] at hattach
    obtain ⟨-, -, -, hnul, hblank, hchildren⟩ := hes.1
    cases hfirst : builder.attach e with
    | error cause =>
      rw [hfirst] at hattach
      cases hattach
    | ok builder₁ =>
      rw [hfirst] at hattach
      have hclose : Frame.close
          { name := e.name, uri := e.uri, attributes := e.attributes, text := "" ++ e.text,
            children := #[] ++ e.children.toArray } = e := by
        cases e
        simp [Frame.close]
      rw [List.map_cons, Piece.markup, foldlM_cons_of_ok (step_start htag hstyle hes.1 hscope),
        List.map_append, foldlM_append_of_ok (foldlM_gaps fun p hp => (hbefore p hp).2),
        List.map_append, foldlM_append_of_ok (foldlM_text htext hnul hblank),
        List.map_append, foldlM_append_of_ok (ihinner hchildren rfl (foldlM_attach e.children _)),
        List.map_cons, Piece.markup, foldlM_cons_of_ok (step_close (hclose.symm ▸ hfirst))]
      exact ih hes.2 hscope hattach

/-! ## Documents -/

/-- A rendering begins with a `<` or a blank. -/
theorem head?_of_renders (h : Renders style root es ps) :
    ∀ c ∈ (ps.flatMap Piece.chars).head?, c = '<' ∨ isSpace c = true := by
  cases h with
  | nil => exact fun _ hc => nomatch hc
  | @gap _ _ p ps hp hgap _ =>
    cases p with
    | text raw =>
      obtain ⟨c, cs, rfl⟩ := List.exists_cons_of_ne_nil hp.1
      rintro _ ⟨⟩
      exact Or.inr (hgap c List.mem_cons_self)
    | comment content =>
      rintro _ ⟨⟩
      exact Or.inl rfl
    | instruction content =>
      rintro _ ⟨⟩
      exact Or.inl rfl
    | start tag => exact hgap.elim
    | empty tag => exact hgap.elim
    | close name gap => exact hgap.elim
    | cdata content => exact hgap.elim
  | empty _ _ _ _ =>
    rintro _ ⟨⟩
    exact Or.inl rfl
  | element _ _ _ _ _ _ =>
    rintro _ ⟨⟩
    exact Or.inl rfl

/-- A byte order mark is dropped, and nothing else. -/
theorem dropMark_of_renders (h : Renders style root es ps) {document : List Char}
    (hdocument : document = ps.flatMap Piece.chars ∨
      document = '\uFEFF' :: ps.flatMap Piece.chars) :
    dropMark document = ps.flatMap Piece.chars := by
  rcases hdocument with rfl | rfl
  · have hfirst := head?_of_renders h
    cases hchars : ps.flatMap Piece.chars with
    | nil => rfl
    | cons c cs =>
      rw [hchars] at hfirst
      rw [dropMark]
      rintro _ ⟨⟩
      exact absurd (hfirst _ rfl) (by decide)
  · rfl

/-- Every rendering of an element is parsed into the element. -/
theorem parse_rendering {document : String} (hstyle : style.Legal) (he : e.Legal style.uri)
    (h : IsRendering style e document) : Document.parse document = .ok e := by
  obtain ⟨ps, hrenders, hmeet, hdocument⟩ := h
  have hes : ∀ other ∈ [e], other.Legal style.uri := by
    intro other hother
    rwa [List.mem_singleton.1 hother]
  have hcut := Markup.cut_pieces (hrenders.legal hstyle hes) hmeet
  have hattach : [e].foldlM Builder.attach {} = .ok ⟨[], some e⟩ := rfl
  have hrun : (ps.map Piece.markup).foldlM State.step {} = .ok ⟨{}, ⟨[], some e⟩⟩ :=
    foldlM_renders hrenders hstyle hes rfl hattach
  rw [Document.parse, dropMark_of_renders hrenders hdocument, Markup.foldM_eq_foldlM _ hcut, hrun]
  rfl

theorem parse_rendering_labelled :
    Document.parse ("<?xml version='1.0'?>\n<m:Tx Ccy = 'E&lt;' xmlns:m='urn:x' >a&#x026;b" ++
        "<!-- --><m:New/></m:Tx >") =
      .ok { name := "Tx", uri := "urn:x", attributes := [("Ccy", "E<")], text := "a&b",
            children := [{ name := "New", uri := "urn:x" }] } := by
  have hstyle : (Style.labelled "m" "urn:x").Legal :=
    ⟨by decide, by decide, by decide, ⟨by decide, by decide, by decide, by simp⟩⟩
  have hnew : Element.Legal "urn:x" { name := "New", uri := "urn:x" } :=
    .intro rfl (by decide) ⟨by decide, by decide, by decide⟩ (by decide) (Or.inl rfl)
      (fun _ h => nomatch h)
  have htx : Element.Legal "urn:x"
      { name := "Tx", uri := "urn:x", attributes := [("Ccy", "E<")], text := "a&b",
        children := [{ name := "New", uri := "urn:x" }] } :=
    .intro rfl (by decide) ⟨by decide, by decide, by decide⟩ (by decide) (Or.inr (by decide))
      fun child h => List.mem_singleton.1 h ▸ hnew
  have hless : Reference.Denotes "lt".toList '<' :=
    .named (by decide : ("lt", '<') ∈ Reference.predefined)
  have hvalue : Reference.Escapes "E<".toList "E&lt;".toList :=
    .plain (by decide) (by decide) (.reference hless .nil)
  have hnumeral : Reference.Numeral 16 0 ['0', '2', '6'] '&'.toNat :=
    .cons (by decide) (Or.inl (rfl : _ = Nat.digitChar 0))
      (.cons (by decide) (Or.inl (rfl : _ = Nat.digitChar 2))
        (.cons (by decide) (Or.inl (rfl : _ = Nat.digitChar 6)) .nil))
  have htext : Reference.Escapes "a&b".toList "a&#x026;b".toList :=
    .plain (by decide) (by decide) (.reference (.hexadecimal (by decide) hnumeral)
      (.plain (by decide) (by decide) .nil))
  have hspace : ∀ c ∈ [' '], isSpace c = true := List.forall_mem_singleton.2 rfl
  have hroot : WritesTag (.labelled "m" "urn:x") true
      { name := "Tx", uri := "urn:x", attributes := [("Ccy", "E<")], text := "a&b",
        children := [{ name := "New", uri := "urn:x" }] }
      ⟨"m:Tx".toList, [⟨[' '], "Ccy".toList, [' '], [' '], '\'', "E&lt;".toList⟩,
        ⟨[' '], "xmlns:m".toList, [], [], '\'', "urn:x".toList⟩], [' ']⟩ := by
    have hdeclaration : WritesAttributes (some ("xmlns:m".toList, "urn:x".toList)) []
        [⟨[' '], "xmlns:m".toList, [], [], '\'', "urn:x".toList⟩] :=
      .declaration (a := ⟨[' '], "xmlns:m".toList, [], [], '\'', "urn:x".toList⟩) .nil
    refine ⟨rfl, ?_, .entry rfl hvalue hdeclaration, hspace⟩
    rw [List.forall_mem_cons, List.forall_mem_singleton]
    exact ⟨⟨by simp, hspace, hspace, hspace, Or.inr rfl, by decide⟩,
      ⟨by simp, hspace, by simp, by simp, Or.inr rfl, by decide⟩⟩
  have hinner : Renders (.labelled "m" "urn:x") false [{ name := "New", uri := "urn:x" }]
      [.comment [' '], .empty ⟨"m:New".toList, [], []⟩] := by
    have hcomment : ¬"--".toList <:+: [' '] ++ ['-'] := by decide
    exact .gap hcomment trivial (.empty rfl rfl ⟨rfl, by simp, .nil, by simp⟩ .nil)
  have hversion : ¬"?>".toList <:+: "xml version='1.0'".toList := by simp [List.infix_cons_iff]
  have hbreak : ∀ c ∈ ['\n'], isSpace c = true := List.forall_mem_singleton.2 rfl
  have hdocument : Renders (.labelled "m" "urn:x") true
      [{ name := "Tx", uri := "urn:x", attributes := [("Ccy", "E<")], text := "a&b",
          children := [{ name := "New", uri := "urn:x" }] }]
      [.instruction "xml version='1.0'".toList, .text ['\n'],
        .start ⟨"m:Tx".toList, [⟨[' '], "Ccy".toList, [' '], [' '], '\'', "E&lt;".toList⟩,
          ⟨[' '], "xmlns:m".toList, [], [], '\'', "urn:x".toList⟩], [' ']⟩,
        .text "a&#x026;b".toList, .comment [' '], .empty ⟨"m:New".toList, [], []⟩,
        .close "m:Tx".toList [' ']] := by
    refine .gap ⟨by decide, hversion⟩ trivial (.gap ⟨by decide, by decide⟩ hbreak ?_)
    exact .element hroot (List.forall_mem_nil _) (.escaped (by decide) htext) hinner hspace .nil
  exact parse_rendering hstyle htx ⟨_, hdocument, by decide, Or.inl (by decide)⟩

end Steps

end MifirReport.Xml
