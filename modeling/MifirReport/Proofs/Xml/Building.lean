import MifirReport.Proofs.Xml.Interior
import MifirReport.Proofs.Xml.Joining
import MifirReport.Proofs.Xml.Listing
import MifirReport.Proofs.Xml.Nesting
import Mathlib.Data.List.Forall2

/-!
# The element that a stream of events builds

The events of a document (`Document.events`) decide whether it has a root, and what is in the root :
`Document.parse_reflects_events`. A document is refused just if an event is an error, if a label, an
attribute or a reference in one cannot be read (`Event.Legible`), if an element is left open, or if
there is not exactly one at top level. What an element is in terms of the events is `Describes`.

The law of the loop is `Mirrors` : the nodes that the builder lists are those that the events
describe, and it has open what they leave open. Each event that the builder takes in keeps the law
(`Mirrors.step`), and it takes in every event that can be read and is not part of a second element
at top level (`Mirrors.exists_step`). It never meets an end tag with nothing open, as the reader
refuses such a tag (`Document.length_opened_of_step`).
-/

namespace MifirReport.Xml

/-! ## What events say of elements -/

/-- The label of a tag is bound and its attributes can be read, and so can character data. -/
def Event.Legible : Event → Prop
  | .start tag resolution | .empty tag resolution =>
    (∃ uri, resolution.uri? = some uri) ∧ ∃ attributes, tag.attributes = .ok attributes
  | .text content => ∃ chars, Reference.expand content = .ok chars
  | _ => True

/-- A tag and what its name resolves to are those of a node. -/
structure Tag.Names (tag : Tag) (resolution : Resolution) (node : Node) : Prop where
  name : node.name = String.ofList (Name.localPart tag.name)
  uri : resolution.uri? = some node.uri
  attributes : tag.attributes = .ok node.attributes

/-- A node is the element that begins at a position : its tag is there, its parent is the innermost
element that is open before, and its text is the character data directly inside it. -/
structure Describes (es : List Event) (i : Nat) (node : Node) : Prop where
  tag : ∃ tag resolution, (es[i]? = some (.start tag resolution) ∨
    es[i]? = some (.empty tag resolution)) ∧ tag.Names resolution node
  parent : node.parent = (innermost? (es.take i)).map (number es)
  text : node.text = String.ofList (textOf es i)

variable {es : List Event} {e : Event} {i : Nat} {node : Node} {tag : Tag}
  {resolution : Resolution} {frame : Frame} {builder builder' : Builder}

/-- The element that a tag begins has what the tag says. -/
theorem names_of_ofTag (h : Frame.ofTag tag resolution = .ok frame) (parent : Option Nat) :
    tag.Names resolution (frame.node parent) ∧ frame.text = "" ∧ frame.children = #[] := by
  obtain ⟨uri, attributes, huri, hattributes, rfl⟩ := Frame.eq_of_ofTag h
  exact ⟨⟨rfl, huri, hattributes⟩, rfl, rfl⟩

theorem exists_ofTag_iff : (∃ frame, Frame.ofTag tag resolution = .ok frame) ↔
    (∃ uri, resolution.uri? = some uri) ∧ ∃ attributes, tag.attributes = .ok attributes := by
  constructor
  · rintro ⟨frame, hframe⟩
    obtain ⟨uri, attributes, huri, hattributes, -⟩ := Frame.eq_of_ofTag hframe
    exact ⟨⟨uri, huri⟩, attributes, hattributes⟩
  · rintro ⟨⟨uri, huri⟩, attributes, hattributes⟩
    cases resolution with
    | unknown => cases huri
    | bound | unbound =>
      simp only [Frame.ofTag, Frame.ofTag.withUri, hattributes]
      exact ⟨_, rfl⟩

/-- Another event adds its character data to the element that is innermost before it. -/
theorem Describes.concat (h : Describes es i node) (hi : i < es.length) (e : Event) :
    Describes (es ++ [e]) i (if innermost? es = some i then node.addText e.content else node) := by
  have htext : (if innermost? es = some i then node.addText e.content else node) =
      node.addText (if innermost? es = some i then e.content else []) := by
    split
    · rfl
    · rw [Node.addText_nil]
  rw [htext]
  refine ⟨?_, ?_, ?_⟩
  · obtain ⟨tag, resolution, hat, hname, huri, hattributes⟩ := h.tag
    refine ⟨tag, resolution, ?_, hname, huri, hattributes⟩
    rwa [List.getElem?_append_left hi]
  · rw [List.take_append_of_le_length hi.le, Node.addText, h.parent]
    refine Option.map_congr fun p hp => ?_
    have hlt := lt_of_innermost? hp
    rw [List.length_take] at hlt
    rw [number_concat e (by omega)]
  · rw [textOf_concat, String.ofList_append, Node.addText, h.text]

/-- An element begins with what its tag says, inside the innermost open one, and without text. -/
theorem describes_length (hparent : node.parent = (innermost? es).map (number es))
    (htext : node.text = "") (he : e = .start tag resolution ∨ e = .empty tag resolution)
    (hnames : tag.Names resolution node) : Describes (es ++ [e]) es.length node := by
  refine ⟨⟨tag, resolution, ?_, hnames⟩, ?_, ?_⟩
  · rw [List.getElem?_concat_length]
    exact he.imp (congrArg some) (congrArg some)
  · rw [List.take_left, hparent]
    exact Option.map_congr fun p hp => (number_concat e (lt_of_innermost? hp).le).symm
  · rw [textOf_concat, textOf_length, htext]
    split
    · rcases he with rfl | rfl <;> rfl
    · rfl

/-! ## The builder after some events -/

/-- A builder holds what events say : a node for each element that begins among them, in order, and
the open ones open. Those at top level are the root, if it is complete, and one that is open. -/
structure Mirrors (es : List Event) (builder : Builder) : Prop where
  nodes : List.Forall₂ (Describes es) (beginnings es) builder.listing.nodes
  opened : builder.listing.opened = (openAfter es).map (number es)
  top : (topLevel es).length =
    (if builder.root.isSome then 1 else 0) + if builder.opened = [] then 0 else 1

theorem mirrors_nil : Mirrors [] {} :=
  ⟨.nil, rfl, rfl⟩

namespace Mirrors

variable (h : Mirrors es builder)

include h

theorem innermost?_eq_none : innermost? es = none ↔ builder.opened = [] := by
  rw [innermost?, List.head?_eq_none_iff, ← List.length_eq_zero_iff, ← List.length_eq_zero_iff,
    ← length_opened_listing, h.opened, List.length_map]

/-- The innermost open element is that of the innermost start tag. -/
theorem head?_opened : builder.listing.opened.head? = (innermost? es).map (number es) := by
  rw [h.opened, List.head?_map, innermost?]

/-- Another event adds its character data to the node of the innermost open element. -/
theorem nodes_concat (e : Event) : List.Forall₂ (Describes (es ++ [e])) (beginnings es)
    (builder.listing.addText e.content).nodes := by
  obtain ⟨hlength, hnodes⟩ := List.forall₂_iff_get.1 h.nodes
  have hconcat : ∀ k (hk : k < (beginnings es).length) (hk' : k < builder.listing.nodes.length),
      Describes (es ++ [e]) (beginnings es)[k]
        (if innermost? es = some (beginnings es)[k] then
          builder.listing.nodes[k].addText e.content else builder.listing.nodes[k]) :=
    fun k hk hk' => (hnodes k hk hk').concat (lt_of_mem_positions (List.getElem_mem hk)) e
  rw [Listing.addText, h.head?_opened]
  cases hinner : innermost? es with
  | none =>
    refine List.forall₂_iff_get.2 ⟨hlength, fun k hk hk' => ?_⟩
    have hnode := hconcat k hk hk'
    rwa [hinner] at hnode
  | some p =>
    have hp := getElem?_number (mem_beginnings_of_innermost? hinner)
    refine List.forall₂_iff_get.2 ⟨?_, fun k hk hk' => ?_⟩
    · rw [Option.map_some, List.length_modify, hlength]
    · have hnode := hconcat k hk (hlength ▸ hk)
      have hsame : innermost? es = some (beginnings es)[k] ↔ number es p = k := by
        rw [hinner, ← List.getElem?_eq_getElem hk, ← hp]
        exact List.getElem?_inj (List.getElem?_eq_some_iff.1 hp).1 (nodup_positions _ _)
      simp only [Option.map_some, List.get_eq_getElem, List.getElem_modify]
      simpa only [hsame] using hnode

/-- An event without character data leaves the nodes as they are. -/
theorem nodes_of_content (he : e.content = []) :
    List.Forall₂ (Describes (es ++ [e])) (beginnings es) builder.listing.nodes := by
  have hnodes := h.nodes_concat e
  rwa [he, Listing.addText_nil] at hnodes

/-- Open elements keep their numbers. -/
theorem map_number_concat (e : Event) :
    (openAfter es).map (number (es ++ [e])) = builder.listing.opened := by
  rw [h.opened]
  exact List.map_congr_left fun i hi => number_concat e (mem_openAfter.1 hi).1.le

/-- A tag adds the node of its element. -/
theorem nodes_of_tag (he : e = .start tag resolution ∨ e = .empty tag resolution)
    (hframe : Frame.ofTag tag resolution = .ok frame) :
    List.Forall₂ (Describes (es ++ [e])) (beginnings (es ++ [e]))
      (builder.listing.nodes ++ [frame.node builder.listing.opened.head?]) := by
  obtain ⟨hnames, htext, -⟩ := names_of_ofTag hframe builder.listing.opened.head?
  have hnode := describes_length h.head?_opened htext he hnames
  have hkind : e.content = [] ∧ e.begins = true := by
    rcases he with rfl | rfl <;> exact ⟨rfl, rfl⟩
  rw [beginnings_concat, if_pos hkind.2]
  exact List.rel_append (h.nodes_of_content hkind.1) (.cons hnode .nil)

theorem start (hstep : builder.step (.start tag resolution) = .ok builder') :
    Mirrors (es ++ [.start tag resolution]) builder' := by
  obtain ⟨frame, hframe, rfl⟩ := Builder.eq_of_start hstep
  obtain ⟨-, -, hchildren⟩ := names_of_ofTag hframe none
  have hlisting : Builder.listing { builder with opened := frame :: builder.opened } = _ :=
    listing_start hchildren
  refine ⟨?_, ?_, ?_⟩
  · rw [hlisting]
    exact h.nodes_of_tag (Or.inl rfl) hframe
  · rw [hlisting, openAfter_start, List.map_cons, h.map_number_concat, number_length,
      h.nodes.length_eq]
  · rw [topLevel_concat, List.length_append, h.top]
    simp only [Event.begins, Bool.true_and, Option.isNone_iff_eq_none, h.innermost?_eq_none]
    cases builder.opened <;> rfl

theorem empty (hstep : builder.step (.empty tag resolution) = .ok builder') :
    Mirrors (es ++ [.empty tag resolution]) builder' := by
  obtain ⟨frame, hframe, hattach⟩ := Builder.eq_of_empty hstep
  obtain ⟨-, -, hchildren⟩ := names_of_ofTag hframe none
  refine ⟨?_, ?_, ?_⟩
  · rw [listing_empty hchildren hattach]
    exact h.nodes_of_tag (Or.inr rfl) hframe
  · rw [listing_empty hchildren hattach, openAfter_of_not_isEnd es rfl]
    exact (h.map_number_concat _).symm
  · rw [topLevel_concat, List.length_append, h.top]
    simp only [Event.begins, Bool.true_and, Option.isNone_iff_eq_none, h.innermost?_eq_none]
    obtain ⟨_ | ⟨frame, opened⟩, _ | root⟩ := builder <;> cases hattach <;> rfl

/-- An event with which no element begins keeps the law if its character data and what it closes are
seen to. -/
theorem of_not_begins (hbegins : e.begins = false)
    (hnodes : List.Forall₂ (Describes (es ++ [e])) (beginnings es) builder'.listing.nodes)
    (hopened : builder'.listing.opened = (openAfter (es ++ [e])).map (number (es ++ [e])))
    (htop : ((if builder'.root.isSome then 1 else 0) + if builder'.opened = [] then 0 else 1) =
      (if builder.root.isSome then 1 else 0) + if builder.opened = [] then 0 else 1) :
    Mirrors (es ++ [e]) builder' := by
  refine ⟨?_, hopened, ?_⟩
  · rwa [beginnings_concat, hbegins, if_neg Bool.false_ne_true, List.append_nil]
  · rw [topLevel_concat, hbegins, Bool.false_and, if_neg Bool.false_ne_true, List.append_nil, h.top,
      htop]

theorem close (hstep : builder.step .close = .ok builder') : Mirrors (es ++ [.close]) builder' := by
  obtain ⟨_ | ⟨frame, opened⟩, root⟩ := builder
  · cases hstep
  refine h.of_not_begins rfl ?_ ?_ ?_
  · rw [listing_close hstep]
    exact h.nodes_of_content rfl
  · rw [listing_close hstep, openAfter_close, List.map_tail, h.map_number_concat]
  · obtain _ | ⟨outer, opened⟩ := opened <;> obtain _ | root := root <;> cases hstep <;> rfl

/-- Character data, or none, is added to what is open. -/
theorem addText (hbegins : e.begins = false) (hend : e.isEnd = false) (hstart : e.isStart = false) :
    Mirrors (es ++ [e]) (builder.addText e.content) := by
  refine h.of_not_begins hbegins ?_ ?_ ?_
  · rw [listing_addText]
    exact h.nodes_concat e
  · rw [listing_addText, Listing.opened_addText, openAfter_of_not_isEnd es hend, hstart,
      if_neg Bool.false_ne_true, List.nil_append, h.map_number_concat]
  · obtain ⟨_ | ⟨frame, opened⟩, root⟩ := builder <;> rfl

/-- Every event that a builder takes in keeps the law, and can be read. -/
theorem step (hstep : builder.step e = .ok builder') :
    Mirrors (es ++ [e]) builder' ∧ e.Legible := by
  cases e with
  | start tag resolution =>
    obtain ⟨frame, hframe, -⟩ := Builder.eq_of_start hstep
    exact ⟨h.start hstep, exists_ofTag_iff.1 ⟨frame, hframe⟩⟩
  | empty tag resolution =>
    obtain ⟨frame, hframe, -⟩ := Builder.eq_of_empty hstep
    exact ⟨h.empty hstep, exists_ofTag_iff.1 ⟨frame, hframe⟩⟩
  | close => exact ⟨h.close hstep, trivial⟩
  | text content =>
    obtain ⟨chars, hchars, rfl⟩ := Builder.eq_of_text hstep
    have hkeep : keep chars = (Event.text content).content := by
      simp only [Event.content, hchars, keep]
    rw [hkeep]
    exact ⟨h.addText rfl rfl rfl, chars, hchars⟩
  | cdata content =>
    cases hstep
    exact ⟨h.addText rfl rfl rfl, trivial⟩
  | skipped =>
    cases hstep
    have hsame : Mirrors (es ++ [.skipped]) (builder.addText []) := h.addText rfl rfl rfl
    rw [Builder.addText_nil] at hsame
    exact ⟨hsame, trivial⟩

/-- A builder takes in an event that can be read, unless it closes nothing or is part of a second
element at top level. -/
theorem exists_step (hlegible : e.Legible) (hend : e = .close → openAfter es ≠ [])
    (htop : (topLevel (es ++ [e])).length ≤ 1) : ∃ builder', builder.step e = .ok builder' := by
  have hcount := h.top
  rw [topLevel_concat, List.length_append, hcount] at htop
  cases e with
  | start tag resolution =>
    obtain ⟨frame, hframe⟩ := exists_ofTag_iff.2 hlegible
    exact ⟨_, by rw [Builder.step, hframe]⟩
  | empty tag resolution =>
    obtain ⟨frame, hframe⟩ := exists_ofTag_iff.2 hlegible
    rw [Builder.step, hframe]
    obtain ⟨_ | ⟨outer, opened⟩, _ | root⟩ := builder
    · exact ⟨_, rfl⟩
    · -- The root is complete, and this is another element at top level.
      have hnone := h.innermost?_eq_none.2 rfl
      simp [Event.begins, hnone] at htop
    · exact ⟨_, rfl⟩
    · exact ⟨_, rfl⟩
  | close =>
    have hopen : builder.opened ≠ [] := fun hnil =>
      hend rfl (innermost?_eq_none_iff.1 (h.innermost?_eq_none.2 hnil))
    obtain ⟨_ | ⟨frame, _ | ⟨outer, opened⟩⟩, root⟩ := builder
    · exact absurd rfl hopen
    · cases root with
      | none => exact ⟨_, rfl⟩
      | some root =>
        -- The root is complete, and another element at top level is open.
        have htwo : 1 + 1 ≤ 1 := (Nat.le_add_right _ _).trans htop
        exact absurd htwo (by decide)
    · exact ⟨_, rfl⟩
  | text content =>
    obtain ⟨chars, hchars⟩ := hlegible
    rw [Builder.step, hchars]
    dsimp only
    split_ifs <;> exact ⟨_, rfl⟩
  | cdata content => exact ⟨_, rfl⟩
  | skipped => exact ⟨_, rfl⟩

end Mirrors

/-! ## The events of a document -/

namespace Document

open Markup

/-- Reads a piece of markup and puts its event after others. -/
def deliver (read : Reader × List Event) (m : Markup) : Except XmlError (Reader × List Event) :=
  match read.1.step m with
  | .error cause => .error cause
  | .ok (reader, event) => .ok (reader, read.2 ++ [event])

/-- The events of a document, or the error that comes instead of one of them. -/
def events (document : String) : Except XmlError (List Event) :=
  (Markup.foldM deliver ({}, []) (dropMark document.toList)).map Prod.snd

variable {reader reader' : Reader} {m : Markup} {ms : List Markup} {es' : List Event}
  {state state' : State} {root : Element}

/-- A reader has as many tags open as its events leave open, and an end tag closes one of them. -/
theorem length_opened_of_step (h : reader.step m = .ok (reader', e))
    (hlength : reader.opened.length = (openAfter es).length) :
    (e = .close → openAfter es ≠ []) ∧
      reader'.opened.length = (openAfter (es ++ [e])).length := by
  cases m with
  | start content =>
    obtain ⟨scope, resolution, rfl, rfl⟩ := Reader.eq_of_start h
    exact ⟨nofun, by rw [openAfter_start, List.length_cons, List.length_cons, hlength]⟩
  | empty content =>
    obtain ⟨rfl, resolution, rfl⟩ := Reader.eq_of_empty h
    exact ⟨nofun, by rw [openAfter_of_not_isEnd es rfl, hlength]; rfl⟩
  | close name =>
    obtain ⟨_ | ⟨tag, opened⟩⟩ := reader
    · cases h
    obtain ⟨-, rfl, rfl⟩ := Reader.eq_of_close h
    refine ⟨fun _ hnil => ?_, ?_⟩
    · rw [hnil] at hlength
      cases hlength
    · rw [openAfter_close, List.length_tail, ← hlength]
      rfl
  | text | cdata | comment | instruction | doctype =>
    obtain ⟨rfl, rfl⟩ := Prod.mk.inj (Except.ok.inj h)
    exact ⟨nofun, by rw [openAfter_of_not_isEnd es rfl, hlength]; rfl⟩

theorem deliver_cons_eq_ok (h : (m :: ms).foldlM deliver (reader, es) = .ok (reader', es')) :
    ∃ reader₁ e, reader.step m = .ok (reader₁, e) ∧
      ms.foldlM deliver (reader₁, es ++ [e]) = .ok (reader', es') := by
  rw [List.foldlM_cons, deliver] at h
  cases hstep : reader.step m with
  | error cause =>
    rw [hstep] at h
    cases h
  | ok read =>
    rw [hstep] at h
    exact ⟨read.1, read.2, rfl, h⟩

theorem deliver_cons {reader₁ : Reader} (h : reader.step m = .ok (reader₁, e)) :
    (m :: ms).foldlM deliver (reader, es) = ms.foldlM deliver (reader₁, es ++ [e]) := by
  rw [List.foldlM_cons, deliver, h]
  rfl

theorem prefix_of_deliver (h : ms.foldlM deliver (reader, es) = .ok (reader', es')) :
    es <+: es' := by
  induction ms generalizing reader es with
  | nil =>
    cases h
    exact List.prefix_rfl
  | cons m ms ih =>
    obtain ⟨reader₁, e, -, hrest⟩ := deliver_cons_eq_ok h
    exact (List.prefix_append es [e]).trans (ih hrest)

/-- A run over a document takes in the events that are delivered, and keeps the law. -/
theorem mirrors_of_foldlM (h : Mirrors es state.builder)
    (hrun : ms.foldlM State.step state = .ok state') :
    ∃ more, ms.foldlM deliver (state.reader, es) = .ok (state'.reader, es ++ more) ∧
      (∀ e ∈ more, e.Legible) ∧ Mirrors (es ++ more) state'.builder := by
  induction ms generalizing state es with
  | nil =>
    cases hrun
    exact ⟨[], by rw [List.append_nil]; rfl, List.forall_mem_nil _, by rwa [List.append_nil]⟩
  | cons m ms ih =>
    obtain ⟨state₁, hstep, hrest⟩ := foldlM_cons_eq_ok hrun
    obtain ⟨e, hreader, hbuilder⟩ := step_eq_ok hstep
    obtain ⟨h₁, hlegible⟩ := h.step hbuilder
    obtain ⟨more, hdeliver, hmore, h'⟩ := ih h₁ hrest
    rw [List.append_assoc] at hdeliver h'
    exact ⟨e :: more, (deliver_cons hreader).trans hdeliver,
      List.forall_mem_cons.2 ⟨hlegible, hmore⟩, h'⟩

/-- Events that can be read, with one element at top level at most, are taken in by a run. -/
theorem exists_foldlM {builder : Builder} (h : Mirrors es builder)
    (hlength : reader.opened.length = (openAfter es).length)
    (hdeliver : ms.foldlM deliver (reader, es) = .ok (reader', es'))
    (hlegible : ∀ e ∈ es', e.Legible) (htop : (topLevel es').length ≤ 1) :
    ∃ builder', ms.foldlM State.step ⟨reader, builder⟩ = .ok ⟨reader', builder'⟩ ∧
      Mirrors es' builder' := by
  induction ms generalizing reader es builder with
  | nil =>
    cases hdeliver
    exact ⟨builder, rfl, h⟩
  | cons m ms ih =>
    obtain ⟨reader₁, e, hreader, hrest⟩ := deliver_cons_eq_ok hdeliver
    obtain ⟨hend, hlength₁⟩ := length_opened_of_step hreader hlength
    obtain ⟨later, rfl⟩ := prefix_of_deliver hrest
    have htop₁ := (positions_isPrefix_append _ (es ++ [e]) later).length_le.trans htop
    obtain ⟨builder₁, hbuilder⟩ := h.exists_step (hlegible e (by simp)) hend htop₁
    obtain ⟨builder', hrun, h'⟩ := ih (h.step hbuilder).1 hlength₁ hrest
    refine ⟨builder', ?_, h'⟩
    rw [List.foldlM_cons, step_of_ok hreader hbuilder]
    exact hrun

theorem parse_eq_ok_iff {document : String} : parse document = .ok root ↔ ∃ state : State,
    foldM State.step {} (dropMark document.toList) = .ok state ∧
      state.builder.finish = .ok root := by
  rw [parse]
  cases foldM State.step {} (dropMark document.toList) with
  | error cause => simp
  | ok state => simp

/-- The events of a document that is read to its end are those of its pieces. -/
theorem events_eq_ok_iff {document : String} : events document = .ok es ↔ ∃ ms reader,
    Cut (dropMark document.toList) ms ∧ ms.foldlM deliver ({}, []) = .ok (reader, es) := by
  rw [events]
  constructor
  · intro h
    cases hrun : foldM deliver ({}, []) (dropMark document.toList) with
    | error cause =>
      rw [hrun] at h
      cases h
    | ok read =>
      rw [hrun] at h
      cases h
      obtain ⟨ms, hcut, hms⟩ := exists_cut hrun
      exact ⟨ms, read.1, hcut, hms⟩
  · rintro ⟨ms, reader, hcut, hms⟩
    rw [foldM_eq_foldlM deliver hcut, hms]
    rfl

/-- A document that has a root is one whose events tell of one element, with all that is in it. -/
theorem exists_events_of_parse {document : String} (h : parse document = .ok root) :
    ∃ es, events document = .ok es ∧ (∀ e ∈ es, e.Legible) ∧ Mirrors es ⟨[], some root⟩ := by
  obtain ⟨state, hrun, hfinish⟩ := parse_eq_ok_iff.1 h
  obtain ⟨ms, hcut, hms⟩ := exists_cut hrun
  obtain ⟨es, hdeliver, hlegible, hmirrors⟩ := mirrors_of_foldlM mirrors_nil hms
  rw [List.nil_append] at hdeliver hmirrors
  rw [Builder.eq_of_finish hfinish] at hmirrors
  exact ⟨es, events_eq_ok_iff.2 ⟨ms, _, hcut, hdeliver⟩, hlegible, hmirrors⟩

/-- A document has a root just if all its events come without an error and can be read, none of its
elements is open at the end, and exactly one of them is at top level. The elements of the root in
preorder are then those that begin with its events, in order : each has the tag that it begins with,
its parent is the innermost element that is open before, and its text is the character data that is
read while it is the innermost open element. -/
theorem parse_reflects_events (document : String) :
    ((∃ root, parse document = .ok root) ↔ ∃ es, events document = .ok es ∧
      (∀ e ∈ es, e.Legible) ∧ (∀ i, ¬IsOpen es i) ∧ ∃ i, topLevel es = [i]) ∧
    ∀ root, parse document = .ok root → ∃ es, events document = .ok es ∧
      List.Forall₂ (Describes es) (beginnings es) (root.nodes none 0) := by
  refine ⟨⟨?_, ?_⟩, fun root h => ?_⟩
  · rintro ⟨root, h⟩
    obtain ⟨es, hevents, hlegible, hmirrors⟩ := exists_events_of_parse h
    refine ⟨es, hevents, hlegible, openAfter_eq_nil_iff.1 ?_, List.length_eq_one_iff.1 hmirrors.top⟩
    exact innermost?_eq_none_iff.1 (hmirrors.innermost?_eq_none.2 rfl)
  · rintro ⟨es, hevents, hlegible, hclosed, i, htop⟩
    obtain ⟨ms, reader, hcut, hdeliver⟩ := events_eq_ok_iff.1 hevents
    have hone : (topLevel es).length = 1 := by rw [htop, List.length_singleton]
    obtain ⟨builder, hrun, hmirrors⟩ :=
      exists_foldlM mirrors_nil rfl hdeliver hlegible hone.le
    have hopened := hmirrors.innermost?_eq_none.1
      (innermost?_eq_none_iff.2 (openAfter_eq_nil_iff.2 hclosed))
    have hroot := hone.symm.trans hmirrors.top
    obtain ⟨opened, _ | root⟩ := builder
    · subst hopened
      cases hroot
    · subst hopened
      exact ⟨root, parse_eq_ok_iff.2 ⟨_, (foldM_eq_foldlM _ hcut _).trans hrun, rfl⟩⟩
  · obtain ⟨es, hevents, -, hmirrors⟩ := exists_events_of_parse h
    exact ⟨es, hevents, hmirrors.nodes⟩

/-- A document with an element inside another, between character data of several kinds. -/
def nestedDocument : String :=
  "<a b='1'>x&lt;<c/> <![CDATA[ ]]></a>"

/-- The events of this document. -/
def nestedEvents : List Event := [
  .start ⟨"a".toList, " b='1'".toList⟩ .unbound, .text "x&lt;".toList, .empty ⟨['c'], []⟩ .unbound,
  .text [' '], .cdata [' '], .close]

theorem parse_reflects_events_nested : ∃ root a c, parse nestedDocument = .ok root ∧
    root.nodes none 0 = [a, c] ∧ (a.parent = none ∧ a.text = "x< ") ∧
      c.parent = some 0 ∧ c.text = "" := by
  have hevents : events nestedDocument = .ok nestedEvents := by decide +kernel
  have hbegin : beginnings nestedEvents = [0, 2] := by decide +kernel
  have hok : (parse nestedDocument).toBool = true := by decide +kernel
  cases hroot : parse nestedDocument with
  | error cause =>
    rw [hroot] at hok
    cases hok
  | ok root =>
    obtain ⟨es, hes, hnodes⟩ := (parse_reflects_events nestedDocument).2 root hroot
    rw [hevents] at hes
    cases hes
    rw [hbegin] at hnodes
    revert hnodes
    generalize hlist : root.nodes none 0 = nodes
    rintro (_ | ⟨ha, _ | ⟨hc, ⟨⟩⟩⟩)
    exact ⟨root, _, _, rfl, hlist, ⟨ha.parent.trans (by decide +kernel),
      ha.text.trans (by decide +kernel)⟩, hc.parent.trans (by decide +kernel),
      hc.text.trans (by decide +kernel)⟩

end Document

end MifirReport.Xml
