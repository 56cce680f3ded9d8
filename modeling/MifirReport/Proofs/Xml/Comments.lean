import MifirReport.Proofs.Xml.Runs

/-!
# Comments in character data

A comment cuts the character data around it into two runs, and each run is left out if it is blank.
Blanks are thus lost if a comment tears them off a run that is not blank as a whole (`Torn`), and
only then (`keep_append_iff`). A document with such a comment is read whenever the document without
it is, and nothing else in it changes : `parse_interrupted`.

The two readings go on side by side from there. Builders that differ in the text of one node
(`Builder.Varies`) take in the same events, and differ in that text still after each of them
(`Varies.step`, `varies_foldlM`).
-/

namespace MifirReport.Xml

/-! ## Blanks torn off a run -/

/-- A part of a run is blank, and the rest of the run is not. -/
def Loses (part rest : List Char) : Prop :=
  part ≠ [] ∧ part.all Text.isBlank = true ∧ rest.all Text.isBlank = false

/-- A run falls into two parts of which one is blank and the other is not. -/
def Torn (before after : List Char) : Prop :=
  Loses before after ∨ Loses after before

instance (part rest : List Char) : Decidable (Loses part rest) :=
  inferInstanceAs (Decidable (_ ∧ _ ∧ _))

instance (before after : List Char) : Decidable (Torn before after) :=
  inferInstanceAs (Decidable (_ ∨ _))

/-- What is kept of a run is what is kept of its parts, unless it is torn. -/
theorem keep_append_iff {before after : List Char} :
    keep (before ++ after) = keep before ++ keep after ↔ ¬Torn before after := by
  simp only [Torn, Loses, keep, List.all_append]
  cases hbefore : before.all Text.isBlank <;> cases hafter : after.all Text.isBlank <;> simp

/-! ## Nodes that differ in one text -/

/-- The same nodes, but that the text of one has `v` at a place where it had `u`. -/
inductive Exchanged (u v : List Char) : List Node → List Node → Prop
  | here (node : Node) (left right : String) (nodes : List Node) :
    Exchanged u v ({ node with text := left ++ String.ofList u ++ right } :: nodes)
      ({ node with text := left ++ String.ofList v ++ right } :: nodes)
  | there (node : Node) {nodes nodes' : List Node} :
    Exchanged u v nodes nodes' → Exchanged u v (node :: nodes) (node :: nodes')

namespace Exchanged

variable {u v : List Char} {nodes nodes' : List Node}

theorem length_eq (h : Exchanged u v nodes nodes') : nodes.length = nodes'.length := by
  induction h with
  | here => rfl
  | there _ _ ih => rw [List.length_cons, List.length_cons, ih]

theorem append_left (h : Exchanged u v nodes nodes') (front : List Node) :
    Exchanged u v (front ++ nodes) (front ++ nodes') := by
  induction front with
  | nil => exact h
  | cons node front ih => exact .there node ih

theorem append_right (h : Exchanged u v nodes nodes') (more : List Node) :
    Exchanged u v (nodes ++ more) (nodes' ++ more) := by
  induction h with
  | here node left right nodes => exact .here node left right (nodes ++ more)
  | there node _ ih => exact .there node ih

/-- Text that a node gets at its end is after the place where the two differ. -/
theorem modify (h : Exchanged u v nodes nodes') (n : Nat) (content : List Char) :
    Exchanged u v (nodes.modify n (Node.addText content))
      (nodes'.modify n (Node.addText content)) := by
  induction h generalizing n with
  | here node left right nodes =>
    cases n with
    | zero =>
      have hmore : Exchanged u v _ _ := .here node left (right ++ String.ofList content) nodes
      rwa [← String.append_assoc, ← String.append_assoc] at hmore
    | succ n => exact .here node left right _
  | there node h ih =>
    cases n with
    | zero => exact .there _ h
    | succ n => exact .there node (ih n)

/-- Nodes that are the same have the same text. -/
theorem eq_of_eq (h : Exchanged u v nodes nodes') (hnodes : nodes = nodes') : u = v := by
  induction h with
  | here node left right nodes =>
    have htext := congrArg (fun node : Node => node.text.toList) (List.cons.inj hnodes).1
    simpa using htext
  | there node _ ih => exact ih (List.cons.inj hnodes).2

end Exchanged

/-! ## Builders that differ in one text -/

namespace Builder

/-- The same elements are complete and the same are open, but for the text of one. -/
structure Varies (u v : List Char) (builder builder' : Builder) : Prop where
  nodes : Exchanged u v builder.listing.nodes builder'.listing.nodes
  opened : builder.listing.opened = builder'.listing.opened
  root : builder.root.isSome = builder'.root.isSome

variable {u v : List Char} {builder builder' builder₁ : Builder} {e : Event}

theorem varies_addText (hopened : builder.opened ≠ []) (u v : List Char) :
    Varies u v (builder.addText u) (builder.addText v) := by
  obtain ⟨_ | ⟨frame, opened⟩, root⟩ := builder
  · exact absurd rfl hopened
  refine ⟨?_, rfl, rfl⟩
  have hhere := Exchanged.here (u := u) (v := v)
    (frame.node (Builder.listing ⟨opened, root⟩).opened.head?) frame.text ""
    (nodesInside (Builder.listing ⟨opened, root⟩).nodes.length
      ((Builder.listing ⟨opened, root⟩).nodes.length + 1) frame.children.toList)
  rw [String.append_empty, String.append_empty] at hhere
  exact hhere.append_left _

/-- Whether an element has a place does not depend on what there is already. -/
theorem exists_attach {x : Element} (hlength : builder.opened.length = builder'.opened.length)
    (hroot : builder.root.isSome = builder'.root.isSome) (h : builder.attach x = .ok builder₁)
    (x' : Element) :
    ∃ builder₁', builder'.attach x' = .ok builder₁' ∧
      builder₁.root.isSome = builder₁'.root.isSome := by
  obtain ⟨_ | ⟨frame, opened⟩, root⟩ := builder <;>
    obtain ⟨_ | ⟨frame', opened'⟩, root'⟩ := builder'
  · cases root with
    | some => cases h
    | none =>
      cases root' with
      | some => cases hroot
      | none =>
        cases h
        exact ⟨_, rfl, rfl⟩
  · cases hlength
  · cases hlength
  · cases h
    exact ⟨_, rfl, hroot⟩

namespace Varies

theorem length_opened (h : Varies u v builder builder') :
    builder.opened.length = builder'.opened.length := by
  rw [← length_opened_listing, ← length_opened_listing, h.opened]

theorem addText (h : Varies u v builder builder') (content : List Char) :
    Varies u v (builder.addText content) (builder'.addText content) := by
  refine ⟨?_, ?_, ?_⟩
  · rw [listing_addText, listing_addText, Listing.addText, Listing.addText, ← h.opened]
    cases builder.listing.opened.head? with
    | none => exact h.nodes
    | some n => exact h.nodes.modify n content
  · rw [listing_addText, listing_addText, Listing.opened_addText, Listing.opened_addText, h.opened]
  · rw [Document.addText_root, Document.addText_root, h.root]

theorem start {tag : Tag} {resolution : Resolution} (h : Varies u v builder builder')
    (hstep : builder.step (.start tag resolution) = .ok builder₁) :
    ∃ builder₁', builder'.step (.start tag resolution) = .ok builder₁' ∧
      Varies u v builder₁ builder₁' := by
  obtain ⟨frame, hframe, rfl⟩ := Builder.eq_of_start hstep
  obtain ⟨-, -, hchildren⟩ := names_of_ofTag hframe none
  refine ⟨{ builder' with opened := frame :: builder'.opened }, by rw [Builder.step, hframe], ?_⟩
  have hlisting : Builder.listing ⟨frame :: builder.opened, builder.root⟩ = _ :=
    listing_start hchildren
  have hlisting' : Builder.listing ⟨frame :: builder'.opened, builder'.root⟩ = _ :=
    listing_start hchildren
  refine ⟨?_, ?_, h.root⟩
  · rw [hlisting, hlisting']
    dsimp only
    rw [h.opened]
    exact h.nodes.append_right _
  · rw [hlisting, hlisting']
    exact congrArg₂ List.cons h.nodes.length_eq h.opened

theorem empty {tag : Tag} {resolution : Resolution} (h : Varies u v builder builder')
    (hstep : builder.step (.empty tag resolution) = .ok builder₁) :
    ∃ builder₁', builder'.step (.empty tag resolution) = .ok builder₁' ∧
      Varies u v builder₁ builder₁' := by
  obtain ⟨frame, hframe, hattach⟩ := Builder.eq_of_empty hstep
  obtain ⟨-, -, hchildren⟩ := names_of_ofTag hframe none
  obtain ⟨builder₁', hattach', hroot⟩ :=
    exists_attach h.length_opened h.root hattach frame.close
  refine ⟨builder₁', by rw [Builder.step, hframe]; exact hattach', ?_, ?_, hroot⟩
  · rw [listing_empty hchildren hattach, listing_empty hchildren hattach', h.opened]
    exact h.nodes.append_right _
  · rw [listing_empty hchildren hattach, listing_empty hchildren hattach']
    exact h.opened

theorem close (h : Varies u v builder builder') (hstep : builder.step .close = .ok builder₁) :
    ∃ builder₁', builder'.step .close = .ok builder₁' ∧ Varies u v builder₁ builder₁' := by
  have hlength := h.length_opened
  obtain ⟨_ | ⟨frame, opened⟩, root⟩ := builder
  · cases hstep
  obtain ⟨_ | ⟨frame', opened'⟩, root'⟩ := builder'
  · cases hlength
  have hattach : Builder.attach ⟨opened, root⟩ frame.close = .ok builder₁ := hstep
  have hinside : (Builder.mk opened root).opened.length =
      (Builder.mk opened' root').opened.length := Nat.succ.inj hlength
  obtain ⟨builder₁', hstep', hroot⟩ := exists_attach hinside h.root hattach frame'.close
  refine ⟨builder₁', hstep', ?_, ?_, hroot⟩
  · rw [listing_close hstep, listing_close hstep']
    exact h.nodes
  · rw [listing_close hstep, listing_close hstep', h.opened]

/-- Builders that differ in one text take in the same events, and differ in it afterwards. -/
theorem step (h : Varies u v builder builder') (hstep : builder.step e = .ok builder₁) :
    ∃ builder₁', builder'.step e = .ok builder₁' ∧ Varies u v builder₁ builder₁' := by
  cases e with
  | start => exact h.start hstep
  | empty => exact h.empty hstep
  | close => exact h.close hstep
  | text content =>
    obtain ⟨chars, hchars, -⟩ := Builder.eq_of_text hstep
    obtain rfl := Except.ok.inj ((builder.step_text hchars).symm.trans hstep)
    exact ⟨_, builder'.step_text hchars, h.addText _⟩
  | cdata content =>
    cases hstep
    exact ⟨_, rfl, h.addText content⟩
  | skipped =>
    cases hstep
    exact ⟨_, rfl, h⟩

end Varies

end Builder

namespace Document

open Markup

variable {u v raw before : List Char} {ms : List Markup} {reader : Reader}
  {builder builder' : Builder} {state : State} {root : Element} {a b content : String}

/-- A run over pieces keeps two builders the same but for the one text. -/
theorem varies_foldlM (h : builder.Varies u v builder')
    (hrun : ms.foldlM State.step ⟨reader, builder⟩ = .ok state) :
    ∃ builder₁, ms.foldlM State.step ⟨reader, builder'⟩ = .ok ⟨state.reader, builder₁⟩ ∧
      state.builder.Varies u v builder₁ := by
  induction ms generalizing reader builder builder' with
  | nil =>
    cases hrun
    exact ⟨builder', rfl, h⟩
  | cons m ms ih =>
    obtain ⟨⟨reader₁, builder₁⟩, hstep, hrest⟩ := foldlM_cons_eq_ok hrun
    obtain ⟨event, hreader, hbuilder⟩ := step_eq_ok hstep
    obtain ⟨builder₁', hbuilder', h₁⟩ := h.step hbuilder
    obtain ⟨builder₂, hrun', h₂⟩ := ih h₁ hrest
    exact ⟨builder₂, (foldlM_cons_of_ok (step_of_ok hreader hbuilder')).trans hrun', h₂⟩

/-- If one of two builders that differ in one text has a root that is complete, so has the other. -/
theorem exists_finish (h : builder.Varies u v builder') (hfinish : builder.finish = .ok root) :
    ∃ root', builder'.finish = .ok root' ∧
      Exchanged u v (root.nodes none 0) (root'.nodes none 0) := by
  obtain rfl := Builder.eq_of_finish hfinish
  have hlength := h.length_opened
  obtain ⟨_ | _, _ | root'⟩ := builder'
  · cases h.root
  · exact ⟨root', rfl, h.nodes⟩
  · cases hlength
  · cases hlength

/-! ## A comment in a run -/

/-- A text ends in the character data of an element : whole pieces leave an element open, and
character data after them, with whole references, is what has been read of its run so far. -/
structure EndsInContent (a : String) (raw before : List Char) : Prop where
  pieces : ∃ cs ms state, dropMark a.toList = cs ++ raw ∧ Cut cs ms ∧
    (∀ m ∈ ms.getLast?, m.isText = false) ∧ ms.foldlM State.step {} = .ok state ∧
      state.builder.opened ≠ []
  markup : '<' ∉ raw
  expand : Reference.expand raw = .ok before

/-- A document is read on from the run in which a first part of it ends. -/
theorem EndsInContent.exists_state (ha : EndsInContent a raw before) : ∃ state : State,
    state.builder.opened ≠ [] ∧ ∀ b root, parse (a ++ b) = .ok root ↔
      ∃ ns state', Cut (raw ++ b.toList) ns ∧ ns.foldlM State.step state = .ok state' ∧
        state'.builder.finish = .ok root := by
  obtain ⟨cs, ms, state, hbegin, hms, hlast, hstate, hopened⟩ := ha.pieces
  refine ⟨state, hopened, fun b root => ?_⟩
  have hne : a.toList ≠ [] := by
    intro hnil
    rw [hnil] at hbegin
    obtain rfl := (List.append_eq_nil_iff.1 hbegin.symm).1
    obtain rfl := hms.eq_nil
    cases hstate
    exact hopened rfl
  have hdrop : dropMark (a ++ b).toList = cs ++ (raw ++ b.toList) := by
    rw [String.toList_append, dropMark_append fun hnil => absurd hnil hne, hbegin,
      List.append_assoc]
  rw [parse_eq_ok_iff, hdrop]
  constructor
  · rintro ⟨state', hrun, hfinish⟩
    obtain ⟨all, hall, hpieces⟩ := exists_cut hrun
    obtain ⟨ns, rfl, hns⟩ := hms.of_append hlast hall
    rw [foldlM_append_of_ok hstate] at hpieces
    exact ⟨ns, state', hns, hpieces, hfinish⟩
  · rintro ⟨ns, state', hns, hrun, hfinish⟩
    have hall : Cut (cs ++ (raw ++ b.toList)) (ms ++ ns) := by
      refine hms.append hns fun m hm _ _ htext => ?_
      rw [hlast m hm] at htext
      cases htext
    refine ⟨state', ?_, hfinish⟩
    rw [foldM_eq_foldlM _ hall, foldlM_append_of_ok hstate]
    exact hrun

/-- A comment in a run is a piece between the two parts of the run. -/
theorem cut_interrupted {tail ds : List Char} {ns : List Markup} {content : List Char}
    (hraw : '<' ∉ raw) (hcomment : (Piece.comment content).Legal) (htail : '<' ∉ tail)
    (hds : ∀ c ∈ ds.head?, c = '<') (hns : Cut ds ns) :
    Cut (raw ++ ((Piece.comment content).chars ++ (tail ++ ds)))
      (run raw ++ .comment content :: (run tail ++ ns)) := by
  have hlater : Cut (tail ++ ds) (run tail ++ ns) := (cut_run_append_iff htail hds).2 ⟨ns, rfl, hns⟩
  have hcut : Cut ((Piece.comment content).chars ++ (tail ++ ds))
      (.comment content :: (run tail ++ ns)) := by
    refine (cut_piece hcomment).append hlater ?_
    rintro _ ⟨⟩ n - htext
    cases htext
  refine (cut_run_append_iff hraw ?_).2 ⟨_, rfl, hcut⟩
  rintro c ⟨⟩
  rfl

/-- What is kept of the two parts is added one after the other. -/
theorem foldlM_interrupted {tail after content : List Char} {ns : List Markup}
    (hbefore : Reference.expand raw = .ok before) (hafter : Reference.expand tail = .ok after)
    (reader : Reader) (builder : Builder) :
    (run raw ++ .comment content :: (run tail ++ ns)).foldlM State.step ⟨reader, builder⟩ =
      ns.foldlM State.step ⟨reader, builder.addText (keep before ++ keep after)⟩ := by
  have hcomment (builder : Builder) : State.step ⟨reader, builder⟩ (.comment content) =
      .ok ⟨reader, builder⟩ := rfl
  rw [foldlM_append_of_ok (foldlM_run hbefore reader builder), foldlM_cons_of_ok (hcomment _),
    foldlM_append_of_ok (foldlM_run hafter reader _), Builder.addText_addText]

/-- A document with a comment in the character data of an element is read if the document without it
is. In the place where one has what is kept of the whole run, the other has what is kept of the part
before the comment and of the part after it, and all else is the same. They are the same document
just if the comment does not tear the run. -/
theorem parse_interrupted (ha : EndsInContent a raw before)
    (hcomment : (Piece.comment content.toList).Legal) (h : parse (a ++ b) = .ok root) :
    ∃ after root', Reference.expand (b.toList.takeWhile (· ≠ '<')) = .ok after ∧
      parse (a ++ ("<!--" ++ content ++ "-->") ++ b) = .ok root' ∧
      (root' = root ↔ ¬Torn before after) ∧
      Exchanged (keep (before ++ after)) (keep before ++ keep after)
        (root.nodes none 0) (root'.nodes none 0) := by
  obtain ⟨⟨reader, builder⟩, hopened, hparse⟩ := ha.exists_state
  obtain ⟨tail, ds, hb, htail, hds⟩ := exists_run b.toList
  -- Without the comment, the two parts are one run.
  obtain ⟨all, state, hall, hrun, hfinish⟩ := (hparse b root).1 h
  have hwhole : '<' ∉ raw ++ tail := by
    rw [List.mem_append, not_or]
    exact ⟨ha.markup, htail⟩
  rw [hb, ← List.append_assoc] at hall
  obtain ⟨ns, rfl, hns⟩ := (cut_run_append_iff hwhole hds).1 hall
  obtain ⟨state₁, hfirst, -⟩ := foldlM_append_eq_ok hrun
  obtain ⟨both, hboth⟩ := expand_of_foldlM_run hfirst
  obtain ⟨after, hafter, rfl⟩ := Reference.expand_of_append ha.expand hboth
  rw [foldlM_append_of_ok (foldlM_run hboth reader builder)] at hrun
  -- With it, they are two.
  have hcut := cut_interrupted ha.markup hcomment htail hds hns
  have hlater : (Piece.comment content.toList).chars ++ (tail ++ ds) =
      ("<!--" ++ content ++ "-->" ++ b).toList := by
    unfold Piece.chars
    rw [String.toList_append, String.toList_append, String.toList_append, hb]
  rw [hlater] at hcut
  obtain ⟨builder', hrun', hvaries⟩ := varies_foldlM (Builder.varies_addText hopened _ _) hrun
  obtain ⟨root', hfinish', hexchanged⟩ := exists_finish hvaries hfinish
  refine ⟨after, root', ?_, ?_, ⟨fun hsame => ?_, fun htorn => ?_⟩, hexchanged⟩
  · have hstop : ∀ c ∈ ds.head?, decide (c ≠ '<') = false := fun c hc => by simp [hds c hc]
    rw [hb, takeWhile_word (decide_ne_of_not_mem htail) ds hstop]
    exact hafter
  · rw [String.append_assoc]
    exact (hparse _ _).2 ⟨_, _, hcut,
      (foldlM_interrupted ha.expand hafter reader builder).trans hrun', hfinish'⟩
  · exact keep_append_iff.1 (hexchanged.eq_of_eq (by rw [hsame]))
  · rw [keep_append_iff.2 htorn, hrun'] at hrun
    rw [← Except.ok.inj hrun] at hfinish
    exact Except.ok.inj (hfinish'.symm.trans hfinish)

theorem endsInContent_reference :
    EndsInContent "<a><b>&lt; " "&lt; ".toList "< ".toList where
  pieces := by
    have hcut : Cut "<a><b>".toList [.start ['a'], .start ['b']] :=
      .cons (by rfl : next '<' "a><b>".toList = .ok (.start ['a'], "<b>".toList))
        (.singleton (by rfl))
    have hlast : ∀ m ∈ [Markup.start ['a'], .start ['b']].getLast?, m.isText = false := by
      rintro m ⟨⟩
      rfl
    have hrun : [Markup.start ['a'], .start ['b']].foldlM State.step {} =
        .ok ⟨⟨[⟨['b'], Scope.outermost⟩, ⟨['a'], Scope.outermost⟩]⟩,
          ⟨[⟨"b", "", [], "", #[]⟩, ⟨"a", "", [], "", #[]⟩], none⟩⟩ := by
      with_unfolding_all rfl
    exact ⟨_, _, _, rfl, hcut, hlast, hrun, nofun⟩
  markup := by decide
  expand := by with_unfolding_all rfl

theorem parse_interrupted_twoLines :
    parse "<a><b>&lt; <!--\n - -->x</b></a>" =
      .ok ⟨"a", "", [], "", [⟨"b", "", [], "< x", []⟩]⟩ := by
  have hcomment : (Piece.comment "\n - ".toList).Legal := by
    have h : ¬"--".toList <:+: "\n - ".toList ++ ['-'] := by decide
    exact h
  have h : parse ("<a><b>&lt; " ++ "x</b></a>") =
      .ok ⟨"a", "", [], "", [⟨"b", "", [], "< x", []⟩]⟩ := by
    with_unfolding_all rfl
  obtain ⟨after, root', hafter, hparse, hsame, -⟩ :=
    parse_interrupted endsInContent_reference hcomment h
  have hx : Reference.expand ("x</b></a>".toList.takeWhile (· ≠ '<')) = .ok ['x'] := by
    with_unfolding_all rfl
  obtain rfl := Except.ok.inj (hx.symm.trans hafter)
  have htorn : ¬Torn "< ".toList ['x'] := by decide
  rw [← hsame.2 htorn]
  exact hparse

/-- A blank before a comment is lost, though the text is not blank as a whole. -/
theorem parse_blankBeforeComment :
    parse "<a> x</a>" = .ok ⟨"a", "", [], " x", []⟩ ∧
      parse "<a> <!--c-->x</a>" = .ok ⟨"a", "", [], "x", []⟩ := by
  constructor
  · with_unfolding_all rfl
  · with_unfolding_all rfl

end Document

end MifirReport.Xml
