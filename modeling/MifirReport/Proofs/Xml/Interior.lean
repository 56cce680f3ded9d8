import MifirReport.Proofs.Xml.Ending
import MifirReport.Xml.Document

/-!
# What is inside an element

While an element is open, reading adds text and children to it and opens and closes others inside
it. What is added depends on the element's scope, but not on the text and the children that it has
already : `step_inside` for one piece, `foldlM_inside` for pieces one after the other.

Pieces that leave nothing open inside the element fill it (`Fills`). Two runs of pieces that fill it
do so together (`Fills.append`), and a document that is complete after an end tag has a root that
the pieces before the end tag fill (`fills_of_close`).
-/

namespace MifirReport.Xml

/-! ## What is open inside an element -/

/-- An open element with more text and more children. -/
def Frame.grown (frame : Frame) (text : String) (children : Array Element) : Frame :=
  { frame with text := frame.text ++ text, children := frame.children ++ children }

theorem Frame.grown_nil (frame : Frame) : frame.grown "" #[] = frame := by
  simp [grown]

/-- What is added later comes after what was added before. -/
theorem Frame.grown_grown (frame : Frame) (text text' : String)
    (children children' : Array Element) :
    (frame.grown text children).grown text' children' =
      frame.grown (text ++ text') (children ++ children') := by
  simp [grown, String.append_assoc]

/-! ## Events -/

/-- A start tag puts one more tag on those that are open. -/
theorem Reader.eq_of_start {reader reader' : Reader} {event : Event} {content : List Char}
    (h : reader.step (.start content) = .ok (reader', event)) : ∃ scope resolution,
      reader' = ⟨⟨(Tag.ofContent content).name, scope⟩ :: reader.opened⟩ ∧
        event = .start (Tag.ofContent content) resolution := by
  rw [Reader.step] at h
  split at h
  · cases h
  · obtain ⟨rfl, rfl⟩ := Prod.mk.inj (Except.ok.inj h)
    exact ⟨_, _, rfl, rfl⟩

theorem Reader.eq_of_empty {reader reader' : Reader} {event : Event} {content : List Char}
    (h : reader.step (.empty content) = .ok (reader', event)) :
    reader' = reader ∧ ∃ resolution, event = .empty (Tag.ofContent content) resolution := by
  rw [Reader.step] at h
  split at h
  · cases h
  · obtain ⟨rfl, rfl⟩ := Prod.mk.inj (Except.ok.inj h)
    exact ⟨rfl, _, rfl⟩

/-- An end tag takes off the tag that is open last, which has the same name. -/
theorem Reader.eq_of_close {reader : Reader} {event : Event} {tag : OpenTag}
    {opened : List OpenTag} {name : List Char}
    (h : Reader.step ⟨tag :: opened⟩ (.close name) = .ok (reader, event)) :
    tag.name = name ∧ reader = ⟨opened⟩ ∧ event = .close := by
  rw [Reader.step] at h
  dsimp only at h
  split_ifs at h with hname
  obtain ⟨rfl, rfl⟩ := Prod.mk.inj (Except.ok.inj h)
  exact ⟨hname, rfl, rfl⟩

/-- A start tag puts one more element on those that are being built. -/
theorem Builder.eq_of_start {builder builder' : Builder} {tag : Tag} {resolution : Resolution}
    (h : builder.step (.start tag resolution) = .ok builder') :
    ∃ frame, Frame.ofTag tag resolution = .ok frame ∧
      builder' = { builder with opened := frame :: builder.opened } := by
  rw [Builder.step] at h
  split at h
  · cases h
  · exact ⟨_, ‹_›, (Except.ok.inj h).symm⟩

/-- An empty tag is an element at once, attached to the one around it. -/
theorem Builder.eq_of_empty {builder builder' : Builder} {tag : Tag} {resolution : Resolution}
    (h : builder.step (.empty tag resolution) = .ok builder') :
    ∃ frame, Frame.ofTag tag resolution = .ok frame ∧
      builder.attach frame.close = .ok builder' := by
  rw [Builder.step] at h
  split at h
  · cases h
  · exact ⟨_, ‹_›, h⟩

/-- What is left of character data : nothing if it is blank. -/
def keep (chars : List Char) : List Char :=
  if chars.all Text.isBlank then [] else chars

theorem Builder.addText_nil (builder : Builder) : builder.addText [] = builder := by
  obtain ⟨_ | ⟨frame, opened⟩, root⟩ := builder
  · rfl
  · simp [addText]

/-- Character data adds what is kept of it. -/
theorem Builder.step_text {content chars : List Char} (h : Reference.expand content = .ok chars)
    (builder : Builder) : builder.step (.text content) = .ok (builder.addText (keep chars)) := by
  rw [step, h, keep]
  dsimp only
  split_ifs
  · rw [addText_nil]
  · rfl

theorem Builder.eq_of_text {builder builder' : Builder} {content : List Char}
    (h : builder.step (.text content) = .ok builder') : ∃ chars,
      Reference.expand content = .ok chars ∧ builder' = builder.addText (keep chars) := by
  cases hchars : Reference.expand content with
  | error cause =>
    rw [step, hchars] at h
    cases h
  | ok chars => exact ⟨chars, rfl, Except.ok.inj (h.symm.trans (builder.step_text hchars))⟩

/-- A document is complete when its root is there and nothing is open. -/
theorem Builder.eq_of_finish {builder : Builder} {root : Element}
    (h : builder.finish = .ok root) : builder = ⟨[], some root⟩ := by
  obtain ⟨_ | ⟨frame, opened⟩, _ | root'⟩ := builder
  · cases h
  · cases h
    rfl
  · cases h
  · cases h

/-- The namespace that a resolution stands for, none for a label that nothing binds. -/
def Resolution.uri? : Resolution → Option String
  | .bound uri => some (String.ofList uri)
  | .unbound => some ""
  | .unknown _ => none

/-- An element that begins has what its tag says, and nothing inside it. -/
theorem Frame.eq_of_ofTag {tag : Tag} {resolution : Resolution} {frame : Frame}
    (h : Frame.ofTag tag resolution = .ok frame) : ∃ uri attributes,
      resolution.uri? = some uri ∧ tag.attributes = .ok attributes ∧
        frame = { name := String.ofList (Name.localPart tag.name), uri, attributes } := by
  have hwith : ∀ uri, Frame.ofTag.withUri tag uri = .ok frame → ∃ attributes,
      tag.attributes = .ok attributes ∧
        frame = { name := String.ofList (Name.localPart tag.name), uri, attributes } := by
    intro uri hframe
    rw [Frame.ofTag.withUri] at hframe
    split at hframe
    · cases hframe
    · exact ⟨_, ‹_›, (Except.ok.inj hframe).symm⟩
  cases resolution with
  | unknown label => cases h
  | bound uri => exact ⟨_, (hwith _ h).imp fun _ hattributes => ⟨rfl, hattributes⟩⟩
  | unbound => exact ⟨_, (hwith _ h).imp fun _ hattributes => ⟨rfl, hattributes⟩⟩

namespace Document

open Markup

/-- The state in which an element is open, and others inside it, the innermost first. -/
def State.inside (tag : OpenTag) (frame : Frame) (opened : List (OpenTag × Frame)) : State :=
  ⟨⟨opened.map Prod.fst ++ [tag]⟩, ⟨opened.map Prod.snd ++ [frame], none⟩⟩

variable {tag : OpenTag} {frame : Frame} {opened : List (OpenTag × Frame)} {m : Markup}
  {ms : List Markup} {state state' : State} {root : Element}

/-- A step is one of the reader and then one of the builder, on the event in between. -/
theorem step_eq_ok {reader : Reader} {builder : Builder}
    (h : State.step ⟨reader, builder⟩ m = .ok state) : ∃ event,
      reader.step m = .ok (state.reader, event) ∧ builder.step event = .ok state.builder := by
  rw [State.step] at h
  split at h
  · cases h
  rename_i reader' event hreader
  split at h
  · cases h
  rename_i builder' hbuilder
  cases h
  exact ⟨event, hreader, hbuilder⟩

theorem step_of_ok {reader reader' : Reader} {builder builder' : Builder} {event : Event}
    (hreader : reader.step m = .ok (reader', event))
    (hbuilder : builder.step event = .ok builder') :
    State.step ⟨reader, builder⟩ m = .ok ⟨reader', builder'⟩ := by
  rw [State.step, hreader]
  dsimp only
  rw [hbuilder]

theorem attach_inside (e : Element) (opened : List (OpenTag × Frame)) :
    ∃ (opened' : List (OpenTag × Frame)) (children : Array Element),
      opened'.map Prod.fst = opened.map Prod.fst ∧ ∀ frame : Frame,
        Builder.attach ⟨opened.map Prod.snd ++ [frame], none⟩ e =
          .ok ⟨opened'.map Prod.snd ++ [frame.grown "" children], none⟩ := by
  cases opened with
  | nil =>
    refine ⟨[], #[e], rfl, fun frame => ?_⟩
    simp [Builder.attach, Frame.grown]
  | cons top opened =>
    refine ⟨(top.1, { top.2 with children := top.2.children.push e }) :: opened, #[], rfl,
      fun frame => ?_⟩
    rw [Frame.grown_nil]
    rfl

theorem addText_inside (content : List Char) (opened : List (OpenTag × Frame)) :
    ∃ (opened' : List (OpenTag × Frame)) (text : String),
      opened'.map Prod.fst = opened.map Prod.fst ∧ ∀ frame : Frame,
        Builder.addText ⟨opened.map Prod.snd ++ [frame], none⟩ content =
          ⟨opened'.map Prod.snd ++ [frame.grown text #[]], none⟩ := by
  cases opened with
  | nil =>
    refine ⟨[], String.ofList content, rfl, fun frame => ?_⟩
    simp [Builder.addText, Frame.grown]
  | cons top opened =>
    refine ⟨(top.1, { top.2 with text := top.2.text ++ String.ofList content }) :: opened, "", rfl,
      fun frame => ?_⟩
    rw [Frame.grown_nil]
    rfl

/-- As long as an element stays open, a piece adds something to it and to what is open inside it,
and that does not depend on what is in the element already. -/
theorem step_inside (h : State.step (.inside tag frame opened) m = .ok state)
    (hroot : state.builder.root = none) :
    ∃ (text : String) (children : Array Element) (opened' : List (OpenTag × Frame)),
      ∀ frame' : Frame, State.step (.inside tag frame' opened) m =
        .ok (.inside tag (frame'.grown text children) opened') := by
  obtain ⟨event, hreader, hbuilder⟩ := step_eq_ok h
  cases m with
  | start content =>
    obtain ⟨scope, resolution, hopened, rfl⟩ := Reader.eq_of_start hreader
    obtain ⟨top, htop, -⟩ := Builder.eq_of_start hbuilder
    refine ⟨"", #[], (⟨(Tag.ofContent content).name, scope⟩, top) :: opened, fun frame' => ?_⟩
    rw [hopened] at hreader
    rw [Frame.grown_nil]
    exact step_of_ok hreader (by rw [Builder.step, htop]; rfl)
  | empty content =>
    obtain ⟨hopened, resolution, rfl⟩ := Reader.eq_of_empty hreader
    obtain ⟨child, hchild, -⟩ := Builder.eq_of_empty hbuilder
    obtain ⟨opened', children, htags, hattach⟩ := attach_inside child.close opened
    refine ⟨"", children, opened', fun frame' => ?_⟩
    rw [hopened, ← htags] at hreader
    rw [State.inside, ← htags]
    exact step_of_ok hreader (by rw [Builder.step, hchild]; exact hattach frame')
  | close name =>
    cases opened with
    | nil =>
      -- The element itself would be closed.
      obtain ⟨-, -, rfl⟩ := Reader.eq_of_close hreader
      rw [← Except.ok.inj hbuilder] at hroot
      cases hroot
    | cons top opened =>
      obtain ⟨hname, -, -⟩ := Reader.eq_of_close hreader
      obtain ⟨opened', children, htags, hattach⟩ := attach_inside top.2.close opened
      refine ⟨"", children, opened', fun frame' => ?_⟩
      rw [State.inside, State.inside, htags]
      exact step_of_ok (if_pos hname) (hattach frame')
  | text content =>
    obtain ⟨-, rfl⟩ := Prod.mk.inj (Except.ok.inj hreader)
    obtain ⟨chars, hchars, -⟩ := Builder.eq_of_text hbuilder
    obtain ⟨opened', text, htags, hadd⟩ := addText_inside (keep chars) opened
    refine ⟨text, #[], opened', fun frame' => ?_⟩
    rw [State.inside, State.inside, htags, ← hadd]
    exact step_of_ok rfl (Builder.step_text hchars _)
  | cdata content =>
    obtain ⟨opened', text, htags, hadd⟩ := addText_inside content opened
    refine ⟨text, #[], opened', fun frame' => ?_⟩
    rw [State.inside, ← htags]
    exact step_of_ok rfl (congrArg _ (hadd frame'))
  | comment | instruction | doctype =>
    refine ⟨"", #[], opened, fun frame' => ?_⟩
    rw [Frame.grown_nil]
    rfl

/-! ## Up to the end tag -/

/-- Character data is no root. -/
theorem addText_root (builder : Builder) (content : List Char) :
    (builder.addText content).root = builder.root := by
  obtain ⟨_ | _, _⟩ := builder
  · rfl
  · rfl

/-- A root that is missing afterwards was missing before. -/
theorem root_of_attach {builder builder' : Builder} {e : Element}
    (h : builder.attach e = .ok builder') (hroot : builder'.root = none) : builder.root = none := by
  obtain ⟨_ | _, _ | _⟩ := builder
  · rfl
  · cases h
  · rfl
  · rwa [← Except.ok.inj h] at hroot

/-- A root that is not there was not there before. -/
theorem root_of_step (h : State.step state m = .ok state') (hroot : state'.builder.root = none) :
    state.builder.root = none := by
  obtain ⟨reader, builder⟩ := state
  obtain ⟨event, -, hbuilder⟩ := step_eq_ok h
  cases event with
  | start tag resolution =>
    obtain ⟨_, -, hopened⟩ := Builder.eq_of_start hbuilder
    rwa [hopened] at hroot
  | empty tag resolution =>
    obtain ⟨_, -, hattach⟩ := Builder.eq_of_empty hbuilder
    exact root_of_attach hattach hroot
  | close =>
    obtain ⟨_ | ⟨top, opened⟩, root⟩ := builder
    · cases hbuilder
    · exact (root_of_attach hbuilder hroot :)
  | text content =>
    obtain ⟨chars, -, hadded⟩ := Builder.eq_of_text hbuilder
    rwa [hadded, addText_root] at hroot
  | cdata content => rwa [← Except.ok.inj hbuilder, addText_root] at hroot
  | skipped => rwa [← Except.ok.inj hbuilder] at hroot

theorem foldlM_cons_eq_ok (h : (m :: ms).foldlM State.step state = .ok state') : ∃ state₁,
    State.step state m = .ok state₁ ∧ ms.foldlM State.step state₁ = .ok state' := by
  rw [List.foldlM_cons] at h
  cases hstep : State.step state m with
  | error cause =>
    rw [hstep] at h
    cases h
  | ok state₁ =>
    rw [hstep] at h
    exact ⟨state₁, rfl, h⟩

theorem foldlM_cons_of_ok (h : State.step state m = .ok state') :
    (m :: ms).foldlM State.step state = ms.foldlM State.step state' := by
  rw [List.foldlM_cons, h]
  rfl

theorem foldlM_append_of_ok {ns : List Markup} (h : ms.foldlM State.step state = .ok state') :
    (ms ++ ns).foldlM State.step state = ns.foldlM State.step state' := by
  rw [List.foldlM_append, h]
  rfl

theorem foldlM_append_eq_ok {ns : List Markup}
    (h : (ms ++ ns).foldlM State.step state = .ok state') : ∃ state₁,
      ms.foldlM State.step state = .ok state₁ ∧ ns.foldlM State.step state₁ = .ok state' := by
  rw [List.foldlM_append] at h
  cases hms : ms.foldlM State.step state with
  | error cause =>
    rw [hms] at h
    cases h
  | ok state₁ =>
    rw [hms] at h
    exact ⟨state₁, rfl, h⟩

theorem foldlM_concat_eq_ok (h : (ms ++ [m]).foldlM State.step state = .ok state') : ∃ state₁,
    ms.foldlM State.step state = .ok state₁ ∧ State.step state₁ m = .ok state' := by
  obtain ⟨state₁, hms, hlast⟩ := foldlM_append_eq_ok h
  obtain ⟨state₂, hstep, hend⟩ := foldlM_cons_eq_ok hlast
  obtain rfl := Except.ok.inj hend
  exact ⟨state₁, hms, hstep⟩

/-- As long as there is no root at the end, there was none on the way. -/
theorem root_of_foldlM (h : ms.foldlM State.step state = .ok state')
    (hroot : state'.builder.root = none) : state.builder.root = none := by
  induction ms generalizing state with
  | nil => rwa [Except.ok.inj h]
  | cons m ms ih =>
    obtain ⟨state₁, hstep, hrest⟩ := foldlM_cons_eq_ok h
    exact root_of_step hstep (ih hrest)

/-- Pieces that leave an element open add something to it that does not depend on what is in it
already. -/
theorem foldlM_inside (h : ms.foldlM State.step (.inside tag frame opened) = .ok state)
    (hroot : state.builder.root = none) :
    ∃ (text : String) (children : Array Element) (opened' : List (OpenTag × Frame)),
      ∀ frame' : Frame, ms.foldlM State.step (.inside tag frame' opened) =
        .ok (.inside tag (frame'.grown text children) opened') := by
  induction ms generalizing frame opened with
  | nil => exact ⟨"", #[], opened, fun frame' => by rw [Frame.grown_nil]; rfl⟩
  | cons m ms ih =>
    obtain ⟨state₁, hstep, hrest⟩ := foldlM_cons_eq_ok h
    obtain ⟨text, children, opened₁, hfirst⟩ := step_inside hstep (root_of_foldlM hrest hroot)
    obtain rfl := Except.ok.inj (hstep.symm.trans (hfirst frame))
    obtain ⟨text', children', opened', hmore⟩ := ih hrest
    refine ⟨text ++ text', children ++ children', opened', fun frame' => ?_⟩
    rw [List.foldlM_cons, hfirst frame', ← Frame.grown_grown]
    exact hmore _

/-! ## Pieces between a start tag and its end tag -/

/-- Pieces between the tags of an element: they leave nothing open inside it, and it has more text
and more children after them, whatever it has before. -/
def Fills (tag : OpenTag) (ms : List Markup) (text : String) (children : Array Element) : Prop :=
  ∀ frame : Frame, ms.foldlM State.step (.inside tag frame []) =
    .ok (.inside tag (frame.grown text children) [])

theorem Fills.nil (tag : OpenTag) : Fills tag [] "" #[] := fun frame => by
  rw [Frame.grown_nil]
  rfl

/-- Two runs of pieces fill an element one after the other. -/
theorem Fills.append {ns : List Markup} {text text' : String} {children children' : Array Element}
    (h : Fills tag ms text children) (h' : Fills tag ns text' children') :
    Fills tag (ms ++ ns) (text ++ text') (children ++ children') := fun frame => by
  rw [List.foldlM_append, h frame, ← Frame.grown_grown]
  exact h' _

theorem inside_inj {tag' : OpenTag} {frame' : Frame}
    (h : State.inside tag frame opened = .inside tag' frame' []) :
    opened = [] ∧ tag = tag' ∧ frame = frame' := by
  have hopened : opened = [] := by
    have hlength := congrArg (·.reader.opened.length) h
    simpa [State.inside] using hlength
  subst hopened
  have htag := congrArg (·.reader.opened) h
  have hframe := congrArg (·.builder.opened) h
  exact ⟨rfl, (List.cons.inj htag).1, (List.cons.inj hframe).1⟩

/-- Pieces with nothing open before and after them fill the element around them. -/
theorem exists_fills {frame' : Frame}
    (h : ms.foldlM State.step (.inside tag frame []) = .ok (.inside tag frame' [])) :
    ∃ text children, Fills tag ms text children ∧ frame' = frame.grown text children := by
  obtain ⟨text, children, opened, hall⟩ := foldlM_inside h rfl
  obtain ⟨rfl, -, hframe⟩ := inside_inj (Except.ok.inj ((hall frame).symm.trans h))
  exact ⟨text, children, hall, hframe.symm⟩

/-- What pieces add to the children of an element is one thing. -/
theorem Fills.children_eq {text text' : String} {children children' : Array Element}
    (h : Fills tag ms text children) (h' : Fills tag ms text' children') :
    children = children' := by
  obtain ⟨-, -, hframe⟩ := inside_inj
    (Except.ok.inj ((h { name := "", uri := "", attributes := [] }).symm.trans (h' _)))
  have hchildren := congrArg Frame.children hframe
  simpa [Frame.grown] using hchildren

/-- The end tag of the element completes a document that is nothing but the element. -/
theorem step_rootEnd (name : List Char) (scope : Scope) (frame : Frame) :
    State.step (.inside ⟨name, scope⟩ frame []) (.close name) =
      .ok ⟨⟨[]⟩, ⟨[], some frame.close⟩⟩ :=
  step_of_ok (if_pos rfl) rfl

/-- No document is complete after a start tag. -/
theorem finish_of_start {content : List Char} (h : State.step state (.start content) = .ok state') :
    state'.builder.finish ≠ .ok root := by
  obtain ⟨reader, builder⟩ := state
  obtain ⟨event, hreader, hbuilder⟩ := step_eq_ok h
  obtain ⟨_, _, -, rfl⟩ := Reader.eq_of_start hreader
  obtain ⟨frame, -, hopened⟩ := Builder.eq_of_start hbuilder
  rw [hopened]
  intro hfinish
  cases hfinish

/-- A document that is complete after an end tag had one element open before it. -/
theorem builder_of_close {name : List Char} (h : State.step state (.close name) = .ok state')
    (hfinish : state'.builder.finish = .ok root) :
    ∃ frame : Frame, state.builder = ⟨[frame], none⟩ ∧ root = frame.close := by
  obtain ⟨⟨_ | ⟨tag, tags⟩⟩, ⟨frames, root'⟩⟩ := state
  · cases h
  obtain ⟨event, hreader, hbuilder⟩ := step_eq_ok h
  obtain ⟨-, -, rfl⟩ := Reader.eq_of_close hreader
  generalize state'.builder = builder' at hbuilder hfinish
  match frames, root' with
  | [], _ => cases hbuilder
  | [_], some _ => cases hbuilder
  | [frame], none =>
    cases hbuilder
    exact ⟨frame, rfl, (Except.ok.inj hfinish).symm⟩
  | _ :: _ :: _, _ =>
    cases hbuilder
    cases hfinish

/-- If a document is complete after an end tag, this is the end tag of the root, and the pieces
before it fill the root. -/
theorem fills_of_close {name : List Char}
    (h : (ms ++ [Markup.close name]).foldlM State.step (.inside tag frame []) = .ok state)
    (hfinish : state.builder.finish = .ok root) : tag.name = name ∧ ∃ text children,
      Fills tag ms text children ∧ root = (frame.grown text children).close := by
  obtain ⟨state₁, hms, hclose⟩ := foldlM_concat_eq_ok h
  obtain ⟨frame₁, hbuilder, rfl⟩ := builder_of_close hclose hfinish
  obtain ⟨text, children, opened, hall⟩ := foldlM_inside hms (by rw [hbuilder])
  obtain rfl := Except.ok.inj (hms.symm.trans (hall frame))
  have hopened : opened = [] := by
    have hlength := congrArg (·.opened.length) hbuilder
    simpa [State.inside] using hlength
  subst hopened
  obtain ⟨event, hreader, -⟩ := step_eq_ok hclose
  obtain ⟨hname, -, -⟩ := Reader.eq_of_close hreader
  exact ⟨hname, text, children, hall, by rw [(List.cons.inj (congrArg (·.opened) hbuilder)).1]⟩

/-! ## Character data between the tags -/

theorem step_text {content chars : List Char} (h : Reference.expand content = .ok chars)
    (reader : Reader) (builder : Builder) :
    State.step ⟨reader, builder⟩ (.text content) = .ok ⟨reader, builder.addText (keep chars)⟩ :=
  step_of_ok rfl (builder.step_text h)

/-- Character data fills an element if its references can be read. -/
theorem fills_text {content chars : List Char} (h : Reference.expand content = .ok chars)
    (tag : OpenTag) : ∃ text, Fills tag [.text content] text #[] := by
  refine ⟨String.ofList (keep chars), fun frame => ?_⟩
  have hstep : State.step (.inside tag frame []) (.text content) =
      .ok (.inside tag (frame.grown (String.ofList (keep chars)) #[]) []) := by
    rw [State.inside, step_text h]
    simp [State.inside, Frame.grown, Builder.addText]
  rw [foldlM_cons_of_ok hstep]
  rfl

theorem expand_of_step {content : List Char} (h : State.step state (.text content) = .ok state') :
    state'.reader = state.reader ∧ ∃ chars, Reference.expand content = .ok chars := by
  obtain ⟨reader, builder⟩ := state
  obtain ⟨event, hreader, hbuilder⟩ := step_eq_ok h
  obtain ⟨hsame, rfl⟩ := Prod.mk.inj (Except.ok.inj hreader)
  obtain ⟨chars, hchars, -⟩ := Builder.eq_of_text hbuilder
  exact ⟨hsame.symm, chars, hchars⟩

/-- Character data after other pieces adds no child, and they do not depend on it. -/
theorem Fills.of_append_text {content : List Char} {text : String} {children : Array Element}
    (h : Fills tag (ms ++ [.text content]) text children) :
    (∃ text, Fills tag ms text children) ∧ ∃ chars, Reference.expand content = .ok chars := by
  obtain ⟨state, hms, hstep⟩ :=
    foldlM_concat_eq_ok (h { name := "", uri := "", attributes := [] })
  obtain ⟨hreader, chars, hchars⟩ := expand_of_step hstep
  obtain ⟨text₁, children₁, opened, hall⟩ := foldlM_inside hms (root_of_step hstep rfl)
  obtain rfl := Except.ok.inj (hms.symm.trans (hall _))
  have hopened : opened = [] := by
    have hlength := congrArg (·.opened.length) hreader
    simpa [State.inside] using hlength
  subst hopened
  have hms' : Fills tag ms text₁ children₁ := hall
  obtain ⟨text₂, htext⟩ := fills_text hchars tag
  obtain rfl := (hms'.append htext).children_eq h
  exact ⟨⟨text₁, by rwa [Array.append_empty]⟩, chars, hchars⟩

/-- Character data before other pieces adds no child, and they do not depend on it. -/
theorem Fills.of_cons_text {content : List Char} {text : String} {children : Array Element}
    (h : Fills tag (.text content :: ms) text children) :
    (∃ chars, Reference.expand content = .ok chars) ∧ ∃ text, Fills tag ms text children := by
  obtain ⟨state, hstep, hrest⟩ :=
    foldlM_cons_eq_ok (h { name := "", uri := "", attributes := [] })
  obtain ⟨-, chars, hchars⟩ := expand_of_step hstep
  obtain ⟨text₁, htext⟩ := fills_text hchars tag
  obtain ⟨state', hstep', hlast⟩ := foldlM_cons_eq_ok (htext _)
  obtain rfl := Except.ok.inj hlast
  obtain rfl := Except.ok.inj (hstep.symm.trans hstep')
  obtain ⟨text₂, children₂, hms, -⟩ := exists_fills hrest
  obtain rfl := (htext.append hms).children_eq h
  exact ⟨⟨chars, hchars⟩, text₂, by rwa [Array.empty_append]⟩

end Document

end MifirReport.Xml
