import MifirReport.Proofs.Xml.Building

/-!
# The stacks of a reader and a builder

A reader holds the tags that are open, and a builder holds the elements that are. Neither looks at
the other, yet their stacks go up and down together : after every event that is taken in, both hold
the start tags that the events leave open (`openNames`), the one with the names as written and the
other with their local parts (`InStep`). Each event keeps that (`InStep.step`), and so it holds all
along a document (`Handled.inStep`).

How a document ends is said in terms of the events before : `parse_eq_iff` tells at which point and
for which cause it stops. An end tag that does not name the innermost open tag is refused by the
reader, and the builder is never given one with nothing open. The name of an element that is left
open is that of the innermost tag (`parse_keeps_stacks_in_step`).
-/

namespace MifirReport.Xml

variable {es : List Event} {e : Event} {i : Nat} {tag : Tag} {resolution : Resolution}
  {reader reader' : Reader} {builder builder' : Builder} {m : Markup} {cause : XmlError}

/-! ## The tags that events leave open -/

/-- The name in a start tag, as written. -/
def Event.startName? : Event → Option (List Char)
  | start tag _ => some tag.name
  | _ => none

/-- The name in the start tag at a position of some events. -/
def startNameAt? (es : List Event) (i : Nat) : Option (List Char) :=
  es[i]?.bind Event.startName?

/-- The names in the start tags whose elements are open after some events, the innermost first. -/
def openNames (es : List Event) : List (List Char) :=
  (openAfter es).filterMap (startNameAt? es)

/-- What is open began with a start tag, so that it has a name. -/
theorem exists_startNameAt (h : i ∈ openAfter es) : ∃ name, startNameAt? es i = some name := by
  obtain ⟨e, he, hstart⟩ := (Option.any_eq_true _ _).1 (mem_openAfter.1 h).2.1
  cases e with
  | start tag resolution => exact ⟨tag.name, by rw [startNameAt?, he]; rfl⟩
  | empty | close | text | cdata | skipped => cases hstart

/-- There is one name for each element that is open. -/
theorem length_openNames (es : List Event) : (openNames es).length = (openAfter es).length :=
  List.filterMap_length_eq_length.2 fun _ h => Option.isSome_iff_exists.2 (exists_startNameAt h)

/-- What was open keeps its name. -/
theorem startNameAt?_concat (h : i ∈ openAfter es) (e : Event) :
    startNameAt? (es ++ [e]) i = startNameAt? es i := by
  rw [startNameAt?, startNameAt?, List.getElem?_append_left (mem_openAfter.1 h).1]

theorem filterMap_openAfter (es : List Event) (e : Event) :
    (openAfter es).filterMap (startNameAt? (es ++ [e])) = openNames es :=
  List.filterMap_congr fun _ h => startNameAt?_concat h e

theorem openNames_start (es : List Event) (tag : Tag) (resolution : Resolution) :
    openNames (es ++ [.start tag resolution]) = tag.name :: openNames es := by
  have hname : startNameAt? (es ++ [.start tag resolution]) es.length = some tag.name := by
    rw [startNameAt?, List.getElem?_concat_length]
    rfl
  rw [openNames, openAfter_start, List.filterMap_cons_some hname, filterMap_openAfter]

theorem openNames_close (es : List Event) : openNames (es ++ [.close]) = (openNames es).tail := by
  rw [← filterMap_openAfter es .close, openNames, openAfter_close]
  cases hopened : openAfter es with
  | nil => rfl
  | cons i outer =>
    have hi : i ∈ openAfter es := hopened ▸ List.mem_cons_self
    obtain ⟨name, hname⟩ := exists_startNameAt hi
    rw [List.filterMap_cons_some ((startNameAt?_concat hi .close).trans hname), List.tail_cons,
      List.tail_cons]

/-- Events other than start tags and end tags open and close nothing. -/
theorem openNames_of_not (es : List Event) (hstart : e.isStart = false) (hend : e.isEnd = false) :
    openNames (es ++ [e]) = openNames es := by
  rw [openNames, openAfter_of_not_isEnd es hend, hstart, if_neg Bool.false_ne_true,
    List.nil_append, filterMap_openAfter]

/-! ## One event on both stacks -/

/-- The names of the tags that a reader holds follow its events. -/
theorem Reader.names_of_step (h : reader.step m = .ok (reader', e))
    (hnames : reader.opened.map (·.name) = openNames es) :
    reader'.opened.map (·.name) = openNames (es ++ [e]) := by
  cases m with
  | start content =>
    obtain ⟨scope, resolution, rfl, rfl⟩ := Reader.eq_of_start h
    rw [openNames_start, List.map_cons, hnames]
  | empty content =>
    obtain ⟨rfl, resolution, rfl⟩ := Reader.eq_of_empty h
    rw [openNames_of_not es rfl rfl, hnames]
  | close name =>
    obtain ⟨_ | ⟨tag, opened⟩⟩ := reader
    · cases h
    obtain ⟨-, rfl, rfl⟩ := Reader.eq_of_close h
    rw [openNames_close, ← hnames]
    rfl
  | text | cdata | comment | instruction | doctype =>
    obtain ⟨rfl, rfl⟩ := Prod.mk.inj (Except.ok.inj h)
    rw [openNames_of_not es rfl rfl, hnames]

/-- Character data goes into the innermost element and leaves the names as they are. -/
theorem Builder.names_addText (builder : Builder) (content : List Char) :
    (builder.addText content).opened.map (·.name) = builder.opened.map (·.name) := by
  obtain ⟨_ | ⟨frame, opened⟩, root⟩ := builder <;> rfl

/-- A complete element goes into the innermost one and leaves the names as they are. -/
theorem Builder.names_of_attach {element : Element} (h : builder.attach element = .ok builder') :
    builder'.opened.map (·.name) = builder.opened.map (·.name) := by
  obtain ⟨_ | ⟨frame, opened⟩, _ | root⟩ := builder <;> cases h <;> rfl

/-- The name that an element has for the name in its tag. -/
def Name.localText (name : List Char) : String :=
  String.ofList (Name.localPart name)

/-- The names of the elements that a builder holds follow its events. -/
theorem Builder.names_of_step (h : builder.step e = .ok builder')
    (hnames : builder.opened.map (·.name) = (openNames es).map Name.localText) :
    builder'.opened.map (·.name) = (openNames (es ++ [e])).map Name.localText := by
  cases e with
  | start tag resolution =>
    obtain ⟨frame, hframe, rfl⟩ := Builder.eq_of_start h
    obtain ⟨uri, attributes, -, -, rfl⟩ := Frame.eq_of_ofTag hframe
    rw [openNames_start, List.map_cons, List.map_cons, hnames]
    rfl
  | empty tag resolution =>
    obtain ⟨frame, -, hattach⟩ := Builder.eq_of_empty h
    rw [openNames_of_not es rfl rfl, Builder.names_of_attach hattach, hnames]
  | close =>
    obtain ⟨_ | ⟨frame, opened⟩, root⟩ := builder
    · cases h
    have hattach : Builder.attach ⟨opened, root⟩ frame.close = .ok builder' := h
    rw [openNames_close, List.map_tail, ← hnames, Builder.names_of_attach hattach]
    rfl
  | text content =>
    obtain ⟨chars, -, rfl⟩ := Builder.eq_of_text h
    rw [openNames_of_not es rfl rfl, Builder.names_addText, hnames]
  | cdata content =>
    cases h
    rw [openNames_of_not es rfl rfl, Builder.names_addText, hnames]
  | skipped =>
    cases h
    rw [openNames_of_not es rfl rfl, hnames]

/-- Both stacks hold the start tags that some events leave open, in the same order. -/
structure InStep (es : List Event) (state : Document.State) : Prop where
  reader : state.reader.opened.map (·.name) = openNames es
  builder : state.builder.opened.map (·.name) = (openNames es).map Name.localText

namespace InStep

variable {state : Document.State}

theorem start : InStep [] {} :=
  ⟨rfl, rfl⟩

/-- An event that both take in keeps their stacks in step. -/
theorem step (h : InStep es state) (hreader : state.reader.step m = .ok (reader', e))
    (hbuilder : state.builder.step e = .ok builder') : InStep (es ++ [e]) ⟨reader', builder'⟩ :=
  ⟨Reader.names_of_step hreader h.reader, Builder.names_of_step hbuilder h.builder⟩

/-- The elements have the local parts of the names in the tags. -/
theorem names_eq (h : InStep es state) : state.builder.opened.map (·.name) =
    state.reader.opened.map fun tag => Name.localText tag.name := by
  rw [h.builder, ← h.reader, List.map_map]
  rfl

/-- At the end of a document the builder names the innermost open tag. -/
theorem finish_eq_unclosedElement_iff (h : InStep es state) {name : String} :
    state.builder.finish = .error (.unclosedElement name) ↔
      ∃ innermost outer, openNames es = innermost :: outer ∧ name = Name.localText innermost := by
  have hnames := h.builder
  obtain ⟨reader, ⟨_ | ⟨frame, opened⟩, root⟩⟩ := state
  · have hempty : openNames es = [] := List.map_eq_nil_iff.1 hnames.symm
    rw [hempty]
    cases root <;> simp [Builder.finish]
  · cases hopen : openNames es with
    | nil =>
      rw [hopen] at hnames
      cases hnames
    | cons innermost outer =>
      rw [hopen] at hnames
      obtain ⟨hname, -⟩ := List.cons.inj hnames
      simp [Builder.finish, hname, eq_comm]

end InStep

/-! ## Causes that tell of nesting -/

/-- What is wrong with an end tag where the start tags with some names are open. -/
def XmlError.ofEnd? (names : List (List Char)) (name : List Char) : Option XmlError :=
  match names with
  | [] => some (.unmatchedEnd (String.ofList name))
  | innermost :: _ =>
    if innermost = name then none
    else some (.mismatchedEnd (String.ofList innermost) (String.ofList name))

theorem XmlError.eq_of_ofEnd? {names : List (List Char)} {name : List Char}
    (h : XmlError.ofEnd? names name = some cause) :
    (∃ found, cause = .unmatchedEnd found) ∨
      ∃ expected found, cause = .mismatchedEnd expected found := by
  cases names with
  | nil => exact .inl ⟨_, (Option.some.inj h).symm⟩
  | cons innermost outer =>
    rw [XmlError.ofEnd?] at h
    split_ifs at h
    exact .inr ⟨_, _, (Option.some.inj h).symm⟩

/-- A reader refuses just the end tags that do not name the innermost open tag. -/
theorem Reader.step_close_eq_error_iff {name : List Char} :
    reader.step (.close name) = .error cause ↔
      XmlError.ofEnd? (reader.opened.map (·.name)) name = some cause := by
  obtain ⟨_ | ⟨tag, opened⟩⟩ := reader
  · exact ⟨fun h => by cases h; rfl, fun h => by cases h; rfl⟩
  · rw [Reader.step, List.map_cons, XmlError.ofEnd?]
    dsimp only
    split_ifs <;> simp

/-- A cause that tells of a start tag without its end tag or of an end tag without its start tag. -/
def XmlError.isNesting : XmlError → Bool
  | mismatchedEnd _ _ | unmatchedEnd _ | unexpectedEnd | unclosedElement _ => true
  | _ => false

theorem isNesting_of_declare {scope : Scope} {pairs : List (List Char × List Char)}
    (h : scope.declare pairs = .error cause) : cause.isNesting = false := by
  induction pairs generalizing scope with
  | nil => cases h
  | cons pair pairs ih =>
    rw [Scope.declare] at h
    split at h
    · rename_i herror
      cases h
      revert herror
      fun_cases Scope.declareOne scope pair.1 pair.2 <;> intro herror <;> cases herror <;> rfl
    · exact ih h

theorem isNesting_of_readAttributes {seen : List (List Char × Nat)}
    {items : List (Except AttributeError Attribute)}
    (h : Tag.readAttributes seen items = .error cause) : cause.isNesting = false := by
  fun_induction Tag.readAttributes seen items with
  | case1 => cases h
  | case2 =>
    cases h
    rfl
  | case3 =>
    cases h
    rfl
  | case4 =>
    cases h
    rfl
  | case5 =>
    rename_i ih
    exact ih h
  | case6 =>
    cases h
    rfl
  | case7 seen key position items _ _ _ value _ ih =>
    cases hitems : Tag.readAttributes ((key, position) :: seen) items with
    | error cause' =>
      rw [hitems] at h
      cases h
      exact ih hitems
    | ok attributes =>
      rw [hitems] at h
      cases h

/-- What is in a tag has its own causes. -/
theorem isNesting_of_ofTag (h : Frame.ofTag tag resolution = .error cause) :
    cause.isNesting = false := by
  have hwith : ∀ uri, Frame.ofTag.withUri tag uri = .error cause → cause.isNesting = false := by
    intro uri hframe
    rw [Frame.ofTag.withUri] at hframe
    split at hframe
    · rename_i herror
      cases hframe
      exact isNesting_of_readAttributes herror
    · cases hframe
  cases resolution with
  | unknown label =>
    cases h
    rfl
  | bound uri => exact hwith _ h
  | unbound => exact hwith _ h

theorem isNesting_of_attach {element : Element} (h : builder.attach element = .error cause) :
    cause.isNesting = false := by
  obtain ⟨_ | ⟨frame, opened⟩, _ | root⟩ := builder <;> cases h
  rfl

/-- A reader tells of nesting at an end tag only. -/
theorem Reader.isNesting_of_step (h : reader.step m = .error cause) :
    cause.isNesting = false ∨ ∃ name, m = .close name := by
  cases m with
  | start content | empty content =>
    rw [Reader.step] at h
    split at h
    · rename_i herror
      cases h
      exact .inl (isNesting_of_declare herror)
    · cases h
  | close name => exact .inr ⟨name, rfl⟩
  | text | cdata | comment | instruction | doctype => cases h

/-- A builder tells of nesting at an end tag with nothing open. -/
theorem Builder.isNesting_of_step (h : builder.step e = .error cause) :
    cause.isNesting = false ∨ e = .close ∧ builder.opened = [] := by
  cases e with
  | start tag resolution =>
    rw [Builder.step] at h
    split at h
    · rename_i herror
      cases h
      exact .inl (isNesting_of_ofTag herror)
    · cases h
  | empty tag resolution =>
    rw [Builder.step] at h
    split at h
    · rename_i herror
      cases h
      exact .inl (isNesting_of_ofTag herror)
    · exact .inl (isNesting_of_attach h)
  | close =>
    obtain ⟨_ | ⟨frame, opened⟩, root⟩ := builder
    · exact .inr ⟨rfl, rfl⟩
    · have hattach : Builder.attach ⟨opened, root⟩ frame.close = .error cause := h
      exact .inl (isNesting_of_attach hattach)
  | text content =>
    rw [Builder.step] at h
    split at h
    · cases h
      exact .inl rfl
    · split_ifs at h
  | cdata | skipped => cases h

/-- What follows its first words does not make a text one that begins otherwise. -/
theorem append_ne {opening rest text : String} (h : ¬opening.toList <+: text.toList) :
    opening ++ rest ≠ text := by
  rintro rfl
  exact h (by simp)

/-- No other cause is worded like an end tag that the builder has nothing for. -/
theorem XmlError.message_eq_unexpectedEnd_iff :
    cause.message = "unexpected closing tag" ↔ cause = .unexpectedEnd := by
  constructor
  · intro h
    cases cause with
    | unexpectedEnd => rfl
    | markup cause =>
      revert h
      cases cause <;> decide
    | reference cause =>
      cases cause with
      | unterminated | unknownEntity | number =>
        -- The equations of the wording would evaluate its literals, so it is unfolded as it stands.
        delta XmlError.message ReferenceError.message at h
        simp only [String.append_assoc] at h
        exact absurd h (append_ne (by decide))
    | attributes cause =>
      cases cause with
      | noEquals | noValue | unquoted | unclosed | duplicate =>
        delta XmlError.message AttributeError.message AttributeError.message.at_ at h
        simp only [String.append_assoc] at h
        exact absurd h (append_ne (by decide))
    | reservedBinding | unknownLabel | mismatchedEnd | unmatchedEnd | secondRoot
    | unclosedElement =>
      delta XmlError.message at h
      simp only [String.append_assoc] at h
      exact absurd h (append_ne (by decide))
    | noRoot =>
      revert h
      decide
  · rintro rfl
    rfl

/-! ## What is handled of a document -/

namespace Document

open Markup

/-- Some events of a document have come and both stacks have taken them in, with the state after
them and the text still to come. -/
inductive Handled (document : String) : List Event → State → List Char → Prop
  | start : Handled document [] {} (dropMark document.toList)
  | step {es : List Event} {state : State} {c : Char} {cs rest : List Char} {m : Markup}
      {reader : Reader} {e : Event} {builder : Builder} :
      Handled document es state (c :: cs) → next c cs = .ok (m, rest) →
      state.reader.step m = .ok (reader, e) → state.builder.step e = .ok builder →
      Handled document (es ++ [e]) ⟨reader, builder⟩ rest

/-- How a document ends where the next piece is not handled, or where there is none. -/
inductive Ends (state : State) : List Char → Except XmlError Element → Prop
  | malformed {c : Char} {cs : List Char} {cause : MarkupError} :
      next c cs = .error cause → Ends state (c :: cs) (.error (.markup cause))
  | unread {c : Char} {cs rest : List Char} {m : Markup} {cause : XmlError} :
      next c cs = .ok (m, rest) → state.reader.step m = .error cause →
      Ends state (c :: cs) (.error cause)
  | refused {c : Char} {cs rest : List Char} {m : Markup} {reader : Reader} {e : Event}
      {cause : XmlError} : next c cs = .ok (m, rest) → state.reader.step m = .ok (reader, e) →
      state.builder.step e = .error cause → Ends state (c :: cs) (.error cause)
  | finished : Ends state [] state.builder.finish

/-- What comes of a document from a state and the text still to come. -/
def resume (state : State) (rest : List Char) : Except XmlError Element :=
  foldM State.step state rest >>= fun state => state.builder.finish

variable {document : String} {state : State} {rest : List Char}
  {result : Except XmlError Element}

theorem parse_eq_resume (document : String) :
    parse document = resume {} (dropMark document.toList) := by
  rw [parse, resume]
  cases foldM State.step {} (dropMark document.toList) <;> rfl

theorem resume_cons {c : Char} {cs : List Char} (h : next c cs = .ok (m, rest)) (state : State) :
    resume state (c :: cs) = state.step m >>= fun state => resume state rest := by
  rw [resume, foldM_of_next h, bind_assoc]
  rfl

/-- The events that are handled leave what comes of the document to what comes after them. -/
theorem Handled.parse_eq (h : Handled document es state rest) :
    parse document = resume state rest := by
  induction h with
  | start => exact parse_eq_resume document
  | step _ hnext hreader hbuilder ih =>
    rw [ih, resume_cons hnext, step_of_ok hreader hbuilder]
    rfl

theorem Ends.eq (h : Ends state rest result) : resume state rest = result := by
  cases h with
  | malformed hnext =>
    rw [resume, foldM_of_error hnext]
    rfl
  | unread hnext hreader =>
    rw [resume_cons hnext, State.step, hreader]
    rfl
  | refused hnext hreader hbuilder =>
    rw [resume_cons hnext, State.step, hreader]
    dsimp only
    rw [hbuilder]
    rfl
  | finished =>
    rw [resume, foldM]
    rfl

/-- Events are handled until a piece is not, or the text is at its end. -/
theorem Handled.exists_ends (h : Handled document es state rest) : ∃ es state rest result,
    Handled document es state rest ∧ Ends state rest result := by
  fun_induction foldM State.step state rest generalizing es with
  | case1 state => exact ⟨es, state, [], _, h, .finished⟩
  | case2 state c cs cause hnext => exact ⟨es, state, c :: cs, _, h, .malformed hnext⟩
  | case3 state c cs m rest hnext cause hstep =>
    rw [State.step] at hstep
    split at hstep
    · rename_i hreader
      exact ⟨es, _, c :: cs, _, h, .unread hnext hreader⟩
    · rename_i reader e hreader
      split at hstep
      · rename_i hbuilder
        exact ⟨es, _, c :: cs, _, h, .refused hnext hreader hbuilder⟩
      · cases hstep
  | case4 state c cs m rest hnext state' hstep ih =>
    obtain ⟨e, hreader, hbuilder⟩ := step_eq_ok hstep
    exact ih (h.step hnext hreader hbuilder)

/-- How a document ends tells at which point of it. -/
theorem parse_eq_iff : parse document = result ↔ ∃ es state rest,
    Handled document es state rest ∧ Ends state rest result := by
  constructor
  · rintro rfl
    have hstart : Handled document [] {} (dropMark document.toList) := .start
    obtain ⟨es, state, rest, result, hhandled, hends⟩ := hstart.exists_ends
    rw [hhandled.parse_eq, hends.eq]
    exact ⟨es, state, rest, hhandled, hends⟩
  · rintro ⟨es, state, rest, hhandled, hends⟩
    rw [hhandled.parse_eq, hends.eq]

/-- Along a document both stacks stay in step. -/
theorem Handled.inStep (h : Handled document es state rest) : InStep es state := by
  induction h with
  | start => exact .start
  | step _ _ hreader hbuilder ih => exact ih.step hreader hbuilder

/-- For its nesting a document is refused at an end tag that the reader refuses, or at its end. -/
theorem Ends.of_isNesting (h : Ends state rest (.error cause)) (hstep : InStep es state)
    (hcause : cause.isNesting = true) :
    (∃ name, XmlError.ofEnd? (openNames es) name = some cause) ∨
      rest = [] ∧ state.builder.finish = .error cause := by
  generalize hresult : Except.error cause = result at h
  cases h with
  | malformed hnext =>
    cases hresult
    cases hcause
  | unread hnext hreader =>
    cases hresult
    obtain hnot | ⟨name, rfl⟩ := Reader.isNesting_of_step hreader
    · rw [hnot] at hcause
      cases hcause
    · rw [Reader.step_close_eq_error_iff, hstep.reader] at hreader
      exact .inl ⟨name, hreader⟩
  | refused hnext hreader hbuilder =>
    cases hresult
    obtain hnot | ⟨rfl, hnone⟩ := Builder.isNesting_of_step hbuilder
    · rw [hnot] at hcause
      cases hcause
    · -- The reader takes an end tag just if a tag is open, and then an element is open as well.
      have hnames := hstep.builder
      rw [hnone] at hnames
      have hempty : openNames es = [] := List.map_eq_nil_iff.1 hnames.symm
      have hlength := congrArg List.length hstep.reader
      rw [List.length_map, length_openNames] at hlength
      have hopen := (length_opened_of_step hreader hlength).1 rfl
      rw [← List.length_pos_iff, ← length_openNames, hempty] at hopen
      cases hopen
  | finished => exact .inr ⟨rfl, hresult ▸ rfl⟩

/-- After every event of a document that is handled, the builder has one element for each tag that
the reader holds open, in the same order and with the local parts of their names, and these are the
start tags that the events leave open. No document is refused with the words `unexpected closing
tag` : an end tag that is none of the innermost start tag is refused by the reader. And a document
is refused for an element without its end tag just if it is handled to its end and leaves a start
tag open, with the local part of the name in the innermost one. -/
theorem parse_keeps_stacks_in_step (document : String) :
    (∀ es state rest, Handled document es state rest →
      state.reader.opened.map (·.name) = openNames es ∧
        state.builder.opened.map (·.name) =
          state.reader.opened.map fun tag => Name.localText tag.name) ∧
    (∀ cause, parse document = .error cause → cause.message ≠ "unexpected closing tag") ∧
    (∀ es state c cs name rest, Handled document es state (c :: cs) →
      next c cs = .ok (.close name, rest) →
        ∀ cause, XmlError.ofEnd? (openNames es) name = some cause →
          state.reader.step (.close name) = .error cause ∧ parse document = .error cause) ∧
    ∀ name, parse document = .error (.unclosedElement name) ↔ ∃ es state innermost outer,
      Handled document es state [] ∧ openNames es = innermost :: outer ∧
        name = Name.localText innermost := by
  refine ⟨fun es state rest h => ⟨h.inStep.reader, h.inStep.names_eq⟩, fun cause h hmessage => ?_,
    fun es state c cs name rest h hnext cause hcause => ?_, fun name => ⟨fun h => ?_, ?_⟩⟩
  · obtain rfl := XmlError.message_eq_unexpectedEnd_iff.1 hmessage
    obtain ⟨es, state, rest, hhandled, hends⟩ := parse_eq_iff.1 h
    obtain ⟨name, hcause⟩ | ⟨-, hfinish⟩ := hends.of_isNesting hhandled.inStep rfl
    · obtain ⟨_, hcause⟩ | ⟨_, _, hcause⟩ := XmlError.eq_of_ofEnd? hcause <;> cases hcause
    · obtain ⟨reader, ⟨_ | ⟨frame, opened⟩, _ | root⟩⟩ := state <;> cases hfinish
  · have hreader : state.reader.step (.close name) = .error cause := by
      rwa [Reader.step_close_eq_error_iff, h.inStep.reader]
    exact ⟨hreader, parse_eq_iff.2 ⟨es, state, _, h, .unread hnext hreader⟩⟩
  · obtain ⟨es, state, rest, hhandled, hends⟩ := parse_eq_iff.1 h
    obtain ⟨name, hcause⟩ | ⟨rfl, hfinish⟩ := hends.of_isNesting hhandled.inStep rfl
    · obtain ⟨_, hcause⟩ | ⟨_, _, hcause⟩ := XmlError.eq_of_ofEnd? hcause <;> cases hcause
    · obtain ⟨innermost, outer, hopen, hname⟩ :=
        hhandled.inStep.finish_eq_unclosedElement_iff.1 hfinish
      exact ⟨es, state, innermost, outer, hhandled, hopen, hname⟩
  · rintro ⟨es, state, innermost, outer, hhandled, hopen, hname⟩
    have hfinish := hhandled.inStep.finish_eq_unclosedElement_iff.2 ⟨innermost, outer, hopen, hname⟩
    exact parse_eq_iff.2 ⟨es, state, [], hhandled, hfinish ▸ .finished⟩

/-- The text of a start tag with a label, and inside it of an empty tag and of a start tag. -/
def openingText : List Char :=
  "<p:a xmlns:p='u'><b/><c>".toList

/-- The outer tag of this text. -/
def outerTag : Tag :=
  ⟨"p:a".toList, " xmlns:p='u'".toList⟩

/-- The two tags that this text leaves open. -/
def outerOpen : OpenTag :=
  ⟨"p:a".toList, ⟨['p'], ['u']⟩ :: Scope.outermost⟩

def innerOpen : OpenTag :=
  ⟨['c'], outerOpen.scope⟩

/-- The events of this text. -/
def openingEvents : List Event := [
  .start outerTag (.bound ['u']), .empty ⟨['b'], []⟩ .unbound, .start ⟨['c'], []⟩ .unbound]

/-- The events of this text are handled, whatever comes after it. -/
theorem exists_handled_openingText (tail : List Char) : ∃ state,
    Handled (String.ofList (openingText ++ tail)) openingEvents state tail := by
  have ha : Reader.step {} (.start "p:a xmlns:p='u'".toList) =
      .ok (⟨[outerOpen]⟩, .start outerTag (.bound ['u'])) := by decide +kernel
  have hb : Reader.step ⟨[outerOpen]⟩ (.empty ['b']) =
      .ok (⟨[outerOpen]⟩, .empty ⟨['b'], []⟩ .unbound) := by decide +kernel
  have hc : Reader.step ⟨[outerOpen]⟩ (.start ['c']) =
      .ok (⟨[innerOpen, outerOpen]⟩, .start ⟨['c'], []⟩ .unbound) := by decide +kernel
  obtain ⟨a, ha'⟩ : ∃ frame, Frame.ofTag outerTag (.bound ['u']) = .ok frame :=
    exists_ofTag_iff.2 ⟨⟨_, rfl⟩, [], by decide +kernel⟩
  obtain ⟨b, hb'⟩ : ∃ frame, Frame.ofTag ⟨['b'], []⟩ .unbound = .ok frame :=
    exists_ofTag_iff.2 ⟨⟨_, rfl⟩, [], by decide +kernel⟩
  obtain ⟨c, hc'⟩ : ∃ frame, Frame.ofTag ⟨['c'], []⟩ .unbound = .ok frame :=
    exists_ofTag_iff.2 ⟨⟨_, rfl⟩, [], by decide +kernel⟩
  have hstart : Handled (String.ofList (openingText ++ tail)) [] {} (openingText ++ tail) := by
    have hwhole : Handled (String.ofList (openingText ++ tail)) [] {} (dropMark _) := .start
    rwa [String.toList_ofList] at hwhole
  have hfirst : Handled _ _ _ ("<b/><c>".toList ++ tail) :=
    hstart.step rfl ha (by rw [Builder.step, ha'])
  have hsecond : Handled _ _ _ ("<c>".toList ++ tail) :=
    hfirst.step rfl hb (by rw [Builder.step, hb']; rfl)
  exact ⟨_, hsecond.step rfl hc (by rw [Builder.step, hc'])⟩

/-- An end tag that names the outer of two open tags, and no end tag at all. -/
theorem parse_keeps_stacks_in_step_openingText : (∃ state,
    Handled (String.ofList (openingText ++ "</p:a>".toList)) openingEvents state "</p:a>".toList ∧
      state.builder.opened.map (·.name) = ["c", "a"]) ∧
    parse (String.ofList (openingText ++ "</p:a>".toList)) = .error (.mismatchedEnd "c" "p:a") ∧
    parse (String.ofList openingText) = .error (.unclosedElement "c") := by
  have hnames : openNames openingEvents = [['c'], "p:a".toList] := by decide +kernel
  have hnext : next '<' "/p:a>".toList = .ok (.close "p:a".toList, []) := by decide +kernel
  have hcause : XmlError.ofEnd? (openNames openingEvents) "p:a".toList =
      some (.mismatchedEnd "c" "p:a") := by
    rw [hnames]
    decide +kernel
  obtain ⟨state, hhandled⟩ := exists_handled_openingText "</p:a>".toList
  obtain ⟨hstacks, -, hend, -⟩ :=
    parse_keeps_stacks_in_step (String.ofList (openingText ++ "</p:a>".toList))
  refine ⟨⟨state, hhandled, ?_⟩, (hend _ _ _ _ _ _ hhandled hnext _ hcause).2, ?_⟩
  · obtain ⟨hreader, hbuilder⟩ := hstacks _ _ _ hhandled
    have hlocal := congrArg (List.map Name.localText) (hreader.trans hnames)
    rw [List.map_map] at hlocal
    exact hbuilder.trans (hlocal.trans (by decide +kernel))
  · obtain ⟨state', hhandled'⟩ := exists_handled_openingText []
    rw [List.append_nil] at hhandled'
    obtain ⟨-, -, -, hunclosed⟩ := parse_keeps_stacks_in_step (String.ofList openingText)
    exact (hunclosed "c").2 ⟨_, state', _, _, hhandled', hnames, by decide +kernel⟩

end Document

end MifirReport.Xml
