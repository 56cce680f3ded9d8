import MifirReport.Text.Blank
import MifirReport.Xml.Element
import MifirReport.Xml.Event

/-!
# Documents

A document is one element, with nothing but blank text, comments and the like around it that counts.
A `Builder` makes the element out of events: it holds the elements that are open, the innermost
first, and the root once it is complete. Character data is kept as written, except that a run of it
that is blank once its references are replaced is left out; character data in brackets is kept in
any case.

`Document.parse` reads a text. It refuses the text at the first cause from left to right, be it in
the markup, in a tag, in a reference or in the nesting.
-/

namespace MifirReport.Xml

/-- An element whose end tag is still to come. -/
structure Frame where
  name : String
  uri : String
  attributes : List (String × String)
  text : String := ""
  children : Array Element := #[]

namespace Frame

/-- The element, complete with what was read so far. -/
def close (frame : Frame) : Element :=
  ⟨frame.name, frame.uri, frame.attributes, frame.text, frame.children.toList⟩

/-- The element that a tag begins. The namespace of the name comes before the attributes. -/
def ofTag (tag : Tag) (resolution : Resolution) : Except XmlError Frame :=
  match resolution with
  | .unknown label => .error (.unknownLabel (String.ofList label))
  | .bound uri => withUri (String.ofList uri)
  | .unbound => withUri ""
where
  withUri (uri : String) : Except XmlError Frame :=
    match tag.attributes with
    | .error cause => .error cause
    | .ok attributes => .ok { name := String.ofList (Name.localPart tag.name), uri, attributes }

end Frame

/-- The open elements, the innermost first, and the root once it is complete. -/
structure Builder where
  opened : List Frame := []
  root : Option Element := none

namespace Builder

/-- Puts a complete element into the innermost open one, or makes it the root. -/
def attach (builder : Builder) (e : Element) : Except XmlError Builder :=
  match builder with
  | ⟨frame :: opened, root⟩ =>
    .ok ⟨{ frame with children := frame.children.push e } :: opened, root⟩
  | ⟨[], none⟩ => .ok ⟨[], some e⟩
  | ⟨[], some _⟩ => .error (.secondRoot e.name)

/-- Adds character data to the innermost open element; outside the root it has no place. -/
def addText (builder : Builder) (content : List Char) : Builder :=
  match builder with
  | ⟨frame :: opened, root⟩ =>
    ⟨{ frame with text := frame.text ++ String.ofList content } :: opened, root⟩
  | ⟨[], root⟩ => ⟨[], root⟩

/-- Takes in one event. -/
def step (builder : Builder) : Event → Except XmlError Builder
  | .start tag resolution =>
    match Frame.ofTag tag resolution with
    | .error cause => .error cause
    | .ok frame => .ok { builder with opened := frame :: builder.opened }
  | .empty tag resolution =>
    match Frame.ofTag tag resolution with
    | .error cause => .error cause
    | .ok frame => builder.attach frame.close
  | .close =>
    match builder with
    | ⟨[], _⟩ => .error .unexpectedEnd
    | ⟨frame :: opened, root⟩ => attach ⟨opened, root⟩ frame.close
  | .text content =>
    match Reference.expand content with
    | .error cause => .error (.reference cause)
    | .ok content =>
      if content.all Text.isBlank then .ok builder else .ok (builder.addText content)
  | .cdata content => .ok (builder.addText content)
  | .skipped => .ok builder

/-- The root of a document that has been read to its end. -/
def finish (builder : Builder) : Except XmlError Element :=
  match builder with
  | ⟨frame :: _, _⟩ => .error (.unclosedElement frame.name)
  | ⟨[], none⟩ => .error .noRoot
  | ⟨[], some root⟩ => .ok root

end Builder

namespace Document

/-- The reader and the builder at one point of a document. -/
structure State where
  reader : Reader := {}
  builder : Builder := {}

/-- Reads one piece of markup and takes in the event. -/
def State.step (state : State) (m : Markup) : Except XmlError State :=
  match state with
  | ⟨reader, builder⟩ =>
    match reader.step m with
    | .error cause => .error cause
    | .ok (reader, event) =>
      match builder.step event with
      | .error cause => .error cause
      | .ok builder => .ok ⟨reader, builder⟩

/-- A text without the byte order mark it may begin with. -/
def dropMark : List Char → List Char
  | '\uFEFF' :: cs => cs
  | cs => cs

/-- The root element of a document. -/
def parse (document : String) : Except XmlError Element :=
  match Markup.foldM State.step {} (dropMark document.toList) with
  | .error cause => .error cause
  | .ok state => state.builder.finish

end Document

end MifirReport.Xml
