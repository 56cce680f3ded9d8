import MifirReport.Xml.Scope

/-!
# Events of a document

Reading markup from left to right needs the tags that are open, each with the scope inside it. A
`Reader` holds them, the innermost first. `Reader.step` turns a piece of markup into an `Event`: it
resolves the name of a tag, and it refuses an end tag that does not name the innermost open tag.
Comments, processing instructions and document types come out as `Event.skipped`.
-/

namespace MifirReport.Xml

/-- A piece of markup with its namespace resolved. -/
inductive Event
  | start (tag : Tag) (resolution : Resolution)
  | empty (tag : Tag) (resolution : Resolution)
  | close
  | text (content : List Char)
  | cdata (content : List Char)
  | skipped
  deriving DecidableEq, Repr

/-- A start tag whose end tag is still to come: its name as written and the scope inside it. -/
structure OpenTag where
  name : List Char
  scope : Scope
  deriving DecidableEq, Repr

/-- The tags that are open, the innermost first. -/
structure Reader where
  opened : List OpenTag := []
  deriving DecidableEq, Repr

namespace Reader

/-- The scope inside the innermost open tag. -/
def scope (reader : Reader) : Scope :=
  match reader.opened with
  | [] => Scope.outermost
  | tag :: _ => tag.scope

/-- Reads one piece of markup. -/
def step (reader : Reader) : Markup → Except XmlError (Reader × Event)
  | .start content =>
    let tag := Tag.ofContent content
    match reader.scope.declare tag.pairs with
    | .error cause => .error cause
    | .ok scope => .ok (⟨⟨tag.name, scope⟩ :: reader.opened⟩, .start tag (scope.resolve tag.name))
  | .empty content =>
    let tag := Tag.ofContent content
    match reader.scope.declare tag.pairs with
    | .error cause => .error cause
    | .ok scope => .ok (reader, .empty tag (scope.resolve tag.name))
  | .close name =>
    match reader.opened with
    | [] => .error (.unmatchedEnd (String.ofList name))
    | tag :: opened =>
      if tag.name = name then .ok (⟨opened⟩, .close)
      else .error (.mismatchedEnd (String.ofList tag.name) (String.ofList name))
  | .text content => .ok (reader, .text content)
  | .cdata content => .ok (reader, .cdata content)
  | .comment _ => .ok (reader, .skipped)
  | .instruction _ => .ok (reader, .skipped)
  | .doctype _ => .ok (reader, .skipped)

end Reader

end MifirReport.Xml
