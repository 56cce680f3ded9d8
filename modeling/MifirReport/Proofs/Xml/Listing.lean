import MifirReport.Xml.Document

/-!
# Elements in preorder

The elements of a document, listed in preorder and numbered from zero, with the number of the parent
of each (`Element.nodes`). A builder has such a listing at every point of a document, of what is
complete and of what is open (`Builder.listing`). An event only adds to it at the end, apart from
character data, which goes to the innermost open element : `listing_start`, `listing_empty`,
`listing_close`, `listing_addText`.
-/

namespace MifirReport.Xml

/-- An element without the elements inside it, and the number of the one around it. -/
structure Node where
  parent : Option Nat
  name : String
  uri : String
  attributes : List (String × String)
  text : String
  deriving DecidableEq, Repr

/-- A node with more text. -/
def Node.addText (content : List Char) (node : Node) : Node :=
  { node with text := node.text ++ String.ofList content }

theorem Node.addText_nil (node : Node) : node.addText [] = node := by
  simp [addText]

mutual

/-- An element and those inside it in preorder, numbered from `number` on. -/
def Element.nodes (parent : Option Nat) (number : Nat) : Element → List Node
  | ⟨name, uri, attributes, text, children⟩ =>
    ⟨parent, name, uri, attributes, text⟩ :: nodesInside number (number + 1) children

/-- Elements inside another and those inside them in preorder, numbered from `number` on. -/
def nodesInside (parent number : Nat) : List Element → List Node
  | [] => []
  | e :: es =>
    e.nodes (some parent) number ++
      nodesInside parent (number + (e.nodes (some parent) number).length) es

end

theorem nodesInside_concat (parent number : Nat) (es : List Element) (e : Element) :
    nodesInside parent number (es ++ [e]) = nodesInside parent number es ++
      e.nodes (some parent) (number + (nodesInside parent number es).length) := by
  induction es generalizing number with
  | nil => simp [nodesInside]
  | cons first es ih =>
    rw [List.cons_append, nodesInside, ih, nodesInside, List.append_assoc, List.length_append,
      Nat.add_assoc]

/-! ## What a builder holds -/

/-- Nodes in preorder and the numbers of those that are open, the innermost first. -/
structure Listing where
  nodes : List Node
  opened : List Nat

/-- A listing that goes on with complete elements. -/
def Listing.add (listing : Listing) (nodes : List Node) : Listing :=
  ⟨listing.nodes ++ nodes, listing.opened⟩

/-- A listing whose innermost open node has more text, if one is open. -/
def Listing.addText (content : List Char) (listing : Listing) : Listing :=
  match listing.opened.head? with
  | none => listing
  | some n => ⟨listing.nodes.modify n (Node.addText content), listing.opened⟩

theorem Listing.addText_nil (listing : Listing) : listing.addText [] = listing := by
  have hsame : Node.addText [] = id := funext Node.addText_nil
  unfold addText
  rw [hsame]
  split
  · rfl
  · rw [List.modify_id]

theorem Listing.opened_addText (content : List Char) (listing : Listing) :
    (listing.addText content).opened = listing.opened := by
  unfold addText
  split <;> rfl

/-- The node of an open element. -/
def Frame.node (parent : Option Nat) (frame : Frame) : Node :=
  ⟨parent, frame.name, frame.uri, frame.attributes, frame.text⟩

/-- An open element with what is complete inside it, after those listed before. -/
def Listing.enter (listing : Listing) (frame : Frame) : Listing where
  nodes := listing.nodes ++ frame.node listing.opened.head? ::
    nodesInside listing.nodes.length (listing.nodes.length + 1) frame.children.toList
  opened := listing.nodes.length :: listing.opened

/-- The open elements, inside which is what was read, after the root if it is complete. -/
def Builder.listing (builder : Builder) : Listing :=
  builder.opened.foldr (fun frame listing => listing.enter frame)
    ⟨builder.root.elim [] (Element.nodes none 0), []⟩

variable {builder builder' : Builder} {frame : Frame} {opened : List Frame} {root : Option Element}
  {e : Element}

theorem listing_cons : Builder.listing ⟨frame :: opened, root⟩ =
    (Builder.listing ⟨opened, root⟩).enter frame :=
  rfl

/-- What is open is listed. -/
theorem length_opened_listing (builder : Builder) :
    builder.listing.opened.length = builder.opened.length := by
  obtain ⟨opened, root⟩ := builder
  induction opened with
  | nil => rfl
  | cons frame opened ih => rw [listing_cons, Listing.enter, List.length_cons, List.length_cons, ih]

/-- A child is put at the end of what is inside the innermost element. -/
theorem enter_push (listing : Listing) (frame : Frame) (e : Element) :
    listing.enter { frame with children := frame.children.push e } =
      (listing.enter frame).add
        (e.nodes (some listing.nodes.length) (listing.enter frame).nodes.length) := by
  have hlength : (listing.enter frame).nodes.length = listing.nodes.length + 1 +
      (nodesInside listing.nodes.length (listing.nodes.length + 1)
        frame.children.toList).length := by
    rw [Listing.enter, List.length_append, List.length_cons]
    omega
  rw [hlength]
  simp only [Listing.enter, Listing.add, Frame.node, Array.toList_push, nodesInside_concat,
    List.append_assoc, List.cons_append]

/-- Character data is put at the end of the text of the innermost element. -/
theorem enter_addText (listing : Listing) (frame : Frame) (content : List Char) :
    listing.enter { frame with text := frame.text ++ String.ofList content } =
      ⟨(listing.enter frame).nodes.modify listing.nodes.length (Node.addText content),
        (listing.enter frame).opened⟩ := by
  have hmodify := List.modifyTailIdx_add (List.modifyHead (Node.addText content)) 0 listing.nodes
    (frame.node listing.opened.head? ::
      nodesInside listing.nodes.length (listing.nodes.length + 1) frame.children.toList)
  exact congrArg (Listing.mk · (listing.nodes.length :: listing.opened)) hmodify.symm

/-- A complete element is put at the end. -/
theorem listing_attach (h : builder.attach e = .ok builder') : builder'.listing =
    builder.listing.add (e.nodes builder.listing.opened.head? builder.listing.nodes.length) := by
  obtain ⟨_ | ⟨frame, opened⟩, root⟩ := builder
  · cases root with
    | none =>
      cases h
      rfl
    | some root => cases h
  · cases h
    rw [listing_cons, enter_push, ← listing_cons]
    rfl

/-- The element that a start tag begins is open. -/
theorem listing_start (hchildren : frame.children = #[]) :
    Builder.listing ⟨frame :: opened, root⟩ =
      ⟨(Builder.listing ⟨opened, root⟩).nodes ++
          [frame.node (Builder.listing ⟨opened, root⟩).opened.head?],
        (Builder.listing ⟨opened, root⟩).nodes.length ::
          (Builder.listing ⟨opened, root⟩).opened⟩ := by
  rw [listing_cons, Listing.enter, hchildren]
  rfl

/-- An element that is complete at once is put at the end. -/
theorem listing_empty (hchildren : frame.children = #[])
    (h : builder.attach frame.close = .ok builder') :
    builder'.listing = builder.listing.add [frame.node builder.listing.opened.head?] := by
  rw [listing_attach h, Frame.close, Element.nodes, hchildren]
  rfl

/-- An end tag leaves all nodes as they are, the innermost no longer open. -/
theorem listing_close (h : Builder.attach ⟨opened, root⟩ frame.close = .ok builder') :
    builder'.listing = ⟨(Builder.listing ⟨frame :: opened, root⟩).nodes,
      (Builder.listing ⟨frame :: opened, root⟩).opened.tail⟩ := by
  rw [listing_attach h, listing_cons, Listing.enter, Frame.close, Element.nodes, Listing.add]
  rfl

/-- Character data goes to the innermost open element. -/
theorem listing_addText (builder : Builder) (content : List Char) :
    (builder.addText content).listing = builder.listing.addText content := by
  obtain ⟨_ | ⟨frame, opened⟩, root⟩ := builder
  · rfl
  · rw [Builder.addText, listing_cons, listing_cons]
    exact enter_addText _ frame content

end MifirReport.Xml
