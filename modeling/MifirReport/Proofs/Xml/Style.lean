import MifirReport.Proofs.Xml.Tags
import MifirReport.Xml.Document

/-!
# The namespace of a document

A `Style` says how a document binds the one namespace that its elements are in : to nothing, if
there is none, as the default, or to a label. It decides the names of the tags (`Style.tagName`),
the declaration at the root (`Style.declaration?`) and the scope inside it (`Style.scope`). The
declaration makes that scope (`Style.declareOne_declaration`), and there every tag begins an element
in the namespace (`Style.ofTag_scope`).
-/

namespace MifirReport.Xml

/-- How a document binds the namespace of its elements : to nothing, if there is none, as the
default, or to a label. -/
inductive Style
  | bare
  | default (uri : String)
  | labelled (label uri : String)

/-- A namespace that can be declared : not empty, not reserved, and free of quotes and of what would
have to be escaped. -/
structure LegalUri (uri : String) : Prop where
  ne : uri ≠ ""
  xml : uri.toList ≠ Scope.xmlUri
  xmlns : uri.toList ≠ Scope.xmlnsUri
  chars : ∀ c ∈ uri.toList, c ∉ ['"', '\'', '<', '&']

namespace Style

/-- The namespace of the elements. -/
def uri : Style → String
  | bare => ""
  | default uri => uri
  | labelled _ uri => uri

/-- The name of a tag. -/
def tagName (style : Style) (name : String) : List Char :=
  match style with
  | bare => name.toList
  | default _ => name.toList
  | labelled label _ => label.toList ++ ':' :: name.toList

/-- The key and the value that declare the namespace. -/
def declaration? : Style → Option (List Char × List Char)
  | bare => none
  | default uri => some ("xmlns".toList, uri.toList)
  | labelled label uri => some ("xmlns:".toList ++ label.toList, uri.toList)

/-- What is declared in a tag : the namespace at the root, and nothing elsewhere. -/
def declared (style : Style) (root : Bool) : Option (List Char × List Char) :=
  if root then style.declaration? else none

/-- The scope inside the root. -/
def scope : Style → Scope
  | bare => Scope.outermost
  | default uri => ⟨[], uri.toList⟩ :: Scope.outermost
  | labelled label uri => ⟨label.toList, uri.toList⟩ :: Scope.outermost

/-- The scope around an element. -/
def around (style : Style) (root : Bool) : Scope :=
  if root then Scope.outermost else style.scope

/-- The namespace can be bound in this way. -/
def Legal : Style → Prop
  | bare => True
  | default uri => LegalUri uri
  | labelled label uri =>
    isName label.toList = true ∧ label ≠ "xml" ∧ label ≠ "xmlns" ∧ LegalUri uri

variable {style : Style} {name : String} {root : Bool}

theorem isTagName_declaration (h : style.Legal) :
    ∀ declaration ∈ style.declared root, IsTagName declaration.1 := by
  cases root with
  | false => exact fun _ hd => nomatch hd
  | true =>
    cases style with
    | bare => exact fun _ hd => nomatch hd
    | default uri =>
      rintro _ ⟨⟩
      have hkey : "xmlns".toList.all isTagChar = true := by decide
      exact ⟨by simp, List.all_eq_true.1 hkey⟩
    | labelled label uri =>
      rintro _ ⟨⟩
      have hkey : "xmlns:".toList.all isTagChar = true := by decide
      refine ⟨by simp, fun c hc => ?_⟩
      rcases List.mem_append.1 hc with hc | hc
      · exact List.all_eq_true.1 hkey c hc
      · exact (isTagName_of_isName h.1).2 c hc

theorem declares_declaration :
    ∀ declaration ∈ style.declared root, Tag.declares declaration.1 = true := by
  cases root with
  | false => exact fun _ hd => nomatch hd
  | true =>
    cases style with
    | bare => exact fun _ hd => nomatch hd
    | default uri =>
      rintro _ ⟨⟩
      rfl
    | labelled label uri =>
      rintro _ ⟨⟩
      have hmark : "xmlns:".toList.isPrefixOf ("xmlns:".toList ++ label.toList) = true :=
        List.isPrefixOf_iff_prefix.2 (List.prefix_append _ _)
      rw [Tag.declares, hmark, Bool.or_true]

/-- The declaration at the root makes the scope inside it. -/
theorem declareOne_declaration (h : style.Legal) :
    ∀ declaration ∈ style.declared root,
      (style.around root).declareOne declaration.1 declaration.2 = .ok style.scope := by
  cases root with
  | false => exact fun _ hd => nomatch hd
  | true =>
    cases style with
    | bare => exact fun _ hd => nomatch hd
    | default uri =>
      rintro _ ⟨⟩
      rfl
    | labelled label uri =>
      obtain ⟨-, hxml, hxmlns, huri⟩ := h
      rintro _ ⟨⟩
      have hxml' : label.toList ≠ ['x', 'm', 'l'] := fun e => hxml (String.toList_inj.1 e)
      have hxmlns' : label.toList ≠ ['x', 'm', 'l', 'n', 's'] := fun e =>
        hxmlns (String.toList_inj.1 e)
      have hfree : ¬(label.toList = ['x', 'm', 'l', 'n', 's'] ∨ uri.toList = Scope.xmlUri ∨
          uri.toList = Scope.xmlnsUri) := by
        rw [not_or, not_or]
        exact ⟨hxmlns', huri.xml, huri.xmlns⟩
      change Scope.outermost.declareOne ('x' :: 'm' :: 'l' :: 'n' :: 's' :: ':' :: label.toList)
        uri.toList = _
      rw [Scope.declareOne, if_neg (by simp), if_neg hxml', if_neg hfree]
      rfl

theorem scope_of_declared_eq_none (h : style.declared root = none) :
    style.scope = style.around root := by
  cases root with
  | false => rfl
  | true =>
    cases style with
    | bare => rfl
    | default uri => cases h
    | labelled label uri => cases h

theorem isTagName_tagName (h : style.Legal) (hname : isName name.toList = true) :
    IsTagName (style.tagName name) := by
  cases style with
  | bare => exact isTagName_of_isName hname
  | default uri => exact isTagName_of_isName hname
  | labelled label uri =>
    refine ⟨by simp [tagName], fun c hc => ?_⟩
    rw [tagName, List.mem_append, List.mem_cons] at hc
    rcases hc with hc | rfl | hc
    · exact (isTagName_of_isName h.1).2 c hc
    · decide
    · exact (isTagName_of_isName hname).2 c hc

theorem localPart_tagName (h : style.Legal) (hname : isName name.toList = true) :
    String.ofList (Name.localPart (style.tagName name)) = name := by
  cases style with
  | bare => exact localPart_of_isName hname
  | default uri => exact localPart_of_isName hname
  | labelled label uri =>
    have hlabel : ':' ∉ label.toList := not_mem_of_isName h.1 (by decide)
    have hcolon := decide_ne_of_not_mem hlabel
    have hrest := dropWhile_word hcolon (':' :: name.toList) (by rintro _ ⟨⟩; rfl)
    rw [tagName, Name.localPart, if_pos (by simp), hrest, List.tail_cons, String.ofList_toList]

/-- The name of a tag resolves to the namespace of the document. -/
theorem resolve_tagName (h : style.Legal) (hname : isName name.toList = true) :
    style.uri = "" ∧ style.scope.resolve (style.tagName name) = .unbound ∨
      style.scope.resolve (style.tagName name) = .bound style.uri.toList := by
  have hcolon : ':' ∉ name.toList := not_mem_of_isName hname (by decide)
  have hplain : Name.label? name.toList = none := if_neg hcolon
  cases style with
  | bare =>
    left
    rw [tagName, Scope.resolve, hplain]
    exact ⟨rfl, rfl⟩
  | default uri =>
    right
    obtain ⟨c, cs, huri⟩ := List.exists_cons_of_ne_nil (mt String.toList_eq_nil_iff.1 h.ne)
    have hfind : Scope.find? (scope (default uri)) [] = some (c :: cs) := by
      rw [← huri]
      rfl
    rw [tagName, Scope.resolve, hplain]
    dsimp only
    rw [hfind, Style.uri, huri]
  | labelled label uri =>
    right
    obtain ⟨hlabel, -, -, hlegal⟩ := h
    obtain ⟨c, cs, huri⟩ := List.exists_cons_of_ne_nil (mt String.toList_eq_nil_iff.1 hlegal.ne)
    obtain ⟨d, ds, hds⟩ := List.exists_cons_of_ne_nil (ne_nil_of_isName hlabel)
    have hlabelColon : ':' ∉ label.toList := not_mem_of_isName hlabel (by decide)
    have hword := decide_ne_of_not_mem hlabelColon
    have htake := takeWhile_word hword (':' :: name.toList) (by rintro _ ⟨⟩; rfl)
    have hbefore : Name.label? (label.toList ++ ':' :: name.toList) = some (d :: ds) := by
      rw [Name.label?, if_pos (by simp), htake, hds]
    have hfind : Scope.find? (scope (labelled label uri)) (d :: ds) = some (c :: cs) := by
      rw [← huri, ← hds]
      simp [Scope.find?, scope]
    rw [tagName, Scope.resolve, hbefore]
    dsimp only
    rw [hfind, Style.uri, huri]

/-- A tag begins an element in the namespace of the document. -/
theorem ofTag_scope (h : style.Legal) (hname : isName name.toList = true) {tag : Tag}
    (htag : tag.name = style.tagName name) {attributes : List (String × String)}
    (hattributes : tag.attributes = .ok attributes) :
    Frame.ofTag tag (style.scope.resolve tag.name) =
      .ok { name, uri := style.uri, attributes } := by
  have hlocal := localPart_tagName h hname
  rw [← htag] at hlocal
  rcases resolve_tagName h hname with ⟨huri, hresolve⟩ | hresolve
  · rw [htag, hresolve, Frame.ofTag, Frame.ofTag.withUri, hattributes, hlocal, huri]
  · rw [htag, hresolve, Frame.ofTag, Frame.ofTag.withUri, hattributes, hlocal,
      String.ofList_toList]

end Style

end MifirReport.Xml
