import MifirReport.Xml.Element

/-!
# Looking elements up

A report is read by tag, level by level. A `Lookup` fixes the namespace in which all tags of a
document are meant, so that elements of other namespaces are never seen. No lookup fails: an element
that is not there is `none`, its text and its attributes are empty.
-/

namespace MifirReport.Xml

/-- Lookups by tag in one namespace; the empty one for none. -/
structure Lookup where
  uri : String
  deriving DecidableEq, Repr

namespace Lookup

/-- Lookups in the namespace of the root of a document. -/
def ofRoot (root : Element) : Lookup := ⟨root.uri⟩

variable (x : Lookup)

/-- Whether an element has a given tag. -/
def isTagged (tag : String) (e : Element) : Bool :=
  e.name == tag && e.uri == x.uri

/-- The elements with a given tag directly inside an element, in order. -/
def children (e : Element) (tag : String) : List Element :=
  e.children.filter (x.isTagged tag)

/-- The first element with a given tag directly inside an element. -/
def child? (e : Element) (tag : String) : Option Element :=
  e.children.find? (x.isTagged tag)

/-- Whether there is an element with a given tag directly inside an element. -/
def has (e : Element) (tag : String) : Bool :=
  (x.child? e tag).isSome

/-- The text of the first element with a given tag. -/
def text (e : Element) (tag : String) : String :=
  (x.child? e tag).elim "" Element.text

/-- An attribute of the first element with a given tag. -/
def attributeText (e : Element) (tag name : String) : String :=
  ((x.child? e tag).bind (·.attribute? name)).getD ""

/-- Descends one tag after the other. The empty path leads to the element itself. -/
def path? (e : Element) : List String → Option Element
  | [] => some e
  | tag :: tags => (x.child? e tag).bind (path? · tags)

/-- The text of the element at the end of a path. -/
def pathText (e : Element) (tags : List String) : String :=
  (x.path? e tags).elim "" Element.text

/-! ## The first of the children with a tag -/

theorem child?_eq_head? (e : Element) (tag : String) :
    x.child? e tag = (x.children e tag).head? := by
  simp [child?, children, List.head?_filter]

/-! ## Paths step by step -/

theorem path?_singleton (e : Element) (tag : String) : x.path? e [tag] = x.child? e tag := by
  rw [path?]
  exact Option.bind_fun_some _

theorem path?_append (e : Element) (path rest : List String) :
    x.path? e (path ++ rest) = (x.path? e path).bind (x.path? · rest) := by
  induction path generalizing e with
  | nil => rfl
  | cons tag path ih =>
    rw [List.cons_append, path?, path?, Option.bind_assoc]
    simp only [ih]

theorem pathText_singleton (e : Element) (tag : String) : x.pathText e [tag] = x.text e tag := by
  rw [pathText, path?_singleton, text]

theorem pathText_append (e : Element) (path rest : List String) :
    x.pathText e (path ++ rest) = (x.path? e path).elim "" (x.pathText · rest) := by
  rw [pathText, path?_append]
  cases x.path? e path <;> rfl

end Lookup

end MifirReport.Xml
