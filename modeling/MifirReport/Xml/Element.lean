/-!
# Elements

An element of a document: its local name, its namespace, its attributes by local name, the character
data directly inside it, and the elements inside it in order. The namespace is empty where none is
bound.
-/

namespace MifirReport.Xml

/-- An element of a document. -/
structure Element where
  name : String
  uri : String
  attributes : List (String × String) := []
  text : String := ""
  children : List Element := []
  deriving Inhabited, Repr

/-- The value of the first attribute with a given local name. -/
def Element.attribute? (e : Element) (name : String) : Option String :=
  e.attributes.lookup name

end MifirReport.Xml
