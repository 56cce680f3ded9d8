import MifirReport.Xml.Attribute

/-!
# Namespaces in force

A `Scope` holds the bindings of labels to namespaces that are in force inside an element, the latest
first; the default namespace is bound under the empty label. A tag adds its declarations to the
scope around it (`Scope.declare`), and its name is resolved in the scope that results
(`Scope.resolve`).

The labels `xml` and `xmlns` are bound from the start. A tag may neither bind `xmlns`, nor bind
`xml` elsewhere, nor bind another label to the namespace of either; declaring the default namespace
with the bare word `xmlns` is not checked.
-/

namespace MifirReport.Xml

/-- A label and the namespace it stands for. -/
structure Binding where
  label : List Char
  uri : List Char
  deriving DecidableEq, Repr

/-- The bindings in force, the latest first. -/
abbrev Scope := List Binding

/-- What a name resolves to: a namespace, none, or a label that nothing binds. -/
inductive Resolution
  | bound (uri : List Char)
  | unbound
  | unknown (label : List Char)
  deriving DecidableEq, Repr

namespace Scope

/-- The namespace of the label `xml`. -/
def xmlUri : List Char := "http://www.w3.org/XML/1998/namespace".toList

/-- The namespace of the label `xmlns`. -/
def xmlnsUri : List Char := "http://www.w3.org/2000/xmlns/".toList

/-- The scope around a document. -/
def outermost : Scope :=
  [⟨['x', 'm', 'l'], xmlUri⟩, ⟨['x', 'm', 'l', 'n', 's'], xmlnsUri⟩]

/-- The latest namespace bound to a label. -/
def find? (scope : Scope) (label : List Char) : Option (List Char) :=
  (List.find? (·.label = label) scope).map (·.uri)

/-- Resolves the name of an element. A binding to the empty namespace takes an earlier one back. -/
def resolve (scope : Scope) (name : List Char) : Resolution :=
  match Name.label? name with
  | none =>
    match scope.find? [] with
    | some (c :: uri) => .bound (c :: uri)
    | _ => .unbound
  | some [] => .unknown []
  | some label =>
    match scope.find? label with
    | some (c :: uri) => .bound (c :: uri)
    | _ => .unknown label

/-- Adds the binding that an attribute declares, if it declares one. -/
def declareOne (scope : Scope) (key value : List Char) : Except XmlError Scope :=
  if key = ['x', 'm', 'l', 'n', 's'] then .ok (⟨[], value⟩ :: scope)
  else
    match key with
    | 'x' :: 'm' :: 'l' :: 'n' :: 's' :: ':' :: label =>
      if label = ['x', 'm', 'l'] then
        if value = xmlUri then .ok scope else .error (.reservedBinding label value)
      else if label = ['x', 'm', 'l', 'n', 's'] ∨ value = xmlUri ∨ value = xmlnsUri then
        .error (.reservedBinding label value)
      else .ok (⟨label, value⟩ :: scope)
    | _ => .ok scope

/-- Adds the bindings that a tag declares, in order. -/
def declare (scope : Scope) : List (List Char × List Char) → Except XmlError Scope
  | [] => .ok scope
  | (key, value) :: pairs =>
    match declareOne scope key value with
    | .error cause => .error cause
    | .ok scope => declare scope pairs

end Scope

end MifirReport.Xml
