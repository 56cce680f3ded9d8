import MifirReport.Table.Column
import MifirReport.Xml.Lookup

/-!
# What a swap rests on

A swap has two legs, and each rests on a single thing or on a basket. The codes, the names and the
terms of what they rest on are listed apart, each entry with the sign of its leg before it: a plus
for the leg that comes in, a minus for the leg that goes out.
-/

namespace MifirReport.Report

open Xml

/-- The codes, the names and the terms of underlyings. -/
structure Underlyings where
  codes : List String := []
  names : List String := []
  terms : List String := []
  deriving DecidableEq, Repr

namespace Underlyings

instance : Append Underlyings :=
  ⟨fun a b => ⟨a.codes ++ b.codes, a.names ++ b.names, a.terms ++ b.terms⟩⟩

/-- The list for a column. -/
def entries (lists : Underlyings) : Table.UnderlyingField → List String
  | .code => lists.codes
  | .name => lists.names
  | .term => lists.terms

end Underlyings

/-- The name of an index: that of its reference rate, from a list or in words. -/
def indexName? (x : Lookup) (index : Element) : Option String :=
  (x.path? index ["Nm", "RefRate"]).bind fun rate =>
    ((x.child? rate "Indx").or (x.child? rate "Nm")).map Element.text

/-- The term of an index, which takes a value and a unit. -/
def indexTerm? (x : Lookup) (index : Element) : Option String :=
  (x.path? index ["Nm", "Term"]).bind fun term =>
    match x.child? term "Val", x.child? term "Unit" with
    | some value, some unit => some (value.text ++ " " ++ unit.text)
    | _, _ => none

/-- What a single underlying contributes: its own code, else that of its index, and its index. -/
def singleUnderlying (x : Lookup) (sign : String) (single : Element) : Underlyings :=
  let index := x.child? single "Indx"
  let code := (x.child? single "ISIN").or (x.path? single ["Indx", "ISIN"])
  ⟨code.toList.map (sign ++ ·.text), (index.bind (indexName? x)).toList.map (sign ++ ·),
    (index.bind (indexTerm? x)).toList.map (sign ++ ·)⟩

/-- What a basket contributes: its own codes, else those of its indices, and its indices. -/
def basketUnderlyings (x : Lookup) (sign : String) (basket : Element) : Underlyings :=
  let indices := x.children basket "Indx"
  let own := x.children basket "ISIN"
  let codes := if own.isEmpty then indices.filterMap (x.child? · "ISIN") else own
  ⟨codes.map (sign ++ ·.text), (indices.filterMap (indexName? x)).map (sign ++ ·),
    (indices.filterMap (indexTerm? x)).map (sign ++ ·)⟩

/-- What one leg contributes. -/
def legUnderlyings (x : Lookup) (sign : String) (leg : Element) : Underlyings :=
  match x.child? leg "Sngl" with
  | some single => singleUnderlying x sign single
  | none => (x.child? leg "Bskt").elim {} (basketUnderlyings x sign)

/-- What the legs of a swap rest on, the incoming leg first. -/
def swapUnderlyings (x : Lookup) (swap : Element) : Underlyings :=
  (x.child? swap "SwpIn").elim {} (legUnderlyings x "+") ++
    (x.child? swap "SwpOut").elim {} (legUnderlyings x "-")

end MifirReport.Report
