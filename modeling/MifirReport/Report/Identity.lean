import MifirReport.Xml.Lookup

/-!
# Identities of parties

A party is identified by a code of one of several forms, which are tried in a fixed order. Natural
persons have a code under some scheme, whose name comes from a list or is a word of its own; a row
names the national scheme differently from a report. They also have names and a birth date.
-/

namespace MifirReport.Report

open Xml

/-- The names and the birth date of a natural person. -/
structure Person where
  forename : String := ""
  surname : String := ""
  birthDate : String := ""
  deriving DecidableEq, Repr

/-- The code of a party, the kind of the code, and the person if it is one. -/
structure Identity where
  kind : String := ""
  code : String := ""
  person : Option Person := none
  deriving DecidableEq, Repr

/-- The forms an identity may have. -/
inductive IdentityForm
  | lei
  | mic
  | person
  | international
  deriving DecidableEq, Repr

/-- The forms for the owner of an account, in order. -/
def ownerForms : List IdentityForm := [.lei, .mic, .person, .international]

/-- The forms for a decision maker, in order. -/
def decisionMakerForms : List IdentityForm := [.lei, .person]

/-- The name of the scheme of a person's code. -/
def schemeCode (x : Lookup) (other : Element) : String :=
  match x.child? other "SchmeNm" with
  | none => ""
  | some scheme =>
    match x.child? scheme "Cd" with
    | none => x.text scheme "Prtry"
    | some code => if code.text = "NIDN" then "NIND" else code.text

/-- The name of the scheme of a person's code, if there is a code. -/
def personScheme (x : Lookup) (person : Element) : String :=
  (x.child? person "Othr").elim "" (schemeCode x)

/-- Reads the names and the birth date of a person. -/
def readPerson (x : Lookup) (person : Element) : Person :=
  ⟨x.text person "FrstNm", x.text person "Nm", x.text person "BirthDt"⟩

/-- Reads an identity of a given form, if it is there. The last form always is. -/
def IdentityForm.read (x : Lookup) (e : Element) : IdentityForm → Option Identity
  | lei => (x.child? e "LEI").map fun code => ⟨"LEI", code.text, none⟩
  | mic => (x.child? e "MIC").map fun code => ⟨"MIC", code.text, none⟩
  | person => (x.child? e "Prsn").map fun found =>
    ⟨personScheme x found, x.pathText found ["Othr", "Id"], some (readPerson x found)⟩
  | international => some ⟨x.text e "Intl", x.text e "Intl", none⟩

/-- The identity of the first form that is there, an empty one if none is. -/
def resolveIdentity (x : Lookup) (e : Element) (forms : List IdentityForm) : Identity :=
  (forms.findSome? (IdentityForm.read x e)).getD {}

end MifirReport.Report
