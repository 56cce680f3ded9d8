import MifirReport.Proofs.Report.Blocks
import MifirReport.Proofs.Table.Entries

/-!
# Parties one by one

The identity of a party is read from one of several forms, the first that is there. `Identified`
says which forms count for a party in a role, in which order, and what is taken from each; every
party has exactly one identity in that sense (`identified_iff`).

A column of a group holds an entry for each party of the group, in order, and all columns take
theirs from the same identities (`cells_identities`). The entries are joined by bars as they are, so
that a text with a bar in it reads as two entries : the columns of a group fall into equally many
entries just when no text that goes into them has a bar (`aligned_iff`).
-/

namespace MifirReport.Report

open Xml Table Client

variable {x : Lookup}

/-! ## Who a party is -/

/-- The name of the scheme of a person's code : the one from the list, where the national scheme is
renamed, or else a word of its own. -/
inductive IsScheme (x : Lookup) (person : Element) : String → Prop
  | national {code : Element} : x.path? person ["Othr", "SchmeNm", "Cd"] = some code →
      code.text = "NIDN" → IsScheme x person "NIND"
  | listed {code : Element} : x.path? person ["Othr", "SchmeNm", "Cd"] = some code →
      code.text ≠ "NIDN" → IsScheme x person code.text
  | proprietary : x.path? person ["Othr", "SchmeNm", "Cd"] = none →
      IsScheme x person (x.pathText person ["Othr", "SchmeNm", "Prtry"])

/-- The identity that an element gives to a party in a role. -/
inductive Identifies (x : Lookup) (e : Element) : PartyRole → Identity → Prop
  | lei {role : PartyRole} {code : Element} : x.child? e "LEI" = some code →
      Identifies x e role ⟨"LEI", code.text, none⟩
  | mic {code : Element} : x.child? e "LEI" = none → x.child? e "MIC" = some code →
      Identifies x e .owner ⟨"MIC", code.text, none⟩
  | person {role : PartyRole} {person : Element} {scheme : String} : x.child? e "LEI" = none →
      (role = .owner → x.child? e "MIC" = none) → x.child? e "Prsn" = some person →
      IsScheme x person scheme →
      Identifies x e role ⟨scheme, x.pathText person ["Othr", "Id"],
        some ⟨x.text person "FrstNm", x.text person "Nm", x.text person "BirthDt"⟩⟩
  | international : x.child? e "LEI" = none → x.child? e "MIC" = none →
      x.child? e "Prsn" = none → Identifies x e .owner ⟨x.text e "Intl", x.text e "Intl", none⟩
  | unknown : x.child? e "LEI" = none → x.child? e "Prsn" = none →
      Identifies x e .decisionMaker ⟨"", "", none⟩

/-- The element that identifies a party. -/
def identityNode? (x : Lookup) (role : PartyRole) (party : Element) : Option Element :=
  match role with
  | .owner => x.child? party "Id"
  | .decisionMaker => some party

/-- The identity of a party, an empty one if no element identifies it. -/
inductive Identified (x : Lookup) (role : PartyRole) (party : Element) : Identity → Prop
  | blank : identityNode? x role party = none → Identified x role party ⟨"", "", none⟩
  | node {e : Element} {identity : Identity} : identityNode? x role party = some e →
      Identifies x e role identity → Identified x role party identity

/-- The scheme of a person in terms of paths. -/
theorem personScheme_eq (person : Element) :
    personScheme x person =
      (x.path? person ["Othr", "SchmeNm", "Cd"]).elim
        (x.pathText person ["Othr", "SchmeNm", "Prtry"])
        fun code => if code.text = "NIDN" then "NIND" else code.text := by
  simp only [personScheme, Lookup.pathText, Lookup.path?]
  cases x.child? person "Othr" with
  | none => rfl
  | some other =>
    simp only [schemeCode, Option.elim_some, Option.bind_some]
    cases x.child? other "SchmeNm" with
    | none => rfl
    | some scheme =>
      simp only [Option.bind_some, Lookup.text]
      cases x.child? scheme "Cd" with
      | none => cases x.child? scheme "Prtry" <;> rfl
      | some code => rfl

theorem isScheme_iff {person : Element} {scheme : String} :
    IsScheme x person scheme ↔ personScheme x person = scheme := by
  rw [personScheme_eq]
  constructor
  · rintro (⟨hcode, hnational⟩ | ⟨hcode, hlisted⟩ | hnone)
    · rw [hcode, Option.elim_some, if_pos hnational]
    · rw [hcode, Option.elim_some, if_neg hlisted]
    · rw [hnone, Option.elim_none]
  · rintro rfl
    cases hcode : x.path? person ["Othr", "SchmeNm", "Cd"] with
    | none => exact .proprietary hcode
    | some code =>
      rw [Option.elim_some]
      split
      · exact .national hcode ‹_›
      · exact .listed hcode ‹_›

/-- The forms that count for a party in a role, in order. -/
def identityForms : PartyRole → List IdentityForm
  | .owner => ownerForms
  | .decisionMaker => decisionMakerForms

theorem resolveIdentity_cons (e : Element) (form : IdentityForm) (forms : List IdentityForm) :
    resolveIdentity x e (form :: forms) = (form.read x e).getD (resolveIdentity x e forms) := by
  rw [resolveIdentity, resolveIdentity, List.findSome?_cons]
  cases form.read x e <;> rfl

/-- The identity of an owner : the first form that is there, else the international one. -/
theorem resolveIdentity_owner (e : Element) :
    resolveIdentity x e (identityForms .owner) =
      (IdentityForm.lei.read x e).getD ((IdentityForm.mic.read x e).getD
        ((IdentityForm.person.read x e).getD ⟨x.text e "Intl", x.text e "Intl", none⟩)) := by
  simp only [identityForms, ownerForms, resolveIdentity_cons]
  rfl

/-- The identity of a decision maker : the first form that is there, else nothing. -/
theorem resolveIdentity_decisionMaker (e : Element) :
    resolveIdentity x e (identityForms .decisionMaker) =
      (IdentityForm.lei.read x e).getD ((IdentityForm.person.read x e).getD ⟨"", "", none⟩) := by
  simp only [identityForms, decisionMakerForms, resolveIdentity_cons]
  rfl

theorem resolveIdentity_of_identifies {e : Element} {role : PartyRole} {identity : Identity}
    (h : Identifies x e role identity) : resolveIdentity x e (identityForms role) = identity := by
  cases h with
  | lei hlei =>
    cases role with
    | owner => simp [resolveIdentity_owner, IdentityForm.read, hlei]
    | decisionMaker => simp [resolveIdentity_decisionMaker, IdentityForm.read, hlei]
  | mic hlei hmic => simp [resolveIdentity_owner, IdentityForm.read, hlei, hmic]
  | person hlei hmic hperson hscheme =>
    rw [isScheme_iff] at hscheme
    cases role with
    | owner =>
      simp [resolveIdentity_owner, IdentityForm.read, readPerson, hlei, hmic, hperson, hscheme]
    | decisionMaker =>
      simp [resolveIdentity_decisionMaker, IdentityForm.read, readPerson, hlei, hperson, hscheme]
  | international hlei hmic hperson =>
    simp [resolveIdentity_owner, IdentityForm.read, hlei, hmic, hperson]
  | unknown hlei hperson => simp [resolveIdentity_decisionMaker, IdentityForm.read, hlei, hperson]

theorem exists_identifies (e : Element) (role : PartyRole) :
    ∃ identity, Identifies x e role identity := by
  cases hlei : x.child? e "LEI" with
  | some code => exact ⟨_, .lei hlei⟩
  | none =>
    cases role with
    | owner =>
      cases hmic : x.child? e "MIC" with
      | some code => exact ⟨_, .mic hlei hmic⟩
      | none =>
        cases hperson : x.child? e "Prsn" with
        | some person => exact ⟨_, .person hlei (fun _ => hmic) hperson (isScheme_iff.2 rfl)⟩
        | none => exact ⟨_, .international hlei hmic hperson⟩
    | decisionMaker =>
      cases hperson : x.child? e "Prsn" with
      | some person => exact ⟨_, .person hlei nofun hperson (isScheme_iff.2 rfl)⟩
      | none => exact ⟨_, .unknown hlei hperson⟩

theorem identifies_iff {e : Element} {role : PartyRole} {identity : Identity} :
    Identifies x e role identity ↔ resolveIdentity x e (identityForms role) = identity := by
  refine ⟨resolveIdentity_of_identifies, ?_⟩
  rintro rfl
  obtain ⟨identity, h⟩ := exists_identifies (x := x) e role
  rwa [resolveIdentity_of_identifies h]

theorem partyIdentity_eq (role : PartyRole) (party : Element) :
    partyIdentity x role party =
      (identityNode? x role party).elim {} (resolveIdentity x · (identityForms role)) := by
  cases role <;> rfl

/-- A party has exactly one identity. -/
theorem identified_iff {role : PartyRole} {party : Element} {identity : Identity} :
    Identified x role party identity ↔ partyIdentity x role party = identity := by
  rw [partyIdentity_eq]
  constructor
  · rintro (hnone | ⟨hnode, hidentifies⟩)
    · rw [hnone]
      rfl
    · rw [hnode]
      exact identifies_iff.1 hidentifies
  · rintro rfl
    cases hnode : identityNode? x role party with
    | none => exact .blank hnode
    | some e => exact .node hnode (identifies_iff.2 rfl)

theorem forall₂_identified_iff {role : PartyRole} {members : List Element}
    {identities : List Identity} :
    List.Forall₂ (Identified x role) members identities ↔
      members.map (partyIdentity x role) = identities := by
  rw [← List.forall₂_eq_eq_eq, List.forall₂_map_left_iff]
  exact ⟨fun h => h.imp fun _ _ => identified_iff.1, fun h => h.imp fun _ _ => identified_iff.2⟩

/-! ## The columns of a group -/

/-- The entries of the columns of a group, column by column : for every party its identity, nothing
for the lookup code, the country if it is an owner, and the names and the birth date of a person. -/
def groupEntries (x : Lookup) (role : PartyRole) (members : List Element)
    (identities : List Identity) : List (List String) :=
  [identities.map Identity.kind, identities.map fun _ => "", identities.map Identity.code] ++
  (match role with
    | .owner => [members.map (x.text · "CtryOfBrnch")]
    | .decisionMaker => []) ++
  [identities.map (·.person.elim "" Person.forename),
    identities.map (·.person.elim "" Person.surname),
    identities.map (·.person.elim "" Person.birthDate)]

theorem groupEntries_eq (side : Side) (role : PartyRole) (members : List Element) :
    groupEntries x role members (members.map (partyIdentity x role)) =
      (partyColumns side role).map fun column => members.map (partyValue x · column) := by
  have hentries {α : Type} (f : Identity → α) :
      (members.map (partyIdentity x role)).map f = members.map fun party =>
        f (partyIdentity x role party) := List.map_map
  cases role with
  | owner =>
    simp only [groupEntries, hentries]
    rfl
  | decisionMaker =>
    simp only [groupEntries, hentries]
    rfl

/-- The columns of a group hold an entry for each party, taken from the one identity that the party
has; they are blank if there is no party. -/
theorem cells_identities (x : Lookup) (mode : ClientMode) (new : Element) (side : Side)
    (role : PartyRole) :
    (∃! identities,
      List.Forall₂ (Identified x role) ((partyGroup side role).members x new) identities) ∧
    (∀ identities,
      List.Forall₂ (Identified x role) ((partyGroup side role).members x new) identities →
      (partyGroup side role).cells (newRow x mode new) =
        (groupEntries x role ((partyGroup side role).members x new) identities).map Row.joined) ∧
    ((partyGroup side role).members x new = [] →
      ∀ cell ∈ (partyGroup side role).cells (newRow x mode new), cell = "") := by
  refine ⟨?_, fun identities h => ?_, fun hnone cell hcell => ?_⟩
  · exact ⟨_, forall₂_identified_iff.2 rfl, fun _ h => (forall₂_identified_iff.1 h).symm⟩
  · obtain rfl := forall₂_identified_iff.1 h
    rw [cells_partyGroup, groupEntries_eq side, List.map_map]
    rfl
  · rw [cells_partyGroup, hnone] at hcell
    obtain ⟨column, -, rfl⟩ := List.mem_map.1 hcell
    rfl

/-- A new transaction with two owners on the side of the buyer : a firm, which is also said to be a
person, and a person with a national code. -/
def twoOwners : Element :=
  .branch "u" "New" [.branch "u" "Buyr" [
    .branch "u" "AcctOwnr" [.branch "u" "Id" [
      .branch "u" "Prsn" [.leaf "u" "Nm" "SILVA"], .leaf "u" "LEI" "L"]],
    .branch "u" "AcctOwnr" [
      .leaf "u" "CtryOfBrnch" "PT",
      .branch "u" "Id" [.branch "u" "Prsn" [.leaf "u" "FrstNm" "ANA", .leaf "u" "Nm" "REIS",
        .branch "u" "Othr" [.leaf "u" "Id" "PT1",
          .branch "u" "SchmeNm" [.leaf "u" "Cd" "NIDN"]]]]]]]

theorem cells_identities_twoOwners :
    (List.Forall₂ (Identified ⟨"u"⟩ .owner) ((partyGroup .buyer .owner).members ⟨"u"⟩ twoOwners)
        [⟨"LEI", "L", none⟩, ⟨"NIND", "PT1", some ⟨"ANA", "REIS", ""⟩⟩] ∧
      (partyGroup .buyer .owner).cells (newRow ⟨"u"⟩ .standard twoOwners) =
        ["LEI|NIND", "|", "L|PT1", "|PT", "|ANA", "|REIS", "|"]) ∧
    (partyGroup .seller .decisionMaker).members ⟨"u"⟩ twoOwners = [] ∧
      ∀ cell ∈ (partyGroup .seller .decisionMaker).cells (newRow ⟨"u"⟩ .standard twoOwners),
        cell = "" := by
  have hidentified : List.Forall₂ (Identified ⟨"u"⟩ .owner)
      ((partyGroup .buyer .owner).members ⟨"u"⟩ twoOwners)
      [⟨"LEI", "L", none⟩, ⟨"NIND", "PT1", some ⟨"ANA", "REIS", ""⟩⟩] :=
    forall₂_identified_iff.2 (by decide)
  exact ⟨⟨hidentified,
      (cells_identities ⟨"u"⟩ .standard twoOwners .buyer .owner).2.1 _ hidentified⟩,
    rfl, (cells_identities ⟨"u"⟩ .standard twoOwners .seller .decisionMaker).2.2 rfl⟩

/-! ## Alignment -/

theorem lookupCode_mem_partyColumns (side : Side) (role : PartyRole) :
    .party side role .lookupCode ∈ partyColumns side role := by
  cases role with
  | owner => exact .tail _ (.head _)
  | decisionMaker => exact .tail _ (.head _)

/-- The columns of a group fall into equally many entries just when no party of the group has a bar
in a text that goes into one of them. -/
theorem aligned_iff (x : Lookup) (mode : ClientMode) (new : Element) (side : Side)
    (role : PartyRole) :
    Row.Aligned ((partyGroup side role).cells (newRow x mode new)) ↔
      ∀ party ∈ (partyGroup side role).members x new, ∀ column ∈ partyColumns side role,
        '|' ∉ (partyValue x party column).toList := by
  rw [cells_partyGroup]
  generalize (partyGroup side role).members x new = members
  rcases eq_or_ne members [] with rfl | hsome
  · -- Without a party all cells are blank.
    refine ⟨fun _ => nofun, fun _ c hc d hd => ?_⟩
    obtain ⟨_, -, rfl⟩ := List.mem_map.1 hc
    obtain ⟨_, -, rfl⟩ := List.mem_map.1 hd
    rfl
  have hcolumn (column : Column) :
      (Row.entries (Row.joined (members.map (partyValue x · column)))).length = members.length ↔
        ∀ party ∈ members, '|' ∉ (partyValue x party column).toList := by
    have hvalues : members.map (partyValue x · column) ≠ [] := by simpa using hsome
    have hbars := Row.length_entries_joined_eq_iff hvalues
    rwa [List.length_map, List.forall_mem_map] at hbars
  constructor
  · intro haligned party hparty column hmem
    -- The lookup codes are blank and show how many parties there are.
    have hlookup := (hcolumn (.party side role .lookupCode)).2 fun _ _ => List.not_mem_nil
    have hsame := haligned _ (List.mem_map_of_mem hmem) _
      (List.mem_map_of_mem (lookupCode_mem_partyColumns side role))
    exact (hcolumn column).1 (hsame.trans hlookup) party hparty
  · intro hbars c hc d hd
    obtain ⟨column, hmem, rfl⟩ := List.mem_map.1 hc
    obtain ⟨column', hmem', rfl⟩ := List.mem_map.1 hd
    exact ((hcolumn column).2 fun party hparty => hbars party hparty column hmem).trans
      ((hcolumn column').2 fun party hparty => hbars party hparty column' hmem').symm

/-- A new transaction with an owner whose surname has a bar. -/
def barredOwner : Element :=
  .branch "u" "New" [.branch "u" "Buyr" [.branch "u" "AcctOwnr" [.branch "u" "Id" [
    .branch "u" "Prsn" [.leaf "u" "FrstNm" "ANA", .leaf "u" "Nm" "SILVA|REIS",
      .leaf "u" "BirthDt" "1975-05-05",
      .branch "u" "Othr" [.leaf "u" "Id" "PT1",
        .branch "u" "SchmeNm" [.leaf "u" "Cd" "CCPT"]]]]]]]

/-- The surname of one owner reads as two, next to one forename. -/
theorem not_aligned_barredOwner :
    ¬Row.Aligned ((partyGroup .buyer .owner).cells (newRow ⟨"u"⟩ .standard barredOwner)) :=
  fun h => absurd (h "SILVA|REIS" (by decide) "ANA" (by decide)) (by decide)

end MifirReport.Report
