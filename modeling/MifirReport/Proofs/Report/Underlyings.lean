import MifirReport.Proofs.Report.Texts

/-!
# What swaps rest on, entry by entry

The codes, the names and the terms of what a swap rests on are three lists, and each leg adds its
own part to each of them. `LegStates` says what that part is, by the two forms that a leg may have :
a single thing gives one entry to a column at most, and a basket gives the entries of its members in
order, where a member that has none is passed over (`Collects`). There is exactly one such part
(`legStates_iff`), and it does not ask for the sign of the leg (`legEntries_eq_map`).

`newRow_underlyings` states of rows that the three cells are the parts of the incoming leg, each
entry with a plus before it, and then those of the outgoing leg, each with a minus.
-/

namespace MifirReport.Report

open Xml Table Client

variable {x : Lookup} {mode : ClientMode} {new : Element}

/-! ## Entries from the members of a list -/

/-- One text from each member of a list that has one, in order. -/
inductive Collects {α : Type} (HasText : α → String → Prop) : List α → List String → Prop
  | nil : Collects HasText [] []
  | taken {a : α} {text : String} {as : List α} {texts : List String} :
      HasText a text → Collects HasText as texts → Collects HasText (a :: as) (text :: texts)
  | passed {a : α} {as : List α} {texts : List String} :
      (∀ text, ¬HasText a text) → Collects HasText as texts → Collects HasText (a :: as) texts

/-- The texts that are collected from a list are those that a function finds in it. -/
theorem collects_iff {α : Type} {HasText : α → String → Prop} {text? : α → Option String}
    (htext : ∀ a text, HasText a text ↔ text? a = some text) {as : List α} {texts : List String} :
    Collects HasText as texts ↔ as.filterMap text? = texts := by
  constructor
  · intro h
    induction h with
    | nil => rfl
    | taken hhas _ ih => rw [List.filterMap_cons_some ((htext _ _).1 hhas), ih]
    | @passed a _ _ hnone _ ih =>
      have hpassed : text? a = none :=
        Option.eq_none_iff_forall_ne_some.2 fun text h => hnone text ((htext a text).2 h)
      rw [List.filterMap_cons_none hpassed, ih]
  · rintro rfl
    induction as with
    | nil => exact .nil
    | cons a as ih =>
      cases hfound : text? a with
      | none =>
        rw [List.filterMap_cons_none hfound]
        refine .passed (fun text h => ?_) ih
        rw [htext, hfound] at h
        cases h
      | some text =>
        rw [List.filterMap_cons_some hfound]
        exact .taken ((htext a text).2 hfound) ih

/-! ## Indices -/

/-- What an index states for a column : its code, its name, which is that of its reference rate from
the list or else the one in words, and its term, which takes both a value and a unit. -/
inductive IndexStates (x : Lookup) (index : Element) : UnderlyingField → String → Prop
  | code {isin : Element} : x.child? index "ISIN" = some isin →
      IndexStates x index .code isin.text
  | listed {rate : Element} : x.path? index ["Nm", "RefRate", "Indx"] = some rate →
      IndexStates x index .name rate.text
  | worded {rate : Element} : x.path? index ["Nm", "RefRate", "Indx"] = none →
      x.path? index ["Nm", "RefRate", "Nm"] = some rate → IndexStates x index .name rate.text
  | term {value unit : Element} : x.path? index ["Nm", "Term", "Val"] = some value →
      x.path? index ["Nm", "Term", "Unit"] = some unit →
      IndexStates x index .term (value.text ++ " " ++ unit.text)

theorem indexStates_code_iff {index : Element} {text : String} :
    IndexStates x index .code text ↔ (x.child? index "ISIN").map Element.text = some text := by
  rw [Option.map_eq_some_iff]
  constructor
  · rintro ⟨hisin⟩
    exact ⟨_, hisin, rfl⟩
  · rintro ⟨isin, hisin, rfl⟩
    exact .code hisin

theorem path?_concat (e : Element) (path : List String) (tag : String) :
    x.path? e (path ++ [tag]) = (x.path? e path).bind (x.child? · tag) := by
  rw [Lookup.path?_append]
  simp only [Lookup.path?_singleton]

/-- The name that an index states is the one that is read : the listed rate counts first. -/
theorem indexStates_name_iff {index : Element} {text : String} :
    IndexStates x index .name text ↔ indexName? x index = some text := by
  have hname : indexName? x index = ((x.path? index ["Nm", "RefRate", "Indx"]).or
      (x.path? index ["Nm", "RefRate", "Nm"])).map Element.text := by
    have hrate (tag : String) : x.path? index ["Nm", "RefRate", tag] =
        (x.path? index ["Nm", "RefRate"]).bind (x.child? · tag) :=
      path?_concat index ["Nm", "RefRate"] tag
    rw [hrate, hrate, indexName?]
    cases x.path? index ["Nm", "RefRate"] <;> rfl
  rw [hname]
  constructor
  · intro h
    cases h with
    | listed hlisted =>
      rw [hlisted]
      rfl
    | worded hunlisted hworded =>
      rw [hunlisted, hworded]
      rfl
  · intro h
    cases hlisted : x.path? index ["Nm", "RefRate", "Indx"] with
    | some rate =>
      rw [hlisted] at h
      cases h
      exact .listed hlisted
    | none =>
      rw [hlisted, Option.none_or, Option.map_eq_some_iff] at h
      obtain ⟨rate, hworded, rfl⟩ := h
      exact .worded hlisted hworded

/-- The term that an index states is the one that is read, value and unit with a blank between them.
-/
theorem indexStates_term_iff {index : Element} {text : String} :
    IndexStates x index .term text ↔ indexTerm? x index = some text := by
  have hterm (tag : String) : x.path? index ["Nm", "Term", tag] =
      (x.path? index ["Nm", "Term"]).bind (x.child? · tag) :=
    path?_concat index ["Nm", "Term"] tag
  rw [indexTerm?, Option.bind_eq_some_iff]
  constructor
  · intro h
    cases h with
    | term hvalue hunit =>
      rw [hterm, Option.bind_eq_some_iff] at hvalue
      obtain ⟨term, hfound, hvalue⟩ := hvalue
      rw [hterm, hfound, Option.bind_some] at hunit
      exact ⟨term, hfound, by rw [hvalue, hunit]⟩
  · rintro ⟨term, hfound, hboth⟩
    split at hboth
    next value unit hvalue hunit =>
      cases hboth
      exact .term (by rw [hterm, hfound, Option.bind_some, hvalue])
        (by rw [hterm, hfound, Option.bind_some, hunit])
    next => cases hboth

/-! ## Legs -/

/-- The entries of a single thing. Its own code comes before that of its index, and its names and
terms are those of its first index. -/
inductive SingleStates (x : Lookup) (single : Element) : UnderlyingField → List String → Prop
  | own {isin : Element} : x.child? single "ISIN" = some isin →
      SingleStates x single .code [isin.text]
  | index {field : UnderlyingField} {texts : List String} :
      (field = .code → x.child? single "ISIN" = none) →
      Collects (IndexStates x · field) (x.child? single "Indx").toList texts →
      SingleStates x single field texts

/-- The entries of a basket. Its own codes come before those of its indices, and its names and terms
are those of all its indices. -/
inductive BasketStates (x : Lookup) (basket : Element) : UnderlyingField → List String → Prop
  | own : x.children basket "ISIN" ≠ [] →
      BasketStates x basket .code ((x.children basket "ISIN").map Element.text)
  | indices {field : UnderlyingField} {texts : List String} :
      (field = .code → x.children basket "ISIN" = []) →
      Collects (IndexStates x · field) (x.children basket "Indx") texts →
      BasketStates x basket field texts

/-- The entries of the leg of a swap with a given tag, without a sign. A single thing comes before a
basket. -/
inductive LegStates (x : Lookup) (swap : Element) (tag : String) (field : UnderlyingField) :
    List String → Prop
  | single {single : Element} {texts : List String} : x.path? swap [tag, "Sngl"] = some single →
      SingleStates x single field texts → LegStates x swap tag field texts
  | basket {basket : Element} {texts : List String} : x.path? swap [tag, "Sngl"] = none →
      x.path? swap [tag, "Bskt"] = some basket → BasketStates x basket field texts →
      LegStates x swap tag field texts
  | neither : x.path? swap [tag, "Sngl"] = none → x.path? swap [tag, "Bskt"] = none →
      LegStates x swap tag field []

/-- What an index is read as for a column. -/
def indexText? (x : Lookup) : UnderlyingField → Element → Option String
  | .code => fun index => (x.child? index "ISIN").map Element.text
  | .name => indexName? x
  | .term => indexTerm? x

/-- For every column, indices state what is read of them. -/
theorem collects_indexStates_iff {field : UnderlyingField} {indices : List Element}
    {texts : List String} : Collects (IndexStates x · field) indices texts ↔
      indices.filterMap (indexText? x field) = texts := by
  refine collects_iff fun index text => ?_
  cases field with
  | code => exact indexStates_code_iff
  | name => exact indexStates_name_iff
  | term => exact indexStates_term_iff

theorem filterMap_toList {α β : Type} (f : α → Option β) (o : Option α) :
    o.toList.filterMap f = (o.bind f).toList := by
  cases o with
  | none => rfl
  | some a => cases h : f a <;> simp [h]

/-- The code of a single thing hides that of its index. -/
theorem entries_single_own {single isin : Element} (h : x.child? single "ISIN" = some isin) :
    (singleUnderlying x "" single).entries .code = [isin.text] := by
  simp [singleUnderlying, Underlyings.entries, h]

/-- Without a code of its own a single thing has the entries of its index. -/
theorem entries_single_index {single : Element} {field : UnderlyingField}
    (h : field = .code → x.child? single "ISIN" = none) :
    (singleUnderlying x "" single).entries field =
      (x.child? single "Indx").toList.filterMap (indexText? x field) := by
  rw [filterMap_toList]
  cases field with
  | code =>
    simp only [singleUnderlying, Underlyings.entries, h rfl, Option.none_or, Lookup.path?,
      Option.bind_fun_some, String.empty_append]
    cases x.child? single "Indx" with
    | none => rfl
    | some index =>
      simp only [Option.bind_some, indexText?]
      cases x.child? index "ISIN" <;> rfl
  | name | term =>
    simp only [singleUnderlying, Underlyings.entries, indexText?, String.empty_append, List.map_id']

theorem entries_basket_own {basket : Element} (h : x.children basket "ISIN" ≠ []) :
    (basketUnderlyings x "" basket).entries .code =
      (x.children basket "ISIN").map Element.text := by
  simp [basketUnderlyings, Underlyings.entries, h]

/-- Without codes of its own a basket has the entries of all its indices. -/
theorem entries_basket_indices {basket : Element} {field : UnderlyingField}
    (h : field = .code → x.children basket "ISIN" = []) :
    (basketUnderlyings x "" basket).entries field =
      (x.children basket "Indx").filterMap (indexText? x field) := by
  cases field with
  | code => simp [basketUnderlyings, Underlyings.entries, h rfl, indexText?, List.map_filterMap]
  | name | term =>
    simp only [basketUnderlyings, Underlyings.entries, indexText?, String.empty_append,
      List.map_id']

/-- A single thing has exactly one list of entries for a column, the one that is read. -/
theorem singleStates_iff {single : Element} {field : UnderlyingField} {texts : List String} :
    SingleStates x single field texts ↔ (singleUnderlying x "" single).entries field = texts := by
  constructor
  · rintro (hisin | ⟨hno, htexts⟩)
    · exact entries_single_own hisin
    · rw [entries_single_index hno]
      exact collects_indexStates_iff.1 htexts
  · rintro rfl
    by_cases hno : field = .code → x.child? single "ISIN" = none
    · exact .index hno (collects_indexStates_iff.2 (entries_single_index hno).symm)
    · rw [Classical.not_imp] at hno
      obtain ⟨rfl, hsome⟩ := hno
      obtain ⟨isin, hisin⟩ := Option.ne_none_iff_exists'.1 hsome
      rw [entries_single_own hisin]
      exact .own hisin

/-- A basket has exactly one list of entries for a column, the one that is read. -/
theorem basketStates_iff {basket : Element} {field : UnderlyingField} {texts : List String} :
    BasketStates x basket field texts ↔ (basketUnderlyings x "" basket).entries field = texts := by
  constructor
  · rintro (hown | ⟨hno, htexts⟩)
    · exact entries_basket_own hown
    · rw [entries_basket_indices hno]
      exact collects_indexStates_iff.1 htexts
  · rintro rfl
    by_cases hno : field = .code → x.children basket "ISIN" = []
    · exact .indices hno (collects_indexStates_iff.2 (entries_basket_indices hno).symm)
    · rw [Classical.not_imp] at hno
      obtain ⟨rfl, hown⟩ := hno
      rw [entries_basket_own hown]
      exact .own hown

/-- The leg of a swap with a given tag as it is read, with a sign before its entries. -/
def legEntries (x : Lookup) (sign : String) (swap : Element) (tag : String)
    (field : UnderlyingField) : List String :=
  ((x.child? swap tag).elim {} (legUnderlyings x sign)).entries field

/-- There is exactly one list of entries that a leg states for a column. -/
theorem legStates_iff {swap : Element} {tag : String} {field : UnderlyingField}
    {texts : List String} :
    LegStates x swap tag field texts ↔ legEntries x "" swap tag field = texts := by
  have hpath (inner : String) :
      x.path? swap [tag, inner] = (x.child? swap tag).bind (x.child? · inner) :=
    (path?_concat swap [tag] inner).trans (by rw [Lookup.path?_singleton])
  have hblank : ({} : Underlyings).entries field = [] := by cases field <;> rfl
  have hread : legEntries x "" swap tag field =
      (x.path? swap [tag, "Sngl"]).elim
        ((x.path? swap [tag, "Bskt"]).elim [] fun basket =>
          (basketUnderlyings x "" basket).entries field)
        fun single => (singleUnderlying x "" single).entries field := by
    rw [hpath, hpath, legEntries]
    cases x.child? swap tag with
    | none => exact hblank
    | some leg =>
      simp only [Option.elim_some, legUnderlyings, Option.bind_some]
      cases x.child? leg "Sngl" with
      | some single => rfl
      | none =>
        cases x.child? leg "Bskt" with
        | none => exact hblank
        | some basket => rfl
  rw [hread]
  constructor
  · rintro (⟨hsingle, hstates⟩ | ⟨hno, hbasket, hstates⟩ | ⟨hno, hnone⟩)
    · rw [hsingle]
      exact singleStates_iff.1 hstates
    · rw [hno, hbasket]
      exact basketStates_iff.1 hstates
    · rw [hno, hnone]
      rfl
  · rintro rfl
    cases hsingle : x.path? swap [tag, "Sngl"] with
    | some single => exact .single hsingle (singleStates_iff.2 rfl)
    | none =>
      cases hbasket : x.path? swap [tag, "Bskt"] with
      | none => exact .neither hsingle hbasket
      | some basket => exact .basket hsingle hbasket (basketStates_iff.2 rfl)

/-- The sign of a leg stands before each of its entries, and changes nothing else. -/
theorem legEntries_eq_map (sign : String) (swap : Element) (tag : String)
    (field : UnderlyingField) :
    legEntries x sign swap tag field = (legEntries x "" swap tag field).map (sign ++ ·) := by
  rw [legEntries, legEntries]
  cases x.child? swap tag with
  | none => cases field <;> rfl
  | some leg =>
    simp only [Option.elim_some, legUnderlyings]
    cases x.child? leg "Sngl" with
    | some single =>
      cases field <;> simp [singleUnderlying, Underlyings.entries, Function.comp_def]
    | none =>
      cases x.child? leg "Bskt" with
      | none => cases field <;> rfl
      | some basket =>
        cases field <;> simp [basketUnderlyings, Underlyings.entries, Function.comp_def]

/-! ## Rows -/

/-- The swap that the instrument of a new transaction rests on. A code of the instrument makes it
void. -/
def underlyingSwap? (x : Lookup) (new : Element) : Option Element :=
  if (x.path? new ["FinInstrm", "Id"]).isSome then none
  else x.path? new ["FinInstrm", "Othr", "DerivInstrmAttrbts", "UndrlygInstrm", "Swp"]

/-- The cell of a column joins the entries of the incoming leg and those of the outgoing one. -/
theorem newCell_underlying (new : Element) (field : UnderlyingField) :
    newCell x mode new (.instrument (.underlying field)) =
      (underlyingSwap? x new).elim "" fun swap => Row.joined
        (legEntries x "+" swap "SwpIn" field ++ legEntries x "-" swap "SwpOut" field) := by
  have hentries (swap : Element) : (swapUnderlyings x swap).entries field =
      legEntries x "+" swap "SwpIn" field ++ legEntries x "-" swap "SwpOut" field := by
    cases field <;> rfl
  have hpath : x.path? new ["FinInstrm", "Othr", "DerivInstrmAttrbts", "UndrlygInstrm", "Swp"] =
      (x.path? new ["FinInstrm", "Othr"]).bind fun other =>
        (x.child? other "DerivInstrmAttrbts").bind (x.path? · ["UndrlygInstrm", "Swp"]) :=
    x.path?_append new ["FinInstrm", "Othr"] ["DerivInstrmAttrbts", "UndrlygInstrm", "Swp"]
  rw [underlyingSwap?]
  cases hcode : x.path? new ["FinInstrm", "Id"] with
  | some id =>
    rw [newCell_of_code hcode, if_neg (by simp), if_pos Option.isSome_some, Option.elim_none]
  | none =>
    rw [newCell_of_no_code hcode, if_neg (by simp), hpath]
    cases x.path? new ["FinInstrm", "Othr"] with
    | none => rfl
    | some other =>
      simp only [Option.elim_some, Option.bind_some, isGeneral, Bool.false_eq_true, if_false,
        derivativeCell, hentries]
      cases x.child? other "DerivInstrmAttrbts" <;> rfl

/-- What the swap of a new transaction rests on. For every leg and column there is one list of
entries. The three cells hold those of the incoming leg, each after a plus, and then those of the
outgoing leg, each after a minus; they are blank if there is no swap that counts. -/
theorem newRow_underlyings (x : Lookup) (mode : ClientMode) (new : Element) :
    (∀ swap tag field, ∃! texts, LegStates x swap tag field texts) ∧
    (∀ swap, underlyingSwap? x new = some swap →
      ∀ incoming outgoing : UnderlyingField → List String,
        (∀ field, LegStates x swap "SwpIn" field (incoming field)) →
        (∀ field, LegStates x swap "SwpOut" field (outgoing field)) →
        (newRow x mode new).slice 56 58 = [UnderlyingField.code, .name, .term].map fun field =>
          Row.joined ((incoming field).map ("+" ++ ·) ++ (outgoing field).map ("-" ++ ·))) ∧
    (underlyingSwap? x new = none → (newRow x mode new).slice 56 58 = ["", "", ""]) := by
  have hslice : (newRow x mode new).slice 56 58 = [UnderlyingField.code, .name, .term].map
      fun field => newCell x mode new (.instrument (.underlying field)) := rfl
  simp only [hslice, newCell_underlying]
  refine ⟨fun swap tag field => ?_, fun swap hswap incoming outgoing hincoming houtgoing => ?_,
    fun hnone => ?_⟩
  · simp only [legStates_iff, existsUnique_eq']
  · rw [hswap]
    refine List.map_congr_left fun field _ => ?_
    rw [Option.elim_some, legEntries_eq_map "+", legEntries_eq_map "-",
      legStates_iff.1 (hincoming field), legStates_iff.1 (houtgoing field)]
  · rw [hnone]
    rfl

example : (Column.between 56 58).map Column.label =
    ["instr_under_code", "instr_under_name", "instr_under_term"] := by decide

/-- A swap of a single thing against a basket of three indices : one has a code and a name in words,
one has a name from the list and a term, and one has a term without a unit. -/
def basketSwap : Element :=
  .branch "u" "Swp" [
    .branch "u" "SwpOut" [.branch "u" "Bskt" [
      .branch "u" "Indx" [.branch "u" "Nm" [.branch "u" "RefRate" [.leaf "u" "Nm" "EURIBOR"]],
        .leaf "u" "ISIN" "EU1"],
      .branch "u" "Indx" [.branch "u" "Nm" [
        .branch "u" "RefRate" [.leaf "u" "Nm" "X", .leaf "u" "Indx" "EONA"],
        .branch "u" "Term" [.leaf "u" "Unit" "MNTH", .leaf "u" "Val" "6"]]],
      .branch "u" "Indx" [.leaf "u" "ISIN" "EU3",
        .branch "u" "Nm" [.branch "u" "Term" [.leaf "u" "Val" "3"]]]]],
    .branch "u" "SwpIn" [
      .branch "u" "Bskt" [.leaf "u" "ISIN" "XS0"],
      .branch "u" "Sngl" [.branch "u" "Indx" [.leaf "u" "ISIN" "XS1"]]]]

/-- A new transaction whose instrument rests on this swap. -/
def swapOrder : Element :=
  .branch "u" "New" [.branch "u" "FinInstrm" [.branch "u" "Othr" [
    .branch "u" "DerivInstrmAttrbts" [.branch "u" "UndrlygInstrm" [basketSwap]]]]]

theorem newRow_underlyings_swapOrder :
    (newRow ⟨"u"⟩ .standard swapOrder).slice 56 58 =
        ["+XS1|-EU1|-EU3", "-EURIBOR|-EONA", "-6 MNTH"] ∧
      (newRow ⟨"u"⟩ .standard basketSwap).slice 56 58 = ["", "", ""] := by
  have hstates := (newRow_underlyings ⟨"u"⟩ .standard swapOrder).2.1 basketSwap rfl
    (fun | .code => ["XS1"] | .name | .term => [])
    (fun | .code => ["EU1", "EU3"] | .name => ["EURIBOR", "EONA"] | .term => ["6 MNTH"])
    (fun field => legStates_iff.2 (by cases field <;> decide))
    (fun field => legStates_iff.2 (by cases field <;> decide))
  exact ⟨hstates.trans (by decide), (newRow_underlyings ⟨"u"⟩ .standard basketSwap).2.2 rfl⟩

end MifirReport.Report
