import MifirReport.Proofs.Report.Texts
import MifirReport.Proofs.Xml.Shadowing

/-!
# Values of several kinds

A quantity, a price and a strike price fill three columns each : the kind, the value and the
currency. Their alternatives are tried in a fixed order (`TaggedValue.choices`), and the three cells
are what one of them reads (`resolve_eq`, `cells_newRow`). Where a price is given, there is nothing
still to come, so that a price given without any of its kinds leaves the cells blank.

An alternative that is there decides on all three cells (`resolve_eq_or`). What is said of
alternatives after it, and behind the elements that lead to it, does not count (`resolve_congr`).
`newRow_kinds` states this of rows.
-/

namespace MifirReport.Report

open Xml Xml.Lookup Table Client

variable {x : Lookup} {mode : ClientMode} {new : Element}

/-! ## Readings -/

theorem followsPaths_currencyOf : x.FollowsPaths currencyOf := by
  intro a b h
  rw [currencyOf, currencyOf, h.attribute?_eq]

/-- An amount and its sign are at paths of their own. -/
theorem followsPaths_signedAmount : x.FollowsPaths (signedAmount x) := by
  intro a b h
  obtain ⟨ha, hb⟩ | ⟨c, d, ha, hb, hcd⟩ := h.child?_cases "Amt"
  · simp only [signedAmount, ha, hb, h.text_eq, followsPaths_currencyOf h]
  · simp only [signedAmount, ha, hb, hcd.text_eq, h.text "Sgn", followsPaths_currencyOf h,
      followsPaths_currencyOf hcd]

/-- So is all that an alternative reads. -/
theorem followsPaths_read (alternative : Alternative) :
    x.FollowsPaths (alternative.read x) := by
  intro a b h
  rw [Alternative.read, Alternative.read, h.text_eq, followsPaths_signedAmount h]

theorem followsPaths_pendingPrice (pending : Pending) :
    x.FollowsPaths (pendingPrice x · pending) := by
  intro a b h
  obtain ⟨ha, hb⟩ | ⟨c, d, ha, hb, hcd⟩ := h.child?_cases "Pdg"
  · simp only [pendingPrice, ha, hb, h.text "Ccy"]
  · simp only [pendingPrice, ha, hb, h.text "Ccy", hcd.text_eq]

/-! ## Alternatives -/

/-- An alternative for a value : the tags that lead to it, and how it is read. -/
structure Choice where
  place : List String
  read : Lookup → Element → Tagged
  follows (x : Lookup) : x.FollowsPaths (read x)

/-- A value that is the text of its element. -/
def Choice.ofText (place : List String) (kind : String) : Choice where
  place := place
  read _ found := ⟨kind, found.text, ""⟩
  follows _ _ _ h := congrArg (Tagged.mk kind · "") h.text_eq

/-- A value that is an amount with a sign and a currency. -/
def Choice.ofAmount (place : List String) (kind : String) : Choice where
  place := place
  read x found := ⟨kind, (signedAmount x found).value, (signedAmount x found).currency⟩
  follows _ _ _ h :=
    congrArg (fun amount : Amount => Tagged.mk kind amount.value amount.currency)
      (followsPaths_signedAmount h)

/-- A price that is still to come. -/
def Choice.ofPending (place : List String) (pending : Pending) : Choice where
  place := place
  read x found := pendingPrice x found pending
  follows _ := followsPaths_pendingPrice pending

/-- What an alternative reads in an element, if it is there. -/
def Choice.read? (choice : Choice) (x : Lookup) (e : Element) : Option Tagged :=
  (x.path? e choice.place).map (choice.read x)

/-- Whether an alternative counts in an element. A price that is given leaves nothing to come. -/
def Choice.counts (x : Lookup) (e : Element) (choice : Choice) : Bool :=
  !(x.has e "Pric" && choice.place == ["NoPric"])

/-- The alternatives for a price, in order. -/
def priceChoices (pending : Pending) : List Choice :=
  [.ofAmount ["Pric", "MntryVal"] "MONE", .ofText ["Pric", "Pctg"] "PERC",
    .ofText ["Pric", "Yld"] "YIEL", .ofText ["Pric", "BsisPts"] "BPNT",
    .ofPending ["NoPric"] pending]

/-- A value that comes in several kinds. -/
inductive TaggedValue
  | quantity
  | price
  | strike
  deriving DecidableEq, Repr

namespace TaggedValue

/-- The path to the element of a value. -/
def path : TaggedValue → List String
  | quantity => ["Tx", "Qty"]
  | price => ["Tx", "Pric"]
  | strike => ["FinInstrm", "Othr", "DerivInstrmAttrbts", "StrkPric"]

/-- The alternatives for a value in its element, in order. -/
def choices : TaggedValue → List Choice
  | quantity => [.ofText ["Unit"] "UNIT", .ofAmount ["NmnlVal"] "NOMI", .ofAmount ["MntryVal"] "MONE"]
  | price => priceChoices .onlyPending
  | strike => priceChoices .always

/-- The element of a value. A code of the instrument makes a strike price void. -/
def node? (value : TaggedValue) (x : Lookup) (new : Element) : Option Element :=
  if value = strike ∧ (x.path? new ["FinInstrm", "Id"]).isSome then none
  else x.path? new value.path

/-- The kind, the value and the currency in a row. -/
def cells (value : TaggedValue) (row : Row) : List String :=
  match value with
  | quantity => row.slice 37 39
  | price => row.slice 41 43
  | strike => row.slice 60 62

/-- The column of a part of a value. -/
def column : TaggedValue → TaggedField → Column
  | quantity => .trade ∘ .quantity
  | price => .trade ∘ .price
  | strike => .instrument ∘ .strike

/-- Reads a value from its element. -/
def resolve (value : TaggedValue) (x : Lookup) (e : Element) : Option Tagged :=
  match value with
  | quantity => Report.resolve x e quantityAlternatives
  | price => resolvePrice x e .onlyPending
  | strike => resolvePrice x e .always

/-- The alternatives that count in an element, in order. -/
def counted (value : TaggedValue) (x : Lookup) (e : Element) : List Choice :=
  value.choices.filter (·.counts x e)

end TaggedValue

/-- The cells of a value that may not be there. -/
def Tagged.cells (found : Option Tagged) : List String :=
  found.elim ["", "", ""] fun tagged => [tagged.kind, tagged.value, tagged.currency]

/-! ## Cells -/

theorem newCell_column (value : TaggedValue) (field : TaggedField) (new : Element) :
    newCell x mode new (value.column field) =
      taggedCell ((value.node? x new).bind (value.resolve x)) field := by
  cases value with
  | quantity | price =>
    simp only [TaggedValue.column, Function.comp_apply, newCell, TaggedValue.node?,
      TaggedValue.path, Lookup.path?, reduceCtorEq, false_and, if_false]
    cases x.child? new "Tx" with
    | none => rfl
    | some trade =>
      simp only [Option.elim_some, Option.bind_some, Option.bind_fun_some]
      rfl
  | strike =>
    have hstrike : TaggedValue.strike.path =
        ["FinInstrm", "Othr"] ++ ["DerivInstrmAttrbts", "StrkPric"] := rfl
    rw [TaggedValue.column, Function.comp_apply, TaggedValue.node?]
    cases hcode : x.path? new ["FinInstrm", "Id"] with
    | some id =>
      rw [newCell_of_code hcode, if_neg (by simp), if_pos ⟨rfl, rfl⟩]
      rfl
    | none =>
      rw [newCell_of_no_code hcode, if_neg (by simp), hstrike, Lookup.path?_append]
      cases x.path? new ["FinInstrm", "Othr"] with
      | none => rfl
      | some other =>
        simp only [Option.elim_some, Option.bind_some, isGeneral, derivativeCell, Lookup.path?,
          Bool.false_eq_true, if_false, Option.bind_fun_some]
        cases x.child? other "DerivInstrmAttrbts" <;> rfl

/-- The three cells of a value are the parts of what is resolved, or blank. -/
theorem cells_newRow (value : TaggedValue) (new : Element) :
    value.cells (newRow x mode new) =
      Tagged.cells ((value.node? x new).bind (value.resolve x)) := by
  have hcolumns : value.cells (newRow x mode new) =
      [TaggedField.kind, .value, .currency].map fun field =>
        newCell x mode new (value.column field) := by
    cases value <;> rfl
  simp only [hcolumns, newCell_column]
  cases (value.node? x new).bind (value.resolve x) <;> rfl

/-! ## Which alternative counts -/

/-- An alternative in a container, in the terms of the element around the container. -/
def Choice.inside (container : List String) (alternative : Alternative) : Choice where
  place := container ++ [alternative.tag]
  read x found := alternative.read x found
  follows _ := followsPaths_read alternative

/-- Trying choices at places inside a container is resolving alternatives in it. -/
theorem findSome?_inside (container : List String) (alternatives : List Alternative) (e : Element) :
    (alternatives.map (Choice.inside container)).findSome? (·.read? x e) =
      (x.path? e container).bind (resolve x · alternatives) := by
  have hread (alternative : Alternative) : (Choice.inside container alternative).read? x e =
      (x.path? e container).bind fun node =>
        (x.child? node alternative.tag).map (alternative.read x) := by
    rw [Choice.read?, Choice.inside, Lookup.path?_append, Option.map_bind]
    simp only [Lookup.path?_singleton]
    rfl
  rw [List.findSome?_map]
  simp only [Function.comp_def, hread]
  cases x.path? e container with
  | none => simp only [Option.bind_none, List.findSome?_eq_none_iff, implies_true]
  | some node => rfl

/-- A price is the first of its choices that counts and is there. -/
theorem resolvePrice_eq (e : Element) (pending : Pending) :
    resolvePrice x e pending =
      ((priceChoices pending).filter (·.counts x e)).findSome? (·.read? x e) := by
  have hgiven : ∀ choice ∈ priceAlternatives.map (Choice.inside ["Pric"]),
      choice.counts x e = true := by
    have hplace : ∀ choice ∈ priceAlternatives.map (Choice.inside ["Pric"]),
        (choice.place == ["NoPric"]) = false := by
      rw [List.forall_mem_map]
      decide
    intro choice hchoice
    rw [Choice.counts, hplace choice hchoice, Bool.and_false, Bool.not_false]
  have hchoices : priceChoices pending =
      priceAlternatives.map (Choice.inside ["Pric"]) ++ [.ofPending ["NoPric"] pending] := rfl
  rw [hchoices, List.filter_append, List.filter_eq_self.2 hgiven, List.findSome?_append,
    findSome?_inside, Lookup.path?_singleton, resolvePrice]
  cases hprice : x.child? e "Pric" with
  | some price =>
    have hpending : (Choice.ofPending ["NoPric"] pending).counts x e = false := by
      rw [Choice.counts, Lookup.has, hprice]
      rfl
    rw [List.filter_cons_of_neg (Bool.eq_false_iff.1 hpending)]
    exact Option.or_none.symm
  | none =>
    have hpending : (Choice.ofPending ["NoPric"] pending).counts x e = true := by
      rw [Choice.counts, Lookup.has, hprice]
      rfl
    rw [List.filter_cons_of_pos hpending, List.filter_nil, Option.bind_none, Option.none_or,
      List.findSome?_singleton, Choice.read?, Choice.ofPending, Lookup.path?_singleton]

/-- The value is that of the first alternative that counts and is there. -/
theorem resolve_eq (value : TaggedValue) (e : Element) :
    value.resolve x e = (value.counted x e).findSome? (·.read? x e) := by
  cases value with
  | quantity =>
    have hcounted : TaggedValue.quantity.counted x e =
        quantityAlternatives.map (Choice.inside []) := by
      rw [TaggedValue.counted, List.filter_eq_self.2]
      · rfl
      · simp [TaggedValue.choices, Choice.ofText, Choice.ofAmount, Choice.counts]
    rw [hcounted, findSome?_inside]
    rfl
  | price => exact resolvePrice_eq e .onlyPending
  | strike => exact resolvePrice_eq e .always

/-! ## Alternatives that do not count -/

/-- The places of the alternatives lie apart, and what is still to come is last. -/
theorem TaggedValue.pairwise_choices (value : TaggedValue) :
    value.choices.Pairwise fun a b =>
      a.place ≠ ["NoPric"] ∧ ¬a.place <+: b.place ∧ ¬b.place <+: a.place := by
  have hplaces : (value.choices.map Choice.place).Pairwise fun a b =>
      a ≠ ["NoPric"] ∧ ¬a <+: b ∧ ¬b <+: a := by
    cases value <;> decide
  exact List.pairwise_map.1 hplaces

theorem TaggedValue.not_prefix_of_mem_choices (value : TaggedValue) :
    ∀ choice ∈ value.choices, ¬choice.place <+: ["Pric"] := by
  have hplaces : ∀ place ∈ value.choices.map Choice.place, ¬place <+: ["Pric"] := by
    cases value <;> decide
  exact fun choice hchoice => hplaces choice.place (List.mem_map_of_mem hchoice)

variable {a b e : Element} {higher lower : List Choice} {choice : Choice}

/-- Once an alternative is there, only those before it and itself are read. -/
theorem resolve_eq_or {value : TaggedValue} (hchoices : value.choices = higher ++ choice :: lower)
    (hfound : (x.path? e choice.place).isSome) :
    value.resolve x e = ((higher.filter (Choice.counts x e)).findSome? (·.read? x e)).or
      (if choice.counts x e then choice.read? x e else none) := by
  rw [resolve_eq, TaggedValue.counted, hchoices, List.filter_append, List.findSome?_append]
  congr 1
  split
  next hcount =>
    obtain ⟨found, hfound⟩ := Option.isSome_iff_exists.1 hfound
    have hread : choice.read? x e = some (choice.read x found) := by
      rw [Choice.read?, hfound, Option.map_some]
    rw [List.filter_cons_of_pos hcount, List.findSome?_cons, hread]
  next hcount =>
    -- Only what is still to come may not count, and nothing is after that.
    have hplace : choice.place = ["NoPric"] := by
      rw [Choice.counts, Bool.not_eq_true, Bool.not_eq_false', Bool.and_eq_true, beq_iff_eq]
        at hcount
      exact hcount.2
    have hapart := value.pairwise_choices
    rw [hchoices, List.pairwise_append, List.pairwise_cons] at hapart
    have hnil : lower = [] :=
      List.eq_nil_iff_forall_not_mem.2 fun d hd => (hapart.2.1.1 d hd).1 hplace
    rw [hnil, List.filter_cons_of_neg hcount]
    rfl

/-- A choice apart from what is hidden reads the same. -/
theorem Choice.read?_congr {hidden : List (List String)} (choice : Choice)
    (h : x.AgreeOff hidden a b)
    (hapart : ∀ p ∈ hidden, ¬p <+: choice.place ∧ ¬choice.place <+: p) :
    choice.read? x a = choice.read? x b := by
  rw [read?, read?]
  obtain ⟨ha, hb⟩ | ⟨c, d, ha, hb, hcd⟩ := h.path?_cases_of_apart hapart
  · rw [ha, hb]
  · rw [ha, hb, Option.map_some, Option.map_some, choice.follows x hcd]

theorem Choice.counts_congr {hidden : List (List String)} (h : x.AgreeOff hidden a b)
    (hprice : ∀ p ∈ hidden, ¬p <+: ["Pric"]) : Choice.counts x a = Choice.counts x b := by
  have hsome := h.isSome_path? hprice
  rw [Lookup.path?_singleton, Lookup.path?_singleton] at hsome
  funext choice
  rw [counts, counts, Lookup.has, Lookup.has, hsome]

/-- An alternative that is there decides, whatever is said of those after it. -/
theorem resolve_congr {value : TaggedValue} (hchoices : value.choices = higher ++ choice :: lower)
    (hfound : (x.path? a choice.place).isSome) (h : x.AgreeOff (lower.map Choice.place) a b) :
    value.resolve x a = value.resolve x b := by
  have hapart := value.pairwise_choices
  rw [hchoices, List.pairwise_append, List.pairwise_cons] at hapart
  obtain ⟨-, ⟨hlower, -⟩, hhigher⟩ := hapart
  have hread : ∀ c ∈ higher, c.read? x a = c.read? x b := fun c hc =>
    c.read?_congr h (List.forall_mem_map.2 fun d hd =>
      (hhigher c hc d (List.mem_cons_of_mem _ hd)).2.symm)
  have hchoice : choice.read? x a = choice.read? x b :=
    choice.read?_congr h (List.forall_mem_map.2 fun d hd => (hlower d hd).2.symm)
  have hfound' : (x.path? b choice.place).isSome := by
    rwa [← h.isSome_path? (List.forall_mem_map.2 fun d hd => (hlower d hd).2.2)]
  have hcounts : Choice.counts x a = Choice.counts x b :=
    Choice.counts_congr h (List.forall_mem_map.2 fun d hd =>
      value.not_prefix_of_mem_choices d (hchoices ▸ by simp [hd]))
  have hsame : (higher.filter (Choice.counts x b)).findSome? (·.read? x a) =
      (higher.filter (Choice.counts x b)).findSome? (·.read? x b) := by
    rw [← List.head?_filterMap, ← List.head?_filterMap,
      List.filterMap_congr fun c hc => hread c (List.mem_of_mem_filter hc)]
  rw [resolve_eq_or hchoices hfound, resolve_eq_or hchoices hfound', hcounts, hsame, hchoice]

/-! ## Rows -/

theorem kind_pendingPrice_ne (e : Element) (pending : Pending) :
    (pendingPrice x e pending).value ≠ "" → (pendingPrice x e pending).kind ≠ "" := by
  intro hvalue hkind
  cases hcode : x.child? e "Pdg" with
  | none => exact hvalue (by simp only [pendingPrice, hcode])
  | some code =>
    simp only [pendingPrice, hcode] at hvalue hkind
    rw [hkind, ite_self] at hvalue
    exact hvalue rfl

theorem kind_ne_of_mem_priceChoices (pending : Pending) : ∀ choice ∈ priceChoices pending,
    ∀ found : Element, (choice.read x found).value ≠ "" → (choice.read x found).kind ≠ "" := by
  simpa [priceChoices, Choice.ofText, Choice.ofAmount, Choice.ofPending] using
    (kind_pendingPrice_ne · pending)

/-- No choice has a value without a kind. -/
theorem TaggedValue.kind_ne (value : TaggedValue) : ∀ choice ∈ value.choices, ∀ found : Element,
    (choice.read x found).value ≠ "" → (choice.read x found).kind ≠ "" := by
  cases value with
  | quantity => simp [choices, Choice.ofText, Choice.ofAmount]
  | price => exact kind_ne_of_mem_priceChoices .onlyPending
  | strike => exact kind_ne_of_mem_priceChoices .always

/-- A value comes from one of its alternatives. -/
theorem exists_of_resolve {value : TaggedValue} {e : Element} {tagged : Tagged}
    (h : value.resolve x e = some tagged) : ∃ choice ∈ value.choices, ∃ found : Element,
      x.path? e choice.place = some found ∧ tagged = choice.read x found := by
  rw [resolve_eq] at h
  obtain ⟨choice, hchoice, hread⟩ := List.exists_of_findSome?_eq_some h
  obtain ⟨found, hfound, htagged⟩ := Option.map_eq_some_iff.1 hread
  exact ⟨choice, List.mem_of_mem_filter hchoice, found, hfound, htagged.symm⟩

theorem path?_of_node? {value : TaggedValue} {e : Element} (h : value.node? x new = some e) :
    x.path? new value.path = some e := by
  rw [TaggedValue.node?] at h
  split at h
  · cases h
  · exact h

/-- What the three cells of a value hold. -/
theorem exists_tagged (mode : ClientMode) (value : TaggedValue) (new : Element) : ∃ tagged : Tagged,
    value.cells (newRow x mode new) = [tagged.kind, tagged.value, tagged.currency] ∧
      (tagged = ⟨"", "", ""⟩ ∨ ∃ choice ∈ value.choices, ∃ found : Element,
        x.path? new (value.path ++ choice.place) = some found ∧
          tagged = choice.read x found) := by
  rw [cells_newRow]
  cases hvalue : (value.node? x new).bind (value.resolve x) with
  | none => exact ⟨⟨"", "", ""⟩, rfl, Or.inl rfl⟩
  | some tagged =>
    obtain ⟨e, he, hresolve⟩ := Option.bind_eq_some_iff.1 hvalue
    obtain ⟨choice, hchoice, found, hfound, htagged⟩ := exists_of_resolve hresolve
    refine ⟨tagged, rfl, Or.inr ⟨choice, hchoice, found, ?_, htagged⟩⟩
    rw [Lookup.path?_append, path?_of_node? he, Option.bind_some, hfound]

/-- The element of a value, where something is hidden behind it. -/
theorem node?_cases {value : TaggedValue} {hidden : List (List String)} (hnil : [] ∉ hidden)
    (h : x.AgreeOff (hidden.map (value.path ++ ·)) a b) :
    (value.node? x a = none ∧ value.node? x b = none) ∨
      ∃ c d, value.node? x a = some c ∧ value.node? x b = some d ∧ x.AgreeOff hidden c d := by
  have hcode : value = .strike →
      (x.path? a ["FinInstrm", "Id"]).isSome = (x.path? b ["FinInstrm", "Id"]).isSome := by
    rintro rfl
    refine h.isSome_path? (List.forall_mem_map.2 fun path _ hpre => ?_)
    have hbefore : TaggedValue.strike.path <+: ["FinInstrm", "Id"] :=
      (List.prefix_append _ path).trans hpre
    exact absurd hbefore (by decide)
  have hvoid : (value = .strike ∧ (x.path? a ["FinInstrm", "Id"]).isSome) =
      (value = .strike ∧ (x.path? b ["FinInstrm", "Id"]).isSome) :=
    propext (and_congr_right fun hstrike => by rw [hcode hstrike])
  simp only [TaggedValue.node?, hvoid]
  split
  · exact Or.inl ⟨rfl, rfl⟩
  · exact h.path?_cases_of_below hnil

/-- The cells of a value in one of its alternatives stay, whatever is said of those after it. -/
theorem cells_of_retouched {value : TaggedValue} {inner : List Element}
    (hchoices : value.choices = higher ++ choice :: lower)
    (hfound : (x.path? new (value.path ++ choice.place)).isSome)
    (h : Retouched (lower.map (value.path ++ ·.place)) new.children inner) :
    value.cells (newRow x mode { new with children := inner }) =
      value.cells (newRow x mode new) := by
  have hnil : [] ∉ lower.map Choice.place := by
    have hapart := value.pairwise_choices
    rw [hchoices, List.pairwise_append, List.pairwise_cons] at hapart
    rw [List.mem_map]
    rintro ⟨d, hd, hplace⟩
    exact (hapart.2.1.1 d hd).2.2 (hplace ▸ List.nil_prefix)
  have hagree : x.AgreeOff ((lower.map Choice.place).map (value.path ++ ·)) new
      { new with children := inner } := by
    rw [List.map_map]
    exact agreeOff_of_retouched h
  rw [cells_newRow, cells_newRow]
  obtain ⟨ha, hb⟩ | ⟨c, d, ha, hb, hcd⟩ := node?_cases hnil hagree
  · rw [ha, hb]
  · rw [Lookup.path?_append, path?_of_node? ha, Option.bind_some] at hfound
    rw [ha, hb, Option.bind_some, Option.bind_some, resolve_congr hchoices hfound hcd]

/-- The kind, the value and the currency of a quantity, a price or a strike price belong together.
There is no value without a kind, and all three are blank or read from one alternative. An
alternative that is there decides on them : they stay the same when anything is put behind an
earlier element of the same name, or when alternatives after it come, go or change. -/
theorem newRow_kinds (x : Lookup) (mode : ClientMode) :
    (∀ (value : TaggedValue) (new : Element), ∃ tagged : Tagged,
      value.cells (newRow x mode new) = [tagged.kind, tagged.value, tagged.currency] ∧
      (tagged.value ≠ "" → tagged.kind ≠ "") ∧
      (tagged = ⟨"", "", ""⟩ ∨ ∃ choice ∈ value.choices, ∃ found : Element,
        x.path? new (value.path ++ choice.place) = some found ∧
          tagged = choice.read x found)) ∧
    ∀ (value : TaggedValue) (higher : List Choice) (choice : Choice) (lower : List Choice),
      value.choices = higher ++ choice :: lower → ∀ (new : Element) (inner : List Element),
        (x.path? new (value.path ++ choice.place)).isSome →
        Retouched (lower.map (value.path ++ ·.place)) new.children inner →
        value.cells (newRow x mode { new with children := inner }) =
          value.cells (newRow x mode new) := by
  refine ⟨fun value new => ?_, fun value higher choice lower hchoices new inner hfound h =>
    cells_of_retouched hchoices hfound h⟩
  obtain ⟨tagged, hcells, hsource⟩ := exists_tagged mode value new
  refine ⟨tagged, hcells, ?_, hsource⟩
  obtain rfl | ⟨choice, hchoice, found, -, rfl⟩ := hsource
  · exact fun hvalue => absurd rfl hvalue
  · exact value.kind_ne choice hchoice found

/-- A new transaction with a nominal value as its quantity. -/
def nominalOrder : Element :=
  .branch "u" "New" [.branch "u" "Tx" [.branch "u" "Qty" [
    .branch "u" "NmnlVal" [.leaf "u" "Amt" "5"]]]]

/-- The same transaction with a monetary value in front and another nominal value behind. -/
def crowdedOrder : Element :=
  .branch "u" "New" [.branch "u" "Tx" [.branch "u" "Qty" [
    .leaf "u" "MntryVal" "7", .branch "u" "NmnlVal" [.leaf "u" "Amt" "5"],
    .leaf "u" "NmnlVal" "9"]]]

theorem newRow_kinds_crowdedOrder :
    ((Lookup.path? ⟨"u"⟩ nominalOrder ["Tx", "Qty", "NmnlVal"]).isSome ∧
      Retouched [["Tx", "Qty", "MntryVal"]] nominalOrder.children crowdedOrder.children) ∧
    TaggedValue.quantity.cells (newRow ⟨"u"⟩ .nnip crowdedOrder) =
      TaggedValue.quantity.cells (newRow ⟨"u"⟩ .nnip nominalOrder) ∧
    TaggedValue.quantity.cells (newRow ⟨"u"⟩ .nnip nominalOrder) = ["NOMI", "5", ""] := by
  have hbehind : Retouched [["MntryVal"]]
      ([.branch "u" "NmnlVal" [.leaf "u" "Amt" "5"]] ++ [])
      ([.branch "u" "NmnlVal" [.leaf "u" "Amt" "5"]] ++ [.leaf "u" "NmnlVal" "9"]) :=
    .behind (List.mem_singleton_self _) rfl rfl
  have hhidden : Retouched [["MntryVal"]]
      ([] ++ [.branch "u" "NmnlVal" [.leaf "u" "Amt" "5"], .leaf "u" "NmnlVal" "9"])
      ([] ++ .leaf "u" "MntryVal" "7" ::
        [.branch "u" "NmnlVal" [.leaf "u" "Amt" "5"], .leaf "u" "NmnlVal" "9"]) :=
    .hidden (List.mem_singleton_self _)
  have htrade : Retouched [["Qty", "MntryVal"]]
      ([] ++ .branch "u" "Qty" [.branch "u" "NmnlVal" [.leaf "u" "Amt" "5"]] :: [])
      ([] ++ .branch "u" "Qty" [.leaf "u" "MntryVal" "7",
        .branch "u" "NmnlVal" [.leaf "u" "Amt" "5"], .leaf "u" "NmnlVal" "9"] :: []) :=
    .inside (by simp [Element.branch]) (hbehind.trans hhidden)
  have hnew : Retouched [["Tx", "Qty", "MntryVal"]] ([] ++ nominalOrder.children)
      ([] ++ crowdedOrder.children) :=
    .inside (by simp [Element.branch]) htrade
  exact ⟨⟨rfl, hnew⟩, (newRow_kinds ⟨"u"⟩ .nnip).2 .quantity [.ofText ["Unit"] "UNIT"]
    (.ofAmount ["NmnlVal"] "NOMI") [.ofAmount ["MntryVal"] "MONE"] rfl nominalOrder _ rfl hnew, rfl⟩

end MifirReport.Report
