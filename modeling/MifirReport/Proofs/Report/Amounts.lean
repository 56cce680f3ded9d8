import MifirReport.Proofs.Report.Kinds

/-!
# Signs and currencies of amounts

What amount and what currency an element states is one rule (`StatesAmount`, `StatesCurrency`),
which gives each element one of both (`statesAmount_iff`, `statesCurrency_iff`). Five elements of a
new transaction are read by it : four alternatives for a quantity, a price or a strike price
(`AmountReading.all`), and the payment made up front, which leaves its cells blank where the amount
is empty. `newRow_amounts` states this of rows.
-/

namespace MifirReport.Report

open Xml Table Client

variable {x : Lookup} {mode : ClientMode} {new e n : Element}

/-! ## The rule -/

/-- The amount that an element states : its own text or, if there is one, that of its `Amt`. Only
the latter gets a sign, unless it is empty. -/
inductive StatesAmount (x : Lookup) (n : Element) : String → Prop
  | own : x.child? n "Amt" = none → StatesAmount x n n.text
  | positive {amount : Element} : x.child? n "Amt" = some amount →
      (amount.text = "" ∨ ∀ sign, x.child? n "Sgn" = some sign → sign.text ∉ ["1", "true"]) →
      StatesAmount x n amount.text
  | negative {amount sign : Element} : x.child? n "Amt" = some amount → amount.text ≠ "" →
      x.child? n "Sgn" = some sign → sign.text ∈ ["1", "true"] →
      StatesAmount x n ("-" ++ amount.text)

/-- The currency that an element states : that of its `Amt`, if it has one with a currency, or else
its own. -/
inductive StatesCurrency (x : Lookup) (n : Element) : String → Prop
  | own : x.child? n "Amt" = none → StatesCurrency x n ((n.attribute? "Ccy").getD "")
  | ofAmount {amount : Element} {currency : String} : x.child? n "Amt" = some amount →
      amount.attribute? "Ccy" = some currency → currency ≠ "" → StatesCurrency x n currency
  | ofElement {amount : Element} : x.child? n "Amt" = some amount →
      (amount.attribute? "Ccy").getD "" = "" →
      StatesCurrency x n ((n.attribute? "Ccy").getD "")

/-- The sign is asked for by the text of the first `Sgn`. -/
theorem isNegative_text_iff :
    isNegative (x.text n "Sgn") ↔
      ∃ sign, x.child? n "Sgn" = some sign ∧ sign.text ∈ ["1", "true"] := by
  rw [Lookup.text]
  cases x.child? n "Sgn" with
  | none => simp [isNegative]
  | some sign => simp [isNegative]

theorem statesAmount_signedAmount : StatesAmount x n (signedAmount x n).value := by
  cases hamount : x.child? n "Amt" with
  | none =>
    rw [signedAmount, hamount]
    exact .own hamount
  | some amount =>
    rw [signedAmount, hamount]
    dsimp only
    split
    next h =>
      obtain ⟨sign, hsign, htext⟩ := isNegative_text_iff.1 h.2
      exact .negative hamount h.1 hsign htext
    next h =>
      refine .positive hamount (or_iff_not_imp_left.2 fun htext sign hsign hmem => ?_)
      exact h ⟨htext, isNegative_text_iff.2 ⟨sign, hsign, hmem⟩⟩

/-- Each element states one amount. -/
theorem statesAmount_iff {amount : String} :
    StatesAmount x n amount ↔ amount = (signedAmount x n).value := by
  refine ⟨fun h => ?_, fun h => h ▸ statesAmount_signedAmount⟩
  rw [signedAmount]
  cases h with
  | own hamount => rw [hamount]
  | positive hamount hsign =>
    rw [hamount]
    refine (if_neg fun h => ?_).symm
    obtain ⟨sign, hfound, hmem⟩ := isNegative_text_iff.1 h.2
    exact hsign.elim h.1 fun hnone => hnone sign hfound hmem
  | negative hamount htext hfound hmem =>
    rw [hamount]
    exact (if_pos ⟨htext, isNegative_text_iff.2 ⟨_, hfound, hmem⟩⟩).symm

theorem statesCurrency_signedAmount : StatesCurrency x n (signedAmount x n).currency := by
  cases hamount : x.child? n "Amt" with
  | none =>
    rw [signedAmount, hamount]
    exact .own hamount
  | some amount =>
    rw [signedAmount, hamount]
    dsimp only
    split
    next h =>
      cases hcurrency : amount.attribute? "Ccy" with
      | none => exact absurd (by rw [currencyOf, hcurrency, Option.getD_none]) h
      | some currency =>
        rw [currencyOf, hcurrency, Option.getD_some] at h ⊢
        exact .ofAmount hamount hcurrency h
    next h => exact .ofElement hamount (not_not.1 h)

/-- Each element states one currency. -/
theorem statesCurrency_iff {currency : String} :
    StatesCurrency x n currency ↔ currency = (signedAmount x n).currency := by
  refine ⟨fun h => ?_, fun h => h ▸ statesCurrency_signedAmount⟩
  rw [signedAmount]
  cases h with
  | own hamount =>
    rw [hamount]
    rfl
  | ofAmount hamount hcurrency hne =>
    rw [hamount]
    dsimp only
    rw [currencyOf, hcurrency, Option.getD_some, if_pos hne]
  | ofElement hamount hblank =>
    rw [hamount]
    exact (if_neg (not_not.2 hblank)).symm

/-! ## Where amounts are read -/

/-- An alternative for a value that is an amount : the places that are looked at before, its own
place, and the code of its kind. -/
structure AmountReading where
  value : TaggedValue
  before : List (List String)
  place : List String
  kind : String

/-- The alternatives that are amounts. -/
def AmountReading.all : List AmountReading :=
  [⟨.quantity, [["Unit"]], ["NmnlVal"], "NOMI"⟩,
    ⟨.quantity, [["Unit"], ["NmnlVal"]], ["MntryVal"], "MONE"⟩,
    ⟨.price, [], ["Pric", "MntryVal"], "MONE"⟩, ⟨.strike, [], ["Pric", "MntryVal"], "MONE"⟩]

/-- An element is read as an amount : it is at the place of the alternative, and there is none at
the places before. -/
def AmountReading.Selects (reading : AmountReading) (x : Lookup) (new n : Element) : Prop :=
  ∃ e, reading.value.node? x new = some e ∧ (∀ path ∈ reading.before, x.path? e path = none) ∧
    x.path? e reading.place = some n

theorem exists_choices : ∀ reading ∈ AmountReading.all, ∃ higher lower : List Choice,
    reading.value.choices = higher ++ .ofAmount reading.place reading.kind :: lower ∧
      higher.map Choice.place = reading.before ∧ reading.place ≠ ["NoPric"] := by
  simp only [AmountReading.all, List.forall_mem_cons, List.not_mem_nil, false_imp_iff,
    implies_true, and_true]
  exact ⟨⟨[.ofText ["Unit"] "UNIT"], _, rfl, rfl, by decide⟩,
    ⟨[.ofText ["Unit"] "UNIT", .ofAmount ["NmnlVal"] "NOMI"], _, rfl, rfl, by decide⟩,
    ⟨[], _, rfl, rfl, by decide⟩, ⟨[], _, rfl, rfl, by decide⟩⟩

/-- An alternative is read if it counts and there is none of those before it. -/
theorem resolve_of_first {value : TaggedValue} {higher lower : List Choice} {choice : Choice}
    (hchoices : value.choices = higher ++ choice :: lower)
    (hhigher : ∀ c ∈ higher, x.path? e c.place = none) (hcounts : choice.counts x e)
    (hfound : x.path? e choice.place = some n) :
    value.resolve x e = some (choice.read x n) := by
  have hnone : (higher.filter (Choice.counts x e)).findSome? (·.read? x e) = none := by
    rw [List.findSome?_eq_none_iff]
    intro c hc
    rw [Choice.read?, hhigher c (List.mem_of_mem_filter hc), Option.map_none]
  rw [resolve_eq_or hchoices (by rw [hfound, Option.isSome_some]), hnone, Option.none_or,
    if_pos hcounts, Choice.read?, hfound, Option.map_some]

theorem cells_of_selects {reading : AmountReading} (hmem : reading ∈ AmountReading.all)
    (h : reading.Selects x new n) :
    reading.value.cells (newRow x mode new) =
      [reading.kind, (signedAmount x n).value, (signedAmount x n).currency] := by
  obtain ⟨higher, lower, hchoices, hbefore, hplace⟩ := exists_choices reading hmem
  obtain ⟨e, hnode, hhigher, hfound⟩ := h
  rw [← hbefore, List.forall_mem_map] at hhigher
  have hcounts : (Choice.ofAmount reading.place reading.kind).counts x e = true := by
    simp [Choice.counts, Choice.ofAmount, hplace]
  rw [cells_newRow, hnode, Option.bind_some, resolve_of_first hchoices hhigher hcounts hfound]
  rfl

/-- The payment made up front, unless its amount is empty. -/
theorem slice_upFrontPayment (new : Element) :
    (newRow x mode new).slice 47 48 =
      (((x.path? new ["Tx", "UpFrntPmt"]).map (signedAmount x)).filter (·.value ≠ "")).elim
        ["", ""] fun amount => [amount.value, amount.currency] := by
  have hslice : (newRow x mode new).slice 47 48 =
      [newCell x mode new (.trade .upFrontAmount), newCell x mode new (.trade .upFrontCurrency)] :=
    rfl
  rw [hslice, Lookup.path?]
  simp only [newCell, Lookup.path?_singleton, tradeCell, upFrontPayment?]
  cases x.child? new "Tx" with
  | none => rfl
  | some trade =>
    simp only [Option.elim_some, Option.bind_some]
    cases ((x.child? trade "UpFrntPmt").map (signedAmount x)).filter (·.value ≠ "") <;> rfl

/-- Amounts and currencies in the row of a new transaction. Each element states one amount and one
currency. Where an element is read as a quantity, a price or a strike price, the cells hold what it
states. So do those of the payment made up front, and both are blank if there is none or if its
amount is empty. -/
theorem newRow_amounts (x : Lookup) (mode : ClientMode) (new : Element) :
    (∀ n, (∃! amount, StatesAmount x n amount) ∧ ∃! currency, StatesCurrency x n currency) ∧
    (∀ reading ∈ AmountReading.all, ∀ n, reading.Selects x new n →
      ∀ amount currency, StatesAmount x n amount → StatesCurrency x n currency →
        reading.value.cells (newRow x mode new) = [reading.kind, amount, currency]) ∧
    (∀ n, x.path? new ["Tx", "UpFrntPmt"] = some n →
      ∀ amount currency, StatesAmount x n amount → StatesCurrency x n currency →
        (newRow x mode new).slice 47 48 = if amount = "" then ["", ""] else [amount, currency]) ∧
    (x.path? new ["Tx", "UpFrntPmt"] = none → (newRow x mode new).slice 47 48 = ["", ""]) := by
  refine ⟨fun n => ?_, fun reading hmem n hselects amount currency hamount hcurrency => ?_,
    fun n hn amount currency hamount hcurrency => ?_, fun hnone => ?_⟩
  · simp only [statesAmount_iff, statesCurrency_iff, existsUnique_eq, and_self]
  · rw [statesAmount_iff.1 hamount, statesCurrency_iff.1 hcurrency]
    exact cells_of_selects hmem hselects
  · rw [statesAmount_iff.1 hamount, statesCurrency_iff.1 hcurrency, slice_upFrontPayment, hn,
      Option.map_some, Option.filter_some]
    by_cases hblank : (signedAmount x n).value = "" <;> simp [hblank]
  · rw [slice_upFrontPayment, hnone]
    rfl

/-- A nominal value with a sign, whose currency stands at the amount. -/
def signedNominal : Element :=
  .branch "u" "NmnlVal" [⟨"Amt", "u", [("Ccy", "EUR")], "5", []⟩, .leaf "u" "Sgn" "true"]

/-- A monetary value without parts, with a currency of its own. -/
def plainMonetary : Element :=
  ⟨"MntryVal", "u", [("Ccy", "USD")], "1.5", []⟩

/-- A payment with a sign but without an amount. -/
def emptyPayment : Element :=
  .branch "u" "UpFrntPmt" [⟨"Amt", "u", [("Ccy", "EUR")], "", []⟩, .leaf "u" "Sgn" "1"]

/-- A new transaction with these three. -/
def amountsOrder : Element :=
  .branch "u" "New" [.branch "u" "Tx" [.branch "u" "Qty" [signedNominal],
    .branch "u" "Pric" [.branch "u" "Pric" [plainMonetary]], emptyPayment]]

theorem newRow_amounts_amountsOrder :
    TaggedValue.quantity.cells (newRow ⟨"u"⟩ .nnip amountsOrder) = ["NOMI", "-" ++ "5", "EUR"] ∧
      TaggedValue.price.cells (newRow ⟨"u"⟩ .nnip amountsOrder) = ["MONE", "1.5", "USD"] ∧
      (newRow ⟨"u"⟩ .nnip amountsOrder).slice 47 48 = ["", ""] := by
  obtain ⟨-, hcells, hpayment, -⟩ := newRow_amounts ⟨"u"⟩ .nnip amountsOrder
  have hamount : StatesAmount ⟨"u"⟩ signedNominal ("-" ++ "5") :=
    @StatesAmount.negative _ _ ⟨"Amt", "u", [("Ccy", "EUR")], "5", []⟩ (.leaf "u" "Sgn" "true") rfl
      (by decide) rfl (by decide)
  refine ⟨hcells ⟨.quantity, [["Unit"]], ["NmnlVal"], "NOMI"⟩ (by simp [AmountReading.all])
      signedNominal ⟨_, rfl, List.forall_mem_singleton.2 rfl, rfl⟩ _ _ hamount
      (.ofAmount rfl rfl (by decide)),
    hcells ⟨.price, [], ["Pric", "MntryVal"], "MONE"⟩ (by simp [AmountReading.all])
      plainMonetary ⟨_, rfl, nofun, rfl⟩ _ _ (.own rfl) (.own rfl),
    hpayment emptyPayment rfl _ _ (.positive rfl (.inl rfl)) (.ofAmount rfl rfl (by decide))⟩

end MifirReport.Report
