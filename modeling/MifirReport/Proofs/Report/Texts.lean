import MifirReport.Proofs.Report.Blocks

/-!
# Columns that hold texts as they stand

Many columns of a new transaction take over the text of one element, which is found at the end of a
path of tags (`newCell_of_textPath?`), and two of them the texts of all elements with a tag. What is
said of the instrument has two forms. A code of its own is all that counts if there is one
(`newCell_of_code`); else the columns are described by paths again, in two blocks that do not ask
for each other (`newCell_of_describedPath?`).

`newRow_texts` puts this together with the numbers of the columns.
-/

namespace MifirReport.Report

open Xml Table Client

variable {x : Lookup} {mode : ClientMode} {new : Element}

/-! ## One text for a column -/

/-- The path to the text in a column that is not about the instrument. -/
def textPath? : Column → Option (List String)
  | .detail .reference => some ["TxId"]
  | .detail .executingParty => some ["ExctgPty"]
  | .transmission .buyer => some ["OrdrTrnsmssn", "TrnsmttgBuyr"]
  | .transmission .seller => some ["OrdrTrnsmssn", "TrnsmttgSellr"]
  | .trade .time => some ["Tx", "TradDt"]
  | .trade .capacity => some ["Tx", "TradgCpcty"]
  | .trade .notionalChange => some ["Tx", "DerivNtnlChng"]
  | .trade .netAmount => some ["Tx", "NetAmt"]
  | .trade .venue => some ["Tx", "TradVn"]
  | .trade .branchCountry => some ["Tx", "CtryOfBrnch"]
  | .trade .component => some ["Tx", "CmplxTradCmpntId"]
  | .indicator .shortSelling => some ["AddtlAttrbts", "ShrtSellgInd"]
  | .eligibility .branchLocation => some ["ElgbltyDtrmntnAttrbts", "BrnchLctn"]
  | .eligibility .transactionType => some ["ElgbltyDtrmntnAttrbts", "TxTp"]
  | .eligibility .lifecycleEvent => some ["ElgbltyDtrmntnAttrbts", "LfcclEvnt"]
  | _ => none

/-- The text at the end of a path of two tags, from the element in between. -/
theorem pathText_pair (e : Element) (tag inner : String) :
    x.pathText e [tag, inner] = (x.child? e tag).elim "" (x.text · inner) := by
  rw [← List.singleton_append, Lookup.pathText_append, Lookup.path?_singleton]
  simp only [Lookup.pathText_singleton]

theorem newCell_of_textPath? {column : Column} {path : List String}
    (h : textPath? column = some path) (new : Element) :
    newCell x mode new column = x.pathText new path := by
  cases column with
  | detail field =>
    cases field with
    | reference | executingParty =>
      cases h
      exact (x.pathText_singleton ..).symm
    | status | venueReference | investmentFirm => cases h
  | transmission field =>
    cases field with
    | indicator => cases h
    | buyer | seller =>
      cases h
      exact (pathText_pair ..).symm
  | trade field =>
    cases field with
    | quantity | price | upFrontAmount | upFrontCurrency => cases h
    | time | capacity | notionalChange | netAmount | venue | branchCountry | component =>
      cases h
      exact (pathText_pair ..).symm
  | indicator field =>
    cases field with
    | waiver | postTrade | riskReducing | securitiesFinancing => cases h
    | shortSelling =>
      cases h
      exact (pathText_pair ..).symm
  | eligibility field =>
    cases field with
    | branchLocation | transactionType | lifecycleEvent =>
      cases h
      exact (pathText_pair ..).symm
  | party | ownerCountry | instrument | trader => cases h

/-! ## The instrument -/

/-- The path to the text in a column about the instrument, from its description. -/
def describedPath? : Column → Option (List String)
  | .instrument .code => some ["FinInstrmGnlAttrbts", "Id"]
  | .instrument .fullName => some ["FinInstrmGnlAttrbts", "FullNm"]
  | .instrument .classification => some ["FinInstrmGnlAttrbts", "ClssfctnTp"]
  | .instrument .notionalCurrency => some ["FinInstrmGnlAttrbts", "NtnlCcy"]
  | .instrument .priceMultiplier => some ["DerivInstrmAttrbts", "PricMltplr"]
  | .instrument .optionType => some ["DerivInstrmAttrbts", "OptnTp"]
  | .instrument .exerciseStyle => some ["DerivInstrmAttrbts", "OptnExrcStyle"]
  | .instrument .maturityDate => some ["DerivInstrmAttrbts", "MtrtyDt"]
  | .instrument .expiryDate => some ["DerivInstrmAttrbts", "XpryDt"]
  | .instrument .deliveryType => some ["DerivInstrmAttrbts", "DlvryTp"]
  | _ => none

/-- A cell about an instrument that has a code of its own. -/
theorem newCell_of_code {id : Element} (h : x.path? new ["FinInstrm", "Id"] = some id)
    (field : InstrumentField) :
    newCell x mode new (.instrument field) = if field = .code then id.text else "" := by
  obtain ⟨instrument, hinstrument, hid⟩ := Option.bind_eq_some_iff.1 h
  rw [Lookup.path?_singleton] at hid
  simp only [newCell, hinstrument, Option.elim_some, instrumentCell, hid]

/-- A cell about an instrument without a code of its own is read from its description. -/
theorem newCell_of_no_code (h : x.path? new ["FinInstrm", "Id"] = none)
    (field : InstrumentField) :
    newCell x mode new (.instrument field) =
      (x.path? new ["FinInstrm", "Othr"]).elim "" fun other =>
        if isGeneral field then
          (x.child? other "FinInstrmGnlAttrbts").elim "" (generalCell x · field)
        else (x.child? other "DerivInstrmAttrbts").elim "" (derivativeCell x · field) := by
  rw [Lookup.path?] at h ⊢
  cases hinstrument : x.child? new "FinInstrm" with
  | none => simp only [newCell, hinstrument, Option.elim_none, Option.bind_none]
  | some instrument =>
    rw [hinstrument, Option.bind_some, Lookup.path?_singleton] at h
    simp only [newCell, hinstrument, Option.elim_some, Option.bind_some, Lookup.path?_singleton,
      instrumentCell, h]

theorem newCell_of_describedPath? {column : Column} {path : List String}
    (h : describedPath? column = some path) (hcode : x.path? new ["FinInstrm", "Id"] = none) :
    newCell x mode new column = x.pathText new (["FinInstrm", "Othr"] ++ path) := by
  cases column with
  | instrument field =>
    rw [newCell_of_no_code hcode, Lookup.pathText_append]
    congr 1
    funext other
    cases field with
    | otherNotionalCurrency | underlying | strike => cases h
    | code | fullName | classification | notionalCurrency | priceMultiplier | optionType |
      exerciseStyle | maturityDate | expiryDate | deliveryType =>
      cases h
      exact (pathText_pair ..).symm
  | detail | party | ownerCountry | transmission | trade | trader | indicator | eligibility =>
    cases h

/-- The path to the attributes of a class of derivatives. -/
def classPath : List String :=
  ["FinInstrm", "Othr", "DerivInstrmAttrbts", "AsstClssSpcfcAttrbts"]

/-- The second notional currency stands in the attributes for interest rates, or else in those for
currencies. -/
theorem newCell_otherNotionalCurrency (hcode : x.path? new ["FinInstrm", "Id"] = none) :
    newCell x mode new (.instrument .otherNotionalCurrency) =
      ((x.path? new (classPath ++ ["Intrst"])).or (x.path? new (classPath ++ ["FX"]))).elim ""
        (x.text · "OthrNtnlCcy") := by
  have hclass : classPath =
      ["FinInstrm", "Othr"] ++ ["DerivInstrmAttrbts", "AsstClssSpcfcAttrbts"] := rfl
  rw [newCell_of_no_code hcode, Lookup.path?_append, Lookup.path?_append, hclass,
    Lookup.path?_append]
  cases x.path? new ["FinInstrm", "Othr"] with
  | none => rfl
  | some other =>
    simp only [Option.elim_some, Option.bind_some, isGeneral, derivativeCell,
      otherNotionalCurrency, Lookup.path?, Bool.false_eq_true, if_false]
    cases x.child? other "DerivInstrmAttrbts" with
    | none => rfl
    | some derivative =>
      simp only [Option.elim_some, Option.bind_some]
      cases x.child? derivative "AsstClssSpcfcAttrbts" with
      | none => rfl
      | some assetClass => simp only [Option.elim_some, Option.bind_some, Option.bind_fun_some]

/-! ## Rows -/

/-- The columns that hold the text at the end of a path, counted from one. -/
def tagMap : List (Nat × List String) :=
  [(2, ["TxId"]), (4, ["ExctgPty"]), (33, ["OrdrTrnsmssn", "TrnsmttgBuyr"]),
    (34, ["OrdrTrnsmssn", "TrnsmttgSellr"]), (35, ["Tx", "TradDt"]), (36, ["Tx", "TradgCpcty"]),
    (40, ["Tx", "DerivNtnlChng"]), (44, ["Tx", "NetAmt"]), (45, ["Tx", "TradVn"]),
    (46, ["Tx", "CtryOfBrnch"]), (49, ["Tx", "CmplxTradCmpntId"]),
    (76, ["AddtlAttrbts", "ShrtSellgInd"]), (80, ["ElgbltyDtrmntnAttrbts", "BrnchLctn"]),
    (81, ["ElgbltyDtrmntnAttrbts", "TxTp"]), (82, ["ElgbltyDtrmntnAttrbts", "LfcclEvnt"])]

/-- The columns that hold the text at the end of a path in the description of the instrument,
counted from one. -/
def descriptionMap : List (Nat × List String) :=
  [(50, ["FinInstrmGnlAttrbts", "Id"]), (51, ["FinInstrmGnlAttrbts", "FullNm"]),
    (52, ["FinInstrmGnlAttrbts", "ClssfctnTp"]), (53, ["FinInstrmGnlAttrbts", "NtnlCcy"]),
    (55, ["DerivInstrmAttrbts", "PricMltplr"]), (59, ["DerivInstrmAttrbts", "OptnTp"]),
    (63, ["DerivInstrmAttrbts", "OptnExrcStyle"]), (64, ["DerivInstrmAttrbts", "MtrtyDt"]),
    (65, ["DerivInstrmAttrbts", "XpryDt"]), (66, ["DerivInstrmAttrbts", "DlvryTp"])]

/-- The columns that hold the texts of all elements with a tag, counted from one : the tag of the
block and the tag in it. -/
def listMap : List (Nat × String × String) :=
  [(75, "AddtlAttrbts", "WvrInd"), (77, "AddtlAttrbts", "OTCPstTradInd")]

theorem textPath?_between : ∀ entry ∈ tagMap,
    (Column.between entry.1 entry.1).map textPath? = [some entry.2] := by
  decide

theorem describedPath?_between : ∀ entry ∈ descriptionMap,
    (Column.between entry.1 entry.1).map describedPath? = [some entry.2] := by
  decide

/-- The value in a column that is known by its number and by what is said of it. -/
theorem exists_slice_eq {α : Type} {describe : Column → α} {number : Nat} {described : α}
    (h : (Column.between number number).map describe = [described]) (row : Row) :
    ∃ column, describe column = described ∧ row.slice number number = [row.cell column] := by
  obtain ⟨column, hcolumn, hdescribed⟩ := List.map_eq_singleton_iff.1 h
  refine ⟨column, hdescribed, ?_⟩
  rw [Row.slice_eq_map, hcolumn, List.map_singleton]

theorem slice_listMap (new : Element) : ∀ entry ∈ listMap,
    (newRow x mode new).slice entry.1 entry.1 =
      [Row.joined (((x.child? new entry.2.1).elim [] (x.children · entry.2.2)).map
        Element.text)] := by
  have hcell (tag inner : String) :
      (x.child? new tag).elim "" (listText x · inner) =
        Row.joined (((x.child? new tag).elim [] (x.children · inner)).map Element.text) := by
    cases x.child? new tag <;> rfl
  simp only [listMap, List.forall_mem_cons, List.not_mem_nil, false_imp_iff, implies_true,
    and_true, ← hcell]
  exact ⟨rfl, rfl⟩

theorem between_instrument :
    Column.between 50 66 =
      [InstrumentField.code, .fullName, .classification, .notionalCurrency, .otherNotionalCurrency,
        .priceMultiplier, .underlying .code, .underlying .name, .underlying .term, .optionType,
        .strike .kind, .strike .value, .strike .currency, .exerciseStyle, .maturityDate,
        .expiryDate, .deliveryType].map .instrument :=
  rfl

/-- Next to a code of its own nothing else is said of an instrument. -/
theorem slice_of_code {id : Element} (h : x.path? new ["FinInstrm", "Id"] = some id) :
    (newRow x mode new).slice 50 66 = id.text :: List.replicate 16 "" := by
  have hcell : newCell x mode new ∘ Column.instrument =
      fun field => if field = .code then id.text else "" := funext (newCell_of_code h)
  have hrow : (newRow x mode new).cell = newCell x mode new := rfl
  rw [Row.slice_eq_map, between_instrument, List.map_map, hrow, hcell]
  rfl

/-- The columns of a new transaction that take over texts as they stand, by their numbers.
Apart from the instrument, each holds the text at the end of its path, and two hold the texts of all
elements with a tag, in order. A code of the instrument leaves the other columns about it blank.
Without one, the columns of its two blocks hold the texts at the ends of their paths, and the second
notional currency is that for interest rates, if there are attributes for them, or that for
currencies. -/
theorem newRow_texts (x : Lookup) (mode : ClientMode) (new : Element) :
    (∀ entry ∈ tagMap,
      (newRow x mode new).slice entry.1 entry.1 = [x.pathText new entry.2]) ∧
    (∀ entry ∈ listMap,
      (newRow x mode new).slice entry.1 entry.1 =
        [Row.joined (((x.child? new entry.2.1).elim [] (x.children · entry.2.2)).map
          Element.text)]) ∧
    (∀ id, x.path? new ["FinInstrm", "Id"] = some id →
      (newRow x mode new).slice 50 66 = id.text :: List.replicate 16 "") ∧
    (x.path? new ["FinInstrm", "Id"] = none →
      (∀ entry ∈ descriptionMap,
        (newRow x mode new).slice entry.1 entry.1 =
          [x.pathText new (["FinInstrm", "Othr"] ++ entry.2)]) ∧
      (∀ rates, x.path? new (classPath ++ ["Intrst"]) = some rates →
        (newRow x mode new).slice 54 54 = [x.text rates "OthrNtnlCcy"]) ∧
      (x.path? new (classPath ++ ["Intrst"]) = none →
        (newRow x mode new).slice 54 54 = [x.pathText new (classPath ++ ["FX", "OthrNtnlCcy"])])) := by
  have hsecond : (newRow x mode new).slice 54 54 =
      [newCell x mode new (.instrument .otherNotionalCurrency)] := rfl
  refine ⟨fun entry hentry => ?_, slice_listMap new, fun id => slice_of_code, fun hcode =>
    ⟨fun entry hentry => ?_, fun rates hrates => ?_, fun hrates => ?_⟩⟩
  · obtain ⟨column, hpath, hslice⟩ := exists_slice_eq (textPath?_between entry hentry) _
    rw [hslice, ← newCell_of_textPath? hpath new]
    rfl
  · obtain ⟨column, hpath, hslice⟩ := exists_slice_eq (describedPath?_between entry hentry) _
    rw [hslice, ← newCell_of_describedPath? hpath hcode]
    rfl
  · rw [hsecond, newCell_otherNotionalCurrency hcode, hrates]
    rfl
  · have hpath : classPath ++ ["FX", "OthrNtnlCcy"] = (classPath ++ ["FX"]) ++ ["OthrNtnlCcy"] := rfl
    rw [hsecond, newCell_otherNotionalCurrency hcode, hrates, Option.none_or, hpath,
      Lookup.pathText_append]
    simp only [Lookup.pathText_singleton]

/-- A new transaction in an instrument that has a code and is described all the same. -/
def codedOrder : Element :=
  .branch "u" "New" [
    .branch "u" "Tx" [.leaf "u" "TradVn" "XLIS"],
    .branch "u" "AddtlAttrbts" [.leaf "u" "WvrInd" "RFPT", .leaf "u" "WvrInd" "NLIQ"],
    .branch "u" "FinInstrm" [
      .branch "u" "Othr" [
        .branch "u" "FinInstrmGnlAttrbts" [.leaf "u" "FullNm" "IRS"]],
      .leaf "u" "Id" "PT0000000001"]]

/-- A new transaction in an instrument that is described as a derivative in two currencies. -/
def describedOrder : Element :=
  .branch "u" "New" [
    .branch "u" "FinInstrm" [
      .branch "u" "Othr" [
        .branch "u" "DerivInstrmAttrbts" [.leaf "u" "PricMltplr" "100",
          .branch "u" "AsstClssSpcfcAttrbts" [
            .branch "u" "FX" [.leaf "u" "OthrNtnlCcy" "USD"]]]]]]

theorem newRow_texts_orders :
    ((newRow ⟨"u"⟩ .nnip codedOrder).slice 45 45 = ["XLIS"] ∧
      (newRow ⟨"u"⟩ .nnip codedOrder).slice 75 75 = ["RFPT|NLIQ"] ∧
      (newRow ⟨"u"⟩ .nnip codedOrder).slice 50 66 = "PT0000000001" :: List.replicate 16 "") ∧
    (newRow ⟨"u"⟩ .nnip describedOrder).slice 55 55 = ["100"] ∧
      (newRow ⟨"u"⟩ .nnip describedOrder).slice 54 54 = ["USD"] := by
  obtain ⟨htexts, hlists, hcode, -⟩ := newRow_texts ⟨"u"⟩ .nnip codedOrder
  obtain ⟨hdescribed, -, hsecond⟩ := (newRow_texts ⟨"u"⟩ .nnip describedOrder).2.2.2 rfl
  exact ⟨⟨htexts (45, ["Tx", "TradVn"]) (by decide),
      hlists (75, "AddtlAttrbts", "WvrInd") (by decide), hcode _ rfl⟩,
    hdescribed (55, ["DerivInstrmAttrbts", "PricMltplr"]) (by decide), hsecond rfl⟩

end MifirReport.Report
