import MifirReport.Proofs.Report.Kinds

/-!
# A row depends on what lookups tell apart

Every reading of a report respects lookups : amounts, values of several kinds, identities, traders,
underlyings, and so each cell of a row (`respects_newCell`, `respects_cancellationCell`). Alike
transaction elements have the same row, or the same error where they have none.

`mapElement_indifferent` states this together with what it means for documents : the order of
siblings with different names and elements of other namespaces, at any depth, do not count.
-/

namespace MifirReport.Report

open Xml Xml.Lookup Table Client

variable {x : Lookup}

/-! ## Amounts and values of several kinds -/

/-- An alternative is found and read through lookups alone. -/
theorem respects_resolve (alternatives : List Alternative) :
    x.Respects (resolve x · alternatives) := by
  intro a b h
  have hread : ∀ alternative : Alternative, (x.child? a alternative.tag).map (alternative.read x) =
      (x.child? b alternative.tag).map (alternative.read x) :=
    fun alternative => (followsPaths_read alternative).respects.map_eq (h.child? alternative.tag)
  simp only [resolve, hread]

/-- A price is in `Pric`, or else announced in `NoPric`, and lookups find both. -/
theorem respects_resolvePrice (pending : Pending) : x.Respects (resolvePrice x · pending) := by
  intro a b h
  obtain ⟨ha, hb⟩ | ⟨c, d, ha, hb, hcd⟩ := h.child?_cases "Pric"
  · have hpending := (followsPaths_pendingPrice pending).respects.map_eq (h.child? "NoPric")
    simp only [resolvePrice, ha, hb, hpending]
  · simp only [resolvePrice, ha, hb, respects_resolve priceAlternatives hcd]

/-! ## Identities, parties and traders -/

/-- The name of a scheme is a listed code, or else a proprietary one. -/
theorem respects_schemeCode : x.Respects (schemeCode x) := by
  intro a b h
  obtain ⟨ha, hb⟩ | ⟨c, d, ha, hb, hcd⟩ := h.child?_cases "SchmeNm"
  · simp only [schemeCode, ha, hb]
  · obtain ⟨hc, hd⟩ | ⟨code, code', hc, hd, hcode⟩ := hcd.child?_cases "Cd"
    · simp only [schemeCode, ha, hb, hc, hd, hcd.text "Prtry"]
    · simp only [schemeCode, ha, hb, hc, hd, hcode.text_eq]

theorem respects_personScheme : x.Respects (personScheme x) :=
  fun _ _ h => respects_schemeCode.elim_eq (h.child? "Othr") ""

theorem respects_readPerson : x.Respects (readPerson x) := by
  intro a b h
  rw [readPerson, readPerson, h.text "FrstNm", h.text "Nm", h.text "BirthDt"]

/-- Each form of an identity is read from the children of its holder. -/
theorem respects_identityForm (form : IdentityForm) : x.Respects (form.read x) := by
  intro a b h
  cases form with
  | lei =>
    refine Respects.map_eq (fun c d hcd => ?_) (h.child? "LEI")
    rw [hcd.text_eq]
  | mic =>
    refine Respects.map_eq (fun c d hcd => ?_) (h.child? "MIC")
    rw [hcd.text_eq]
  | person =>
    refine Respects.map_eq (fun c d hcd => ?_) (h.child? "Prsn")
    rw [respects_personScheme hcd, hcd.pathText, respects_readPerson hcd]
  | international => simp only [IdentityForm.read, h.text "Intl"]

/-- The first form that an identity has is the first that one alike has. -/
theorem respects_resolveIdentity (forms : List IdentityForm) :
    x.Respects (resolveIdentity x · forms) := by
  intro a b h
  have hread : ∀ form : IdentityForm, form.read x a = form.read x b :=
    fun form => respects_identityForm form h
  simp only [resolveIdentity, funext hread]

/-- The identity of an owner is in a child of it, that of a decision maker in the party itself. -/
theorem respects_partyIdentity (role : PartyRole) : x.Respects (partyIdentity x role) := by
  intro a b h
  cases role with
  | owner => exact (respects_resolveIdentity ownerForms).elim_eq (h.child? "Id") {}
  | decisionMaker => exact respects_resolveIdentity decisionMakerForms h

/-- A person comes before an algorithm and that before the client, in elements that are alike just
as well. -/
theorem respects_resolveTrader (allowClient : Bool) :
    x.Respects (resolveTrader x · allowClient) := by
  intro a b h
  obtain ⟨ha, hb⟩ | ⟨c, d, ha, hb, hcd⟩ := h.child?_cases "Prsn"
  · obtain ⟨ha', hb'⟩ | ⟨c, d, ha', hb', hcd⟩ := h.child?_cases "Algo"
    · simp only [resolveTrader, ha, hb, ha', hb', h.has_eq]
    · simp only [resolveTrader, ha, hb, ha', hb', hcd.text_eq]
  · simp only [resolveTrader, ha, hb, respects_personScheme hcd, hcd.pathText ["Othr", "Id"],
      hcd.text "CtryOfBrnch"]

/-- The parties in a role are alike one by one. -/
theorem forall₂_parties {a b : Element} (h : x.Alike a b) (side : Side) (role : PartyRole) :
    List.Forall₂ x.Alike (parties x a side role) (parties x b side role) := by
  obtain ⟨ha, hb⟩ | ⟨c, d, ha, hb, hcd⟩ := h.child?_cases (sideTag side)
  · simp only [parties, ha, hb]
    exact .nil
  · simp only [parties, ha, hb]
    exact hcd.children (roleTag role)

/-! ## Underlyings -/

/-- An index has the name of its reference rate, in either of the two places. -/
theorem respects_indexName? : x.Respects (indexName? x) := by
  intro a b h
  refine Respects.bind_eq (fun c d hcd => ?_) (h.path? ["Nm", "RefRate"])
  exact respects_elementText.map_eq (rel_or (hcd.child? "Indx") (hcd.child? "Nm"))

theorem respects_indexTerm? : x.Respects (indexTerm? x) := by
  intro a b h
  refine Respects.bind_eq (fun c d hcd => ?_) (h.path? ["Nm", "Term"])
  obtain ⟨hc, hd⟩ | ⟨value, value', hc, hd, hvalue⟩ := hcd.child?_cases "Val"
  · simp only [hc, hd]
  · obtain ⟨hc', hd'⟩ | ⟨unit, unit', hc', hd', hunit⟩ := hcd.child?_cases "Unit"
    · simp only [hc, hd, hc', hd']
    · simp only [hc, hd, hc', hd', hvalue.text_eq, hunit.text_eq]

theorem respects_signedText (sign : String) : x.Respects fun e => sign ++ e.text :=
  respects_elementText.comp (sign ++ ·)

/-- A single underlying states a code, a name and a term at most. -/
theorem respects_singleUnderlying (sign : String) : x.Respects (singleUnderlying x sign) := by
  intro a b h
  have hcodes := (respects_signedText sign).mapAll_eq
    (forall₂_toList (rel_or (h.child? "ISIN") (h.path? ["Indx", "ISIN"])))
  have hname := respects_indexName?.bind_eq (h.child? "Indx")
  have hterm := respects_indexTerm?.bind_eq (h.child? "Indx")
  simp only [singleUnderlying, hcodes, hname, hterm]

/-- Whether a basket has codes of its own is told from the number of them, and that is the same. -/
theorem respects_basketUnderlyings (sign : String) : x.Respects (basketUnderlyings x sign) := by
  intro a b h
  have hindices := h.children "Indx"
  have hown := h.children "ISIN"
  have hempty : (x.children a "ISIN").isEmpty = (x.children b "ISIN").isEmpty := by
    rw [Bool.eq_iff_iff, List.isEmpty_iff_length_eq_zero, List.isEmpty_iff_length_eq_zero,
      hown.length_eq]
  have hcodes : List.Forall₂ x.Alike
      (if (x.children a "ISIN").isEmpty then (x.children a "Indx").filterMap (x.child? · "ISIN")
        else x.children a "ISIN")
      (if (x.children b "ISIN").isEmpty then (x.children b "Indx").filterMap (x.child? · "ISIN")
        else x.children b "ISIN") := by
    rw [hempty]
    split
    · exact List.rel_filterMap (fun _ _ hcd => hcd.child? "ISIN") hindices
    · exact hown
  simp only [basketUnderlyings, (respects_signedText sign).mapAll_eq hcodes,
    respects_indexName?.filterMap_eq hindices, respects_indexTerm?.filterMap_eq hindices]

/-- A leg rests on a single underlying, or else on a basket. -/
theorem respects_legUnderlyings (sign : String) : x.Respects (legUnderlyings x sign) := by
  intro a b h
  obtain ⟨ha, hb⟩ | ⟨c, d, ha, hb, hcd⟩ := h.child?_cases "Sngl"
  · simp only [legUnderlyings, ha, hb]
    exact (respects_basketUnderlyings sign).elim_eq (h.child? "Bskt") {}
  · simp only [legUnderlyings, ha, hb, respects_singleUnderlying sign hcd]

/-- The legs of a swap are read one by one, each with its sign. -/
theorem respects_swapUnderlyings : x.Respects (swapUnderlyings x) := by
  intro a b h
  rw [swapUnderlyings, swapUnderlyings,
    (respects_legUnderlyings "+").elim_eq (h.child? "SwpIn"),
    (respects_legUnderlyings "-").elim_eq (h.child? "SwpOut")]

/-! ## Cells -/

theorem respects_flagText (tag : String) (style : FlagCase) :
    x.Respects (flagText x · tag style) :=
  fun _ _ h => (respects_elementText.comp (normalizeFlag · style)).elim_eq (h.child? tag) ""

theorem respects_listText (tag : String) : x.Respects (listText x · tag) := by
  intro a b h
  simp only [listText, respects_elementText.mapAll_eq (h.children tag)]

theorem respects_transmissionCell (field : TransmissionField) :
    x.Respects (transmissionCell x · field) := by
  cases field with
  | indicator => exact respects_flagText "TrnsmssnInd" .title
  | buyer => exact respects_text "TrnsmttgBuyr"
  | seller => exact respects_text "TrnsmttgSellr"

theorem respects_upFrontPayment? : x.Respects (upFrontPayment? x) := by
  intro a b h
  rw [upFrontPayment?, upFrontPayment?,
    followsPaths_signedAmount.respects.map_eq (h.child? "UpFrntPmt")]

/-- Each cell of the trade is a text, or a part of a value of several kinds. -/
theorem respects_tradeCell (field : TradeField) : x.Respects (tradeCell x · field) := by
  intro a b h
  cases field with
  | time => exact respects_text "TradDt" h
  | capacity => exact respects_text "TradgCpcty" h
  | quantity field =>
    have hquantity := (respects_resolve quantityAlternatives).bind_eq (h.child? "Qty")
    simp only [tradeCell, hquantity]
  | notionalChange => exact respects_text "DerivNtnlChng" h
  | price field =>
    have hprice := (respects_resolvePrice .onlyPending).bind_eq (h.child? "Pric")
    simp only [tradeCell, hprice]
  | netAmount => exact respects_text "NetAmt" h
  | venue => exact respects_text "TradVn" h
  | branchCountry => exact respects_text "CtryOfBrnch" h
  | upFrontAmount => simp only [tradeCell, respects_upFrontPayment? h]
  | upFrontCurrency => simp only [tradeCell, respects_upFrontPayment? h]
  | component => exact respects_text "CmplxTradCmpntId" h

/-- The other currency is that of interest, or else that of foreign exchange. -/
theorem respects_otherNotionalCurrency : x.Respects (otherNotionalCurrency x) := by
  intro a b h
  refine Respects.elim_eq (fun c d hcd => ?_) (h.child? "AsstClssSpcfcAttrbts") ""
  exact (respects_text "OthrNtnlCcy").elim_eq (rel_or (hcd.child? "Intrst") (hcd.child? "FX")) ""

theorem respects_generalCell (field : InstrumentField) : x.Respects (generalCell x · field) := by
  intro a b h
  unfold generalCell
  split
  · exact respects_text "Id" h
  · exact respects_text "FullNm" h
  · exact respects_text "ClssfctnTp" h
  · exact respects_text "NtnlCcy" h
  · rfl

/-- Each cell of a derivative is a text, an entry of what it rests on, or a part of its strike
price. -/
theorem respects_derivativeCell (field : InstrumentField) :
    x.Respects (derivativeCell x · field) := by
  intro a b h
  unfold derivativeCell
  split
  · exact respects_otherNotionalCurrency h
  · exact respects_text "PricMltplr" h
  · rename_i field
    exact (respects_swapUnderlyings.comp (Row.joined <| ·.entries field)).elim_eq
      (h.path? ["UndrlygInstrm", "Swp"]) ""
  · exact respects_text "OptnTp" h
  · simp only [(respects_resolvePrice .always).bind_eq (h.child? "StrkPric")]
  · exact respects_text "OptnExrcStyle" h
  · exact respects_text "MtrtyDt" h
  · exact respects_text "XpryDt" h
  · exact respects_text "DlvryTp" h
  · rfl

/-- A code of the instrument takes the place of all that describes the instrument. -/
theorem respects_instrumentCell (field : InstrumentField) :
    x.Respects (instrumentCell x · field) := by
  intro a b h
  obtain ⟨ha, hb⟩ | ⟨c, d, ha, hb, hcd⟩ := h.child?_cases "Id"
  · simp only [instrumentCell, ha, hb]
    refine Respects.elim_eq (fun c d hcd => ?_) (h.child? "Othr") ""
    split
    · exact (respects_generalCell field).elim_eq (hcd.child? "FinInstrmGnlAttrbts") ""
    · exact (respects_derivativeCell field).elim_eq (hcd.child? "DerivInstrmAttrbts") ""
  · simp only [instrumentCell, ha, hb, hcd.text_eq]

theorem respects_indicatorCell (field : IndicatorField) :
    x.Respects (indicatorCell x · field) := by
  cases field with
  | waiver => exact respects_listText "WvrInd"
  | shortSelling => exact respects_text "ShrtSellgInd"
  | postTrade => exact respects_listText "OTCPstTradInd"
  | riskReducing => exact respects_flagText "RskRdcgTx" .title
  | securitiesFinancing => exact respects_flagText "SctiesFincgTxInd" .title

theorem respects_eligibilityCell (field : EligibilityField) :
    x.Respects (eligibilityCell x · field) := by
  cases field with
  | branchLocation => exact respects_text "BrnchLctn"
  | transactionType => exact respects_text "TxTp"
  | lifecycleEvent => exact respects_text "LfcclEvnt"

theorem respects_detailCell (field : DetailField) : x.Respects (detailCell x · field) := by
  cases field with
  | status => exact fun _ _ _ => rfl
  | reference => exact respects_text "TxId"
  | venueReference => exact fun _ _ _ => rfl
  | executingParty => exact respects_text "ExctgPty"
  | investmentFirm => exact respects_flagText "InvstmtPtyInd" .lower

/-- The mode decides what is shown of a trader, and not what is read. -/
theorem respects_traderCell (mode : ClientMode) (role : TraderRole) (field : TraderField) :
    x.Respects (traderCell x mode · role field) := by
  intro a b h
  have htrader : trader x a role = trader x b role :=
    (respects_resolveTrader _).elim_eq (h.child? (traderTag role)) {}
  simp only [traderCell, htrader]

/-! ## Rows -/

/-- Each cell of a new transaction is the same for alike elements. -/
theorem respects_newCell (mode : ClientMode) (column : Column) :
    x.Respects (newCell x mode · column) := by
  intro a b h
  cases column with
  | detail field => exact respects_detailCell field h
  | party side role field =>
    have hentry : x.Respects fun party => (partyIdentity x role party).entry field :=
      (respects_partyIdentity role).comp (Identity.entry · field)
    simp only [newCell, partyCell, hentry.mapAll_eq (forall₂_parties h side role)]
  | ownerCountry side =>
    simp only [newCell, ownerCountryCell,
      (respects_text "CtryOfBrnch").mapAll_eq (forall₂_parties h side .owner)]
  | transmission field =>
    exact (respects_transmissionCell field).elim_eq (h.child? "OrdrTrnsmssn") ""
  | trade field => exact (respects_tradeCell field).elim_eq (h.child? "Tx") ""
  | instrument field => exact (respects_instrumentCell field).elim_eq (h.child? "FinInstrm") ""
  | trader role field => exact respects_traderCell mode role field h
  | indicator field => exact (respects_indicatorCell field).elim_eq (h.child? "AddtlAttrbts") ""
  | eligibility field =>
    exact (respects_eligibilityCell field).elim_eq (h.child? "ElgbltyDtrmntnAttrbts") ""

/-- Each cell of a cancellation is the same for alike elements. -/
theorem respects_cancellationCell (column : Column) :
    x.Respects (cancellationCell x · column) := by
  intro a b h
  unfold cancellationCell
  split
  · rfl
  · exact respects_text "TxId" h
  · exact respects_text "ExctgPty" h
  · rfl

/-- What a transaction element is, and whether it has a row at all, is a matter of lookups. -/
theorem respects_mapElement (mode : ClientMode) (index : Nat) :
    x.Respects (mapElement x mode · index) := by
  intro a b h
  obtain ⟨ha, hb⟩ | ⟨c, d, ha, hb, hcd⟩ := h.child?_cases "New"
  · obtain ⟨ha', hb'⟩ | ⟨c, d, ha', hb', hcd⟩ := h.child?_cases "Cxl"
    · simp only [mapElement, Transaction.ofElement, Kind.tag, ha, hb, ha', hb']
    · have hrow : cancellationCell x c = cancellationCell x d :=
        funext fun column => respects_cancellationCell column hcd
      simp only [mapElement, Transaction.ofElement, Kind.tag, ha, hb, ha', hb', Except.map,
        Transaction.row, hrow]
  · have hrow : newCell x mode c = newCell x mode d :=
      funext fun column => respects_newCell mode column hcd
    simp only [mapElement, Transaction.ofElement, Kind.tag, ha, hb, Except.map, Transaction.row,
      hrow]

/-- Transaction elements that lookups do not tell apart have the same row, or fail in the same way.
In particular a row does not change when siblings with different names are put into another order,
or when elements of another namespace are put in or taken out, at any depth. -/
theorem mapElement_indifferent (x : Lookup) (mode : ClientMode) (index : Nat) :
    (∀ a b : Element, x.Alike a b → mapElement x mode a index = mapElement x mode b index) ∧
      ∀ (e : Element) (inner : List Element), x.Rearranged e.children inner →
        mapElement x mode { e with children := inner } index = mapElement x mode e index :=
  ⟨fun _ _ h => respects_mapElement mode index h,
    fun _ _ h => respects_mapElement mode index h.alike.symm⟩

/-- A transaction with a waiver of another namespace between two others. -/
def strayWaiver : Element :=
  .branch "u" "Tx" [.branch "u" "New" [
    .branch "u" "AddtlAttrbts"
      [.leaf "u" "WvrInd" "A", .leaf "v" "WvrInd" "B", .leaf "u" "WvrInd" "C"],
    .leaf "u" "TxId" "R"]]

/-- The same transaction without that waiver, and with the reference in front. -/
def plainWaivers : Element :=
  .branch "u" "Tx" [.branch "u" "New" [
    .leaf "u" "TxId" "R",
    .branch "u" "AddtlAttrbts" [.leaf "u" "WvrInd" "A", .leaf "u" "WvrInd" "C"]]]

theorem mapElement_indifferent_waivers :
    (Lookup.Alike ⟨"u"⟩ strayWaiver plainWaivers ∧
        mapElement ⟨"u"⟩ .nnip strayWaiver 1 = mapElement ⟨"u"⟩ .nnip plainWaivers 1) ∧
      Lookup.Rearranged ⟨"u"⟩ strayWaiver.children plainWaivers.children ∧
        mapElement ⟨"u"⟩ .standard plainWaivers 1 = mapElement ⟨"u"⟩ .standard strayWaiver 1 := by
  have hwaivers : Lookup.Rearranged ⟨"u"⟩
      ([.leaf "u" "WvrInd" "A"] ++ [.leaf "u" "WvrInd" "C"])
      ([.leaf "u" "WvrInd" "A"] ++ .leaf "v" "WvrInd" "B" :: [.leaf "u" "WvrInd" "C"]) :=
    .insert (by decide)
  have hblock : Lookup.Rearranged ⟨"u"⟩
      ([] ++ .branch "u" "AddtlAttrbts"
        [.leaf "u" "WvrInd" "A", .leaf "v" "WvrInd" "B", .leaf "u" "WvrInd" "C"] ::
        [.leaf "u" "TxId" "R"])
      ([] ++ .branch "u" "AddtlAttrbts" [.leaf "u" "WvrInd" "A", .leaf "u" "WvrInd" "C"] ::
        [.leaf "u" "TxId" "R"]) :=
    .inside hwaivers.symm
  have hcontent := hblock.trans (.swap (by decide))
  have hnew : Lookup.Rearranged ⟨"u"⟩ ([] ++ strayWaiver.children) ([] ++ plainWaivers.children) :=
    .inside hcontent
  exact ⟨⟨hnew.alike, (mapElement_indifferent ⟨"u"⟩ .nnip 1).1 _ _ hnew.alike⟩,
    hnew, (mapElement_indifferent ⟨"u"⟩ .standard 1).2 _ _ hnew⟩

end MifirReport.Report
