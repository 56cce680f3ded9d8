import MifirReport.Proofs.Report.Kinds

/-!
# In which order the kinds of a price are tried

The kind of a price or of a strike price is told at one of five places, and the first that is there
is to give it (`firstKind?`). Prices are read in two steps, as the first four places lie in `Pric`
and the last one in `NoPric` : whether there is a `Pric` decides which of the two is looked into.

So the order is kept (`TaggedValue.KeepsOrder`) but for two forms of a price. A `Pric` without any
of its kinds passes over a code in `NoPric` (`PassesOver`), and a currency in `NoPric` goes into the
row when there is no code next to it (`Strays`). `newRow_prices` states that these are the only ones
and what the cells are then.
-/

namespace MifirReport.Report

open Xml Table Client

variable {x : Lookup} {e : Element}

/-! ## The order -/

/-- The places that tell the kind of a price, in order, and the codes of the kinds. What is still to
come has its own text for a code. -/
def kindPlaces : List (List String × Option String) :=
  [(["Pric", "MntryVal"], some "MONE"), (["Pric", "Pctg"], some "PERC"),
    (["Pric", "Yld"], some "YIEL"), (["Pric", "BsisPts"], some "BPNT"), (["NoPric", "Pdg"], none)]

/-- The kind that is told at the first of these places that is there. -/
def firstKind? (x : Lookup) (e : Element) : Option String :=
  kindPlaces.findSome? fun place => (x.path? e place.1).map fun found => place.2.getD found.text

/-- The kind in the cells of a price is the one that is told, or all of them are blank. -/
def KeepsKind (cells : List String) : Option String → Prop
  | some kind => cells.head? = some kind
  | none => cells = ["", "", ""]

/-- The cells of a price in a row keep to the order of the places. -/
def TaggedValue.KeepsOrder (value : TaggedValue) (x : Lookup) (mode : ClientMode) (new : Element) :
    Prop :=
  KeepsKind (value.cells (newRow x mode new)) ((value.node? x new).bind (firstKind? x))

/-- A price is given without any of its kinds, next to a code for one that is still to come. -/
structure PassesOver (x : Lookup) (e : Element) : Prop where
  given : (x.path? e ["Pric"]).isSome
  unknown : ∀ tag ∈ ["MntryVal", "Pctg", "Yld", "BsisPts"], x.path? e ["Pric", tag] = none
  code : x.pathText e ["NoPric", "Pdg"] ≠ ""

/-- There is neither a price nor a code for one that is still to come, but a currency for it. -/
structure Strays (x : Lookup) (e : Element) : Prop where
  missing : x.path? e ["Pric"] = none
  unknown : x.path? e ["NoPric", "Pdg"] = none
  currency : x.pathText e ["NoPric", "Ccy"] ≠ ""

/-! ## One price -/

/-- The value of a price that is given, in the terms of the element around it. -/
def givenPrice? (x : Lookup) (e : Element) : Option Tagged :=
  (x.child? e "Pric").bind (resolve x · priceAlternatives)

theorem kind_read (alternative : Alternative) (found : Element) :
    (alternative.read x found).kind = alternative.kind := by
  rw [Alternative.read]
  cases alternative.reading <;> rfl

/-- A kind is told by the first alternative for a price, or else by a code. -/
theorem firstKind?_eq (e : Element) :
    firstKind? x e =
      ((givenPrice? x e).map Tagged.kind).or ((x.path? e ["NoPric", "Pdg"]).map Element.text) := by
  have hplaces : kindPlaces =
      priceAlternatives.map (fun alternative => (["Pric", alternative.tag], some alternative.kind)) ++
        [(["NoPric", "Pdg"], none)] := rfl
  rw [firstKind?, hplaces, List.findSome?_append, List.findSome?_singleton, List.findSome?_map,
    givenPrice?]
  congr 1
  cases hprice : x.child? e "Pric" with
  | none => simp [Function.comp_def, Lookup.path?, hprice]
  | some price =>
    have htold (alternative : Alternative) :
        (x.path? e ["Pric", alternative.tag]).map (fun _ => alternative.kind) =
          ((x.child? price alternative.tag).map (alternative.read x)).map Tagged.kind := by
      rw [Lookup.path?, hprice, Option.bind_some, Lookup.path?_singleton, Option.map_map]
      exact Option.map_congr fun found _ => (kind_read alternative found).symm
    simp only [Function.comp_def, Option.getD_some, htold, Option.bind_some, resolve,
      List.map_findSome?]

/-- Of a price that is given, none of the alternatives is there. -/
theorem givenPrice?_eq_none_iff :
    givenPrice? x e = none ↔
      ∀ tag ∈ ["MntryVal", "Pctg", "Yld", "BsisPts"], x.path? e ["Pric", tag] = none := by
  have htags : ["MntryVal", "Pctg", "Yld", "BsisPts"] = priceAlternatives.map Alternative.tag := rfl
  rw [htags, List.forall_mem_map, givenPrice?]
  cases hprice : x.child? e "Pric" with
  | none => simp [Lookup.path?, hprice]
  | some price => simp [Lookup.path?, hprice, resolve]

/-- A price that is given is never read as pending. -/
theorem resolvePrice_of_given {price : Element} (h : x.child? e "Pric" = some price)
    (pending : Pending) : resolvePrice x e pending = givenPrice? x e := by
  rw [resolvePrice, givenPrice?, h]
  rfl

/-- A price without a kind passes over the pending one, and nothing is left. -/
theorem resolvePrice_of_passesOver (h : PassesOver x e) (pending : Pending) :
    resolvePrice x e pending = none := by
  obtain ⟨price, hprice⟩ := Option.isSome_iff_exists.1 h.given
  rw [Lookup.path?_singleton] at hprice
  rw [resolvePrice_of_given hprice, givenPrice?_eq_none_iff.2 h.unknown]

/-- A currency that announces no price is read all the same. -/
theorem resolvePrice_of_strays (h : Strays x e) (pending : Pending) :
    resolvePrice x e pending = some ⟨"", "", x.pathText e ["NoPric", "Ccy"]⟩ := by
  obtain ⟨hprice, hcode, hcurrency⟩ := h
  rw [Lookup.path?_singleton] at hprice
  rw [pathText_pair] at hcurrency
  rw [resolvePrice, hprice, pathText_pair]
  cases hpending : x.child? e "NoPric" with
  | none => exact absurd (by rw [hpending, Option.elim_none]) hcurrency
  | some noPrice =>
    rw [Lookup.path?, hpending, Option.bind_some, Lookup.path?_singleton] at hcode
    rw [Option.map_some, pendingPrice, hcode, Option.elim_some]

theorem not_keepsKind_of_passesOver (h : PassesOver x e) (pending : Pending) :
    ¬KeepsKind (Tagged.cells (resolvePrice x e pending)) (firstKind? x e) := by
  rw [resolvePrice_of_passesOver h, firstKind?_eq, givenPrice?_eq_none_iff.2 h.unknown]
  have hcode := h.code
  rw [Lookup.pathText] at hcode
  cases hpath : x.path? e ["NoPric", "Pdg"] with
  | none => exact absurd (by rw [hpath, Option.elim_none]) hcode
  | some code =>
    rw [hpath, Option.elim_some] at hcode
    exact fun hkeeps => hcode (Option.some.inj hkeeps).symm

theorem not_keepsKind_of_strays (h : Strays x e) (pending : Pending) :
    ¬KeepsKind (Tagged.cells (resolvePrice x e pending)) (firstKind? x e) := by
  have hgiven : givenPrice? x e = none := by
    rw [givenPrice?, ← Lookup.path?_singleton, h.missing, Option.bind_none]
  rw [resolvePrice_of_strays h, firstKind?_eq, hgiven, h.unknown]
  intro hkeeps
  have hcells : ["", "", x.pathText e ["NoPric", "Ccy"]] = ["", "", ""] := hkeeps
  simp only [List.cons.injEq, and_true, true_and] at hcells
  exact h.currency hcells

/-- A price that is given keeps to the order if it has a kind. -/
theorem keepsKind_of_given {price : Element} (h : x.child? e "Pric" = some price)
    (hpasses : ¬PassesOver x e) (pending : Pending) :
    KeepsKind (Tagged.cells (resolvePrice x e pending)) (firstKind? x e) := by
  rw [firstKind?_eq, resolvePrice_of_given h]
  cases hgiven : givenPrice? x e with
  | some tagged => rfl
  | none =>
    cases hcode : x.path? e ["NoPric", "Pdg"] with
    | none => rfl
    | some code =>
      have hblank : code.text = "" := by
        by_contra htext
        refine hpasses ⟨?_, givenPrice?_eq_none_iff.1 hgiven, ?_⟩
        · rw [Lookup.path?_singleton, h, Option.isSome_some]
        · rwa [Lookup.pathText, hcode, Option.elim_some]
      exact congrArg some hblank.symm

/-- A price that is missing keeps to the order if a currency does not stray. -/
theorem keepsKind_of_missing (h : x.child? e "Pric" = none) (hstrays : ¬Strays x e)
    (pending : Pending) :
    KeepsKind (Tagged.cells (resolvePrice x e pending)) (firstKind? x e) := by
  rw [firstKind?_eq, resolvePrice, givenPrice?, h, Option.bind_none, Lookup.path?]
  cases hpending : x.child? e "NoPric" with
  | none => rfl
  | some noPrice =>
    rw [Option.bind_some, Lookup.path?_singleton, Option.map_some, pendingPrice]
    cases hcode : x.child? noPrice "Pdg" with
    | some code => rfl
    | none =>
      have hblank : x.text noPrice "Ccy" = "" := by
        by_contra hcurrency
        refine hstrays ⟨?_, ?_, ?_⟩
        · rw [Lookup.path?_singleton, h]
        · rw [Lookup.path?, hpending, Option.bind_some, Lookup.path?_singleton, hcode]
        · rwa [pathText_pair, hpending, Option.elim_some]
      exact congrArg (["", "", ·]) hblank

/-- Reading one price keeps to the order, unless it has one of the two forms. -/
theorem keepsKind_resolvePrice_iff (e : Element) (pending : Pending) :
    KeepsKind (Tagged.cells (resolvePrice x e pending)) (firstKind? x e) ↔
      ¬PassesOver x e ∧ ¬Strays x e := by
  refine ⟨fun hkeeps => ⟨fun h => not_keepsKind_of_passesOver h pending hkeeps,
    fun h => not_keepsKind_of_strays h pending hkeeps⟩, fun ⟨hpasses, hstrays⟩ => ?_⟩
  cases hprice : x.child? e "Pric" with
  | some price => exact keepsKind_of_given hprice hpasses pending
  | none => exact keepsKind_of_missing hprice hstrays pending

/-! ## Rows -/

theorem exists_resolve_eq {value : TaggedValue} (h : value ∈ [TaggedValue.price, .strike]) :
    ∃ pending, ∀ e : Element, value.resolve x e = resolvePrice x e pending := by
  simp only [List.mem_cons, List.not_mem_nil, or_false] at h
  obtain rfl | rfl := h
  · exact ⟨.onlyPending, fun _ => rfl⟩
  · exact ⟨.always, fun _ => rfl⟩

/-- The cells of a price and of a strike price keep to the order of the places just when the price
has neither of the two forms that break it. Then the cells are blank, or only the currency is not.
-/
theorem newRow_prices (x : Lookup) (mode : ClientMode) (new : Element) :
    ∀ value ∈ [TaggedValue.price, .strike],
      (value.KeepsOrder x mode new ↔
        ∀ e, value.node? x new = some e → ¬PassesOver x e ∧ ¬Strays x e) ∧
      ∀ e, value.node? x new = some e →
        (PassesOver x e → value.cells (newRow x mode new) = ["", "", ""]) ∧
        (Strays x e →
          value.cells (newRow x mode new) = ["", "", x.pathText e ["NoPric", "Ccy"]]) := by
  intro value hvalue
  obtain ⟨pending, hresolve⟩ := exists_resolve_eq (x := x) hvalue
  rw [TaggedValue.KeepsOrder, cells_newRow]
  cases hnode : value.node? x new with
  | none => exact ⟨iff_of_true rfl nofun, nofun⟩
  | some e =>
    simp only [Option.bind_some, Option.some.injEq, forall_eq', hresolve]
    refine ⟨keepsKind_resolvePrice_iff e pending, fun h => ?_, fun h => ?_⟩
    · rw [resolvePrice_of_passesOver h]
      rfl
    · rw [resolvePrice_of_strays h]
      rfl

/-- A new transaction whose price is still to come, in a currency that is known. -/
def pendingOrder : Element :=
  .branch "u" "New" [.branch "u" "Tx" [.branch "u" "Pric" [
    .branch "u" "NoPric" [.leaf "u" "Pdg" "PNDG", .leaf "u" "Ccy" "EUR"]]]]

theorem newRow_prices_pendingOrder :
    TaggedValue.price ∈ [TaggedValue.price, .strike] ∧
      TaggedValue.price.KeepsOrder ⟨"u"⟩ .nnip pendingOrder ∧
      TaggedValue.price.cells (newRow ⟨"u"⟩ .nnip pendingOrder) = ["PNDG", "PNDG", "EUR"] := by
  have hprice : TaggedValue.price ∈ [TaggedValue.price, .strike] := by decide
  refine ⟨hprice, (newRow_prices ⟨"u"⟩ .nnip pendingOrder .price hprice).1.2 fun e he => ?_, rfl⟩
  obtain rfl := Option.some.inj he
  exact ⟨fun h => absurd h.given (by decide), fun h => Option.some_ne_none _ h.unknown⟩

/-- A new transaction with a price of no kind, next to the code for a price that does not apply. -/
def passedOrder : Element :=
  .branch "u" "New" [.branch "u" "Tx" [.branch "u" "Pric" [
    .branch "u" "Pric" [], .branch "u" "NoPric" [.leaf "u" "Pdg" "NOAP"]]]]

/-- A new transaction with nothing but the currency of a price that is still to come. -/
def strayOrder : Element :=
  .branch "u" "New" [.branch "u" "Tx" [.branch "u" "Pric" [
    .branch "u" "NoPric" [.leaf "u" "Ccy" "EUR"]]]]

/-- The code of the one is not in its row, and the currency of the other is alone in its row. -/
theorem not_keepsOrder_orders :
    ¬TaggedValue.price.KeepsOrder ⟨"u"⟩ .standard passedOrder ∧
      ¬TaggedValue.price.KeepsOrder ⟨"u"⟩ .standard strayOrder := by
  refine ⟨fun h => ?_, fun h => ?_⟩
  · have hkind : ["", "", ""].head? = some "NOAP" := h
    exact absurd hkind (by decide)
  · have hcells : ["", "", "EUR"] = ["", "", ""] := h
    exact absurd hcells (by decide)

end MifirReport.Report
