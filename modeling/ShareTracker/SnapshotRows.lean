import ShareTracker.PeriodPerformance

/-!
What a stored snapshot of a date holds, and what it is read from: the ledger and
the splits dated by then, the closes it was valued at and the rates it converted
at. Cost bases, and the unrealised gains report stored beside the other two, are
left out. Figures are exact here.
-/
namespace ShareTracker.Snapshots
open Performance ClosingPrices HealthPrices MoneyWeighted
open ShareTracker.Valuation hiding Records

/-! ### The rows -/

/-- The facts recorded, of which the ledger's splits are the recorded actions'. -/
structure Facts where
  ledger : Performance.Book
  prices : ClosingPrices.Book
  markets : List Market
  fx : FxRates
  exchange : ListingId → Exchange
  markets_unique : (markets.map Market.listing).Nodup
  rates_pos : ∀ k, ∀ rate ∈ fx.rates k, 0 < rate
  listed : ∀ t ∈ ledger.trades, ∃ m ∈ markets, m.listing = t.listing

namespace Facts
variable (f : Facts)

def book : Performance.Book := { f.ledger with splits := f.prices.splits }

def records : Performance.Records := f.book.records f.fx

def parcels : List Valuation.ParcelRow :=
  (f.ledger.trades.filter fun t => !t.isSell).map TradeRow.parcel

theorem parcels_listed : ∀ p ∈ f.parcels, ∃ m ∈ f.markets, m.listing = p.listing := by
  intro p hp
  obtain ⟨t, ht, rfl⟩ := List.mem_map.mp hp
  exact f.listed t (List.mem_filter.mp ht).1

def store : Store where
  book := f.prices
  markets := f.markets
  parcels := f.parcels
  allocations := f.ledger.allocations
  fx := f.fx
  exchange := f.exchange
  markets_unique := f.markets_unique
  rates_pos := f.rates_pos
  parcels_listed := f.parcels_listed

end Facts

/-- A row of the performance report, with what its price rests on. -/
structure PerformanceRow where
  figures : HoldingPerformance
  fxProvisional : Bool
  priceCarriedForward : Bool
  priceUnavailable : Option ExcludedHolding

def flagged (resolved : StoredValuations) (row : HoldingPerformance) : PerformanceRow :=
  match row.holding with
  | none => ⟨row, false, false, none⟩
  | some k =>
    { figures := row
      fxProvisional := (valuationOf resolved k.1).any fun v => v.rate.provisional
      priceCarriedForward := (valuationOf resolved k.1).any ListingValuation.priceCarriedForward
      priceUnavailable := resolved.excluded.find? fun x => x.listing = k.1 }

/-- The rows of two of the three reports stored: the overview without its cost
bases, and performance. The third, unrealised gains, is left out. -/
structure SnapshotRows where
  resolved : StoredValuations
  overview : List HoldingOverview
  performance : List PerformanceRow

namespace SnapshotRows

def provisional (rows : SnapshotRows) : Bool :=
  rows.resolved.valuations.any fun v => v.rate.provisional

def priceCarriedForward (rows : SnapshotRows) : Bool :=
  rows.resolved.valuations.any ListingValuation.priceCarriedForward

/-- Whether a listing's price was carried forward. -/
def carries (rows : SnapshotRows) (listing : ListingId) : Bool :=
  rows.resolved.valuations.any fun v => v.priceCarriedForward && decide (v.listing = listing)

end SnapshotRows

inductive GenerateError where
  | nothingHeld (date : NaiveDate)
  | valuation (error : ValuationError)
  | fx (error : FxError)

section Generate
variable (A : RateArithmetic) (clocks : Clocks) (now : Instant) (f : Facts) (date : NaiveDate)

def storedValuations : Except GenerateError StoredValuations := do
  Checked.refuseIf (f.store.heldMarkets date = []) (.nothingHeld date)
  ((f.store.valuing clocks now date).valuationsOfMarkets date).mapError .valuation

/-- What a run for `date` stores of the overview and of performance; the cost bases,
and the unrealised gains they go into, are left out. -/
def generate : Except GenerateError SnapshotRows := do
  let resolved ← storedValuations clocks now f date
  let overview := ((f.store.valuing clocks now date).holdings date).map (Valuation.Records.priced resolved)
  let performance ← (dbPerformance A f.records (pricesOf resolved) date).mapError .fx
  return ⟨resolved, overview, performance.map (flagged resolved)⟩

end Generate

/-! ### What the rows are read from -/

/-- The rows of the ledger dated by then, and the splits, are the same. -/
structure SameUpTo (date : NaiveDate) (f f' : Facts) : Prop where
  trades : f.ledger.trades.filter (fun t => t.date ≤ date) =
    f'.ledger.trades.filter fun t => t.date ≤ date
  income : f.ledger.income.filter (fun i => i.datePaid ≤ date) =
    f'.ledger.income.filter fun i => i.datePaid ≤ date
  allocations : f.ledger.allocations.filter (fun a => a.saleDate ≤ date) =
    f'.ledger.allocations.filter fun a => a.saleDate ≤ date
  splits : ∀ listing, (f.prices.splits listing).filter (fun s => s.date ≤ date) =
    (f'.prices.splits listing).filter fun s => s.date ≤ date
  markets : f.markets = f'.markets
  exchange : f.exchange = f'.exchange

/-! ### Units -/

section Splits
variable {date : NaiveDate} {splits splits' : List SplitEvent}

/-- Only the events up to a date move a count between dates up to it. -/
theorem splitRatio_congr (h : splits.filter (fun s => s.date ≤ date) =
      splits'.filter fun s => s.date ≤ date) (since : NaiveDate) {upTo : NaiveDate}
    (hupTo : upTo ≤ date) :
    splitRatio splits since (some upTo) = splitRatio splits' since (some upTo) := by
  have hdated : ∀ l : List SplitEvent, splitRatio l since (some upTo) =
      splitRatio (l.filter fun s => s.date ≤ date) since (some upTo) := by
    intro l
    unfold splitRatio
    rw [List.foldl_filter]
    refine List.foldl_ext _ _ _ fun r s _ => ?_
    by_cases hs : s.date ≤ date
    · rw [if_pos (decide_eq_true hs)]
    · have hout : inWindow since (some upTo) s.date = false := by
        simp [inWindow, hupTo.trans_lt (not_le.mp hs)]
      simp [hout]
  rw [hdated, h, ← hdated]

theorem rebaseRatio_congr (h : splits.filter (fun s => s.date ≤ date) =
      splits'.filter fun s => s.date ≤ date) {since upTo : NaiveDate} (hsince : since ≤ date)
    (hupTo : upTo ≤ date) :
    rebaseRatio splits (some since) (some upTo) = rebaseRatio splits' (some since) (some upTo) := by
  rw [rebaseRatio, rebaseRatio, splitRatio_congr h since hupTo, splitRatio_congr h upTo hsince]

theorem asAcquired_congr (h : splits.filter (fun s => s.date ≤ date) =
      splits'.filter fun s => s.date ≤ date) (quantity : ℚ) {basis acquired : NaiveDate}
    (hbasis : basis ≤ date) (hacquired : acquired ≤ date) :
    asAcquiredQuantity quantity (some basis) splits acquired =
      asAcquiredQuantity quantity (some basis) splits' acquired := by
  rw [asAcquiredQuantity, asAcquiredQuantity, rebaseRatio_congr h hbasis hacquired]

theorem splitAdjusted_congr (h : splits.filter (fun s => s.date ≤ date) =
      splits'.filter fun s => s.date ≤ date) (quantity : ℚ) {acquired upTo : NaiveDate}
    (hacquired : acquired ≤ date) (hupTo : upTo ≤ date) :
    splitAdjustedQuantity quantity splits acquired (some upTo) =
      splitAdjustedQuantity quantity splits' acquired (some upTo) := by
  rw [splitAdjustedQuantity, splitAdjustedQuantity, rebaseRatio_congr h hacquired hupTo]

theorem sold_congr (h : splits.filter (fun s => s.date ≤ date) =
      splits'.filter fun s => s.date ≤ date) {parcel : Valuation.ParcelRow} (hparcel : parcel.date ≤ date)
    {sales : List Valuation.Allocation} (hsales : ∀ a ∈ sales, a.saleDate ≤ date) :
    soldInAcquiredUnits splits parcel sales = soldInAcquiredUnits splits' parcel sales := by
  have hwalk : ∀ l : List Valuation.Allocation, (∀ a ∈ l, a.saleDate ≤ date) → ∀ sold,
      walkSales splits parcel sold l = walkSales splits' parcel sold l := by
    intro l
    induction l with
    | nil => exact fun _ _ => rfl
    | cons a l ih =>
      intro hl sold
      have ha := hl a List.mem_cons_self
      rw [walkSales, walkSales, splitAdjusted_congr h _ hparcel ha, asAcquired_congr h _ ha hparcel]
      exact ih (fun b hb => hl b (List.mem_cons_of_mem a hb)) _
  exact hwalk _ (fun a ha => hsales a (StableSort.mem_sortBy.mp ha)) 0

end Splits

section Holdings
variable {f f' : Facts} {date : NaiveDate}

theorem SameUpTo.parcels (h : SameUpTo date f f') :
    f.parcels.filter (fun p => p.date ≤ date) = f'.parcels.filter fun p => p.date ≤ date := by
  have hdated : ∀ g : Facts, g.parcels.filter (fun p => p.date ≤ date) =
      ((g.ledger.trades.filter fun t => t.date ≤ date).filter fun t => !t.isSell).map
        TradeRow.parcel := by
    intro g
    unfold Facts.parcels
    rw [List.filter_map, List.filter_comm]
    rfl
  rw [hdated, h.trades, ← hdated]

theorem SameUpTo.salesOf (h : SameUpTo date f f') (id : ℤ) :
    f.ledger.allocations.filter (fun a => a.purchaseTradeId = id ∧ a.saleDate ≤ date) =
      f'.ledger.allocations.filter fun a => a.purchaseTradeId = id ∧ a.saleDate ≤ date := by
  have hdated : ∀ g : Facts, g.ledger.allocations.filter
      (fun a => decide (a.purchaseTradeId = id ∧ a.saleDate ≤ date)) =
        (g.ledger.allocations.filter fun a => a.saleDate ≤ date).filter fun a =>
          decide (a.purchaseTradeId = id) := by
    intro g
    rw [List.filter_filter]
    exact List.filter_congr fun a _ => Bool.decide_and _ _
  rw [hdated, h.allocations, ← hdated]

theorem remainingOn_eq (s : Store) {p : Valuation.ParcelRow} (hp : p.date ≤ date) :
    (s.holding p).remainingOn date = max (p.quantity - ((s.allocations.filter fun a =>
      a.purchaseTradeId = p.id ∧ a.saleDate ≤ date).map fun a =>
        asAcquiredQuantity a.quantity (some a.saleDate) (s.book.splits p.listing) p.date).sum) 0 := by
  rw [HealthPrices.ParcelHolding.remainingOn]
  refine (if_neg (not_lt.mpr hp)).trans ?_
  unfold Store.holding
  dsimp only
  rw [List.filter_map, List.map_map, List.filter_filter]
  refine congrArg (fun x : ℚ => max (p.quantity - x) 0) ?_
  refine congrArg List.sum (congrArg (List.map _) (List.filter_congr fun a _ => ?_))
  exact (Bool.and_comm _ _).trans (Bool.decide_and _ _).symm

theorem remainingOn_congr (h : SameUpTo date f f') {p : Valuation.ParcelRow} :
    (f.store.holding p).remainingOn date = (f'.store.holding p).remainingOn date := by
  rcases lt_or_ge date p.date with hp | hp
  · rw [HealthPrices.ParcelHolding.remainingOn, HealthPrices.ParcelHolding.remainingOn]
    exact (if_pos hp).trans (if_pos hp).symm
  · rw [remainingOn_eq _ hp, remainingOn_eq _ hp]
    change max (_ - ((f.ledger.allocations.filter _).map _).sum) 0 =
      max (_ - ((f'.ledger.allocations.filter _).map _).sum) 0
    rw [h.salesOf]
    refine congrArg (fun l : List ℚ => max (p.quantity - l.sum) 0) (List.map_congr_left fun a ha => ?_)
    exact asAcquired_congr (h.splits p.listing) _ (of_decide_eq_true (List.mem_filter.mp ha).2).2 hp

theorem heldOn_eq (g : Facts) (listing : ListingId) : g.store.heldOn listing date =
    (g.parcels.filter fun p => p.date ≤ date).any fun p =>
      decide (p.listing = listing) && decide (0 < (g.store.holding p).remainingOn date) := by
  unfold Store.heldOn ParcelHolding.anyHeld Store.holdingsOf
  rw [List.any_map, List.any_filter, List.any_filter]
  refine List.any_congr rfl fun p => ?_
  rcases lt_or_ge date p.date with hp | hp
  · have hnone : (g.store.holding p).remainingOn date = 0 := if_pos hp
    simp [hnone]
  · simp [hp]

theorem heldOn_congr (h : SameUpTo date f f') (listing : ListingId) :
    f.store.heldOn listing date = f'.store.heldOn listing date := by
  rw [heldOn_eq, heldOn_eq, h.parcels]
  exact List.any_congr rfl fun p => by rw [remainingOn_congr h]

theorem heldListingIds_congr (h : SameUpTo date f f') :
    f.store.heldListingIds date = f'.store.heldListingIds date := by
  have hsorted : ∀ g : Facts, (g.store.heldListingIds date).Pairwise (· < ·) := by
    intro g
    refine List.Pairwise.filter _ ?_
    exact StableSort.sortBy_strict (List.nodup_dedup _) fun _ _ _ _ hk => hk
  have hmem : ∀ (g : Facts) listing, listing ∈ g.store.heldListingIds date ↔
      g.store.heldOn listing date = true := by
    intro g listing
    unfold Store.heldListingIds
    rw [List.mem_filter, and_iff_right_iff_imp]
    intro hheld
    unfold Store.heldOn ParcelHolding.anyHeld Store.holdingsOf at hheld
    obtain ⟨q, hq, -⟩ := List.any_eq_true.mp hheld
    obtain ⟨p, hp, rfl⟩ := List.mem_map.mp hq
    obtain ⟨hparcel, hlisting⟩ := List.mem_filter.mp hp
    unfold Store.listingIds
    rw [StableSort.mem_sortBy, List.mem_dedup]
    exact List.mem_map.mpr ⟨p, hparcel, of_decide_eq_true hlisting⟩
  refine List.Perm.eq_of_pairwise (fun a b _ _ hab hba => absurd hab hba.asymm)
    (hsorted f) (hsorted f') ?_
  refine (List.perm_ext_iff_of_nodup ((hsorted f).imp ne_of_lt) ((hsorted f').imp ne_of_lt)).mpr ?_
  intro listing
  rw [hmem, hmem, heldOn_congr h]

theorem heldMarkets_congr (h : SameUpTo date f f') :
    f.store.heldMarkets date = f'.store.heldMarkets date := by
  unfold Store.heldMarkets
  rw [heldListingIds_congr h]
  refine List.filterMap_congr fun listing _ => ?_
  change Keyed.get? Market.listing f.markets listing = Keyed.get? Market.listing f'.markets listing
  rw [h.markets]

section Units
variable {clocks : Clocks} {now : Instant}

theorem remaining_congr (h : SameUpTo date f f') {p : Valuation.ParcelRow} (hp : p.date ≤ date) :
    (f.store.valuing clocks now date).remaining p date =
      (f'.store.valuing clocks now date).remaining p date := by
  unfold Valuation.Records.remaining
  change p.quantity - soldInAcquiredUnits (f.prices.splits _) p (f.ledger.allocations.filter _) =
    p.quantity - soldInAcquiredUnits (f'.prices.splits _) p (f'.ledger.allocations.filter _)
  rw [h.salesOf, sold_congr (h.splits p.listing) hp]
  exact fun a ha => (of_decide_eq_true (List.mem_filter.mp ha).2).2

theorem openParcels_congr (h : SameUpTo date f f') :
    (f.store.valuing clocks now date).openParcels date =
      (f'.store.valuing clocks now date).openParcels date := by
  have hdated : ∀ g : Facts, (g.store.valuing clocks now date).openParcels date =
      (g.parcels.filter fun p => p.date ≤ date).filter fun p =>
        0 < (g.store.valuing clocks now date).remaining p date := by
    intro g
    rw [List.filter_filter]
    exact List.filter_congr fun p _ => (Bool.decide_and _ _).trans (Bool.and_comm _ _)
  rw [hdated, hdated, h.parcels]
  refine List.filter_congr fun p hp => ?_
  rw [remaining_congr h (of_decide_eq_true (List.mem_filter.mp hp).2)]

theorem holdings_congr (h : SameUpTo date f f') :
    (f.store.valuing clocks now date).holdings date =
      (f'.store.valuing clocks now date).holdings date := by
  have hunits : ∀ k, (f.store.valuing clocks now date).holdingUnits date date k =
      (f'.store.valuing clocks now date).holdingUnits date date k := by
    intro k
    unfold Valuation.Records.holdingUnits
    rw [openParcels_congr h]
    refine congrArg List.sum (List.map_congr_left fun p hp => ?_)
    have hparcel := List.mem_of_mem_filter hp
    have hdate := (of_decide_eq_true (List.mem_filter.mp hparcel).2).1
    rw [remaining_congr h hdate]
    exact splitAdjusted_congr (h.splits p.listing) _ hdate le_rfl
  unfold Valuation.Records.holdings
  simp only [openParcels_congr h, hunits]

end Units
end Holdings

/-! ### Prices and rates -/

/-- The stored ok close of a day. -/
def Facts.okAt (f : Facts) (listing : ListingId) (day : NaiveDate) : Option ℚ :=
  (Keyed.get? ClosingPrice.day f.prices.prices (listing, day)).bind okPrice

/-- The closes a valuation of the date rests on still stand, and no other has
come behind one carried forward. -/
structure PricesKept (date : NaiveDate) (resolved : StoredValuations) (f f' : Facts) : Prop where
  kept : ∀ listing, ∀ day ≤ date, ∀ price, f.okAt listing day = some price →
    f'.okAt listing day = some price
  carried : ∀ v ∈ resolved.valuations, v.priceCarriedForward = true →
    f.prices.unpricedBefore v.listing = f'.prices.unpricedBefore v.listing ∧
      ∀ day ≤ date, f.okAt v.listing day = f'.okAt v.listing day
  begun : ∀ m ∈ f.store.heldMarkets date, ∀ day, m.latestTradingDayOnOrBefore date = some day →
    ((f.prices.unpricedBefore m.listing).filter fun before => decide (day < before)) =
      (f'.prices.unpricedBefore m.listing).filter fun before => decide (day < before)

/-- The rates converted at still stand, and none has come in a month a trade
converts at its own. -/
structure RatesKept (date : NaiveDate) (f f' : Facts) : Prop where
  kept : ∀ currency, ∀ day ≤ date, ∀ rate, f.fx.rates (currency, .of day) = some rate →
    f'.fx.rates (currency, .of day) = some rate
  own : ∀ t ∈ f.ledger.trades, t.date ≤ date → t.spotFxRate = none →
    ∀ day ∈ [t.date, t.acquired], f.fx.rates (t.currency, .of day) = f'.fx.rates (t.currency, .of day)

section Valuations
variable {f f' : Facts} {date : NaiveDate} {clocks : Clocks} {now : Instant} {m : Market}

theorem okAt_eq_some (f : Facts) {listing : ListingId} {day : NaiveDate} {price : ℚ} :
    f.okAt listing day = some price ↔
      ∃ row ∈ f.prices.prices, row.day = (listing, day) ∧ okPrice row = some price := by
  unfold Facts.okAt
  rw [Option.bind_eq_some_iff]
  refine exists_congr fun row => ?_
  rw [Keyed.get?_eq_some f.prices.days_unique, and_assoc]

/-- The ok closes of a window, in the order stored. -/
def okRows (f : Facts) (listing : ListingId) (onOrBefore : NaiveDate)
    (notBefore : Option NaiveDate) : List (NaiveDate × ℚ) :=
  f.prices.prices.filterMap fun row =>
    if row.listing = listing ∧ row.priceDate ≤ onOrBefore ∧
        notBefore.all (fun d => decide (d ≤ row.priceDate)) then
      (okPrice row).map fun price => (row.priceDate, price)
    else none

section Carry
variable {listing : ListingId} {onOrBefore : NaiveDate} {notBefore : Option NaiveDate}

theorem mem_okRows {x : NaiveDate × ℚ} : x ∈ okRows f listing onOrBefore notBefore ↔
    x.1 ≤ onOrBefore ∧ notBefore.all (fun d => decide (d ≤ x.1)) = true ∧
      f.okAt listing x.1 = some x.2 := by
  unfold okRows
  rw [List.mem_filterMap, okAt_eq_some]
  constructor
  · rintro ⟨row, hrow, hx⟩
    split at hx
    · rename_i hwindow
      obtain ⟨price, hprice, rfl⟩ := Option.map_eq_some_iff.mp hx
      obtain ⟨rfl, hwindow⟩ := hwindow
      exact ⟨hwindow.1, hwindow.2, row, hrow, rfl, hprice⟩
    · cases hx
  · rintro ⟨hbefore, hafter, row, hrow, hday, hprice⟩
    obtain ⟨hlisting, hdate⟩ := Prod.mk.inj hday
    refine ⟨row, hrow, ?_⟩
    rw [if_pos ⟨hlisting, hdate ▸ hbefore, hdate ▸ hafter⟩, hprice, Option.map_some, hdate]

theorem okRows_days (f : Facts) (listing : ListingId) (onOrBefore : NaiveDate)
    (notBefore : Option NaiveDate) :
    ((okRows f listing onOrBefore notBefore).map Prod.fst).Nodup := by
  have hsublist : (((f.prices.prices.filter fun row => row.listing = listing).map
      ClosingPrice.priceDate)).Nodup := by
    refine List.Nodup.map_on ?_ (List.Nodup.filter _ (List.Nodup.of_map _ f.prices.days_unique))
    intro a ha b hb hdate
    obtain ⟨ha, hla⟩ := List.mem_filter.mp ha
    obtain ⟨hb, hlb⟩ := List.mem_filter.mp hb
    refine Keyed.eq_of_key f.prices.days_unique ha hb ?_
    exact Prod.ext ((of_decide_eq_true hla).trans (of_decide_eq_true hlb).symm) hdate
  refine hsublist.sublist ?_
  unfold okRows
  generalize f.prices.prices = rows
  induction rows with
  | nil => exact List.Sublist.refl _
  | cons row rows ih =>
    rw [List.filterMap_cons, List.filter_cons]
    by_cases hlisting : row.listing = listing
    · rw [if_pos (decide_eq_true hlisting), List.map_cons]
      split
      · exact ih.cons _
      · rename_i x hx
        split at hx
        · obtain ⟨price, -, rfl⟩ := Option.map_eq_some_iff.mp hx
          exact ih.cons_cons _
        · cases hx
    · have hout : ¬ (row.listing = listing ∧ row.priceDate ≤ onOrBefore ∧
          notBefore.all (fun d => decide (d ≤ row.priceDate)) = true) := fun h => hlisting h.1
      rw [if_neg hout, if_neg (by simpa using hlisting)]
      exact ih

/-- A close carried forward is decided by the ok closes of its window. -/
theorem latestOk_congr (h : ∀ day ≤ onOrBefore, f.okAt listing day = f'.okAt listing day) :
    (f.store.valuing clocks now date).latestOkPriceOnOrBefore listing onOrBefore notBefore =
      (f'.store.valuing clocks now date).latestOkPriceOnOrBefore listing onOrBefore notBefore := by
  have hsame : StableSort.sortBy Prod.fst (okRows f listing onOrBefore notBefore) =
      StableSort.sortBy Prod.fst (okRows f' listing onOrBefore notBefore) := by
    refine StableSort.sortBy_eq_of_pairwise
      (List.Nodup.of_map _ (okRows_days f listing onOrBefore notBefore)) ?_ fun x => ?_
    · have hdays := okRows_days f' listing onOrBefore notBefore
      exact StableSort.sortBy_strict (List.Nodup.of_map _ hdays) fun a ha b hb =>
        List.inj_on_of_nodup_map hdays ha hb
    · rw [StableSort.mem_sortBy, mem_okRows, mem_okRows]
      exact and_congr_right fun hday => by rw [h x.1 hday]
  exact congrArg List.getLast? hsame

end Carry

theorem valuationRate_kept {fx fx' : FxRates} {currency : CurrencyCode} {day : NaiveDate}
    {rate : ValuationRate} (h : resolveValuationRate fx currency day = .ok rate)
    (hreal : rate.provisional = false)
    (hkept : ∀ r, fx.rates (currency, .of day) = some r → fx'.rates (currency, .of day) = some r) :
    resolveValuationRate fx' currency day = .ok rate := by
  have hmonths : ∃ rest, valuationMonths day = .of day :: rest := ⟨_, rfl⟩
  obtain ⟨rest, hrest⟩ := hmonths
  unfold resolveValuationRate at h ⊢
  split at h
  · rename_i haud
    rwa [if_pos haud]
  · rename_i haud
    rw [if_neg haud]
    rw [hrest, List.zipIdx_cons, List.findSome?_cons] at h ⊢
    cases hmonth : fx.rates (currency, .of day) with
    | some r =>
      rw [hkept r hmonth]
      rwa [hmonth] at h
    | none =>
      rw [hmonth] at h
      simp only [Option.map_none] at h
      split at h
      · rename_i found hfound
        obtain ⟨month, hmem, hrate⟩ := List.exists_of_findSome?_eq_some hfound
        obtain ⟨r, -, rfl⟩ := Option.map_eq_some_iff.mp hrate
        obtain rfl := Except.ok.inj h
        have hindex : 0 < month.2 := Nat.lt_of_lt_of_le one_pos (List.le_snd_of_mem_zipIdx hmem)
        exact absurd hindex (of_decide_eq_false hreal)
      · cases h

theorem priceAt_kept {day : NaiveDate} (hday : day ≤ date) {price : ℚ} {carried : Bool}
    (h : (f.store.valuing clocks now date).priceAt m day = .ok (price, carried))
    (hkept : f.okAt m.listing day = some price → f'.okAt m.listing day = some price)
    (hcarried : carried = true →
      f.prices.unpricedBefore m.listing = f'.prices.unpricedBefore m.listing ∧
        ∀ d ≤ date, f.okAt m.listing d = f'.okAt m.listing d) :
    (f'.store.valuing clocks now date).priceAt m day = .ok (price, carried) := by
  cases hok : f.okAt m.listing day with
  | some stored =>
    rw [Store.priceAt_of_some (s := f.store) hok] at h
    obtain ⟨rfl, rfl⟩ := Prod.mk.inj (Except.ok.inj h)
    exact Store.priceAt_of_some (s := f'.store) (hkept hok)
  | none =>
    rw [Store.priceAt_of_none (s := f.store) hok] at h
    split at h
    · rename_i hmarked
      cases hlast : (f.store.valuing clocks now date).carryForwardPrice m day with
      | none =>
        rw [hlast] at h
        cases h
      | some last =>
        rw [hlast] at h
        obtain ⟨rfl, rfl⟩ := Prod.mk.inj (Except.ok.inj h)
        obtain ⟨hmarker, hsame⟩ := hcarried rfl
        have hcarry : (f'.store.valuing clocks now date).carryForwardPrice m day = some last := by
          rw [← hlast]
          unfold Valuation.Records.carryForwardPrice
          change Option.map _ (Valuation.Records.latestOkPriceOnOrBefore _ _ _
            (f'.prices.unpricedBefore m.listing)) = Option.map _
              (Valuation.Records.latestOkPriceOnOrBefore _ _ _ (f.prices.unpricedBefore m.listing))
          rw [hmarker, latestOk_congr fun d hd => hsame d (hd.trans hday)]
        have hnone : f'.okAt m.listing day = none := (hsame day hday).symm.trans hok
        rw [Store.priceAt_of_none (s := f'.store) hnone, if_pos hmarked, hcarry]
        rfl
    · cases h

/-- A market's turn of the loop that valued or excluded it answers the same again. -/
theorem valueMarket_kept (hexchange : f.exchange = f'.exchange) {outcome : Outcome}
    (h : (f.store.valuing clocks now date).valueMarket date m = .ok outcome)
    (hvalued : ∀ v, outcome = .valued v → v.listing = m.listing → v.rate.provisional = false ∧
      (v.priceCarriedForward = true →
        f.prices.unpricedBefore v.listing = f'.prices.unpricedBefore v.listing ∧
          ∀ day ≤ date, f.okAt v.listing day = f'.okAt v.listing day))
    (hblocked : ∀ b, outcome ≠ .blocked b)
    (hkept : ∀ day ≤ date, ∀ price, f.okAt m.listing day = some price →
      f'.okAt m.listing day = some price)
    (hrates : ∀ currency, ∀ day ≤ date, ∀ rate, f.fx.rates (currency, .of day) = some rate →
      f'.fx.rates (currency, .of day) = some rate)
    (hbegun : ∀ day, m.latestTradingDayOnOrBefore date = some day →
      ((f.prices.unpricedBefore m.listing).filter fun before => decide (day < before)) =
        (f'.prices.unpricedBefore m.listing).filter fun before => decide (day < before)) :
    (f'.store.valuing clocks now date).valueMarket date m = .ok outcome := by
  unfold Valuation.Records.valueMarket at h ⊢
  cases hday : m.latestTradingDayOnOrBefore date with
  | none =>
    rw [hday] at h
    exact absurd (Except.ok.inj h).symm (hblocked _)
  | some day =>
    have hle : day ≤ date := Market.latestTradingDayWithin_le hday
    rw [hday] at h
    dsimp only at h ⊢
    have hmarker : ((f'.store.valuing clocks now date).book.unpricedBefore m.listing).filter
        (fun before => decide (day < before)) =
          ((f.store.valuing clocks now date).book.unpricedBefore m.listing).filter fun before =>
            decide (day < before) := (hbegun day hday).symm
    rw [hmarker]
    split at h
    · exact h
    · obtain ⟨finalDay, hfinal, h⟩ := Checked.bind_ok h
      have hclose : (f'.store.valuing clocks now date).latestCompleteTradingDay m = .ok finalDay := by
        rw [← hfinal]
        change f'.store.latestCompleteTradingDay clocks now m = f.store.latestCompleteTradingDay clocks now m
        unfold Store.latestCompleteTradingDay Store.currentExchange
        change (do let candidate ← lastClose clocks now (if _ then some (f'.exchange _) else none); _) =
          do let candidate ← lastClose clocks now (if _ then some (f.exchange _) else none); _
        rw [hexchange]
      rw [hclose]
      change (if _ then _ else _) = Except.ok outcome at h
      change (if _ then _ else _) = Except.ok outcome
      split at h
      · exact absurd (Except.ok.inj h).symm (hblocked _)
      · rename_i hcomplete
        rw [if_neg hcomplete]
        cases hprice : (f.store.valuing clocks now date).priceAt m day with
        | error b =>
          rw [hprice] at h
          exact absurd (Except.ok.inj h).symm (hblocked _)
        | ok priced =>
          obtain ⟨price, carried⟩ := priced
          rw [hprice] at h
          dsimp only at h
          cases hrate : resolveValuationRate f.fx m.currency day with
          | error e =>
            rw [show (f.store.valuing clocks now date).fx = f.fx from rfl, hrate] at h
            exact absurd (Except.ok.inj h).symm (hblocked _)
          | ok rate =>
            rw [show (f.store.valuing clocks now date).fx = f.fx from rfl, hrate] at h
            obtain ⟨hreal, hcarried⟩ := hvalued _ (Except.ok.inj h).symm rfl
            rw [priceAt_kept hle hprice (hkept day hle price) hcarried]
            dsimp only
            rw [show (f'.store.valuing clocks now date).fx = f'.fx from rfl,
              valuationRate_kept hrate hreal (hrates m.currency day hle)]
            exact h

/-- Answers given again are given again by the whole loop. -/
theorem mapM_kept {ε α β : Type} {turn turn' : α → Except ε β} {l : List α} {bs : List β}
    (h : l.mapM turn = .ok bs)
    (hkept : ∀ a ∈ l, ∀ b ∈ bs, turn a = .ok b → turn' a = .ok b) : l.mapM turn' = .ok bs := by
  induction l generalizing bs with
  | nil => exact h
  | cons a l ih =>
    rw [List.mapM_cons] at h ⊢
    obtain ⟨b, hb, h⟩ := Checked.bind_ok h
    obtain ⟨rest, hrest, h⟩ := Checked.bind_ok h
    obtain rfl := Except.ok.inj h
    rw [hkept a List.mem_cons_self b List.mem_cons_self hb,
      ih hrest fun a' ha' b' hb' =>
        hkept a' (List.mem_cons_of_mem a ha') b' (List.mem_cons_of_mem b hb')]
    rfl

/-- The valuations of a date are the same where the closes and the rates they
rest on still stand. -/
theorem valuations_kept {resolved : StoredValuations} (hsame : SameUpTo date f f')
    (hprices : PricesKept date resolved f f') (hrates : RatesKept date f f')
    (hreal : ∀ v ∈ resolved.valuations, v.rate.provisional = false)
    (h : (f.store.valuing clocks now date).valuationsOfMarkets date = .ok resolved) :
    (f'.store.valuing clocks now date).valuationsOfMarkets date = .ok resolved := by
  unfold Valuation.Records.valuationsOfMarkets at h ⊢
  cases hturns : (f.store.valuing clocks now date).markets.mapM
      ((f.store.valuing clocks now date).valueMarket date) with
  | error message =>
    rw [hturns] at h
    cases h
  | ok outcomes =>
    rw [hturns] at h
    dsimp only at h
    split at h
    · cases h
    · rename_i hblockers
      split at h
      · cases h
      · rename_i hsome
        have hresolved := Except.ok.inj h
        have hvalued : ∀ v, Outcome.valued v ∈ outcomes → v ∈ resolved.valuations := by
          intro v hv
          rw [← hresolved]
          exact List.mem_filterMap.mpr ⟨_, hv, rfl⟩
        have hblocked : ∀ b, Outcome.blocked b ∉ outcomes := by
          intro b hb
          refine hblockers ?_
          intro hnone
          rw [List.filterMap_eq_nil_iff] at hnone
          exact Option.some_ne_none b (hnone _ hb)
        have hagain : (f'.store.valuing clocks now date).markets.mapM
            ((f'.store.valuing clocks now date).valueMarket date) = .ok outcomes := by
          have hmarkets : (f'.store.valuing clocks now date).markets =
              (f.store.valuing clocks now date).markets := (heldMarkets_congr hsame).symm
          rw [hmarkets]
          refine mapM_kept hturns fun m hm outcome houtcome hturn => ?_
          refine valueMarket_kept hsame.exchange hturn (fun v hv _ => ?_) (fun b hb => ?_)
            (hprices.kept m.listing) hrates.kept (hprices.begun m hm)
          · have hmem := hvalued v (hv ▸ houtcome)
            exact ⟨hreal v hmem, hprices.carried v hmem⟩
          · exact hblocked b (hb ▸ houtcome)
        rw [hagain]
        dsimp only
        rw [if_neg hblockers, if_neg hsome, hresolved]

end Valuations

/-! ### The ledger's figures -/

section Ledger
variable {f f' : Facts} {date : NaiveDate}

theorem toAud_of_rate {fx fx' : FxRates} {currency : CurrencyCode} {day : NaiveDate}
    (h : fx.rates (currency, .of day) = fx'.rates (currency, .of day)) (amount : ℚ)
    (manual : FxOverride) : fx'.toAud amount currency day manual = fx.toAud amount currency day manual := by
  unfold FxRates.toAud FxRates.resolveRate
  rw [h]

theorem toAud_of_spot (fx fx' : FxRates) (currency : CurrencyCode) (day : NaiveDate) (amount rate : ℚ) :
    fx'.toAud amount currency day (.spot rate) = fx.toAud amount currency day (.spot rate) := by
  unfold FxRates.toAud FxRates.resolveRate
  simp only [pickRate]

/-- A trade converts as it did. -/
theorem RatesKept.trade (h : RatesKept date f f') {t : TradeRow} (ht : t ∈ f.ledger.trades)
    (hdate : t.date ≤ date) {day : NaiveDate} (hday : day ∈ [t.date, t.acquired]) (amount : ℚ) :
    f'.fx.toAud amount t.currency day t.fxOverride = f.fx.toAud amount t.currency day t.fxOverride := by
  unfold TradeRow.fxOverride FxOverride.fromTrade
  cases hspot : t.spotFxRate with
  | some rate => exact toAud_of_spot _ _ _ _ _ _
  | none => exact toAud_of_rate (h.own t ht hdate hspot day hday) _ _

/-- An income row that converted converts as it did. -/
theorem RatesKept.received (h : RatesKept date f f') {currency : CurrencyCode} {day : NaiveDate}
    (hday : day ≤ date) {amount cash : ℚ} (hcash : f.fx.toAud amount currency day .none = .ok cash) :
    f'.fx.toAud amount currency day .none = .ok cash := by
  unfold FxRates.toAud FxRates.resolveRate at hcash ⊢
  split at hcash
  · rename_i haud
    rwa [if_pos haud]
  · rename_i haud
    rw [if_neg haud]
    cases hrate : f.fx.rates (currency, .of day) with
    | none =>
      rw [hrate] at hcash
      cases hcash
    | some rate =>
      rw [hrate] at hcash
      rw [h.kept currency day hday rate hrate]
      exact hcash

theorem openUnits_congr (h : SameUpTo date f f') {t : TradeRow} (ht : t.date ≤ date) :
    f.records.openUnits date t = f'.records.openUnits date t := by
  have hsold : soldInAcquiredUnits (f.prices.splits t.listing) t.parcel
      (f.ledger.allocations.filter fun a => a.purchaseTradeId = t.id ∧ a.saleDate ≤ date) =
        soldInAcquiredUnits (f'.prices.splits t.listing) t.parcel
          (f'.ledger.allocations.filter fun a => a.purchaseTradeId = t.id ∧ a.saleDate ≤ date) := by
    have hparcel : t.parcel.date ≤ date := ht
    rw [h.salesOf, sold_congr (h.splits t.listing) hparcel]
    exact fun a ha => (of_decide_eq_true (List.mem_filter.mp ha).2).2
  have hread : ∀ g : Facts, g.records.openUnits date t =
      (let sold := soldInAcquiredUnits (g.prices.splits t.listing) t.parcel
        (g.ledger.allocations.filter fun a => a.purchaseTradeId = t.id ∧ a.saleDate ≤ date)
      if 0 < t.quantity - sold then
        splitAdjustedQuantity (t.quantity - sold) (g.prices.splits t.listing) t.date (some date)
      else 0) := fun g => rfl
  rw [hread, hread, hsold]
  dsimp only
  rw [splitAdjusted_congr (h.splits t.listing) _ ht le_rfl]

theorem foldlM_kept {ε σ α : Type} {step step' : σ → α → Except ε σ} {l : List α} {s s' : σ}
    (hkept : ∀ a ∈ l, ∀ s s', step s a = .ok s' → step' s a = .ok s')
    (h : l.foldlM step s = .ok s') : l.foldlM step' s = .ok s' := by
  induction l generalizing s with
  | nil => exact h
  | cons a l ih =>
    obtain ⟨mid, hmid, hrest⟩ := Checked.bind_ok h
    rw [List.foldlM_cons, hkept a List.mem_cons_self s mid hmid]
    exact ih (fun b hb => hkept b (List.mem_cons_of_mem a hb)) hrest

/-- The ledger's figures are the same where its dated rows are and every
conversion still stands. -/
theorem accumulate_kept (hsame : SameUpTo date f f') (hrates : RatesKept date f f')
    {o : Option Accumulated} (h : f.records.accumulate date = .ok o) :
    f'.records.accumulate date = .ok o := by
  have htrades : f'.records.tradesBy date = f.records.tradesBy date := hsame.trades.symm
  have hincome : f'.records.incomeRows date = f.records.incomeRows date := hsame.income.symm
  have hacquisitions : f'.records.acquisitions date = f.records.acquisitions date := by
    unfold Performance.Records.acquisitions
    rw [htrades]
  have hsells : f'.records.sells date = f.records.sells date := by
    unfold Performance.Records.sells
    rw [htrades]
  have hdated : ∀ t ∈ f.records.tradesBy date, t ∈ f.ledger.trades ∧ t.date ≤ date := fun t ht =>
    ⟨List.mem_of_mem_filter ht, of_decide_eq_true (List.mem_filter.mp ht).2⟩
  unfold Performance.Records.accumulate at h ⊢
  rw [htrades, hincome, hacquisitions, hsells]
  split at h
  · rename_i hnone
    rwa [if_pos hnone]
  · rename_i hsome
    rw [if_neg hsome]
    obtain ⟨acquired, hacquired, h⟩ := Checked.bind_ok h
    obtain ⟨disposed, hdisposed, h⟩ := Checked.bind_ok h
    obtain ⟨received, hreceived, h⟩ := Checked.bind_ok h
    have hbuys : (f.records.acquisitions date).foldlM (f'.records.acquire date) ⟨.default, []⟩ =
        .ok acquired := by
      refine foldlM_kept (fun t ht s s' hstep => ?_) hacquired
      obtain ⟨hmem, hdate⟩ := hdated t (List.mem_of_mem_filter ht)
      unfold Performance.Records.acquire at hstep ⊢
      rw [← openUnits_congr hsame hdate]
      rw [show f'.records.fx = f'.fx from rfl,
        hrates.trade hmem hdate (List.mem_cons_of_mem _ List.mem_cons_self)]
      exact hstep
    have hsales : (f.records.sells date).foldlM (f'.records.dispose acquired.groupCosts)
        acquired.report = .ok disposed := by
      refine foldlM_kept (fun t ht s s' hstep => ?_) hdisposed
      obtain ⟨hmem, hdate⟩ := hdated t (List.mem_of_mem_filter ht)
      unfold Performance.Records.dispose at hstep ⊢
      simp only [show f'.records.fx = f'.fx from rfl, hrates.trade hmem hdate List.mem_cons_self]
      exact hstep
    have hrows : (f.records.incomeRows date).foldlM (f'.records.receive date) disposed =
        .ok received := by
      refine foldlM_kept (fun i hi s s' hstep => ?_) hreceived
      have hpaid : i.datePaid ≤ date := of_decide_eq_true (List.mem_filter.mp hi).2
      unfold Performance.Records.receive at hstep ⊢
      split at hstep
      · rename_i hwork
        rwa [if_pos hwork]
      · rename_i hwork
        rw [if_neg hwork]
        obtain ⟨cash, hcash, hstep⟩ := Checked.bind_ok hstep
        rw [show f'.records.fx = f'.fx from rfl, hrates.received hpaid hcash]
        exact hstep
    exact Checked.bind_ok_iff.mpr ⟨acquired, hbuys,
      Checked.bind_ok_iff.mpr ⟨disposed, hsales, Checked.bind_ok_iff.mpr ⟨received, hrows, h⟩⟩⟩

end Ledger

/-- A snapshot's rows are what a run for its date would store again, where the
rows it was read from, the closes and the rates still stand. -/
theorem generate_kept {A : RateArithmetic} {clocks : Clocks} {now : Instant} {f f' : Facts}
    {date : NaiveDate} {rows : SnapshotRows} (hsame : SameUpTo date f f')
    (hprices : PricesKept date rows.resolved f f') (hrates : RatesKept date f f')
    (hreal : rows.provisional = false) (h : generate A clocks now f date = .ok rows) :
    generate A clocks now f' date = .ok rows := by
  unfold generate storedValuations at h ⊢
  obtain ⟨resolved, hresolved, h⟩ := Checked.bind_ok h
  obtain ⟨_, hheld, hvalued⟩ := Checked.bind_ok hresolved
  obtain ⟨performance, hperformance, h⟩ := Checked.bind_ok h
  obtain rfl := Except.ok.inj h
  have hreal : ∀ v ∈ resolved.valuations, v.rate.provisional = false := by
    intro v hv
    exact Bool.eq_false_iff.mpr (List.any_eq_false.mp hreal v hv)
  have hagain := valuations_kept hsame hprices hrates hreal (Checked.mapError_ok.mp hvalued)
  have hrun : (dbPerformance A f'.records (pricesOf resolved) date).mapError GenerateError.fx =
      .ok performance := by
    obtain ⟨o, ho, hrows⟩ := Checked.bind_ok (Checked.mapError_ok.mp hperformance)
    exact Checked.mapError_ok.mpr
      (Checked.bind_ok_iff.mpr ⟨o, accumulate_kept hsame hrates ho, hrows⟩)
  refine Checked.bind_ok_iff.mpr ⟨resolved, ?_, ?_⟩
  · rw [← heldMarkets_congr hsame]
    exact Checked.bind_ok_iff.mpr ⟨_, hheld, Checked.mapError_ok.mpr hagain⟩
  · rw [← holdings_congr hsame]
    exact Checked.bind_ok_iff.mpr ⟨performance, hrun, rfl⟩

end ShareTracker.Snapshots
