import ShareTracker.Calendar
import ShareTracker.ClosingPrices
import ShareTracker.Lib.Descent

/-!
What the holdings were worth in AUD on a date, from stored closing prices: each
listing at its market's last trading day, at the day's own close or, once the
provider has stopped quoting it, at its last stored one. Figures are exact here.
-/
namespace ShareTracker.Valuation
open ClosingPrices CorporateActions

/-! ### Rates -/

def previousMonth (m : RateMonth) : RateMonth :=
  if m.month = 1 then ⟨m.year - 1, 12⟩ else ⟨m.year, m.month - 1⟩

/-- How many months back a valuation may reach for a rate. -/
def valuationFallbackMonths : ℕ := 2

/-- The month of `date` and its fallback predecessors, newest first. -/
def valuationMonths (date : NaiveDate) : List RateMonth :=
  List.iterate previousMonth (.of date) (1 + valuationFallbackMonths)

/-- A rate, and whether it is an earlier month's substitute. -/
structure ValuationRate where
  rate : ℚ
  provisional : Bool
  deriving DecidableEq

def resolveValuationRate (fx : FxRates) (currency : CurrencyCode) (date : NaiveDate) :
    Except FxError ValuationRate :=
  if currency.isAud then .ok ⟨1, false⟩
  else
    let found := (valuationMonths date).zipIdx.findSome? fun m =>
      (fx.rates (currency, m.1)).map fun rate => ⟨rate, decide (0 < m.2)⟩
    match found with
    | some rate => .ok rate
    | none => .error (.missingRate currency (.of date))

/-! ### Markets -/

/-- One span of a listing's history, with the calendar it traded on; a span
without an exchange trades every day. -/
structure MarketIdentity where
  since : Option NaiveDate
  onExchange : Bool
  holidays : List NaiveDate
  deriving DecidableEq

def MarketIdentity.isTradingDay (i : MarketIdentity) (date : NaiveDate) : Bool :=
  !i.onExchange || (!date.isWeekend && !i.holidays.contains date)

/-- A listing with its spans, ascending. -/
structure Market where
  listing : ListingId
  ticker : String
  currency : CurrencyCode
  unpricedFrom : Option NaiveDate
  identities : List MarketIdentity
  identities_ne : identities ≠ []

namespace Market

def identityAt (m : Market) (date : NaiveDate) : MarketIdentity :=
  (m.identities.reverse.find? fun i => i.since.all fun d => decide (d ≤ date)).getD
    (m.identities.head m.identities_ne)

def isTradingDay (m : Market) (date : NaiveDate) : Bool := (m.identityAt date).isTradingDay date

def latestTradingDayWithin (m : Market) : ℕ → NaiveDate → Option NaiveDate
  | 0, _ => none
  | n + 1, candidate =>
    if m.isTradingDay candidate then some candidate else m.latestTradingDayWithin n candidate.pred

def latestTradingDayOnOrBefore (m : Market) (date : NaiveDate) : Option NaiveDate :=
  m.latestTradingDayWithin 366 date

theorem latestTradingDayWithin_eq (m : Market) (n : ℕ) (date : NaiveDate) :
    m.latestTradingDayWithin n date = Descent.walk m.isTradingDay n date := by
  induction n generalizing date with
  | zero => rfl
  | succ n ih =>
    rw [latestTradingDayWithin, Descent.walk, ih]
    rfl

/-- A walk back stops at the latest trading day. -/
theorem latestTradingDayWithin_isGreatest {m : Market} {n : ℕ} {date day : NaiveDate}
    (h : m.latestTradingDayWithin n date = some day) :
    IsGreatest {d | d ≤ date ∧ m.isTradingDay d = true} day := by
  rw [latestTradingDayWithin_eq] at h
  exact Descent.walk_isGreatest h

theorem latestTradingDayWithin_le {m : Market} {n : ℕ} {date day : NaiveDate}
    (h : m.latestTradingDayWithin n date = some day) : day ≤ date :=
  (latestTradingDayWithin_isGreatest h).1.1

end Market

/-! ### Units -/

/-- A Buy or DRP. -/
structure ParcelRow where
  id : ℤ
  listing : ListingId
  account : ℤ
  quantity : ℚ
  date : NaiveDate
  deriving DecidableEq

/-- A Sell's draw on a parcel, in the unit basis of the Sell's own date. -/
structure Allocation where
  purchaseTradeId : ℤ
  quantity : ℚ
  saleDate : NaiveDate
  deriving DecidableEq

/-- The units the sales take beyond `sold`, in the order given: the one stating
exactly what the remainder re-bases to takes exactly the remainder. -/
def walkSales (splits : List SplitEvent) (parcel : ParcelRow) : ℚ → List Allocation → ℚ
  | sold, [] => sold
  | sold, sale :: rest =>
    let left := parcel.quantity - sold
    let units :=
      if 0 < left ∧ splitAdjustedQuantity left splits parcel.date (some sale.saleDate) =
          sale.quantity then left
      else asAcquiredQuantity sale.quantity (some sale.saleDate) splits parcel.date
    walkSales splits parcel (sold + units) rest

def soldInAcquiredUnits (splits : List SplitEvent) (parcel : ParcelRow) (sales : List Allocation) :
    ℚ :=
  walkSales splits parcel 0 (StableSort.sortBy Allocation.saleDate sales)

/-- What a valuation reads. -/
structure Records where
  book : Book
  markets : List Market
  parcels : List ParcelRow
  allocations : List Allocation
  fx : FxRates
  /-- The last day whose close is final, on the market's own clock. -/
  latestCompleteTradingDay : Market → Except String (Option NaiveDate)
  markets_unique : (markets.map Market.listing).Nodup
  rates_pos : ∀ k, ∀ rate ∈ fx.rates k, 0 < rate

namespace Records

/-- The as-acquired units of a parcel still open at `asOf`. -/
def remaining (r : Records) (parcel : ParcelRow) (asOf : NaiveDate) : ℚ :=
  parcel.quantity - soldInAcquiredUnits (r.book.splits parcel.listing) parcel
    (r.allocations.filter fun a => a.purchaseTradeId = parcel.id ∧ a.saleDate ≤ asOf)

/-- The parcels with units still open at `asOf`. -/
def openParcels (r : Records) (asOf : NaiveDate) : List ParcelRow :=
  r.parcels.filter fun p => p.date ≤ asOf ∧ 0 < r.remaining p asOf

/-- The units of a holding still open at `asOf`, in the basis at `basis`. -/
def holdingUnits (r : Records) (asOf basis : NaiveDate) (holding : ListingId × ℤ) : ℚ :=
  (((r.openParcels asOf).filter fun p => (p.listing, p.account) = holding).map fun p =>
    splitAdjustedQuantity (r.remaining p asOf) (r.book.splits p.listing) p.date (some basis)).sum

end Records

/-- The price of a row whose status is ok. -/
def okPrice (row : ClosingPrice) : Option ℚ :=
  match row.quote with
  | .fetched _ price => some price
  | .manual price _ _ => some price
  | .errored _ => none

inductive Blocker where
  | noTradingDay (ticker : String) (date : NaiveDate)
  | notFinal (ticker : String) (valuationDay : NaiveDate)
  | nothingToCarry (ticker : String) (valuationDay : NaiveDate) (unpricedFrom : Option NaiveDate)
  | erroredPrice (ticker : String) (valuationDay : NaiveDate) (error : String)
  | noPrice (ticker : String) (valuationDay : NaiveDate)
  | noRate (ticker : String) (error : FxError)
  deriving DecidableEq

/-- A holding left out because nobody quoted it on the day. -/
structure ExcludedHolding where
  listing : ListingId
  ticker : String
  unpricedBefore : NaiveDate
  valuationDay : NaiveDate
  deriving DecidableEq

structure ListingValuation where
  listing : ListingId
  currency : CurrencyCode
  nativePrice : ℚ
  rate : ValuationRate
  priceCarriedForward : Bool
  audPrice : ℚ
  deriving DecidableEq

inductive ValuationError where
  | blocked (blockers : List Blocker)
  | allExcluded (date : NaiveDate) (excluded : List ExcludedHolding)
  | failed (message : String)
  deriving DecidableEq

structure StoredValuations where
  valuations : List ListingValuation
  excluded : List ExcludedHolding
  deriving DecidableEq

/-- What one market's turn of the loop comes to. -/
inductive Outcome where
  | valued (v : ListingValuation)
  | excluded (x : ExcludedHolding)
  | blocked (b : Blocker)
  deriving DecidableEq

namespace Records

/-- The latest ok row dated in `[notBefore, onOrBefore]`. -/
def latestOkPriceOnOrBefore (r : Records) (listing : ListingId) (onOrBefore : NaiveDate)
    (notBefore : Option NaiveDate) : Option (NaiveDate × ℚ) :=
  let rows := r.book.prices.filterMap fun row =>
    if row.listing = listing ∧ row.priceDate ≤ onOrBefore ∧
        notBefore.all (fun d => decide (d ≤ row.priceDate)) then
      (okPrice row).map fun price => (row.priceDate, price)
    else none
  (StableSort.sortBy Prod.fst rows).getLast?

/-- The close carried forward; the day it was observed on is dropped. -/
def carryForwardPrice (r : Records) (m : Market) (valuationDay : NaiveDate) : Option ℚ :=
  (r.latestOkPriceOnOrBefore m.listing valuationDay (r.book.unpricedBefore m.listing)).map Prod.snd

/-- The native price, and whether it was carried forward. -/
def priceAt (r : Records) (m : Market) (valuationDay : NaiveDate) : Except Blocker (ℚ × Bool) :=
  let stored := Keyed.get? ClosingPrice.day r.book.prices (m.listing, valuationDay)
  let unpriced := m.unpricedFrom.any fun d => decide (d ≤ valuationDay)
  match stored.bind okPrice with
  | some price => .ok (price, false)
  | none =>
    if unpriced then
      match r.carryForwardPrice m valuationDay with
      | some price => .ok (price, true)
      | none => .error (.nothingToCarry m.ticker valuationDay m.unpricedFrom)
    else
      match stored.map ClosingPrice.quote with
      | some (.errored error) => .error (.erroredPrice m.ticker valuationDay error)
      | _ => .error (.noPrice m.ticker valuationDay)

/-- One market's turn of the loop. -/
def valueMarket (r : Records) (date : NaiveDate) (m : Market) : Except String Outcome :=
  match m.latestTradingDayOnOrBefore date with
  | none => .ok (.blocked (.noTradingDay m.ticker date))
  | some valuationDay =>
    match (r.book.unpricedBefore m.listing).filter fun before => decide (valuationDay < before) with
    | some before => .ok (.excluded ⟨m.listing, m.ticker, before, valuationDay⟩)
    | none => do
        let finalDay ← r.latestCompleteTradingDay m
        if finalDay.all fun f => decide (f < valuationDay) then
          return .blocked (.notFinal m.ticker valuationDay)
        else
          match r.priceAt m valuationDay with
          | .error b => return .blocked b
          | .ok (nativePrice, carried) =>
            match resolveValuationRate r.fx m.currency valuationDay with
            | .error e => return .blocked (.noRate m.ticker e)
            | .ok rate =>
              return .valued ⟨m.listing, m.currency, nativePrice, rate, carried,
                applyRate nativePrice rate.rate⟩

def valuationsOfMarkets (r : Records) (date : NaiveDate) :
    Except ValuationError StoredValuations :=
  match r.markets.mapM (r.valueMarket date) with
  | .error message => .error (.failed message)
  | .ok outcomes =>
    let blockers := outcomes.filterMap fun o => match o with | .blocked b => some b | _ => none
    let valuations := outcomes.filterMap fun o => match o with | .valued v => some v | _ => none
    let excluded := outcomes.filterMap fun o => match o with | .excluded x => some x | _ => none
    if blockers ≠ [] then .error (.blocked blockers)
    else if valuations = [] then .error (.allExcluded date excluded)
    else .ok ⟨valuations, excluded⟩

end Records

/-- A row of the portfolio overview, less its cost base. -/
structure HoldingOverview where
  listing : ListingId
  account : ℤ
  quantity : ℚ
  currentPrice : Option ℚ
  marketValue : Option ℚ
  fxProvisional : Bool
  priceCarriedForward : Bool
  priceUnavailable : Option ExcludedHolding
  deriving DecidableEq

namespace Records

/-- One row a listing and account, where units are open. -/
def holdings (r : Records) (asOf : NaiveDate) : List HoldingOverview :=
  let keys := StableSort.sortBy (fun k : ListingId × ℤ => toLex k)
    ((r.openParcels asOf).map fun p => (p.listing, p.account)).dedup
  (keys.map fun k => (⟨k.1, k.2, r.holdingUnits asOf asOf k, none, none, false, false, none⟩ :
    HoldingOverview)).filter fun h => 0 < h.quantity

/-- A row with its price, or the reason it has none. -/
def priced (resolved : StoredValuations) (h : HoldingOverview) : HoldingOverview :=
  match resolved.valuations.find? fun v => v.listing = h.listing with
  | some v =>
    { h with
      currentPrice := some v.audPrice
      marketValue := some (h.quantity * v.audPrice)
      fxProvisional := v.rate.provisional
      priceCarriedForward := v.priceCarriedForward }
  | none =>
    { h with priceUnavailable := resolved.excluded.find? fun x => x.listing = h.listing }

/-- The overview a snapshot of `date` stores. -/
def generate (r : Records) (date : NaiveDate) : Except ValuationError (List HoldingOverview) := do
  let resolved ← r.valuationsOfMarkets date
  return (r.holdings date).map (priced resolved)

end Records

end ShareTracker.Valuation
