import ShareTracker.NonDisposalGains
import ShareTracker.ParcelLedger
import ShareTracker.Decimal
import ShareTracker.Lib.Keyed
import ShareTracker.Lib.Tally

/-!
Realised gains and losses: a row for each disposal, with the parcels behind it,
exact and at the cent. Every figure but the cents is an exact rational.
-/
namespace ShareTracker.Disposals
open Checked

/-- A Sell's row in `trades`, or a rights sale's in `rights_sales`. -/
inductive DisposalId where
  | sell (id : TradeId)
  | rightsSale (id : ℤ)
  deriving DecidableEq

/-- Sells first, then by id. -/
def DisposalId.rank : DisposalId → ℕ ×ₗ ℤ
  | .sell id => toLex (0, id)
  | .rightsSale id => toLex (1, id)

structure Buy where
  id : TradeId
  listing : ListingId
  row : ParcelRow

structure SellInfo where
  id : TradeId
  listing : ListingId
  account : HoldingAccountId
  date : NaiveDate
  quantity : ℚ
  averagePrice : ℚ
  brokerage : ℚ
  gstOnBrokerage : ℚ
  currency : CurrencyCode
  fxRate : ℚ
  spotFxRate : Option ℚ
  scripActionId : Option ℤ
  demergerActionId : Option ℤ
  transferId : Option ℤ

def SellInfo.fxOverride (s : SellInfo) : FxOverride := .fromTrade s.fxRate s.spotFxRate

/-- A scrip-for-scrip action's terms. -/
structure ScripAction where
  id : ℤ
  cashPerUnit : Option ℚ
  marketValue : Option ℚ
  newUnits : Option ℚ
  oldUnits : Option ℚ

structure Allocation where
  id : ℤ
  saleTrade : TradeId
  purchaseTrade : TradeId
  quantityAllocated : ℚ

structure RightsSaleInfo where
  id : ℤ
  listing : ListingId
  account : HoldingAccountId
  date : NaiveDate
  units : ℚ
  proceedsPerRight : ℚ
  rightsCost : ℚ
  currency : CurrencyCode
  fxRate : ℚ

structure RightsAllocation where
  rightsSale : ℤ
  purchaseTrade : TradeId
  units : ℚ

/-- What the report reads. Every Sell is here; the statements' reductions come
per parcel and the payments per listing. -/
structure ReportData where
  sells : List SellInfo
  scripActions : List ScripAction
  buys : List Buy
  allocations : List Allocation
  rightsSales : List RightsSaleInfo
  rightsAllocations : List RightsAllocation
  cbaReduction : TradeId → List AmitReductionEvent
  rocEvents : ListingId → List RocEvent
  splits : ListingId → TradeId → List SplitEvent
  fx : FxRates
  sells_unique : (sells.map SellInfo.id).Nodup
  buys_unique : (buys.map Buy.id).Nodup
  allocations_unique : (allocations.map Allocation.id).Nodup

inductive ReportError where
  | fx (e : FxError)
  | currency (e : CurrencyDiffers)
  | missingScripTerm (sale : TradeId) (column : String)
  | emptyListingGroup (listing : ListingId)
  deriving DecidableEq

/-- One parcel's share of a disposal. -/
structure ParcelDetail where
  purchaseTrade : TradeId
  acquisitionDate : NaiveDate
  units : ℚ
  costBase : ℚ
  proceeds : ℚ
  capitalGainLoss : ℚ
  discountEligible : Bool
  deriving DecidableEq

structure RealisedGainLoss where
  disposal : DisposalId
  listing : ListingId
  account : HoldingAccountId
  saleDate : NaiveDate
  proceeds : ℚ
  costBase : ℚ
  capitalGainLoss : ℚ
  discountEligibleGain : ℚ
  nonDiscountableGain : ℚ
  capitalLoss : ℚ
  parcels : List ParcelDetail
  deriving DecidableEq

/-! ### At the cent -/

structure DisposalCents where
  proceeds : ℚ
  costBase : ℚ
  discountEligibleGain : ℚ
  nonDiscountableGain : ℚ
  capitalLoss : ℚ

def DisposalCents.default : DisposalCents := ⟨0, 0, 0, 0, 0⟩

/-- A rounded parcel, in one bucket by the sign of its own gain. -/
def DisposalCents.add (totals : DisposalCents) (proceeds costBase : ℚ) (discountEligible : Bool) :
    DisposalCents :=
  let gain := proceeds - costBase
  let totals :=
    if 0 < gain ∧ discountEligible = true then
      { totals with discountEligibleGain := totals.discountEligibleGain + gain }
    else if 0 < gain then { totals with nonDiscountableGain := totals.nonDiscountableGain + gain }
    else { totals with capitalLoss := totals.capitalLoss - gain }
  { totals with proceeds := totals.proceeds + proceeds, costBase := totals.costBase + costBase }

/-- The cost bases round on their own, the proceeds cumulatively. -/
def centWalk (running roundedBefore : ℚ) (totals : DisposalCents) :
    List (ℚ × ℚ × Bool) → List (ℚ × ℚ) × DisposalCents
  | [] => ([], totals)
  | (proceeds, costBase, discountEligible) :: rest =>
    let roundedRunning := toCents (running + proceeds)
    let p := roundedRunning - roundedBefore
    let c := toCents costBase
    let walk := centWalk (running + proceeds) roundedRunning (totals.add p c discountEligible) rest
    ((p, c) :: walk.1, walk.2)

def parcelsAtTheCent (parcels : List (ℚ × ℚ × Bool)) : List (ℚ × ℚ) × DisposalCents :=
  centWalk 0 0 .default parcels

def ParcelDetail.atTheCent (p : ParcelDetail) (rounded : ℚ × ℚ) : ParcelDetail :=
  { p with
    proceeds := rounded.1
    costBase := rounded.2
    capitalGainLoss := rounded.1 - rounded.2 }

/-- The disposal as every report prints it. -/
def RealisedGainLoss.atTheCent (d : RealisedGainLoss) : RealisedGainLoss :=
  if d.parcels = [] then
    { d with
      proceeds := toCents d.proceeds
      costBase := toCents d.costBase
      capitalGainLoss := toCents d.proceeds - toCents d.costBase
      discountEligibleGain := toCents d.discountEligibleGain
      nonDiscountableGain := toCents d.nonDiscountableGain
      capitalLoss := toCents d.capitalLoss }
  else
    let cents := parcelsAtTheCent (d.parcels.map fun p => (p.proceeds, p.costBase, p.discountEligible))
    { d with
      parcels := List.zipWith ParcelDetail.atTheCent d.parcels cents.1
      proceeds := cents.2.proceeds
      costBase := cents.2.costBase
      capitalGainLoss := cents.2.proceeds - cents.2.costBase
      discountEligibleGain := cents.2.discountEligibleGain
      nonDiscountableGain := cents.2.nonDiscountableGain
      capitalLoss := cents.2.capitalLoss }

/-! ### The computation -/

/-- The share of `whole` that is `num` parts in `den`. -/
def apportion (whole num den : ℚ) : ℚ := whole * num / den

/-- One allocation's share of a total, and the entitlement so far. -/
def cumulativeShare (total unitsSoFar unitsTotal entitledBefore : ℚ) : ℚ × ℚ :=
  let entitled := if unitsSoFar = unitsTotal then total else total * unitsSoFar / unitsTotal
  (entitled - entitledBefore, entitled)

namespace ReportData

def sell? (data : ReportData) (id : TradeId) : Option SellInfo := Keyed.get? SellInfo.id data.sells id

def buy? (data : ReportData) (id : TradeId) : Option Buy := Keyed.get? Buy.id data.buys id

/-- The joined terms of the action a closing Sell belongs to. -/
def scripTerms (data : ReportData) (sale : SellInfo) : Option ScripAction :=
  sale.scripActionId.bind fun id => data.scripActions.find? fun a => a.id = id

/-- No rollover's closing Sell, unless it pays cash. -/
def realisable (data : ReportData) (sale : SellInfo) : Bool :=
  (sale.scripActionId = none ∨ ((data.scripTerms sale).bind ScripAction.cashPerUnit).isSome = true) ∧
    sale.demergerActionId = none ∧ sale.transferId = none

/-- The cash side's share of the cost base, as a numerator and a denominator. -/
def scripCashApportionment (data : ReportData) (sale : SellInfo) :
    Except ReportError (Option (ℚ × ℚ)) :=
  match data.scripTerms sale with
  | none => .ok none
  | some action =>
    match action.cashPerUnit with
    | none => .ok none
    | some cash => do
        let mv ← orRefuse action.marketValue (.missingScripTerm sale.id "scrip_market_value")
        let new ← orRefuse action.newUnits (.missingScripTerm sale.id "scrip_new_units")
        let old ← orRefuse action.oldUnits (.missingScripTerm sale.id "scrip_old_units")
        return some (cash * old, cash * old + mv * new)

structure AllocationUnits where
  id : ℤ
  saleTrade : TradeId
  purchaseTrade : TradeId
  units : ℚ

/-- A parcel's allocations walked in sale-date order: the one stating exactly
what the remainder re-bases to takes exactly the remainder. -/
def walkUnits (splits : List SplitEvent) (buy : Buy) (sold : ℚ) :
    List (Allocation × NaiveDate) → List AllocationUnits
  | [] => []
  | (a, saleDate) :: rest =>
    let left := buy.row.parcel.quantity - sold
    let units :=
      if 0 < left ∧ splitAdjustedQuantity left splits buy.row.parcel.tradeDate (some saleDate) =
          a.quantityAllocated then left
      else asAcquiredQuantity a.quantityAllocated (some saleDate) splits buy.row.parcel.tradeDate
    ⟨a.id, a.saleTrade, a.purchaseTrade, units⟩ :: walkUnits splits buy (sold + units) rest

/-- A parcel's allocations with the dates of their sales, in id order. -/
def drawsOn (data : ReportData) (buy : Buy) : List (Allocation × NaiveDate) :=
  (StableSort.sortBy Allocation.id
    (data.allocations.filter fun a => a.purchaseTrade = buy.id)).filterMap fun a =>
      (data.sell? a.saleTrade).map fun s => (a, s.date)

/-- Each allocation's units in its parcel's as-acquired basis. -/
def acquiredUnitsByAllocation (data : ReportData) : List AllocationUnits :=
  data.buys.flatMap fun buy => walkUnits (data.splits buy.listing buy.id) buy 0
    (StableSort.sortBy Prod.snd (data.drawsOn buy))

/-- The units allocated by one allocation, by its id. -/
def acquiredUnits (data : ReportData) (sale : SellInfo) (buy : Buy) (a : Allocation) : ℚ :=
  match data.acquiredUnitsByAllocation.find? fun u => u.id = a.id with
  | some u => u.units
  | none => asAcquiredQuantity a.quantityAllocated (some sale.date) (data.splits buy.listing buy.id)
      buy.row.parcel.tradeDate

/-- A figure of the pipeline in AUD, at the parcel's acquisition month. -/
def inAud (data : ReportData) (buy : Buy) (figure : ℚ) : Except ReportError ℚ :=
  (data.fx.toAud figure buy.row.parcel.currency buy.row.acquired buy.row.fxOverride).mapError .fx

def costOf (data : ReportData) (buy : Buy) (units : ℚ) (saleDate : NaiveDate) :
    Except ReportError CostBase :=
  (adjustedCostBase buy.row.parcel units (data.cbaReduction buy.id) (data.rocEvents buy.listing)
    (data.splits buy.listing buy.id) (.disposedOn saleDate)).mapError .currency

/-- An allocation's adjusted cost base in AUD, less the scrip side's share. -/
def allocationCost (data : ReportData) (sale : SellInfo) (buy : Buy) (a : Allocation) :
    Except ReportError ℚ := do
  let costBase ← data.costOf buy (data.acquiredUnits sale buy a) sale.date
  let cost ← data.inAud buy costBase.adjusted
  let apportionment ← data.scripCashApportionment sale
  return apportionment.elim cost fun (num, den) => apportion cost num den

/-- A Sell's running figures over its allocations. -/
structure SaleAcc where
  unitsSoFar : ℚ
  entitled : ℚ
  costBase : ℚ
  discountGain : ℚ
  nonDiscountGain : ℚ
  loss : ℚ
  parcels : List ParcelDetail

def SaleAcc.default : SaleAcc := ⟨0, 0, 0, 0, 0, 0, []⟩

/-- One more parcel, in one bucket by its own gain. -/
def SaleAcc.add (acc : SaleAcc) (unitsSoFar entitled : ℚ) (p : ParcelDetail) : SaleAcc where
  unitsSoFar := unitsSoFar
  entitled := entitled
  costBase := acc.costBase + p.costBase
  discountGain := if 0 < p.capitalGainLoss ∧ p.discountEligible = true then
    acc.discountGain + p.capitalGainLoss else acc.discountGain
  nonDiscountGain := if 0 < p.capitalGainLoss ∧ p.discountEligible = false then
    acc.nonDiscountGain + p.capitalGainLoss else acc.nonDiscountGain
  loss := if p.capitalGainLoss < 0 then acc.loss - p.capitalGainLoss else acc.loss
  parcels := acc.parcels ++ [p]

def netProceeds (data : ReportData) (sale : SellInfo) : Except ReportError ℚ :=
  (data.fx.toAud (sale.averagePrice * sale.quantity - sale.brokerage - sale.gstOnBrokerage)
    sale.currency sale.date sale.fxOverride).mapError .fx

/-- The parcel's units so far, its share of the proceeds and the entitlement. -/
def proceedsShare (data : ReportData) (sale : SellInfo) (acc : SaleAcc) (units : ℚ) :
    Except ReportError (ℚ × ℚ × ℚ) :=
  if 0 < sale.quantity then do
    let total ← data.netProceeds sale
    let (share, entitled) :=
      cumulativeShare total (acc.unitsSoFar + units) sale.quantity acc.entitled
    return (acc.unitsSoFar + units, share, entitled)
  else return (acc.unitsSoFar, 0, acc.entitled)

def realise (data : ReportData) (accs : List (TradeId × SaleAcc)) (a : Allocation) :
    Except ReportError (List (TradeId × SaleAcc)) :=
  match (data.sell? a.saleTrade).filter data.realisable, data.buy? a.purchaseTrade with
  | some sale, some buy => do
      let acc := Tally.read .default sale.id accs
      let (unitsSoFar, proceeds, entitled) ← data.proceedsShare sale acc a.quantityAllocated
      let costBase ← data.allocationCost sale buy a
      let p : ParcelDetail :=
        { purchaseTrade := a.purchaseTrade, acquisitionDate := buy.row.acquired
          units := a.quantityAllocated, costBase, proceeds, capitalGainLoss := proceeds - costBase
          discountEligible := discountEligible buy.row.acquired sale.date }
      return Tally.adjust .default sale.id (fun acc => acc.add unitsSoFar entitled p) accs
  | _, _ => return accs

def parcelRank (p : ParcelDetail) : NaiveDate ×ₗ ℤ := toLex (p.acquisitionDate, p.purchaseTrade)

def saleRow (data : ReportData) (e : TradeId × SaleAcc) : Option RealisedGainLoss :=
  (data.sell? e.1).map fun sale =>
    { disposal := .sell e.1, listing := sale.listing, account := sale.account, saleDate := sale.date
      proceeds := e.2.entitled, costBase := e.2.costBase
      capitalGainLoss := e.2.entitled - e.2.costBase
      discountEligibleGain := e.2.discountGain, nonDiscountableGain := e.2.nonDiscountGain
      capitalLoss := e.2.loss, parcels := StableSort.sortBy parcelRank e.2.parcels }

/-- A rights sale's running figures: its proceeds so far beside the others. -/
def anchor (data : ReportData) (sale : RightsSaleInfo) (proceeds cost : ℚ) (acc : ℚ × SaleAcc)
    (a : RightsAllocation) : ℚ × SaleAcc :=
  match data.buy? a.purchaseTrade with
  | none => acc
  | some buy =>
    let soFar := acc.2.unitsSoFar + a.units
    let p := if 0 < sale.units then cumulativeShare proceeds soFar sale.units acc.2.entitled
      else (0, acc.2.entitled)
    let c := if 0 < sale.units then cumulativeShare cost soFar sale.units acc.1 else (0, acc.1)
    (c.2, acc.2.add soFar p.2
      { purchaseTrade := a.purchaseTrade, acquisitionDate := buy.row.acquired, units := a.units
        costBase := c.1, proceeds := p.1, capitalGainLoss := p.1 - c.1
        discountEligible := discountEligible buy.row.acquired sale.date })

def rightsRow (data : ReportData) (sale : RightsSaleInfo) : Except ReportError RealisedGainLoss := do
  let proceeds ← (data.fx.toAud (sale.proceedsPerRight * sale.units) sale.currency sale.date
    (.fallback sale.fxRate)).mapError .fx
  let cost ← (data.fx.toAud sale.rightsCost sale.currency sale.date
    (.fallback sale.fxRate)).mapError .fx
  let (costEntitled, acc) := (data.rightsAllocations.filter fun a => a.rightsSale = sale.id).foldl
    (data.anchor sale proceeds cost) (0, .default)
  return {
    disposal := .rightsSale sale.id, listing := sale.listing, account := sale.account
    saleDate := sale.date, proceeds := acc.entitled, costBase := costEntitled
    capitalGainLoss := acc.entitled - costEntitled
    discountEligibleGain := acc.discountGain, nonDiscountableGain := acc.nonDiscountGain
    capitalLoss := acc.loss, parcels := StableSort.sortBy parcelRank acc.parcels }

def disposalRank (d : RealisedGainLoss) : NaiveDate ×ₗ (ℕ ×ₗ ℤ) := toLex (d.saleDate, d.disposal.rank)

def computeRealisedGains (data : ReportData) : Except ReportError (List RealisedGainLoss) := do
  let accs ← data.allocations.foldlM data.realise []
  let rights ← data.rightsSales.mapM data.rightsRow
  return StableSort.sortBy disposalRank (accs.filterMap data.saleRow ++ rights)

/-! ### The units behind an allocation -/

section Units
variable {data : ReportData} {sale : SellInfo} {buy : Buy} {a : Allocation}

/-- The entry of an allocation read back on its own. -/
def unitsEntry (data : ReportData) (buy : Buy) (draw : Allocation × NaiveDate) : AllocationUnits :=
  ⟨draw.1.id, draw.1.saleTrade, draw.1.purchaseTrade,
    asAcquiredQuantity draw.1.quantityAllocated (some draw.2) (data.splits buy.listing buy.id)
      buy.row.parcel.tradeDate⟩

theorem asAcquired_splitAdjusted (left : ℚ) (splits : List SplitEvent) (acquired date : NaiveDate) :
    asAcquiredQuantity (splitAdjustedQuantity left splits acquired (some date)) (some date) splits
      acquired = left := by
  have hacquired := (basisLevel_pos splits acquired).ne'
  have hdate := (basisLevel_pos splits date).ne'
  rw [asAcquiredQuantity_eq, splitAdjustedQuantity_eq, rebaseRatio_factor, rebaseRatio_factor]
  field_simp

/-- Exactly, the walk takes for each sale what it re-bases to on its own. -/
theorem walkUnits_eq (buy : Buy) (sold : ℚ) (draws : List (Allocation × NaiveDate)) :
    walkUnits (data.splits buy.listing buy.id) buy sold draws = draws.map (data.unitsEntry buy) := by
  induction draws generalizing sold with
  | nil => rfl
  | cons draw rest ih =>
    have hunits : ∀ left, (if 0 < left ∧ splitAdjustedQuantity left
          (data.splits buy.listing buy.id) buy.row.parcel.tradeDate (some draw.2) =
            draw.1.quantityAllocated then left
        else asAcquiredQuantity draw.1.quantityAllocated (some draw.2)
          (data.splits buy.listing buy.id) buy.row.parcel.tradeDate) =
        asAcquiredQuantity draw.1.quantityAllocated (some draw.2)
          (data.splits buy.listing buy.id) buy.row.parcel.tradeDate := by
      intro left
      split
      · rename_i h
        rw [← h.2, asAcquired_splitAdjusted]
      · rfl
    rw [walkUnits]
    simp only [hunits, ih]
    rfl

theorem mem_acquiredUnits {u : AllocationUnits} : u ∈ data.acquiredUnitsByAllocation ↔
    ∃ buy ∈ data.buys, ∃ a ∈ data.allocations, ∃ sale, a.purchaseTrade = buy.id ∧
      data.sell? a.saleTrade = some sale ∧ u = data.unitsEntry buy (a, sale.date) := by
  simp only [acquiredUnitsByAllocation, walkUnits_eq, List.mem_flatMap, List.mem_map,
    StableSort.mem_sortBy, drawsOn, List.mem_filterMap, List.mem_filter, decide_eq_true_eq,
    Option.map_eq_some_iff]
  constructor
  · rintro ⟨buy, hbuy, draw, ⟨a, ⟨ha, hpurchase⟩, sale, hsale, rfl⟩, rfl⟩
    exact ⟨buy, hbuy, a, ha, sale, hpurchase, hsale, rfl⟩
  · rintro ⟨buy, hbuy, a, ha, sale, hpurchase, hsale, rfl⟩
    exact ⟨buy, hbuy, _, ⟨a, ⟨ha, hpurchase⟩, sale, hsale, rfl⟩, rfl⟩

theorem buy?_eq_some {id : TradeId} : data.buy? id = some buy ↔ buy ∈ data.buys ∧ buy.id = id :=
  Keyed.get?_eq_some data.buys_unique

theorem sell?_eq_some {id : TradeId} : data.sell? id = some sale ↔ sale ∈ data.sells ∧ sale.id = id :=
  Keyed.get?_eq_some data.sells_unique

/-- An entry of the allocation's id is its own. -/
theorem unitsEntry_of_id (ha : a ∈ data.allocations) (hsale : data.sell? a.saleTrade = some sale)
    (hbuy : data.buy? a.purchaseTrade = some buy) {u : AllocationUnits}
    (hu : u ∈ data.acquiredUnitsByAllocation) (hid : u.id = a.id) :
    u = data.unitsEntry buy (a, sale.date) := by
  obtain ⟨buy', hbuy', a', ha', sale', hpurchase, hsale', rfl⟩ := mem_acquiredUnits.mp hu
  obtain rfl := Keyed.eq_of_key data.allocations_unique ha' ha hid
  obtain ⟨hmem, hbid⟩ := buy?_eq_some.mp hbuy
  obtain rfl := Keyed.eq_of_key data.buys_unique hbuy' hmem (hpurchase.symm.trans hbid.symm)
  rw [hsale] at hsale'
  rw [Option.some.inj hsale']

theorem acquiredUnits_eq (ha : a ∈ data.allocations) (hsale : data.sell? a.saleTrade = some sale)
    (hbuy : data.buy? a.purchaseTrade = some buy) : data.acquiredUnits sale buy a =
      asAcquiredQuantity a.quantityAllocated (some sale.date) (data.splits buy.listing buy.id)
        buy.row.parcel.tradeDate := by
  unfold acquiredUnits
  cases hfind : data.acquiredUnitsByAllocation.find? fun u => u.id = a.id with
  | none => rfl
  | some u =>
    have hid : u.id = a.id := by simpa using List.find?_some hfind
    rw [unitsEntry_of_id ha hsale hbuy (List.mem_of_find?_eq_some hfind) hid]
    rfl

end Units

/-! ### Where a parcel's figures come from -/

/-- A Sell's parcel is one of its allocations, costed by the pipeline. -/
def Source (data : ReportData) (sale : SellInfo) (p : ParcelDetail) : Prop :=
  ∃ a ∈ data.allocations, ∃ buy, data.sell? a.saleTrade = some sale ∧
    data.buy? a.purchaseTrade = some buy ∧ p.purchaseTrade = a.purchaseTrade ∧
    p.units = a.quantityAllocated ∧ data.allocationCost sale buy a = .ok p.costBase

section Sources
variable {data : ReportData}

theorem realise_source {accs accs' : List (TradeId × SaleAcc)} {a : Allocation}
    (ha : a ∈ data.allocations) (hok : data.realise accs a = .ok accs')
    (hs : ∀ e ∈ accs, ∀ sale, data.sell? e.1 = some sale → ∀ p ∈ e.2.parcels, data.Source sale p) :
    ∀ e ∈ accs', ∀ sale, data.sell? e.1 = some sale → ∀ p ∈ e.2.parcels, data.Source sale p := by
  unfold realise at hok
  split at hok
  · rename_i sale buy hsale hbuy
    have hsale := (Option.filter_eq_some_iff.mp hsale).1
    obtain ⟨⟨unitsSoFar, proceeds, entitled⟩, -, hok⟩ := bind_ok hok
    obtain ⟨costBase, hcost, hok⟩ := bind_ok hok
    obtain rfl := Except.ok.inj hok
    intro e he sale' hsale' p hp
    rcases Tally.mem_adjust he with hold | ⟨hkey, acc, hacc, hval⟩
    · exact hs e hold sale' hsale' p hp
    · have hid := (sell?_eq_some.mp hsale).2
      rw [hkey, hid] at hsale'
      obtain rfl := Option.some.inj (hsale.symm.trans hsale')
      rw [hval] at hp
      rcases List.mem_append.mp hp with hp | hp
      · rcases hacc with rfl | hmem
        · cases hp
        · exact hs _ hmem sale (hid ▸ hsale) p hp
      · obtain rfl := List.mem_singleton.mp hp
        exact ⟨a, ha, buy, hsale, hbuy, rfl, rfl, hcost⟩
  · obtain rfl := Except.ok.inj hok
    exact hs

theorem foldlM_source {l : List Allocation} (hl : ∀ a ∈ l, a ∈ data.allocations)
    {accs accs' : List (TradeId × SaleAcc)} (hok : l.foldlM data.realise accs = .ok accs')
    (hs : ∀ e ∈ accs, ∀ sale, data.sell? e.1 = some sale → ∀ p ∈ e.2.parcels, data.Source sale p) :
    ∀ e ∈ accs', ∀ sale, data.sell? e.1 = some sale → ∀ p ∈ e.2.parcels, data.Source sale p := by
  induction l generalizing accs with
  | nil =>
    obtain rfl : accs = accs' := Except.ok.inj hok
    exact hs
  | cons a l ih =>
    obtain ⟨mid, hmid, hrest⟩ := bind_ok hok
    exact ih (fun b hb => hl b (List.mem_cons_of_mem _ hb)) hrest
      (realise_source (hl a List.mem_cons_self) hmid hs)

/-- Each parcel under a Sell of the report has its source. -/
theorem source_of_mem {rows : List RealisedGainLoss} (hrows : data.computeRealisedGains = .ok rows)
    {d : RealisedGainLoss} (hd : d ∈ rows) {id : TradeId} (hid : d.disposal = .sell id)
    {p : ParcelDetail} (hp : p ∈ d.parcels) :
    ∃ sale, data.sell? id = some sale ∧ d.saleDate = sale.date ∧ data.Source sale p := by
  unfold computeRealisedGains at hrows
  obtain ⟨accs, haccs, hrows⟩ := bind_ok hrows
  obtain ⟨rights, hrights, hrows⟩ := bind_ok hrows
  obtain rfl := Except.ok.inj hrows
  rcases List.mem_append.mp (StableSort.mem_sortBy.mp hd) with hsell | hright
  · obtain ⟨e, he, hrow⟩ := List.mem_filterMap.mp hsell
    obtain ⟨sale, hsale, rfl⟩ := Option.map_eq_some_iff.mp hrow
    obtain rfl : e.1 = id := DisposalId.sell.inj hid
    exact ⟨sale, hsale, rfl, foldlM_source (fun _ h => h) haccs nofun e he sale hsale p
      (StableSort.mem_sortBy.mp hp)⟩
  · obtain ⟨s, -, hrow⟩ := mem_mapM_ok hrights hright
    unfold rightsRow at hrow
    obtain ⟨_, -, hrow⟩ := bind_ok hrow
    obtain ⟨_, -, hrow⟩ := bind_ok hrow
    obtain rfl := Except.ok.inj hrow
    cases hid

theorem realise_parcels {accs accs' : List (TradeId × SaleAcc)} {a : Allocation}
    (hok : data.realise accs a = .ok accs') (hs : ∀ e ∈ accs, e.2.parcels ≠ []) :
    ∀ e ∈ accs', e.2.parcels ≠ [] := by
  unfold realise at hok
  split at hok
  · obtain ⟨_, -, hok⟩ := bind_ok hok
    obtain ⟨_, -, hok⟩ := bind_ok hok
    obtain rfl := Except.ok.inj hok
    intro e he
    rcases Tally.mem_adjust he with hold | ⟨-, acc, -, hval⟩
    · exact hs e hold
    · rw [hval]
      exact List.append_ne_nil_of_right_ne_nil _ (List.cons_ne_nil _ _)
  · obtain rfl := Except.ok.inj hok
    exact hs

theorem foldlM_parcels {l : List Allocation} {accs accs' : List (TradeId × SaleAcc)}
    (hok : l.foldlM data.realise accs = .ok accs') (hs : ∀ e ∈ accs, e.2.parcels ≠ []) :
    ∀ e ∈ accs', e.2.parcels ≠ [] := by
  induction l generalizing accs with
  | nil =>
    obtain rfl : accs = accs' := Except.ok.inj hok
    exact hs
  | cons a l ih =>
    obtain ⟨mid, hmid, hrest⟩ := bind_ok hok
    exact ih hrest (realise_parcels hmid hs)

theorem foldl_anchor {sale : RightsSaleInfo} {proceeds cost : ℚ} {l : List RightsAllocation}
    {acc : ℚ × SaleAcc} (h : acc.2.parcels = [] → acc = (0, .default)) :
    (l.foldl (data.anchor sale proceeds cost) acc).2.parcels = [] →
      l.foldl (data.anchor sale proceeds cost) acc = (0, .default) := by
  induction l generalizing acc with
  | nil => exact h
  | cons a l ih =>
    refine ih fun hparcels => ?_
    unfold anchor at hparcels ⊢
    cases hbuy : data.buy? a.purchaseTrade with
    | none =>
      rw [hbuy] at hparcels
      exact h hparcels
    | some buy =>
      rw [hbuy] at hparcels
      exact absurd hparcels (List.append_ne_nil_of_right_ne_nil _ (List.cons_ne_nil _ _))

/-- A disposal without parcels has no figures. -/
theorem figures_of_no_parcels {rows : List RealisedGainLoss}
    (hrows : data.computeRealisedGains = .ok rows) {d : RealisedGainLoss} (hd : d ∈ rows)
    (hparcels : d.parcels = []) : d.proceeds = 0 ∧ d.costBase = 0 := by
  unfold computeRealisedGains at hrows
  obtain ⟨accs, haccs, hrows⟩ := bind_ok hrows
  obtain ⟨rights, hrights, hrows⟩ := bind_ok hrows
  obtain rfl := Except.ok.inj hrows
  rcases List.mem_append.mp (StableSort.mem_sortBy.mp hd) with hsell | hright
  · obtain ⟨e, he, hrow⟩ := List.mem_filterMap.mp hsell
    obtain ⟨sale, -, rfl⟩ := Option.map_eq_some_iff.mp hrow
    have hne := foldlM_parcels haccs nofun e he
    have hperm := StableSort.sortBy_perm parcelRank e.2.parcels
    rw [show StableSort.sortBy parcelRank e.2.parcels = [] from hparcels] at hperm
    exact absurd hperm.nil_eq.symm hne
  · obtain ⟨s, -, hrow⟩ := mem_mapM_ok hrights hright
    unfold rightsRow at hrow
    obtain ⟨proceeds, -, hrow⟩ := bind_ok hrow
    obtain ⟨cost, -, hrow⟩ := bind_ok hrow
    generalize hfold : (data.rightsAllocations.filter fun a => decide (a.rightsSale = s.id)).foldl
      (data.anchor s proceeds cost) (0, SaleAcc.default) = final at hrow
    obtain ⟨costEntitled, acc⟩ := final
    obtain rfl := Except.ok.inj hrow
    have hperm := StableSort.sortBy_perm parcelRank acc.parcels
    rw [show StableSort.sortBy parcelRank acc.parcels = [] from hparcels] at hperm
    have hstart : (0, SaleAcc.default).2.parcels = [] → ((0 : ℚ), SaleAcc.default) = (0, .default) :=
      fun _ => rfl
    have hempty := foldl_anchor hstart (by rw [hfold]; exact hperm.nil_eq.symm)
    rw [hfold] at hempty
    obtain ⟨rfl, rfl⟩ := Prod.mk.inj hempty
    exact ⟨rfl, rfl⟩

end Sources
end ReportData
end ShareTracker.Disposals
