import ShareTracker.RealisedGains
import ShareTracker.Rollover
import ShareTracker.Lib.Drawdown

/-!
The annual tax report's disposal schedule: a printed row for each parcel behind
a disposal, its cost base itemised down to the adjusted one, and the totals.
-/
namespace ShareTracker.Disposals
open Checked

structure DisposalParcelRow where
  disposal : DisposalId
  purchaseTrade : TradeId
  account : HoldingAccountId
  acquisitionDate : NaiveDate
  tradeDate : Option NaiveDate
  units : ℚ
  initialCostBaseAud : ℚ
  costBasePerUnitAud : ℚ
  adjustments : List CostBaseAdjustment
  adjustedCostBaseAud : ℚ
  saleDate : NaiveDate
  proceedsAud : ℚ
  proceedsPerUnitAud : ℚ
  gainLossAud : ℚ
  discountEligible : Bool
  cgtDiscountAmountAud : ℚ
  gainAfterDiscountAud : ℚ
  currency : CurrencyCode
  deriving DecidableEq

namespace DisposalParcelRow

/-- The adjustments as printed: on their own where one ran the balance past
nil, else as the steps between the rounded balances. -/
def printedAdjustments (r : DisposalParcelRow) : List CostBaseAdjustment :=
  if r.adjustments.any (·.capped) then
    r.adjustments.map fun a => { a with amount := toCents a.amount }
  else
    List.zipWith (fun a amount => { a with amount }) r.adjustments
      (Drawdown.steps toCents r.adjustedCostBaseAud r.initialCostBaseAud
        (toCents r.initialCostBaseAud) (r.adjustments.map (·.amount)))

/-- The row with its money at the cent; the proceeds and the adjusted cost base
arrive at it. -/
def roundMoneyToCents (r : DisposalParcelRow) : DisposalParcelRow :=
  let gain := r.proceedsAud - r.adjustedCostBaseAud
  let discount := if r.discountEligible = true ∧ 0 < gain then toCents (gain / 2) else 0
  { r with
    adjustments := r.printedAdjustments
    initialCostBaseAud := toCents r.initialCostBaseAud
    gainLossAud := gain
    cgtDiscountAmountAud := discount
    gainAfterDiscountAud := gain - discount }

end DisposalParcelRow

structure DisposalTotals where
  proceedsAud : ℚ
  costBaseAud : ℚ
  gainLossAud : ℚ
  cgtDiscountAmountAud : ℚ
  gainAfterDiscountAud : ℚ
  deriving DecidableEq

namespace DisposalTotals

def default : DisposalTotals := ⟨0, 0, 0, 0, 0⟩

def add (t : DisposalTotals) (r : DisposalParcelRow) : DisposalTotals where
  proceedsAud := t.proceedsAud + r.proceedsAud
  costBaseAud := t.costBaseAud + r.adjustedCostBaseAud
  gainLossAud := t.gainLossAud + r.gainLossAud
  cgtDiscountAmountAud := t.cgtDiscountAmountAud + r.cgtDiscountAmountAud
  gainAfterDiscountAud := t.gainAfterDiscountAud + r.gainAfterDiscountAud

end DisposalTotals

structure DisposalListingGroup where
  listing : ListingId
  ticker : String
  parcels : List DisposalParcelRow
  subtotal : DisposalTotals
  deriving DecidableEq

structure DisposalsSection where
  listings : List DisposalListingGroup
  totals : DisposalTotals
  deriving DecidableEq

namespace ReportData

/-- The units an allocation of the Sell took from the parcel; a Sell that drew
on the parcel twice is re-based on its own. -/
def printedUnits (data : ReportData) (sale : TradeId) (p : ParcelDetail) (saleDate : NaiveDate)
    (buy : Buy) : ℚ :=
  match data.acquiredUnitsByAllocation.filter
    fun u => u.saleTrade = sale ∧ u.purchaseTrade = p.purchaseTrade with
  | [u] => u.units
  | _ => asAcquiredQuantity p.units (some saleDate) (data.splits buy.listing buy.id)
      buy.row.parcel.tradeDate

/-- The cash apportionment of a Sell that pays scrip cash. -/
def scripCash (data : ReportData) (sale : TradeId) : Except ReportError (Option (ℚ × ℚ)) :=
  match data.sell? sale with
  | none => .ok none
  | some s => data.scripCashApportionment s

/-- The share a scrip cash apportionment leaves of a figure. -/
def cashShare (apportionment : Option (ℚ × ℚ)) (figure : ℚ) : ℚ :=
  apportionment.elim figure fun (num, den) => apportion figure num den

/-- The itemised adjustments and the initial cost base, exact, in AUD. -/
def itemised (data : ReportData) (d : RealisedGainLoss) (p : ParcelDetail) :
    Except ReportError (List CostBaseAdjustment × ℚ) :=
  match d.disposal, data.buy? p.purchaseTrade with
  | .sell sale, some buy => do
      let units := data.printedUnits sale p d.saleDate buy
      let rows ← (adjustmentDetail buy.row.parcel units (data.cbaReduction buy.id)
        (data.rocEvents buy.listing) (data.splits buy.listing buy.id)
        (.disposedOn d.saleDate)).mapError .currency
      let costBase ← data.costOf buy units d.saleDate
      let initial ← data.inAud buy costBase.costedInitialCost
      let rate ← (data.fx.resolveRate buy.row.parcel.currency buy.row.acquired
        buy.row.fxOverride).mapError .fx
      let apportionment ← data.scripCash sale
      return (rows.map fun r =>
          { r with
            amount := cashShare apportionment (applyRate r.amount rate)
            perUnit := r.perUnit.map fun pu => cashShare apportionment (applyRate pu rate) },
        cashShare apportionment initial)
  | _, _ => .ok ([], p.costBase)

/-- A parcel's row before its money is rounded. -/
def exactRow (data : ReportData) (d : RealisedGainLoss) (p cents : ParcelDetail) :
    Except ReportError DisposalParcelRow := do
  let buy := data.buy? p.purchaseTrade
  let (adjustments, initial) ← data.itemised d p
  return {
    disposal := d.disposal
    purchaseTrade := p.purchaseTrade
    account := d.account
    acquisitionDate := p.acquisitionDate
    tradeDate := (buy.map fun b => b.row.parcel.tradeDate).filter fun t => t ≠ p.acquisitionDate
    units := p.units
    initialCostBaseAud := initial
    costBasePerUnitAud := if 0 < p.units then p.costBase / p.units else 0
    adjustments
    adjustedCostBaseAud := cents.costBase
    saleDate := d.saleDate
    proceedsAud := cents.proceeds
    proceedsPerUnitAud := if 0 < p.units then p.proceeds / p.units else 0
    gainLossAud := cents.capitalGainLoss
    discountEligible := p.discountEligible
    cgtDiscountAmountAud := 0
    gainAfterDiscountAud := 0
    currency := (buy.map fun b => b.row.parcel.currency).getD ⟨"AUD"⟩ }

def disposalParcelRows (data : ReportData) (d : RealisedGainLoss) :
    Except ReportError (List DisposalParcelRow) :=
  (d.parcels.zip d.atTheCent.parcels).mapM fun (p, cents) => do
    return (← data.exactRow d p cents).roundMoneyToCents

def rowRank (r : DisposalParcelRow) : NaiveDate ×ₗ NaiveDate := toLex (r.saleDate, r.acquisitionDate)

/-- One listing's rows and their subtotal, headed by the ticker at the last of
its disposals; the source has no heading for a listing without rows. -/
def listingGroup (ticker : ListingId → NaiveDate → String) (e : ListingId × List DisposalParcelRow) :
    Except ReportError DisposalListingGroup := do
  let latest ← orRefuse (e.2.map DisposalParcelRow.saleDate).max? (.emptyListingGroup e.1)
  let parcels := StableSort.sortBy rowRank e.2
  return ⟨e.1, ticker e.1 latest, parcels, parcels.foldl .add .default⟩

/-- The year's schedule: `ticker` is the listing's at a date. -/
def disposalsSection (data : ReportData) (ticker : ListingId → NaiveDate → String) (taxYear : ℤ)
    (all : List RealisedGainLoss) : Except ReportError DisposalsSection := do
  let yearDisposals := all.filter fun d => taxYearFor d.saleDate = taxYear
  let rows ← yearDisposals.mapM fun d => do
    return (d.listing, ← data.disposalParcelRows d)
  let byListing := rows.foldl (fun t e => Tally.adjust [] e.1 (· ++ e.2) t) []
  let groups ← byListing.mapM (listingGroup ticker)
  return ⟨StableSort.sortBy DisposalListingGroup.ticker groups,
    groups.foldl (fun t g => g.parcels.foldl .add t) .default⟩

/-! ### A row's working -/

section Working

/-- Rows that never ran past nil leave the balance less what they took. -/
theorem applyRows_uncapped {rows : List CostBaseAdjustment}
    (hsplit : ∀ row ∈ rows, row.reduces = false → row.amount = 0) {balance : ℚ}
    (h : ∀ row ∈ (applyRows balance rows).1, row.capped = false) :
    (applyRows balance rows).2 = balance - ((applyRows balance rows).1.map (·.amount)).sum := by
  induction rows generalizing balance with
  | nil => exact (sub_zero balance).symm
  | cons row rows ih =>
    have hsplit' := fun r hr => hsplit r (List.mem_cons_of_mem row hr)
    cases hr : row.reduces with
    | false =>
      rw [applyRows_split hr] at h ⊢
      rw [ih hsplit' fun r hr => h r (List.mem_cons_of_mem _ hr), List.map_cons, List.sum_cons,
        hsplit row List.mem_cons_self hr, zero_add]
    | true =>
      rw [applyRows_reducing hr] at h ⊢
      have hle : row.amount ≤ balance := by simpa using h _ List.mem_cons_self
      have hrest := fun r hr => h r (List.mem_cons_of_mem _ hr)
      rw [ih hsplit' hrest, List.map_cons, List.sum_cons, FlooredWalk.draw_of_le hle, sub_sub]

theorem reductionWalk_uncapped {parcel : Parcel} {units : ℚ} {amitEvents : List AmitReductionEvent}
    {rocEvents : List RocEvent} {splits : List SplitEvent} {held : Held}
    {rows : List CostBaseAdjustment} {adjusted : ℚ}
    (hok : reductionWalk parcel units amitEvents rocEvents splits held = .ok (rows, adjusted))
    (h : ∀ row ∈ rows, row.capped = false) :
    adjusted = startingCost parcel units - (rows.map (·.amount)).sum := by
  unfold reductionWalk at hok
  obtain ⟨payments, hpayments, hok⟩ := bind_ok hok
  have hwalk := Except.ok.inj hok
  obtain rfl := congrArg Prod.fst hwalk
  obtain rfl := congrArg Prod.snd hwalk
  refine applyRows_uncapped (fun row hrow hreduces => ?_) h
  rcases List.mem_append.mp (StableSort.mem_sortBy.mp hrow) with hrow | hrow
  · rcases List.mem_append.mp hrow with hrow | hrow
    · obtain ⟨e, -, rfl⟩ := List.mem_map.mp hrow
      cases hreduces
    · rw [rocRows_reduces hpayments row hrow] at hreduces
      cases hreduces
  · obtain ⟨e, -, rfl⟩ := List.mem_map.mp hrow
    rfl

theorem adjustedCostBase_walk {parcel : Parcel} {units : ℚ} {amitEvents : List AmitReductionEvent}
    {rocEvents : List RocEvent} {splits : List SplitEvent} {held : Held} {costBase : CostBase}
    {rows : List CostBaseAdjustment}
    (hcost : adjustedCostBase parcel units amitEvents rocEvents splits held = .ok costBase)
    (hrows : adjustmentDetail parcel units amitEvents rocEvents splits held = .ok rows) :
    reductionWalk parcel units amitEvents rocEvents splits held = .ok (rows, costBase.adjusted) ∧
      costBase.costedInitialCost = startingCost parcel units := by
  unfold adjustedCostBase at hcost
  unfold adjustmentDetail at hrows
  obtain ⟨walk, hwalk, hcost⟩ := bind_ok hcost
  obtain ⟨walk', hwalk', hrows⟩ := bind_ok hrows
  obtain rfl := Except.ok.inj (hwalk.symm.trans hwalk')
  obtain rfl := Except.ok.inj hcost
  obtain rfl := Except.ok.inj hrows
  exact ⟨hwalk, rfl⟩

theorem applyRate_sub (x y rate : ℚ) : applyRate (x - y) rate = applyRate x rate - applyRate y rate := by
  unfold applyRate
  split
  · rfl
  · exact sub_div x y rate

theorem cashShare_sub (ap : Option (ℚ × ℚ)) (x y : ℚ) :
    cashShare ap (x - y) = cashShare ap x - cashShare ap y := by
  cases ap with
  | none => rfl
  | some share =>
    simp only [cashShare, Option.elim_some, apportion]
    ring

/-- A share of a converted figure, taken from the whole or from its parts. -/
theorem share_sub_sum (ap : Option (ℚ × ℚ)) (rate x : ℚ) (rows : List CostBaseAdjustment) :
    cashShare ap (applyRate (x - (rows.map (·.amount)).sum) rate) =
      cashShare ap (applyRate x rate) -
        (rows.map fun r => cashShare ap (applyRate r.amount rate)).sum := by
  induction rows generalizing x with
  | nil => simp
  | cons r rows ih =>
    rw [List.map_cons, List.sum_cons, ← sub_sub, ih, applyRate_sub, cashShare_sub, List.map_cons,
      List.sum_cons, sub_sub]

variable {data : ReportData} {rows : List RealisedGainLoss} {d : RealisedGainLoss} {p : ParcelDetail}

/-- The units the schedule itemises are the ones the gain was costed for. -/
theorem printedUnits_eq {sale : SellInfo} {buy : Buy} {a : Allocation} (ha : a ∈ data.allocations)
    (hsale : data.sell? a.saleTrade = some sale) (hbuy : data.buy? a.purchaseTrade = some buy)
    (hpurchase : p.purchaseTrade = a.purchaseTrade) (hunits : p.units = a.quantityAllocated) :
    data.printedUnits a.saleTrade p sale.date buy = data.acquiredUnits sale buy a := by
  rw [acquiredUnits_eq ha hsale hbuy, ← hunits]
  unfold printedUnits
  split
  · rename_i u hone
    have hentry : data.unitsEntry buy (a, sale.date) ∈ data.acquiredUnitsByAllocation := by
      obtain ⟨hmem, hid⟩ := buy?_eq_some.mp hbuy
      exact mem_acquiredUnits.mpr ⟨buy, hmem, a, ha, sale, hid.symm, hsale, rfl⟩
    have hkept : data.unitsEntry buy (a, sale.date) ∈ [u] := by
      rw [← hone, List.mem_filter]
      exact ⟨hentry, decide_eq_true ⟨rfl, hpurchase.symm⟩⟩
    rw [← List.mem_singleton.mp hkept, hunits]
    rfl
  · rfl

theorem inAud_ok {buy : Buy} {figure aud rate : ℚ} (h : data.inAud buy figure = .ok aud)
    (hrate : data.fx.resolveRate buy.row.parcel.currency buy.row.acquired buy.row.fxOverride =
      .ok rate) : aud = applyRate figure rate := by
  have h := mapError_ok.mp h
  unfold FxRates.toAud at h
  rw [hrate] at h
  exact (Except.ok.inj h).symm

/-- The itemised rows lead from the initial cost base to the costed one. -/
theorem itemised_working (hrows : data.computeRealisedGains = .ok rows) (hd : d ∈ rows)
    (hp : p ∈ d.parcels) {adjustments : List CostBaseAdjustment} {initial : ℚ}
    (hok : data.itemised d p = .ok (adjustments, initial))
    (h : ∀ a ∈ adjustments, a.capped = false) :
    p.costBase = initial - (adjustments.map (·.amount)).sum := by
  unfold itemised at hok
  split at hok
  · rename_i sale buy hid hbuy
    obtain ⟨sell, hsell, hdate, a, ha, buy', hsale', hbuy', hpurchase, hunits, hcost⟩ :=
      source_of_mem hrows hd hid hp
    obtain rfl : buy = buy' := Option.some.inj (hbuy.symm.trans (hpurchase ▸ hbuy'))
    obtain rfl : a.saleTrade = sale :=
      (sell?_eq_some.mp hsale').2.symm.trans (sell?_eq_some.mp hsell).2
    rw [hdate, printedUnits_eq ha hsale' hbuy' hpurchase hunits] at hok
    obtain ⟨detail, hdetail, hok⟩ := bind_ok hok
    obtain ⟨costBase, hbase, hok⟩ := bind_ok hok
    obtain ⟨aud, haud, hok⟩ := bind_ok hok
    obtain ⟨rate, hrate, hok⟩ := bind_ok hok
    obtain ⟨ap, hap, hok⟩ := bind_ok hok
    have hpair := Except.ok.inj hok
    obtain rfl := congrArg Prod.fst hpair
    obtain rfl := congrArg Prod.snd hpair
    have hrate := mapError_ok.mp hrate
    unfold allocationCost at hcost
    obtain ⟨costBase', hbase', hcost⟩ := bind_ok hcost
    obtain rfl : costBase = costBase' := Except.ok.inj (hbase.symm.trans hbase')
    obtain ⟨cost, hcostAud, hcost⟩ := bind_ok hcost
    obtain ⟨ap', hap', hcost⟩ := bind_ok hcost
    have hshare : ap' = ap := by
      unfold scripCash at hap
      rw [hsell] at hap
      exact Except.ok.inj (hap'.symm.trans hap)
    obtain ⟨hwalk, hinitial⟩ := adjustedCostBase_walk (mapError_ok.mp hbase) (mapError_ok.mp hdetail)
    have huncapped : ∀ row ∈ detail, row.capped = false := by
      intro row hrow
      have hprinted := h _ (List.mem_map_of_mem hrow)
      exact hprinted
    have hadjusted := reductionWalk_uncapped hwalk huncapped
    have hfinal : p.costBase = cashShare ap cost := by
      rw [← hshare]
      exact (Except.ok.inj hcost).symm
    rw [hfinal, inAud_ok hcostAud hrate, inAud_ok haud hrate, hinitial, hadjusted, share_sub_sum,
      List.map_map]
    rfl
  · have hpair := Except.ok.inj hok
    obtain rfl := congrArg Prod.fst hpair
    obtain rfl := congrArg Prod.snd hpair
    exact (sub_zero _).symm

end Working

/-! ### Figures at the cent -/

section Cents

theorem centWalk_costBases (running before : ℚ) (totals : DisposalCents) (l : List (ℚ × ℚ × Bool)) :
    (centWalk running before totals l).1.map Prod.snd = l.map fun t => toCents t.2.1 := by
  induction l generalizing running before totals with
  | nil => rfl
  | cons t l ih => rw [centWalk, List.map_cons, List.map_cons, ih]

theorem add_proceeds (totals : DisposalCents) (proceeds costBase : ℚ) (eligible : Bool) :
    (totals.add proceeds costBase eligible).proceeds = totals.proceeds + proceeds ∧
      (totals.add proceeds costBase eligible).costBase = totals.costBase + costBase := by
  unfold DisposalCents.add
  dsimp only
  split_ifs <;> exact ⟨rfl, rfl⟩

/-- The totals of the walk are the sums of what it rounds. -/
theorem centWalk_totals (running before : ℚ) (totals : DisposalCents) (l : List (ℚ × ℚ × Bool)) :
    (centWalk running before totals l).2.proceeds =
        totals.proceeds + ((centWalk running before totals l).1.map Prod.fst).sum ∧
      (centWalk running before totals l).2.costBase =
        totals.costBase + ((centWalk running before totals l).1.map Prod.snd).sum := by
  induction l generalizing running before totals with
  | nil => exact ⟨(add_zero _).symm, (add_zero _).symm⟩
  | cons t l ih =>
    obtain ⟨hproceeds, hcost⟩ := ih (running + t.1) (toCents (running + t.1))
      (totals.add (toCents (running + t.1) - before) (toCents t.2.1) t.2.2)
    rw [(add_proceeds ..).1, add_assoc] at hproceeds
    rw [(add_proceeds ..).2, add_assoc] at hcost
    exact ⟨hproceeds, hcost⟩

theorem length_centWalk (running before : ℚ) (totals : DisposalCents) (l : List (ℚ × ℚ × Bool)) :
    (centWalk running before totals l).1.length = l.length := by
  have h := congrArg List.length (centWalk_costBases running before totals l)
  rwa [List.length_map, List.length_map] at h

variable (d : RealisedGainLoss)

/-- The rounded proceeds and cost base of each parcel. -/
def roundedParcels : List (ℚ × ℚ) :=
  (parcelsAtTheCent (d.parcels.map fun p => (p.proceeds, p.costBase, p.discountEligible))).1

theorem length_roundedParcels : (roundedParcels d).length = d.parcels.length :=
  (length_centWalk _ _ _ _).trans (List.length_map _)

theorem atTheCent_parcels :
    d.atTheCent.parcels = List.zipWith ParcelDetail.atTheCent d.parcels (roundedParcels d) := by
  unfold RealisedGainLoss.atTheCent
  split
  · rename_i h
    rw [h]
    rfl
  · rfl

theorem mem_zip_zipWith {α β γ : Type} {f : α → β → γ} {l : List α} {r : List β} {a : α} {c : γ}
    (h : (a, c) ∈ l.zip (List.zipWith f l r)) : ∃ b, (a, b) ∈ l.zip r ∧ c = f a b := by
  induction l generalizing r with
  | nil => cases h
  | cons a' l ih =>
    cases r with
    | nil => cases h
    | cons b r =>
      rcases List.mem_cons.mp h with heq | hrest
      · obtain ⟨rfl, rfl⟩ := Prod.mk.inj heq
        exact ⟨b, List.mem_cons_self, rfl⟩
      · exact (ih hrest).imp fun _ hb => hb.imp_left (List.mem_cons_of_mem _)

theorem snd_of_mem_zip {α β : Type} {g : α → ℚ} {v : β → ℚ} {l : List α} {r : List β}
    (hr : r.map v = l.map g) {a : α} {b : β} (h : (a, b) ∈ l.zip r) : v b = g a := by
  induction l generalizing r with
  | nil => cases h
  | cons a' l ih =>
    cases r with
    | nil => cases h
    | cons b' r =>
      obtain ⟨hhead, htail⟩ := List.cons.inj hr
      rcases List.mem_cons.mp h with heq | hrest
      · obtain ⟨rfl, rfl⟩ := Prod.mk.inj heq
        exact hhead
      · exact ih htail hrest

variable {d}

/-- A parcel's printed figures: its own cost base at the cent, and the gain
over it. -/
theorem atTheCent_parcel {p cents : ParcelDetail} (h : (p, cents) ∈ d.parcels.zip d.atTheCent.parcels) :
    cents.costBase = toCents p.costBase ∧ cents.capitalGainLoss = cents.proceeds - cents.costBase := by
  rw [atTheCent_parcels] at h
  obtain ⟨rounded, hrounded, rfl⟩ := mem_zip_zipWith h
  have hcosts : (roundedParcels d).map Prod.snd =
      d.parcels.map fun p : ParcelDetail => toCents p.costBase := by
    rw [roundedParcels, parcelsAtTheCent, centWalk_costBases, List.map_map]
    rfl
  exact ⟨snd_of_mem_zip hcosts hrounded, rfl⟩

theorem map_zipWith_atTheCent {g : ParcelDetail → ℚ} {v : ℚ × ℚ → ℚ}
    (hg : ∀ p r, g (ParcelDetail.atTheCent p r) = v r) {l : List ParcelDetail} {r : List (ℚ × ℚ)}
    (hlen : r.length = l.length) : (List.zipWith ParcelDetail.atTheCent l r).map g = r.map v := by
  induction l generalizing r with
  | nil =>
    rw [List.eq_nil_of_length_eq_zero hlen]
    rfl
  | cons p l ih =>
    cases r with
    | nil => cases hlen
    | cons x r =>
      rw [List.zipWith_cons_cons, List.map_cons, List.map_cons, hg, ih (Nat.succ.inj hlen)]

/-- A disposal's printed totals are the sums of its printed parcels. -/
theorem atTheCent_totals (h : d.parcels ≠ []) :
    d.atTheCent.proceeds = (d.atTheCent.parcels.map ParcelDetail.proceeds).sum ∧
      d.atTheCent.costBase = (d.atTheCent.parcels.map ParcelDetail.costBase).sum ∧
      d.atTheCent.capitalGainLoss = d.atTheCent.proceeds - d.atTheCent.costBase := by
  have hlen := length_roundedParcels d
  obtain ⟨hproceeds, hcost⟩ := centWalk_totals 0 0 .default
    (d.parcels.map fun p => (p.proceeds, p.costBase, p.discountEligible))
  rw [atTheCent_parcels, map_zipWith_atTheCent (fun _ _ => rfl) hlen,
    map_zipWith_atTheCent (fun _ _ => rfl) hlen]
  unfold RealisedGainLoss.atTheCent
  rw [if_neg h]
  exact ⟨hproceeds.trans (zero_add _), hcost.trans (zero_add _), rfl⟩

end Cents

/-! ### Printed rows -/

section Printed

def withAmount (a : CostBaseAdjustment) (amount : ℚ) : CostBaseAdjustment := { a with amount := amount }

theorem map_withAmount {rows : List CostBaseAdjustment} {amounts : List ℚ}
    (h : amounts.length = rows.length) :
    (List.zipWith withAmount rows amounts).map (·.amount) = amounts ∧
      (List.zipWith withAmount rows amounts).map (·.capped) = rows.map (·.capped) := by
  induction rows generalizing amounts with
  | nil => exact ⟨(List.eq_nil_of_length_eq_zero h).symm, rfl⟩
  | cons a rows ih =>
    cases amounts with
    | nil => cases h
    | cons x amounts =>
      obtain ⟨hamount, hcapped⟩ := ih (Nat.succ.inj h)
      exact ⟨congrArg (x :: ·) hamount, congrArg (a.capped :: ·) hcapped⟩

theorem forall₂_withAmount {R : ℚ → ℚ → Prop} {rows : List CostBaseAdjustment} {amounts : List ℚ}
    (h : List.Forall₂ R (rows.map (·.amount)) amounts) :
    List.Forall₂ (fun a b : CostBaseAdjustment => R a.amount b.amount) rows
      (List.zipWith withAmount rows amounts) := by
  induction rows generalizing amounts with
  | nil => exact .nil
  | cons a rows ih =>
    cases h with
    | cons hhead htail => exact .cons hhead (ih htail)

variable {exact : DisposalParcelRow}

theorem printedAdjustments_of_uncapped (h : ∀ a ∈ exact.adjustments, a.capped = false) :
    exact.printedAdjustments = List.zipWith withAmount exact.adjustments
      (Drawdown.steps toCents exact.adjustedCostBaseAud exact.initialCostBaseAud
        (toCents exact.initialCostBaseAud) (exact.adjustments.map (·.amount))) := by
  have hnone : exact.adjustments.any (·.capped) = false := by
    rw [List.any_eq_false]
    intro a ha
    rw [h a ha]
    exact Bool.false_ne_true
  rw [DisposalParcelRow.printedAdjustments, hnone, if_neg Bool.false_ne_true]
  rfl

/-- Printing changes no flag. -/
theorem printed_capped :
    exact.roundMoneyToCents.adjustments.map (·.capped) = exact.adjustments.map (·.capped) := by
  change exact.printedAdjustments.map (·.capped) = _
  unfold DisposalParcelRow.printedAdjustments
  split
  · rw [List.map_map]
    rfl
  · refine (map_withAmount ?_).2
    rw [Drawdown.length_steps, List.length_map]

/-- The printed working of a row: it adds up, and each of its adjustments is
within a cent of its exact amount. -/
structure AddsUp (exact row : DisposalParcelRow) : Prop where
  working : row.initialCostBaseAud - (row.adjustments.map (·.amount)).sum = row.adjustedCostBaseAud
  near : List.Forall₂ (fun a b : CostBaseAdjustment => |b.amount - a.amount| ≤ cent)
    exact.adjustments row.adjustments

theorem addsUp_of_working (h : ∀ a ∈ exact.adjustments, a.capped = false)
    (hcents : exact.adjustedCostBaseAud =
      toCents (exact.initialCostBaseAud - (exact.adjustments.map (·.amount)).sum)) :
    AddsUp exact exact.roundMoneyToCents := by
  have hprinted := printedAdjustments_of_uncapped h
  have hlen : (Drawdown.steps toCents exact.adjustedCostBaseAud exact.initialCostBaseAud
      (toCents exact.initialCostBaseAud) (exact.adjustments.map (·.amount))).length =
        exact.adjustments.length := by rw [Drawdown.length_steps, List.length_map]
  constructor
  · change toCents exact.initialCostBaseAud - (exact.printedAdjustments.map (·.amount)).sum =
      exact.adjustedCostBaseAud
    rw [hprinted, (map_withAmount hlen).1]
    rcases eq_or_ne exact.adjustments [] with hnil | hne
    · -- nothing itemised: the two cost bases are one figure
      rw [hcents, hnil]
      simp [Drawdown.steps]
    · rw [Drawdown.sum_steps _ _ _ _ (List.map_eq_nil_iff.not.mpr hne)]
      exact sub_sub_cancel _ _
  · change List.Forall₂ _ exact.adjustments exact.printedAdjustments
    rw [hprinted]
    have htarget : |exact.adjustedCostBaseAud -
        (exact.initialCostBaseAud - (exact.adjustments.map (·.amount)).sum)| ≤ cent / 2 := by
      rw [hcents]
      exact toCents_near _
    have hnear := Drawdown.steps_near toCents_near (toCents_near exact.initialCostBaseAud) htarget
    rw [add_halves] at hnear
    exact forall₂_withAmount hnear

end Printed

/-! ### Totals -/

section Totals

/-- The sum of a list of rows. -/
def sumOf (rows : List DisposalParcelRow) : DisposalTotals where
  proceedsAud := (rows.map (·.proceedsAud)).sum
  costBaseAud := (rows.map (·.adjustedCostBaseAud)).sum
  gainLossAud := (rows.map (·.gainLossAud)).sum
  cgtDiscountAmountAud := (rows.map (·.cgtDiscountAmountAud)).sum
  gainAfterDiscountAud := (rows.map (·.gainAfterDiscountAud)).sum

def plus (s t : DisposalTotals) : DisposalTotals where
  proceedsAud := s.proceedsAud + t.proceedsAud
  costBaseAud := s.costBaseAud + t.costBaseAud
  gainLossAud := s.gainLossAud + t.gainLossAud
  cgtDiscountAmountAud := s.cgtDiscountAmountAud + t.cgtDiscountAmountAud
  gainAfterDiscountAud := s.gainAfterDiscountAud + t.gainAfterDiscountAud

theorem foldl_add (t : DisposalTotals) (rows : List DisposalParcelRow) :
    rows.foldl .add t = plus t (sumOf rows) := by
  induction rows generalizing t with
  | nil => simp [plus, sumOf]
  | cons r rows ih => simp [ih, plus, sumOf, DisposalTotals.add, add_assoc]

theorem foldl_add_default (rows : List DisposalParcelRow) : rows.foldl .add .default = sumOf rows := by
  rw [foldl_add]
  simp [plus, DisposalTotals.default]

theorem foldl_groups (t : DisposalTotals) (groups : List DisposalListingGroup) :
    groups.foldl (fun t g => g.parcels.foldl .add t) t =
      (groups.flatMap DisposalListingGroup.parcels).foldl .add t := by
  induction groups generalizing t with
  | nil => rfl
  | cons g groups ih => rw [List.foldl_cons, ih, List.flatMap_cons, List.foldl_append]

theorem sumOf_perm {rows rows' : List DisposalParcelRow} (h : rows.Perm rows') : sumOf rows = sumOf rows' := by
  unfold sumOf
  congr 1 <;> exact (h.map _).sum_eq

end Totals

/-! ### The schedule -/

section Schedule
variable {data : ReportData} {ticker : ListingId → NaiveDate → String} {taxYear : ℤ}
  {all : List RealisedGainLoss}

/-- A row of the schedule rounds the exact row of one parcel of a disposal. -/
def PrintedFrom (data : ReportData) (all : List RealisedGainLoss) (exact row : DisposalParcelRow) :
    Prop :=
  ∃ d ∈ all, ∃ p cents, (p, cents) ∈ d.parcels.zip d.atTheCent.parcels ∧
    data.exactRow d p cents = .ok exact ∧ row = exact.roundMoneyToCents

theorem rows_printed {d : RealisedGainLoss} (hd : d ∈ all) {rows : List DisposalParcelRow}
    (hok : data.disposalParcelRows d = .ok rows) {row : DisposalParcelRow} (hrow : row ∈ rows) :
    ∃ exact, PrintedFrom data all exact row := by
  obtain ⟨⟨p, cents⟩, hmem, hprinted⟩ := mem_mapM_ok hok hrow
  obtain ⟨exact, hexact, hprinted⟩ := bind_ok hprinted
  obtain rfl := Except.ok.inj hprinted
  exact ⟨exact, d, hd, p, cents, hmem, hexact, rfl⟩

/-- A row's money: the parcel's printed cents. -/
theorem exactRow_cents {d : RealisedGainLoss} {p cents : ParcelDetail} {exact : DisposalParcelRow}
    (h : data.exactRow d p cents = .ok exact) : exact.proceedsAud = cents.proceeds ∧
      exact.adjustedCostBaseAud = cents.costBase ∧
      data.itemised d p = .ok (exact.adjustments, exact.initialCostBaseAud) := by
  unfold exactRow at h
  obtain ⟨⟨adjustments, initial⟩, hitemised, h⟩ := bind_ok h
  obtain rfl := Except.ok.inj h
  exact ⟨rfl, rfl, hitemised⟩

theorem printedFrom_addsUp (hall : data.computeRealisedGains = .ok all)
    {exact row : DisposalParcelRow} (h : PrintedFrom data all exact row)
    (huncapped : ∀ a ∈ row.adjustments, a.capped = false) : AddsUp exact row := by
  obtain ⟨d, hd, p, cents, hmem, hexact, rfl⟩ := h
  obtain ⟨-, hcost, hitemised⟩ := exactRow_cents hexact
  have hflags : ∀ a ∈ exact.adjustments, a.capped = false := by
    intro a ha
    have hcapped : a.capped ∈ exact.roundMoneyToCents.adjustments.map (·.capped) := by
      rw [printed_capped]
      exact List.mem_map_of_mem ha
    obtain ⟨b, hb, heq⟩ := List.mem_map.mp hcapped
    exact heq ▸ huncapped b hb
  refine addsUp_of_working hflags ?_
  rw [hcost, (atTheCent_parcel hmem).1,
    itemised_working hall hd (List.of_mem_zip hmem).1 hitemised hflags]

/-- A disposal's rows sum to its figures at the cent. -/
theorem rows_sum (hall : data.computeRealisedGains = .ok all) {d : RealisedGainLoss} (hd : d ∈ all)
    {rows : List DisposalParcelRow} (hok : data.disposalParcelRows d = .ok rows) :
    (rows.map (·.proceedsAud)).sum = d.atTheCent.proceeds ∧
      (rows.map (·.adjustedCostBaseAud)).sum = d.atTheCent.costBase := by
  have hmap : ∀ {l : List (ParcelDetail × ParcelDetail)} {rows : List DisposalParcelRow},
      List.Forall₂ (fun pc row => (do
        return (← data.exactRow d pc.1 pc.2).roundMoneyToCents) = .ok row) l rows →
      rows.map (·.proceedsAud) = l.map (·.2.proceeds) ∧
        rows.map (·.adjustedCostBaseAud) = l.map (·.2.costBase) := by
    intro l rows h
    induction h with
    | nil => exact ⟨rfl, rfl⟩
    | cons hrow _ ih =>
      obtain ⟨exact, hexact, hrow⟩ := bind_ok hrow
      obtain rfl := Except.ok.inj hrow
      obtain ⟨hproceeds, hcost, -⟩ := exactRow_cents hexact
      exact ⟨congrArg₂ List.cons hproceeds ih.1, congrArg₂ List.cons hcost ih.2⟩
  obtain ⟨hproceeds, hcost⟩ := hmap (mapM_ok hok)
  have hlen : d.atTheCent.parcels.length = d.parcels.length := by
    rw [atTheCent_parcels, List.length_zipWith, length_roundedParcels, min_self]
  have hsnd : ∀ g : ParcelDetail → ℚ, (d.parcels.zip d.atTheCent.parcels).map (fun pc => g pc.2) =
      d.atTheCent.parcels.map g := by
    intro g
    calc (d.parcels.zip d.atTheCent.parcels).map (fun pc => g pc.2)
        = ((d.parcels.zip d.atTheCent.parcels).map Prod.snd).map g := (List.map_map ..).symm
      _ = d.atTheCent.parcels.map g := by rw [List.map_snd_zip hlen.le]
  rw [hproceeds, hcost, hsnd, hsnd]
  rcases eq_or_ne d.parcels [] with hnil | hne
  · obtain ⟨hp, hc⟩ := figures_of_no_parcels hall hd hnil
    have hzero : toCents 0 = 0 := toCents_of_on (Grid.On.zero cent)
    unfold RealisedGainLoss.atTheCent
    rw [if_pos hnil, hnil, hp, hc, hzero]
    exact ⟨rfl, rfl⟩
  · obtain ⟨hp, hc, -⟩ := atTheCent_totals hne
    exact ⟨hp.symm, hc.symm⟩

/-- The rows' gains are their proceeds less their cost bases. -/
theorem rows_gain {d : RealisedGainLoss} {rows : List DisposalParcelRow}
    (hok : data.disposalParcelRows d = .ok rows) : (rows.map (·.gainLossAud)).sum =
      (rows.map (·.proceedsAud)).sum - (rows.map (·.adjustedCostBaseAud)).sum := by
  have hrow : ∀ row ∈ rows, row.gainLossAud = row.proceedsAud - row.adjustedCostBaseAud := by
    intro row hrow
    obtain ⟨_, -, hprinted⟩ := mem_mapM_ok hok hrow
    obtain ⟨exact, -, hprinted⟩ := bind_ok hprinted
    obtain rfl := Except.ok.inj hprinted
    rfl
  rw [List.map_congr_left hrow, Tally.sum_map_sub]

theorem atTheCent_gain (d : RealisedGainLoss) :
    d.atTheCent.capitalGainLoss = d.atTheCent.proceeds - d.atTheCent.costBase := by
  unfold RealisedGainLoss.atTheCent
  split <;> rfl

theorem disposals_sum (hall : data.computeRealisedGains = .ok all) {l : List RealisedGainLoss}
    (hl : ∀ d ∈ l, d ∈ all) {rows : List (ListingId × List DisposalParcelRow)}
    (h : List.Forall₂ (fun d e => (do return (d.listing, ← data.disposalParcelRows d)) = .ok e) l rows) :
    (rows.map fun e => (e.2.map (·.proceedsAud)).sum).sum = (l.map fun d => d.atTheCent.proceeds).sum ∧
      (rows.map fun e => (e.2.map (·.adjustedCostBaseAud)).sum).sum =
        (l.map fun d => d.atTheCent.costBase).sum ∧
      (rows.map fun e => (e.2.map (·.gainLossAud)).sum).sum =
        (l.map fun d => d.atTheCent.capitalGainLoss).sum := by
  induction h with
  | nil => exact ⟨rfl, rfl, rfl⟩
  | @cons d e l rows hd _ ih =>
    obtain ⟨rowsOf, hok, hpair⟩ := bind_ok hd
    obtain rfl := Except.ok.inj hpair
    obtain ⟨hproceeds, hcost⟩ := rows_sum hall (hl d List.mem_cons_self) hok
    obtain ⟨ihp, ihc, ihg⟩ := ih fun d hd => hl d (List.mem_cons_of_mem _ hd)
    simp only [List.map_cons, List.sum_cons, ihp, ihc, ihg, rows_gain hok, hproceeds, hcost,
      atTheCent_gain d, and_self]

/-- The rows of every listing, gathered disposal by disposal. -/
theorem gathered (f : DisposalParcelRow → ℚ) (l : List (ListingId × List DisposalParcelRow))
    (t : List (ListingId × List DisposalParcelRow)) :
    Tally.total (fun rows => (rows.map f).sum)
        (l.foldl (fun t e => Tally.adjust [] e.1 (· ++ e.2) t) t) =
      Tally.total (fun rows => (rows.map f).sum) t + (l.map fun e => (e.2.map f).sum).sum := by
  induction l generalizing t with
  | nil => exact (add_zero _).symm
  | cons e l ih =>
    have happend : ∀ rows : List DisposalParcelRow,
        ((rows ++ e.2).map f).sum = (rows.map f).sum + (e.2.map f).sum := fun rows => by
      rw [List.map_append, List.sum_append]
    have hadd := Tally.total_adjust (m := fun rows : List DisposalParcelRow => (rows.map f).sum)
      (d := []) rfl happend e.1 t
    rw [List.foldl_cons, ih, hadd, List.map_cons, List.sum_cons, add_assoc]

theorem mem_gathered {l t : List (ListingId × List DisposalParcelRow)} {e : ListingId × List DisposalParcelRow}
    {row : DisposalParcelRow}
    (he : e ∈ l.foldl (fun t e => Tally.adjust [] e.1 (· ++ e.2) t) t) (hrow : row ∈ e.2) :
    (∃ e' ∈ t, row ∈ e'.2) ∨ ∃ e' ∈ l, row ∈ e'.2 := by
  induction l generalizing t with
  | nil => exact Or.inl ⟨e, he, hrow⟩
  | cons e' l ih =>
    rcases ih he with ⟨e'', he'', hrow''⟩ | ⟨e'', he'', hrow''⟩
    · rcases Tally.mem_adjust he'' with hold | ⟨-, rows, hrows, hval⟩
      · exact Or.inl ⟨e'', hold, hrow''⟩
      · rw [hval] at hrow''
        rcases List.mem_append.mp hrow'' with hmem | hmem
        · rcases hrows with rfl | hin
          · cases hmem
          · exact Or.inl ⟨_, hin, hmem⟩
        · exact Or.inr ⟨e', List.mem_cons_self, hmem⟩
    · exact Or.inr ⟨e'', List.mem_cons_of_mem _ he'', hrow''⟩

theorem listingGroup_ok {e : ListingId × List DisposalParcelRow} {g : DisposalListingGroup}
    (h : listingGroup ticker e = .ok g) : g.parcels.Perm e.2 ∧ g.subtotal = sumOf g.parcels := by
  unfold listingGroup at h
  obtain ⟨latest, -, h⟩ := bind_ok h
  obtain rfl := Except.ok.inj h
  exact ⟨StableSort.sortBy_perm rowRank e.2, foldl_add_default _⟩

theorem groups_sum (f : DisposalParcelRow → ℚ) {l : List (ListingId × List DisposalParcelRow)}
    {groups : List DisposalListingGroup}
    (h : List.Forall₂ (fun e g => listingGroup ticker e = .ok g) l groups) :
    ((groups.flatMap DisposalListingGroup.parcels).map f).sum =
      Tally.total (fun rows => (rows.map f).sum) l := by
  induction h with
  | nil => rfl
  | cons hg _ ih =>
    rw [List.flatMap_cons, List.map_append, List.sum_append, ih,
      ((listingGroup_ok hg).1.map f).sum_eq]
    rfl

/-- The printed disposal schedule adds up: each row's working reaches the
figure beside it, every subtotal and total is the sum of its rows, and the
year's totals are the realised gains' at the cent. -/
theorem schedule_adds_up (hall : data.computeRealisedGains = .ok all) {schedule : DisposalsSection}
    (hok : data.disposalsSection ticker taxYear all = .ok schedule) :
    (∀ g ∈ schedule.listings, g.subtotal = sumOf g.parcels ∧ ∀ row ∈ g.parcels,
      row.gainLossAud = row.proceedsAud - row.adjustedCostBaseAud ∧
        ∃ exact, PrintedFrom data all exact row ∧
          ((∀ a ∈ row.adjustments, a.capped = false) → AddsUp exact row)) ∧
      schedule.totals = sumOf (schedule.listings.flatMap DisposalListingGroup.parcels) ∧
      let year := all.filter fun d => taxYearFor d.saleDate = taxYear
      schedule.totals.proceedsAud = (year.map fun d => d.atTheCent.proceeds).sum ∧
        schedule.totals.costBaseAud = (year.map fun d => d.atTheCent.costBase).sum ∧
        schedule.totals.gainLossAud = (year.map fun d => d.atTheCent.capitalGainLoss).sum := by
  unfold disposalsSection at hok
  obtain ⟨rows, hrows, hok⟩ := bind_ok hok
  obtain ⟨groups, hgroups, hok⟩ := bind_ok hok
  obtain rfl := Except.ok.inj hok
  have hyear := mapM_ok hrows
  have hsorted := StableSort.sortBy_perm DisposalListingGroup.ticker groups
  have htotals : groups.foldl (fun t g => g.parcels.foldl .add t) .default =
      sumOf ((StableSort.sortBy DisposalListingGroup.ticker groups).flatMap
        DisposalListingGroup.parcels) := by
    rw [foldl_groups, foldl_add_default]
    exact (sumOf_perm (hsorted.flatMap_right _)).symm
  have hsum : ∀ f : DisposalParcelRow → ℚ,
      ((groups.flatMap DisposalListingGroup.parcels).map f).sum =
        (rows.map fun e => (e.2.map f).sum).sum := by
    intro f
    rw [groups_sum f (mapM_ok hgroups), gathered]
    exact zero_add _
  have hdisposals := disposals_sum hall (fun d hd => (List.mem_filter.mp hd).1) hyear
  refine ⟨fun g hg => ?_, htotals, ?_⟩
  · obtain ⟨e, he, hgroup⟩ := mem_mapM_ok hgroups (StableSort.mem_sortBy.mp hg)
    obtain ⟨hparcels, hsubtotal⟩ := listingGroup_ok hgroup
    refine ⟨hsubtotal, fun row hrow => ?_⟩
    rcases mem_gathered he (hparcels.mem_iff.mp hrow) with ⟨_, hnil, -⟩ | ⟨e', he', hrow'⟩
    · cases hnil
    · obtain ⟨d, hd, hrowsOf⟩ := mem_mapM_ok hrows he'
      obtain ⟨rowsOf, hok, hpair⟩ := bind_ok hrowsOf
      obtain rfl := Except.ok.inj hpair
      obtain ⟨exact, hexact⟩ := rows_printed (List.mem_filter.mp hd).1 hok hrow'
      obtain ⟨_, _, _, _, _, _, rfl⟩ := id hexact
      exact ⟨rfl, exact, hexact, printedFrom_addsUp hall hexact⟩
  · have hproceeds := hsum (·.proceedsAud)
    have hcost := hsum (·.adjustedCostBaseAud)
    rw [htotals, sumOf_perm (hsorted.flatMap_right _)]
    refine ⟨hproceeds.trans hdisposals.1, hcost.trans hdisposals.2.1, ?_⟩
    exact (hsum (·.gainLossAud)).trans hdisposals.2.2

/-- An eighth of a dollar a unit, paid on the day of June 2024. -/
def eighthPaid (day : NaiveDate) : RocEvent where
  date := day
  amountPerUnit := 1 / 8
  currency := ⟨"AUD"⟩
  recordDate := none
  amount_pos := one_div_pos.mpr (Nat.ofNat_pos)
  recordDate_le := nofun

/-- 33 of the 100 units bought for $100 sold for $66, after two payments. -/
def sampleDisposals : ReportData where
  sells := [⟨2, 1, 1, ymd 2024 9 1, 33, 2, 0, 0, ⟨"AUD"⟩, 1, none, none, none, none⟩]
  scripActions := []
  buys := [⟨1, 1, sampleRow⟩]
  allocations := [⟨1, 2, 1, 33⟩]
  rightsSales := []
  rightsAllocations := []
  cbaReduction _ := []
  rocEvents _ := [eighthPaid (ymd 2024 6 10), eighthPaid (ymd 2024 6 20)]
  splits _ _ := []
  fx := ⟨fun _ => none⟩
  sells_unique := List.nodup_singleton _
  buys_unique := List.nodup_singleton _
  allocations_unique := List.nodup_singleton _

/-- Two payments of $4.125 print as $4.12 and $4.13. -/
theorem schedule_adds_up_two_payments : ∃ all schedule,
    sampleDisposals.computeRealisedGains = .ok all ∧
      sampleDisposals.disposalsSection (fun _ _ => "ABC") 2025 all = .ok schedule ∧
      (schedule.listings.flatMap fun g => g.parcels.flatMap fun r => r.adjustments.map (·.amount)) =
        [103 / 25, 413 / 100] ∧
      schedule.totals.gainLossAud = ((all.filter fun d => taxYearFor d.saleDate = 2025).map
        fun d => d.atTheCent.capitalGainLoss).sum := by
  have hrun : accepts sampleDisposals.computeRealisedGains (fun all =>
      accepts (sampleDisposals.disposalsSection (fun _ _ => "ABC") 2025 all) fun schedule =>
        (schedule.listings.flatMap fun g => g.parcels.flatMap fun r => r.adjustments.map (·.amount)) =
          [103 / 25, 413 / 100]) = true := by decide +kernel
  obtain ⟨all, hall, hrun⟩ := accepts_iff.mp hrun
  obtain ⟨schedule, hschedule, hamounts⟩ := accepts_iff.mp hrun
  exact ⟨all, schedule, hall, hschedule, of_decide_eq_true hamounts,
    (schedule_adds_up hall hschedule).2.2.2.2⟩

end Schedule
end ReportData
end ShareTracker.Disposals
