import Mathlib
import ShareTracker.Valuation

/-!
The basis a valuation's units and price are in: the units are the valuation
date's, the price its own day's, and the splits between the two part them.
-/
namespace ShareTracker.Valuation
open ClosingPrices CorporateActions

theorem splitAdjustedQuantity_level (quantity : ℚ) (splits : List SplitEvent) (f t : NaiveDate) :
    splitAdjustedQuantity quantity splits f (some t) =
      quantity * (basisLevel splits t / basisLevel splits f) := by
  rw [splitAdjustedQuantity_eq, rebaseRatio_factor]

namespace Records

/-- The close a valuation uses, with the day it was observed on. -/
def closeUsed (r : Records) (m : Market) (valuationDay : NaiveDate) : Option (NaiveDate × ℚ) :=
  match (Keyed.get? ClosingPrice.day r.book.prices (m.listing, valuationDay)).bind okPrice with
  | some price => some (valuationDay, price)
  | none => r.latestOkPriceOnOrBefore m.listing valuationDay (r.book.unpricedBefore m.listing)

section Read
variable {r : Records} {m : Market} {date : NaiveDate}

theorem latestOkPrice_le {listing : ListingId} {day d : NaiveDate} {floor : Option NaiveDate}
    {price : ℚ} (h : r.latestOkPriceOnOrBefore listing day floor = some (d, price)) : d ≤ day := by
  unfold latestOkPriceOnOrBefore at h
  have hmem := StableSort.mem_sortBy.mp (List.mem_of_getLast? h)
  obtain ⟨row, _, hrow⟩ := List.mem_filterMap.mp hmem
  split at hrow
  · rename_i hin
    obtain ⟨q, _, hq⟩ := Option.map_eq_some_iff.mp hrow
    cases hq
    exact hin.2.1
  · cases hrow

theorem closeUsed_le {day d : NaiveDate} {price : ℚ} (h : r.closeUsed m day = some (d, price)) :
    d ≤ day := by
  unfold closeUsed at h
  split at h
  · cases h
    exact le_rfl
  · exact latestOkPrice_le h

theorem priceAt_ok {day : NaiveDate} {price : ℚ} {carried : Bool}
    (h : r.priceAt m day = .ok (price, carried)) : ∃ d, r.closeUsed m day = some (d, price) := by
  unfold priceAt at h
  unfold closeUsed
  dsimp only at h
  cases hp : (Keyed.get? ClosingPrice.day r.book.prices (m.listing, day)).bind okPrice with
  | some p =>
    simp only [hp] at h
    cases h
    exact ⟨day, rfl⟩
  | none =>
    simp only [hp] at h
    split at h
    · cases hq : r.carryForwardPrice m day with
      | none =>
        simp only [hq] at h
        cases h
      | some q =>
        simp only [hq] at h
        cases h
        unfold carryForwardPrice at hq
        obtain ⟨⟨d, p⟩, hd, hsnd⟩ := Option.map_eq_some_iff.mp hq
        obtain rfl : p = price := hsnd
        exact ⟨d, hd⟩
    · split at h
      · cases h
      · cases h

/-- What a market's valuation was made from. -/
theorem valueMarket_valued {v : ListingValuation} (h : r.valueMarket date m = .ok (.valued v)) :
    ∃ day d, m.latestTradingDayOnOrBefore date = some day ∧
      r.closeUsed m day = some (d, v.nativePrice) ∧
      resolveValuationRate r.fx m.currency day = .ok v.rate ∧
      v.listing = m.listing ∧ v.audPrice = applyRate v.nativePrice v.rate.rate := by
  unfold valueMarket at h
  split at h
  · cases h
  rename_i day hday
  split at h
  · cases h
  obtain ⟨final, _, h⟩ := bind_ok h
  split at h
  · cases h
  split at h
  · cases h
  rename_i native carried hprice
  split at h
  · cases h
  rename_i rate hrate
  cases h
  obtain ⟨d, hd⟩ := priceAt_ok hprice
  exact ⟨day, d, hday, hd, hrate, rfl, rfl⟩

theorem mem_valuations {resolved : StoredValuations} (h : r.valuationsOfMarkets date = .ok resolved)
    {v : ListingValuation} (hv : v ∈ resolved.valuations) :
    ∃ m ∈ r.markets, r.valueMarket date m = .ok (.valued v) := by
  unfold valuationsOfMarkets at h
  split at h
  · cases h
  rename_i outcomes houtcomes
  simp only at h
  split at h
  · cases h
  split at h
  · cases h
  cases h
  obtain ⟨o, ho, hov⟩ := List.mem_filterMap.mp hv
  have hall := mapM_ok houtcomes
  obtain ⟨i, hi, rfl⟩ := List.getElem_of_mem ho
  have hlen := hall.length_eq
  have hstep := List.forall₂_iff_get.mp hall
  have hval := hstep.2 i (hlen ▸ hi) hi
  refine ⟨r.markets[i], List.getElem_mem _, hval.trans ?_⟩
  cases hcase : outcomes[i] with
  | valued w =>
    rw [hcase] at hov
    cases hov
    exact congrArg Except.ok hcase
  | excluded x =>
    rw [hcase] at hov
    cases hov
  | blocked b =>
    rw [hcase] at hov
    cases hov

/-- Pricing a row leaves what it is a row of alone. -/
@[simp] theorem priced_listing (resolved : StoredValuations) (held : HoldingOverview) :
    (priced resolved held).listing = held.listing := by
  unfold priced
  split <;> rfl

@[simp] theorem priced_account (resolved : StoredValuations) (held : HoldingOverview) :
    (priced resolved held).account = held.account := by
  unfold priced
  split <;> rfl

theorem priced_value {resolved : StoredValuations} {held : HoldingOverview} {value : ℚ}
    (hnone : held.marketValue = none) (h : (priced resolved held).marketValue = some value) :
    ∃ v ∈ resolved.valuations, v.listing = held.listing ∧ value = held.quantity * v.audPrice := by
  unfold priced at h
  split at h
  · rename_i v hv
    have hkey := List.find?_some hv
    cases h
    exact ⟨v, List.mem_of_find?_eq_some hv, of_decide_eq_true hkey, rfl⟩
  · rw [hnone] at h
    cases h

theorem mem_holdings {held : HoldingOverview} (h : held ∈ r.holdings date) :
    held.quantity = r.holdingUnits date date (held.listing, held.account) ∧ 0 < held.quantity ∧
      held.marketValue = none := by
  obtain ⟨hkeys, hpos⟩ := List.mem_filter.mp h
  obtain ⟨k, _, rfl⟩ := List.mem_map.mp hkeys
  exact ⟨rfl, of_decide_eq_true hpos, rfl⟩

/-- A value in the overview is the units at the date, times the close used,
converted at the valuation day's rate. -/
theorem generate_value {rows : List HoldingOverview} (h : r.generate date = .ok rows)
    {row : HoldingOverview} (hrow : row ∈ rows) {value : ℚ} (hvalue : row.marketValue = some value)
    (hm : m ∈ r.markets) (hlisting : m.listing = row.listing) :
    ∃ day d price rate, m.latestTradingDayOnOrBefore date = some day ∧
      r.closeUsed m day = some (d, price) ∧
      resolveValuationRate r.fx m.currency day = .ok rate ∧
      0 < r.holdingUnits date date (row.listing, row.account) ∧
      value = r.holdingUnits date date (row.listing, row.account) * applyRate price rate.rate := by
  obtain ⟨resolved, hresolved, h⟩ := bind_ok h
  cases h
  obtain ⟨held, hheld, rfl⟩ := List.mem_map.mp hrow
  obtain ⟨hunits, hpos, hnone⟩ := mem_holdings hheld
  obtain ⟨v, hv, hlist, rfl⟩ := priced_value hnone hvalue
  obtain ⟨m', hm', hval⟩ := mem_valuations hresolved hv
  obtain ⟨day, d, hday, hclose, hrate, hlist', haud⟩ := valueMarket_valued hval
  rw [priced_listing] at hlisting
  have hsame : m' = m := Keyed.eq_of_key r.markets_unique hm' hm (by rw [hlisting, ← hlist, hlist'])
  subst hsame
  rw [priced_listing, priced_account, ← hunits, haud]
  exact ⟨day, d, v.nativePrice, v.rate, hday, hclose, hrate, hpos, rfl⟩

theorem resolveValuationRate_pos {currency : CurrencyCode} {day : NaiveDate} {rate : ValuationRate}
    (h : resolveValuationRate r.fx currency day = .ok rate) : 0 < rate.rate := by
  unfold resolveValuationRate at h
  split at h
  · cases h
    exact one_pos
  simp only at h
  split at h
  · rename_i found hfound
    cases h
    obtain ⟨m, _, hm⟩ := List.exists_of_findSome?_eq_some hfound
    obtain ⟨q, hq, rfl⟩ := Option.map_eq_some_iff.mp hm
    exact r.rates_pos _ q hq
  · cases h

theorem applyRate_eq_zero {price rate : ℚ} (h : 0 < rate) : applyRate price rate = 0 ↔ price = 0 := by
  unfold applyRate
  split
  · rfl
  · rw [div_eq_zero_iff, or_iff_left h.ne']

/-- A holding's units scale from one basis to another by the levels of the two. -/
theorem holdingUnits_level (r : Records) (asOf : NaiveDate) (listing : ListingId)
    (account : ℤ) : ∃ units, ∀ basis, r.holdingUnits asOf basis (listing, account) =
      units * basisLevel (r.book.splits listing) basis := by
  refine ⟨(((r.openParcels asOf).filter fun p => (p.listing, p.account) = (listing, account)).map
    fun p => r.remaining p asOf / basisLevel (r.book.splits listing) p.date).sum, fun basis => ?_⟩
  rw [holdingUnits, ← List.sum_map_mul_right]
  refine congrArg List.sum (List.map_congr_left fun p hp => ?_)
  have hkey := of_decide_eq_true (List.mem_filter.mp hp).2
  rw [splitAdjustedQuantity_level, (Prod.mk.inj hkey).1]
  exact mul_div_left_comm _ _ _ |>.trans (mul_comm _ _)

end Read

/-! ### Recording a split -/

/-- `r'` is `r` with the event `e` recorded on the listing; the stored prices,
each in the basis of its own day, stay as they are. -/
structure SplitRecorded (r r' : Records) (listing : ListingId) (e : SplitEvent) : Prop where
  prices : r'.book.prices = r.book.prices
  unpricedBefore : r'.book.unpricedBefore = r.book.unpricedBefore
  splits : (r'.book.splits listing).Perm (e :: r.book.splits listing)
  markets : r'.markets = r.markets
  parcels : r'.parcels = r.parcels
  allocations : r'.allocations = r.allocations
  fx : r'.fx = r.fx

/-- No parcel of the listing was bought or drawn on from `day` to `asOf`. -/
def UntradedFrom (r : Records) (listing : ListingId) (day asOf : NaiveDate) : Prop :=
  ∀ p ∈ r.parcels, p.listing = listing → p.date ≤ asOf →
    p.date < day ∧ ∀ a ∈ r.allocations, a.purchaseTradeId = p.id → a.saleDate ≤ asOf → a.saleDate < day

theorem walkSales_congr {splits splits' : List SplitEvent} {parcel : ParcelRow}
    (hparcel : basisLevel splits' parcel.date = basisLevel splits parcel.date)
    {sales : List Allocation}
    (h : ∀ a ∈ sales, basisLevel splits' a.saleDate = basisLevel splits a.saleDate) (sold : ℚ) :
    walkSales splits' parcel sold sales = walkSales splits parcel sold sales := by
  induction sales generalizing sold with
  | nil => rfl
  | cons a sales ih =>
    have ha := h a List.mem_cons_self
    have hout : ∀ q, splitAdjustedQuantity q splits' parcel.date (some a.saleDate) =
        splitAdjustedQuantity q splits parcel.date (some a.saleDate) := by
      intro q
      rw [splitAdjustedQuantity_level, splitAdjustedQuantity_level, ha, hparcel]
    have hback : ∀ q, asAcquiredQuantity q (some a.saleDate) splits' parcel.date =
        asAcquiredQuantity q (some a.saleDate) splits parcel.date := by
      intro q
      rw [asAcquiredQuantity_eq, asAcquiredQuantity_eq, rebaseRatio_factor, rebaseRatio_factor,
        ha, hparcel]
    simp only [walkSales, hout, hback]
    exact ih (fun b hb => h b (List.mem_cons_of_mem a hb)) _

section Recorded
variable {r r' : Records} {listing : ListingId} {e : SplitEvent}

theorem SplitRecorded.level (h : SplitRecorded r r' listing e) (day : NaiveDate) :
    basisLevel (r'.book.splits listing) day =
      (if e.date ≤ day then e.newUnits / e.oldUnits else 1) *
        basisLevel (r.book.splits listing) day := by
  rw [basisLevel_perm h.splits, basisLevel_cons]

theorem SplitRecorded.level_before (h : SplitRecorded r r' listing e) {day : NaiveDate}
    (hday : day < e.date) :
    basisLevel (r'.book.splits listing) day = basisLevel (r.book.splits listing) day := by
  rw [h.level, if_neg (not_le.mpr hday), one_mul]

theorem SplitRecorded.remaining (h : SplitRecorded r r' listing e) {asOf : NaiveDate}
    (hun : r.UntradedFrom listing e.date asOf) {p : ParcelRow} (hp : p ∈ r.parcels)
    (hlist : p.listing = listing) (hdate : p.date ≤ asOf) :
    r'.remaining p asOf = r.remaining p asOf := by
  obtain ⟨hbefore, hsales⟩ := hun p hp hlist hdate
  unfold Records.remaining soldInAcquiredUnits
  rw [h.allocations, hlist]
  refine congrArg _ (walkSales_congr (h.level_before hbefore) (fun a ha => ?_) 0)
  obtain ⟨hmem, hkeep⟩ := List.mem_filter.mp (StableSort.mem_sortBy.mp ha)
  obtain ⟨hid, hle⟩ := of_decide_eq_true hkeep
  exact h.level_before (hsales a hmem hid hle)

/-- A recorded split multiplies a holding not traded since it. -/
theorem SplitRecorded.holdingUnits (h : SplitRecorded r r' listing e) {asOf : NaiveDate}
    (hun : r.UntradedFrom listing e.date asOf) (he : e.date ≤ asOf) (account : ℤ) :
    r'.holdingUnits asOf asOf (listing, account) =
      r.holdingUnits asOf asOf (listing, account) * (e.newUnits / e.oldUnits) := by
  have hopen : ((r'.openParcels asOf).filter fun p => (p.listing, p.account) = (listing, account)) =
      (r.openParcels asOf).filter fun p => (p.listing, p.account) = (listing, account) := by
    unfold openParcels
    rw [h.parcels, List.filter_filter, List.filter_filter]
    refine List.filter_congr fun p hp => ?_
    by_cases hkey : (p.listing, p.account) = (listing, account)
    · by_cases hdate : p.date ≤ asOf
      · rw [h.remaining hun hp (Prod.mk.inj hkey).1 hdate]
      · simp [hdate]
    · simp [hkey]
  rw [Records.holdingUnits, Records.holdingUnits, hopen, ← List.sum_map_mul_right]
  refine congrArg List.sum (List.map_congr_left fun p hp => ?_)
  obtain ⟨hopened, hkey⟩ := List.mem_filter.mp hp
  obtain ⟨hmem, hkeep⟩ := List.mem_filter.mp hopened
  have hlist := (Prod.mk.inj (of_decide_eq_true hkey)).1
  have hdate := (of_decide_eq_true hkeep).1
  rw [h.remaining hun hmem hlist hdate, splitAdjustedQuantity_level, splitAdjustedQuantity_level,
    hlist, h.level asOf, if_pos he, h.level_before (hun p hmem hlist hdate).1]
  ring

theorem SplitRecorded.closeUsed (h : SplitRecorded r r' listing e) (m : Market) (day : NaiveDate) :
    r'.closeUsed m day = r.closeUsed m day := by
  unfold Records.closeUsed latestOkPriceOnOrBefore
  rw [h.prices, h.unpricedBefore]

end Recorded

/-- A valuation multiplies price and units in one basis exactly where the splits
dated after the price and by the valuation date come to nothing; and one more
of them recorded, with no trade after it, then leaves the value alone exactly
where it is one for one itself. A price of zero values any units alike. -/
theorem generate_in_one_basis {r : Records} {date : NaiveDate} {rows : List HoldingOverview}
    (h : r.generate date = .ok rows) {row : HoldingOverview} (hrow : row ∈ rows) {value : ℚ}
    (hvalue : row.marketValue = some value) {m : Market} (hm : m ∈ r.markets)
    (hlisting : m.listing = row.listing) :
    ∃ day d price rate, m.latestTradingDayOnOrBefore date = some day ∧
      r.closeUsed m day = some (d, price) ∧
      resolveValuationRate r.fx m.currency day = .ok rate ∧
      (value = r.holdingUnits date d (row.listing, row.account) * applyRate price rate.rate ↔
        (splitRatio (r.book.splits row.listing) d (some date)).factor = 1 ∨ price = 0) ∧
      ∀ {r' : Records} {e : SplitEvent} {rows' : List HoldingOverview} {row' : HoldingOverview}
        {value' : ℚ}, SplitRecorded r r' row.listing e → d < e.date → e.date ≤ date →
        r.UntradedFrom row.listing e.date date → r'.generate date = .ok rows' → row' ∈ rows' →
        row'.listing = row.listing → row'.account = row.account →
        row'.marketValue = some value' →
        (value' = value ↔ e.newUnits = e.oldUnits ∨ price = 0) := by
  obtain ⟨day, d, price, rate, hday, hclose, hrate, hpos, rfl⟩ :=
    generate_value h hrow hvalue hm hlisting
  have hd : d ≤ date := (closeUsed_le hclose).trans (Market.latestTradingDayWithin_le hday)
  have hrate0 := resolveValuationRate_pos hrate
  refine ⟨day, d, price, rate, hday, hclose, hrate, ?_, ?_⟩
  · obtain ⟨units, hunits⟩ := holdingUnits_level r date row.listing row.account
    have hne : units ≠ 0 := by
      rintro rfl
      rw [hunits, zero_mul] at hpos
      exact lt_irrefl _ hpos
    rw [splitRatio_factor _ hd, div_eq_one_iff_eq (basisLevel_pos _ d).ne', hunits, hunits,
      mul_eq_mul_right_iff, mul_right_inj' hne, applyRate_eq_zero hrate0]
  · intro r' e rows' row' value' hrec _ he hun h' hrow' hlist' hacct' hvalue'
    have hm' : m ∈ r'.markets := hrec.markets ▸ hm
    obtain ⟨day', d', price', rate', hday', hclose', hrate', _, rfl⟩ :=
      generate_value h' hrow' hvalue' hm' (hlisting.trans hlist'.symm)
    obtain rfl : day = day' := Option.some.inj (hday.symm.trans hday')
    rw [hrec.closeUsed, hclose] at hclose'
    rw [hrec.fx, hrate] at hrate'
    cases hclose'
    cases hrate'
    rw [hlist', hacct', hrec.holdingUnits hun he, mul_right_comm, mul_right_eq_self₀,
      div_eq_one_iff_eq e.oldUnits_pos.ne', mul_eq_zero, or_iff_right hpos.ne',
      applyRate_eq_zero hrate0]

/-! ### A suspended listing -/

def january (n : ℕ) : NaiveDate := ymd 2026 1 n

/-- Quoted last on Friday 9 January, at 10, and not from the Monday on. -/
def suspended : Market where
  listing := 1
  ticker := "ABC"
  currency := ⟨"AUD"⟩
  unpricedFrom := some (january 12)
  identities := [⟨none, true, []⟩]
  identities_ne := List.cons_ne_nil _ _

/-- Two hundred units of it, with what was recorded of it. -/
def suspendedHolding (actions : List Action) (h : (actions.map Action.id).Nodup) : Records where
  book :=
    { actions := actions
      prices := [⟨1, january 9, january 9, .fetched 10 10⟩]
      unpricedBefore := fun _ => none
      ids_unique := h
      days_unique := List.nodup_singleton _ }
  markets := [suspended]
  parcels := [⟨1, 1, 1, 200, january 5⟩]
  allocations := []
  fx := ⟨fun _ => none⟩
  latestCompleteTradingDay := fun _ => .ok (some (january 16))
  markets_unique := List.nodup_singleton _
  rates_pos := fun _ _ h => nomatch h

/-- A one-for-ten consolidation on Tuesday 13 January. -/
def consolidation : Action where
  id := 1
  listing := 1
  date := january 13
  kind := .shareSplit ⟨1, by decide⟩ ⟨10, by decide⟩ .exact none

def valueOf (r : Records) (date : NaiveDate) : Option ℚ :=
  match r.generate date with
  | .ok (row :: _) => row.marketValue
  | _ => none

theorem generate_in_one_basis_unsplit : ∃ d price rate,
    (suspendedHolding [] List.nodup_nil).closeUsed suspended (january 14) =
      some (d, price) ∧
    2000 = (suspendedHolding [] List.nodup_nil).holdingUnits (january 14) d (1, 1) *
      applyRate price rate := by
  have hrows : (suspendedHolding [] List.nodup_nil).generate (january 14) =
      .ok [⟨1, 1, 200, some 10, some 2000, false, true, none⟩] := by decide +kernel
  have hlast : suspended.latestTradingDayOnOrBefore (january 14) =
      some (january 14) := by decide
  obtain ⟨day, d, price, rate, hday, hclose, -, hiff, -⟩ :=
    generate_in_one_basis hrows List.mem_cons_self rfl (m := suspended) List.mem_cons_self rfl
  obtain rfl := Option.some.inj (hlast.symm.trans hday)
  exact ⟨d, price, rate.rate, hclose, hiff.mpr (.inl SplitRatio.identity_factor)⟩

/-- A consolidation recorded while the price is carried forward takes nine
tenths of the value away: a tenth of the units at the price of before it. -/
theorem generate_mixes_bases :
    valueOf (suspendedHolding [] List.nodup_nil) (january 14) = some 2000 ∧
      valueOf (suspendedHolding [consolidation] (List.nodup_singleton _)) (january 14) =
        some 200 ∧
      (suspendedHolding [consolidation] (List.nodup_singleton _)).closeUsed suspended
        (january 14) = some (january 9, 10) ∧
      (suspendedHolding [consolidation] (List.nodup_singleton _)).holdingUnits (january 14)
        (january 9) (1, 1) * applyRate 10 1 = 2000 := by
  decide +kernel

end Records

end ShareTracker.Valuation
