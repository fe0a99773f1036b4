import ShareTracker.Lib.Checked
import ShareTracker.ParcelLedger

/-!
The parcel ledger's invariant, kept by every write that checks without rounding.
-/
namespace ShareTracker

namespace Ledger

variable (D : DecimalRounding)

/-- What a parcel's allocations draw, read in its as-acquired units, is covered. -/
def ParcelFits (s : Ledger) (t : Trade) : Prop :=
  0 ≤ unitsLeft D (s.splitsForParcel t.listing t.id) t.date t.quantity (s.parcelSales t.id)

/-- An allocation is a positive draw of a Sell on a Buy or DRP of its own
listing, dated on or before it. -/
structure Drawn (s : Ledger) (a : ParcelAllocation) : Prop where
  positive : 0 < a.quantity.value
  rows : ∃ sale parcel, s.trade? a.sale = some sale ∧ sale.tradeType = .sell ∧
    s.trade? a.purchase = some parcel ∧ parcel.tradeType.isAcquisition = true ∧
    parcel.listing = sale.listing ∧ parcel.date ≤ sale.date

/-- A Sell's allocations sum to its quantity. -/
def SumsTo (s : Ledger) (t : Trade) : Prop :=
  ((s.allocations.filter fun a => a.sale = t.id).map fun a => a.quantity.value).sum = t.quantity

/-- The rows hold together, whatever the parcels cover. -/
structure Rows (s : Ledger) : Prop where
  quantity_pos : ∀ id t, s.trade? id = some t → 0 < t.quantity
  drawn : ∀ a ∈ s.allocations, s.Drawn a
  unique_actions : ∀ a ∈ s.actions, ∀ b ∈ s.actions, a.id = b.id → a = b

/-- The ledger's invariant. -/
structure Valid (s : Ledger) : Prop where
  rows : s.Rows
  sums : ∀ id t, s.trade? id = some t → t.tradeType = .sell → s.SumsTo t
  fits : ∀ id t, s.trade? id = some t → t.tradeType.isAcquisition = true → s.ParcelFits D t

/-! ### Row lookups -/

section Lookup

theorem trade?_id {s : Ledger} {id : TradeId} {t : Trade} (h : s.trade? id = some t) :
    t.id = id := by
  have hid := List.find?_some h
  exact of_decide_eq_true hid

theorem mem_of_trade? {s : Ledger} {id : TradeId} {t : Trade} (h : s.trade? id = some t) :
    t ∈ s.trades := List.mem_of_find?_eq_some h

theorem find?_filter_keep {ts : List Trade} (keep : TradeId → Bool) {id : TradeId}
    (h : keep id = true) :
    (ts.filter fun t => keep t.id).find? (fun t => t.id = id) = ts.find? fun t => t.id = id := by
  rw [List.find?_filter]
  congr 1
  funext t
  by_cases ht : t.id = id
  · simp [ht, h]
  · simp [ht]

theorem find?_filter_drop {ts : List Trade} (keep : TradeId → Bool) {id : TradeId}
    (h : keep id = false) : (ts.filter fun t => keep t.id).find? (fun t => t.id = id) = none := by
  rw [List.find?_filter]
  refine List.find?_eq_none.mpr fun t _ => ?_
  by_cases ht : t.id = id
  · simp [ht, h]
  · simp [ht]

theorem trade?_putTrade_self (s : Ledger) (t : Trade) : (s.putTrade t).trade? t.id = some t := by
  have hnone : (s.trades.filter fun u => decide (u.id ≠ t.id)).find? (fun u => u.id = t.id) = none :=
    find?_filter_drop (fun i => decide (i ≠ t.id)) (by simp)
  simp only [trade?, putTrade, List.find?_append, hnone, Option.none_or]
  simp

theorem trade?_putTrade_ne (s : Ledger) {t : Trade} {id : TradeId} (h : id ≠ t.id) :
    (s.putTrade t).trade? id = s.trade? id := by
  have hkeep : (s.trades.filter fun u => decide (u.id ≠ t.id)).find? (fun u => u.id = id) =
      s.trades.find? fun u => u.id = id :=
    find?_filter_keep (fun i => decide (i ≠ t.id)) (by simpa using h)
  simp only [trade?, putTrade, List.find?_append, hkeep]
  simp [Ne.symm h]

end Lookup

/-! ### What a change leaves of the events and the sales -/

section Frame

/-- The sort key of a listing's events. -/
abbrev order (a : CorporateAction) : NaiveDate ×ₗ ℤ := toLex (a.date, a.id)

/-- Rewriting actions in place moves a parcel's events only where it moves its
own event on the listing. -/
theorem splitsForParcel_map {s s' : Ledger} {f : CorporateAction → CorporateAction}
    (hs : s'.actions = s.actions.map f) {listing : ListingId} {parcel : TradeId}
    (hlisting : ∀ a, (f a).listing = a.listing) (horder : ∀ a, order (f a) = order a)
    (hevent : ∀ a, a.listing = listing → (f a).eventFor parcel = a.eventFor parcel) :
    s'.splitsForParcel listing parcel = s.splitsForParcel listing parcel := by
  have hfilter : s'.actions.filter (fun a => a.listing = listing) =
      (s.actions.filter fun a => a.listing = listing).map f := by
    rw [hs, List.filter_map]
    simp only [Function.comp_def, hlisting]
  have hsort := StableSort.map_sortBy (κ := NaiveDate ×ₗ ℤ) f horder
    (s.actions.filter fun a => a.listing = listing)
  unfold splitsForParcel
  rw [hfilter, ← hsort, List.filterMap_map]
  refine List.filterMap_congr fun a ha => hevent a ?_
  exact of_decide_eq_true (List.mem_filter.mp (StableSort.mem_sortBy.mp ha)).2

/-- The sales of a parcel after trades are deleted or re-dated, `gone` with
their own allocations. -/
theorem saleRows_filter {s s' : Ledger} (gone : TradeId → Bool)
    (hallocations : s'.allocations = s.allocations.filter fun a => !gone a.sale)
    (htrades : ∀ id, gone id = false → s'.trade? id = s.trade? id) (parcel : TradeId) :
    s'.saleRows parcel = (s.saleRows parcel).filter fun r => !gone r.1 := by
  unfold saleRows
  rw [hallocations, List.filterMap_filter, List.filter_filterMap]
  refine List.filterMap_congr fun a _ => ?_
  cases hg : gone a.sale with
  | true =>
    by_cases hp : a.purchase = parcel
    · cases s.trade? a.sale <;> simp [hp, hg, Option.filter]
    · simp [hp]
  | false =>
    by_cases hp : a.purchase = parcel
    · rw [htrades a.sale hg]
      cases s.trade? a.sale <;> simp [hp, hg, Option.filter]
    · simp [hp]

theorem saleRows_congr {s s' : Ledger} (hallocations : s'.allocations = s.allocations)
    (htrades : ∀ a ∈ s.allocations, (s'.trade? a.sale).map Trade.date =
      (s.trade? a.sale).map Trade.date) (parcel : TradeId) :
    s'.saleRows parcel = s.saleRows parcel := by
  unfold saleRows
  rw [hallocations]
  refine List.filterMap_congr fun a ha => ?_
  by_cases hp : a.purchase = parcel
  · have hd := htrades a ha
    rw [if_pos hp, if_pos hp]
    cases h : s.trade? a.sale with
    | none =>
      rw [h] at hd
      rw [Option.map_eq_none_iff.mp hd]
    | some t =>
      rw [h] at hd
      obtain ⟨t', ht', hdate⟩ := Option.map_eq_some_iff.mp hd
      rw [ht']
      simp [hdate]
  · rw [if_neg hp, if_neg hp]

theorem saleRows_addAllocation (s : Ledger) {a : ParcelAllocation} {parcel : TradeId}
    (h : a.purchase ≠ parcel) : (s.addAllocation a).saleRows parcel = s.saleRows parcel := by
  unfold saleRows
  change (s.allocations ++ [a]).filterMap _ = _
  rw [List.filterMap_append, List.filterMap_cons, if_neg h, List.filterMap_nil, List.append_nil]
  rfl

theorem mem_saleRows {s : Ledger} {parcel : TradeId} {r : TradeId × UnitsAt}
    (h : r ∈ s.saleRows parcel) : ∃ a ∈ s.allocations, ∃ t, a.purchase = parcel ∧
      s.trade? a.sale = some t ∧ r = (a.sale, ⟨a.quantity, t.date⟩) := by
  obtain ⟨a, ha, hr⟩ := List.mem_filterMap.mp h
  split at hr
  · rename_i hp
    obtain ⟨t, ht, hr⟩ := Option.map_eq_some_iff.mp hr
    exact ⟨a, ha, t, hp, ht, hr.symm⟩
  · cases hr

theorem saleRows_pos {s : Ledger} (hs : ∀ a ∈ s.allocations, s.Drawn a) (parcel : TradeId) :
    ∀ r ∈ s.saleRows parcel, 0 < r.2.quantity.value := by
  intro r hr
  obtain ⟨a, ha, t, -, -, rfl⟩ := mem_saleRows hr
  exact (hs a ha).positive

theorem parcelSales_undrawn {s : Ledger} {parcel : TradeId} (h : s.drawnOn parcel = false) :
    s.parcelSales parcel = [] := by
  have hnone : s.saleRows parcel = [] := by
    refine List.filterMap_eq_nil_iff.mpr fun a ha => if_neg ?_
    rintro rfl
    have hdrawn : s.drawnOn a.purchase = true :=
      List.any_eq_true.mpr ⟨a, ha, decide_eq_true rfl⟩
    rw [hdrawn] at h
    exact Bool.noConfusion h
  rw [parcelSales, hnone, List.map_nil]

/-- Sales taken away leave a parcel that covers the rest. -/
theorem ParcelFits.filter {D : DecimalRounding} {s s' : Ledger} {t : Trade}
    (h : s.ParcelFits D t) (hs : ∀ a ∈ s.allocations, s.Drawn a) (gone : TradeId → Bool)
    (hsplits : s'.splitsForParcel t.listing t.id = s.splitsForParcel t.listing t.id)
    (hrows : s'.saleRows t.id = (s.saleRows t.id).filter fun r => !gone r.1) :
    s'.ParcelFits D t := by
  have hle := unitsLeft_filter D (s.splitsForParcel t.listing t.id) t.date Prod.snd t.quantity
    (saleRows_pos hs t.id) (fun r => !gone r.1)
  rw [ParcelFits, hsplits, parcelSales, hrows]
  exact le_trans h hle

theorem ParcelFits.congr {D : DecimalRounding} {s s' : Ledger} {t : Trade} (h : s.ParcelFits D t)
    (hsplits : s'.splitsForParcel t.listing t.id = s.splitsForParcel t.listing t.id)
    (hrows : s'.saleRows t.id = s.saleRows t.id) : s'.ParcelFits D t := by
  rw [ParcelFits, hsplits, parcelSales, hrows]
  exact h

end Frame

/-! ### What the checks establish -/

section Checks
variable {D}

theorem covers_yields {s : Ledger} {t : Trade} {b : Bool} (h : (s.covers D t).Yields b) :
    b = true ↔ s.ParcelFits D t := by
  unfold covers soldUnits at h
  obtain ⟨total, htotal, h⟩ := yields_bind.mp h
  obtain ⟨exceeds, hover, h⟩ := yields_bind.mp h
  obtain ⟨hvalue, hden⟩ := soldInAcquiredUnits_yields one_pos htotal
  have hlt := AcquiredUnits.lt_yields one_pos hden hover
  rw [AcquiredUnits.new_value] at hlt hvalue
  rw [← yields_pure.mp h, hlt, hvalue, ParcelFits]
  simp

theorem coversAll_yields {s : Ledger} {ts : List Trade} (h : (s.coversAll D ts).Yields true) :
    ∀ t ∈ ts, s.ParcelFits D t := by
  induction ts with
  | nil => exact fun t ht => absurd ht List.not_mem_nil
  | cons t ts ih =>
    unfold coversAll at h
    obtain ⟨b, hb, h⟩ := yields_bind.mp h
    split at h
    · rename_i hcovered
      intro u hu
      rcases List.mem_cons.mp hu with rfl | hu
      · exact (covers_yields hb).mp hcovered
      · exact ih h u hu
    · exact absurd (yields_pure.mp h) Bool.false_ne_true

theorem fits_of_undrawn {s : Ledger} {t : Trade} (hpos : 0 < t.quantity)
    (h : s.drawnOn t.id = false) : s.ParcelFits D t := by
  rw [ParcelFits, parcelSales_undrawn h]
  exact hpos.le

/-- The listing check covers every parcel of the listing. -/
theorem refuseUnlessFit_yields {s : Ledger} {listing : ListingId} {u : Unit} (hs : s.Rows)
    (h : (s.refuseUnlessFit D listing).Yields u) {id : TradeId} {t : Trade}
    (ht : s.trade? id = some t) (hlisting : t.listing = listing) : s.ParcelFits D t := by
  unfold refuseUnlessFit allocationsFitParcels at h
  obtain ⟨b, hb, h⟩ := yields_bind.mp h
  have hb' : b = true := by simpa using yields_refuseIf.mp h
  subst hb'
  cases hd : s.drawnOn t.id with
  | true =>
    refine coversAll_yields hb t (List.mem_filter.mpr ⟨mem_of_trade? ht, ?_⟩)
    simp [hlisting, hd]
  | false => exact fits_of_undrawn (hs.quantity_pos id t ht) hd

/-- Every parcel fits but those of some listings still to be checked. -/
def FitsOutside (D : DecimalRounding) (s : Ledger) (listings : List ListingId) : Prop :=
  ∀ id t, s.trade? id = some t → t.tradeType.isAcquisition = true → t.listing ∉ listings →
    s.ParcelFits D t

/-- Two ledgers that differ in their actions' stored counts alone, or less. -/
structure SameRows (s s' : Ledger) : Prop where
  trades : s'.trades = s.trades
  allocations : s'.allocations = s.allocations

theorem SameRows.trade? {s s' : Ledger} (h : SameRows s s') (id : TradeId) :
    s'.trade? id = s.trade? id := by
  rw [Ledger.trade?, h.trades, Ledger.trade?]

theorem SameRows.saleRows {s s' : Ledger} (h : SameRows s s') (parcel : TradeId) :
    s'.saleRows parcel = s.saleRows parcel :=
  saleRows_congr h.allocations (fun a _ => by rw [h.trade?]) parcel

theorem SameRows.drawn {s s' : Ledger} (h : SameRows s s') {a : ParcelAllocation}
    (ha : s.Drawn a) : s'.Drawn a := by
  obtain ⟨sale, parcel, hsale, hsell, hparcel, hrest⟩ := ha.rows
  exact ⟨ha.positive, sale, parcel, (h.trade? _).trans hsale, hsell, (h.trade? _).trans hparcel,
    hrest⟩

theorem SameRows.rows {s s' : Ledger} (h : SameRows s s')
    (hunique : ∀ a ∈ s'.actions, ∀ b ∈ s'.actions, a.id = b.id → a = b) (hs : s.Rows) : s'.Rows where
  quantity_pos := fun id t ht => hs.quantity_pos id t ((h.trade? id).symm.trans ht)
  drawn := by
    intro a ha
    rw [h.allocations] at ha
    exact h.drawn (hs.drawn a ha)
  unique_actions := hunique

theorem SameRows.sumsTo {s s' : Ledger} (h : SameRows s s') {t : Trade} (ht : s.SumsTo t) :
    s'.SumsTo t := by
  rw [SumsTo, h.allocations]
  exact ht

theorem recompute_rows {s : Ledger} (hs : s.Rows) (recount : Recount) (listing : ListingId) :
    (s.recompute recount listing).Rows := by
  have hsame : SameRows s (s.recompute recount listing) := ⟨rfl, rfl⟩
  refine hsame.rows ?_ hs
  intro a ha b hb hid
  obtain ⟨a', ha', rfl⟩ := List.mem_map.mp ha
  obtain ⟨b', hb', rfl⟩ := List.mem_map.mp hb
  have hkey : ∀ c : CorporateAction, (if c.listing = listing then
      { c with counts := recount listing c.id } else c).id = c.id := by
    intro c
    split <;> rfl
  rw [hkey, hkey] at hid
  rw [hs.unique_actions a' ha' b' hb' hid]

/-- A recompute of one listing moves no parcel of another. -/
theorem splitsForParcel_recompute {s : Ledger} (recount : Recount) {dirty listing : ListingId}
    (h : listing ≠ dirty) (parcel : TradeId) :
    (s.recompute recount dirty).splitsForParcel listing parcel =
      s.splitsForParcel listing parcel := by
  refine splitsForParcel_map rfl ?_ ?_ ?_
  · intro a
    split <;> rfl
  · intro a
    split <;> rfl
  · intro a ha
    rw [if_neg (ha ▸ h)]

theorem settleListing_yields {s s' : Ledger} {recount : Recount} {dirty : ListingId}
    {listings : List ListingId} (hs : s.Rows) (hfits : FitsOutside D s listings)
    (h : (s.settleListing D recount dirty).Yields s') :
    SameRows s s' ∧ s'.Rows ∧ FitsOutside D s' listings := by
  unfold settleListing at h
  obtain ⟨u, hu, h⟩ := yields_bind.mp h
  obtain rfl := yields_pure.mp h
  have hrows := recompute_rows hs recount dirty
  have hsame : SameRows s (s.recompute recount dirty) := ⟨rfl, rfl⟩
  refine ⟨hsame, hrows, ?_⟩
  intro id t ht hacq hout
  by_cases hl : t.listing = dirty
  · exact refuseUnlessFit_yields hrows hu ht hl
  · exact (hfits id t ht hacq hout).congr (splitsForParcel_recompute recount hl t.id)
      (hsame.saleRows t.id)

/-- Whatever counts the recomputes store, what fitted still fits. -/
theorem dbSettle_yields {s s' : Ledger} {recount : Recount} {dirty : List ListingId}
    {listings : List ListingId} (hs : s.Rows) (hfits : FitsOutside D s listings)
    (h : (s.dbSettle D recount dirty).Yields s') :
    SameRows s s' ∧ s'.Rows ∧ FitsOutside D s' listings := by
  unfold dbSettle at h
  induction dirty generalizing s with
  | nil =>
    obtain rfl := yields_pure.mp h
    exact ⟨⟨rfl, rfl⟩, hs, hfits⟩
  | cons l dirty ih =>
    rw [List.foldlM_cons] at h
    obtain ⟨mid, hmid, h⟩ := yields_bind.mp h
    obtain ⟨hsame, hrows, hmidfits⟩ := settleListing_yields hs hfits hmid
    obtain ⟨hsame', hrows', hfits'⟩ := ih hrows hmidfits h
    exact ⟨⟨hsame'.trades.trans hsame.trades, hsame'.allocations.trans hsame.allocations⟩,
      hrows', hfits'⟩

/-- Settling keeps the invariant. -/
theorem Valid.dbSettle {s s' : Ledger} {recount : Recount} {dirty : List ListingId}
    (hs : s.Valid D) (h : (s.dbSettle D recount dirty).Yields s') : s'.Valid D := by
  have hall : FitsOutside D s [] := fun id t ht hacq _ => hs.fits id t ht hacq
  obtain ⟨hsame, hrows, hfits⟩ := dbSettle_yields hs.rows hall h
  refine ⟨hrows, ?_, ?_⟩
  · intro id t ht hsell
    exact hsame.sumsTo (hs.sums id t ((hsame.trade? id).symm.trans ht) hsell)
  · intro id t ht hacq
    exact hfits id t ht hacq List.not_mem_nil

/-- A ledger with some listings unchecked is valid once it is settled and they
are checked. -/
theorem Valid.of_checked {s mid s' : Ledger} {recount : Recount} {dirty listings : List ListingId}
    {u : Unit} (hs : s.Valid D) (hrows : mid.Rows) (hsame : SameRows s mid)
    (hfits : FitsOutside D mid listings) (hsettled : (mid.dbSettle D recount dirty).Yields s')
    (hchecked : (listings.forM (s'.refuseUnlessFit D)).Yields u) : s'.Valid D := by
  obtain ⟨hsame', hrows', hfits'⟩ := dbSettle_yields hrows hfits hsettled
  have hboth : SameRows s s' :=
    ⟨hsame'.trades.trans hsame.trades, hsame'.allocations.trans hsame.allocations⟩
  refine ⟨hrows', ?_, ?_⟩
  · intro id t ht hsell
    exact hboth.sumsTo (hs.sums id t ((hboth.trade? id).symm.trans ht) hsell)
  · intro id t ht hacq
    by_cases hl : t.listing ∈ listings
    · exact refuseUnlessFit_yields hrows' (Attempt.yields_forM hchecked t.listing hl) ht rfl
    · exact hfits' id t ht hacq hl

end Checks

/-! ### Sells -/

section Sells
variable {D}

/-- A ledger whose invariant wants only the allocations of one Sell. -/
structure Opened (D : DecimalRounding) (s : Ledger) (t : Trade) : Prop where
  rows : s.Rows
  sale : s.trade? t.id = some t
  sell : t.tradeType = .sell
  sums : ∀ id u, s.trade? id = some u → u.tradeType = .sell → id ≠ t.id → s.SumsTo u
  fits : ∀ id u, s.trade? id = some u → u.tradeType.isAcquisition = true → s.ParcelFits D u

/-- A row written over a Sell, or at a free id, with the Sell's allocations dropped. -/
theorem Valid.opened {s : Ledger} (hs : s.Valid D) {t : Trade}
    (hstored : ∀ u, s.trade? t.id = some u → u.tradeType = .sell) (hsell : t.tradeType = .sell)
    (hpos : 0 < t.quantity) : Opened D ((s.putTrade t).dropAllocations t.id) t := by
  have hother : ∀ id, id ≠ t.id → ((s.putTrade t).dropAllocations t.id).trade? id = s.trade? id :=
    fun id h => trade?_putTrade_ne s h
  have hself : ((s.putTrade t).dropAllocations t.id).trade? t.id = some t :=
    trade?_putTrade_self s t
  have hparcel : ∀ id u, ((s.putTrade t).dropAllocations t.id).trade? id = some u →
      u.tradeType.isAcquisition = true → s.trade? id = some u ∧ id ≠ t.id := by
    intro id u hu hacq
    have hne : id ≠ t.id := by
      rintro rfl
      rw [hself] at hu
      cases hu
      rw [hsell] at hacq
      exact Bool.noConfusion hacq
    exact ⟨(hother id hne).symm.trans hu, hne⟩
  refine ⟨⟨?_, ?_, hs.rows.unique_actions⟩, hself, hsell, ?_, ?_⟩
  · intro id u hu
    by_cases hid : id = t.id
    · rw [hid, hself] at hu
      cases hu
      exact hpos
    · exact hs.rows.quantity_pos id u ((hother id hid).symm.trans hu)
  · intro a ha
    obtain ⟨ha, hkeep⟩ := List.mem_filter.mp ha
    have hold := hs.rows.drawn a ha
    obtain ⟨sale, parcel, hsale, hsale', hpar, hacq, hlist, hdate⟩ := hold.rows
    have hpur : a.purchase ≠ t.id := by
      intro heq
      rw [heq] at hpar
      rw [hstored parcel hpar] at hacq
      exact Bool.noConfusion hacq
    exact ⟨hold.positive, sale, parcel, (hother _ (by simpa using hkeep)).trans hsale, hsale',
      (hother _ hpur).trans hpar, hacq, hlist, hdate⟩
  · intro id u hu husell hid
    have hold := hs.sums id u ((hother id hid).symm.trans hu) husell
    have huid : u.id ≠ t.id := by rwa [trade?_id hu]
    rw [SumsTo] at hold ⊢
    rw [← hold]
    have hfilter : ((s.putTrade t).dropAllocations t.id).allocations.filter
        (fun a => decide (a.sale = u.id)) = s.allocations.filter fun a => decide (a.sale = u.id) := by
      change (s.allocations.filter fun a => decide (a.sale ≠ t.id)).filter _ = _
      rw [List.filter_filter]
      refine List.filter_congr fun a _ => ?_
      by_cases hsale : a.sale = u.id
      · simp [hsale, huid]
      · simp [hsale]
    rw [hfilter]
  · intro id u hu hacq
    obtain ⟨hu', hid⟩ := hparcel id u hu hacq
    have hrows : ((s.putTrade t).dropAllocations t.id).saleRows u.id =
        (s.saleRows u.id).filter fun r => !decide (r.1 = t.id) := by
      refine saleRows_filter (fun i => decide (i = t.id)) ?_ ?_ u.id
      · exact List.filter_congr fun a _ => by simp
      · intro i hi
        exact hother i (of_decide_eq_false hi)
    exact (hs.fits id u hu' hacq).filter hs.rows.drawn (fun i => decide (i = t.id)) rfl hrows

theorem Opened.allocate {s s' : Ledger} {t : Trade} {body : SellBody}
    {provenance : Option Provenance} {alloc : AllocationInput} (hs : Opened D s t)
    (hdate : body.date = t.date) (hlisting : body.listing = t.listing)
    (hpos : 0 < alloc.quantityAllocated.value)
    (h : (s.allocate D t.id body provenance alloc).Yields s') :
    Opened D s' t ∧ s'.allocations = s.allocations ++ [alloc.row t.id] := by
  unfold Ledger.allocate at h
  obtain ⟨parcel, hparcel, h⟩ := yields_bind.mp h
  obtain ⟨_, hacq, h⟩ := yields_bind.mp h
  obtain ⟨_, -, h⟩ := yields_bind.mp h
  obtain ⟨_, hlist, h⟩ := yields_bind.mp h
  obtain ⟨_, hbefore, h⟩ := yields_bind.mp h
  obtain ⟨_, -, h⟩ := yields_bind.mp h
  obtain ⟨covered, hcovered, h⟩ := yields_bind.mp h
  obtain ⟨_, hall, h⟩ := yields_bind.mp h
  obtain rfl := yields_pure.mp h
  have hparcel := Attempt.yields_orRefuse.mp hparcel
  have hacq : parcel.tradeType.isAcquisition = true := by
    simpa using yields_refuseIf.mp hacq
  have hlist : parcel.listing = body.listing := not_not.mp (yields_refuseIf.mp hlist)
  have hbefore : parcel.date ≤ body.date := not_lt.mp (yields_refuseIf.mp hbefore)
  have hcover : covered = true := by simpa using yields_refuseIf.mp hall
  have hfit := (covers_yields hcovered).mp hcover
  refine ⟨⟨⟨hs.rows.quantity_pos, ?_, hs.rows.unique_actions⟩, hs.sale, hs.sell, ?_, ?_⟩, rfl⟩
  · intro a ha
    rcases List.mem_append.mp ha with ha | ha
    · have hold := hs.rows.drawn a ha
      exact ⟨hold.positive, hold.rows⟩
    · obtain rfl := List.mem_singleton.mp ha
      refine ⟨hpos, t, parcel, hs.sale, hs.sell, hparcel, hacq, hlist.trans hlisting, ?_⟩
      rw [← hdate]
      exact hbefore
  · intro id u hu husell hid
    have hold := hs.sums id u hu husell hid
    have huid : t.id ≠ u.id := by
      rw [trade?_id hu]
      exact Ne.symm hid
    have hnone : [alloc.row t.id].filter (fun a => decide (a.sale = u.id)) = [] :=
      List.filter_cons_of_neg (by simp [AllocationInput.row, huid])
    rw [SumsTo] at hold ⊢
    change (((s.allocations ++ [alloc.row t.id]).filter _).map _).sum = _
    rw [List.filter_append, hnone, List.append_nil]
    exact hold
  · intro id u hu huacq
    by_cases hid : id = alloc.purchaseTradeId
    · rw [hid] at hu
      have hu' : u = parcel := Option.some_inj.mp (hu.symm.trans hparcel)
      rw [hu']
      exact hfit
    · have hne : alloc.purchaseTradeId ≠ u.id := by
        rw [trade?_id hu]
        exact Ne.symm hid
      exact (hs.fits id u hu huacq).congr rfl (saleRows_addAllocation s hne)

theorem Opened.allocateAll {s s' : Ledger} {t : Trade} {body : SellBody}
    {provenance : Option Provenance} {allocs : List AllocationInput} (hs : Opened D s t)
    (hdate : body.date = t.date) (hlisting : body.listing = t.listing)
    (hpos : ∀ a ∈ allocs, 0 < a.quantityAllocated.value)
    (h : (allocs.foldlM (Ledger.allocate D t.id body provenance) s).Yields s') :
    Opened D s' t ∧ s'.allocations = s.allocations ++ allocs.map (·.row t.id) := by
  induction allocs generalizing s with
  | nil =>
    obtain rfl := yields_pure.mp h
    exact ⟨hs, (List.append_nil _).symm⟩
  | cons a allocs ih =>
    rw [List.foldlM_cons] at h
    obtain ⟨mid, hmid, h⟩ := yields_bind.mp h
    obtain ⟨hopen, hrows⟩ := hs.allocate hdate hlisting (hpos a List.mem_cons_self) hmid
    obtain ⟨hopen', hrows'⟩ := ih hopen (fun b hb => hpos b (List.mem_cons_of_mem a hb)) h
    refine ⟨hopen', ?_⟩
    rw [hrows', hrows, List.append_assoc, List.map_cons, List.singleton_append]

/-- The Sell core keeps the invariant where its id holds a Sell or nothing. -/
theorem Valid.upsertSellInTx {s s' : Ledger} {id : TradeId} {provenance : Option Provenance}
    {body : SellBody} (hs : s.Valid D)
    (hstored : ∀ u, s.trade? id = some u → u.tradeType = .sell)
    (h : (s.upsertSellInTx D id provenance body).Yields s') : s'.Valid D := by
  unfold Ledger.upsertSellInTx at h
  obtain ⟨_, hpositive, h⟩ := yields_bind.mp h
  obtain ⟨total, htotal, h⟩ := yields_bind.mp h
  obtain ⟨_, hmatch, h⟩ := yields_bind.mp h
  obtain ⟨_, hquantity, h⟩ := yields_bind.mp h
  obtain ⟨_, -, h⟩ := yields_bind.mp h
  have hpositive : ∀ a ∈ body.allocations, 0 < a.quantityAllocated.value := by
    intro a ha
    by_contra hle
    exact yields_refuseIf.mp hpositive ⟨a, ha, not_lt.mp hle⟩
  have hmatch : total = body.quantity := not_not.mp (yields_refuseIf.mp hmatch)
  have hquantity : 0 < body.quantity := not_le.mp (yields_refuseIf.mp hquantity)
  have hopen : Opened D ((s.putTrade (body.row id provenance)).dropAllocations id)
      (body.row id provenance) := hs.opened hstored rfl hquantity
  obtain ⟨hdone, hrows⟩ := hopen.allocateAll rfl rfl hpositive h
  refine ⟨hdone.rows, ?_, hdone.fits⟩
  intro i u hu husell
  by_cases hi : i = id
  · have hu' : u = body.row id provenance := by
      rw [hi] at hu
      exact Option.some_inj.mp (hu.symm.trans hdone.sale)
    have hnone : ((s.putTrade (body.row id provenance)).dropAllocations id).allocations.filter
        (fun a => decide (a.sale = id)) = [] := by
      refine List.filter_eq_nil_iff.mpr fun a ha => ?_
      have hne := (List.mem_filter.mp ha).2
      simpa using hne
    have hall : (body.allocations.map (·.row id)).filter (fun a => decide (a.sale = id)) =
        body.allocations.map (·.row id) := by
      refine List.filter_eq_self.mpr fun a ha => ?_
      obtain ⟨b, -, rfl⟩ := List.mem_map.mp ha
      exact decide_eq_true rfl
    rw [hu', SumsTo, hrows, List.filter_append]
    change (List.map _ (List.filter (fun a => decide (a.sale = id)) _ ++
      List.filter (fun a => decide (a.sale = id)) (body.allocations.map (·.row id)))).sum = _
    rw [hnone, hall, List.nil_append, List.map_map]
    exact (DecimalRounding.of_yields_sum htotal).symm.trans hmatch
  · exact hdone.sums i u hu husell hi

end Sells

/-! ### Rows removed and parcels written -/

section Parcels
variable {D}

theorem eventFor_dropCounts (a : CorporateAction) {gone : TradeId → Bool} {parcel : TradeId}
    (h : gone parcel = false) :
    ({ a with counts := a.counts.filter fun c => !gone c.1 } : CorporateAction).eventFor parcel =
      a.eventFor parcel := by
  unfold CorporateAction.eventFor
  have hfind : (a.counts.filter fun c => !gone c.1).find? (fun c => c.1 = parcel) =
      a.counts.find? fun c => c.1 = parcel := by
    rw [List.find?_filter]
    congr 1
    funext c
    by_cases hc : c.1 = parcel
    · simp [hc, h]
    · simp [hc]
  simp only [hfind]

theorem Valid.remove {s s' : Ledger} {gone : TradeId → Bool} (hs : s.Valid D)
    (h : (s.remove gone).Yields s') : s'.Valid D := by
  unfold Ledger.remove at h
  obtain ⟨_, hkept, h⟩ := yields_bind.mp h
  have hs' := (yields_pure.mp h).symm
  have hkept := yields_refuseIf.mp hkept
  have htrade : ∀ id, gone id = false → s'.trade? id = s.trade? id := by
    intro id hid
    rw [hs']
    exact find?_filter_keep (fun i => !gone i) (by simp [hid])
  have hold : ∀ id t, s'.trade? id = some t → gone id = false ∧ s.trade? id = some t := by
    intro id t ht
    cases hg : gone id with
    | true =>
      have hnone : s'.trade? id = none := by
        rw [hs']
        exact find?_filter_drop (fun i => !gone i) (by simp [hg])
      rw [hnone] at ht
      cases ht
    | false => exact ⟨rfl, (htrade id hg).symm.trans ht⟩
  have hallocations : s'.allocations = s.allocations.filter fun a => !gone a.sale := by rw [hs']
  refine ⟨⟨?_, ?_, ?_⟩, ?_, ?_⟩
  · intro id t ht
    exact hs.rows.quantity_pos id t (hold id t ht).2
  · intro a ha
    rw [hallocations] at ha
    have hsale : gone a.sale = false := by simpa using (List.mem_filter.mp ha).2
    have hpurchase : gone a.purchase = false := by
      by_contra hp
      exact hkept ⟨a, ha, by simpa using hp⟩
    obtain ⟨hpos, sale, parcel, hs1, hs2, hp1, hrest⟩ := hs.rows.drawn a (List.mem_filter.mp ha).1
    exact ⟨hpos, sale, parcel, (htrade _ hsale).trans hs1, hs2, (htrade _ hpurchase).trans hp1,
      hrest⟩
  · rw [hs']
    intro a ha b hb hid
    obtain ⟨a', ha', rfl⟩ := List.mem_map.mp ha
    obtain ⟨b', hb', rfl⟩ := List.mem_map.mp hb
    rw [hs.rows.unique_actions a' ha' b' hb' hid]
  · intro id t ht hsell
    obtain ⟨hg, ht'⟩ := hold id t ht
    have hsum := hs.sums id t ht' hsell
    have hfilter : s'.allocations.filter (fun a => decide (a.sale = t.id)) =
        s.allocations.filter fun a => decide (a.sale = t.id) := by
      rw [hallocations, List.filter_filter]
      refine List.filter_congr fun a _ => ?_
      by_cases hsale : a.sale = t.id
      · simp [hsale, trade?_id ht, hg]
      · simp [hsale]
    rw [SumsTo, hfilter]
    exact hsum
  · intro id t ht hacq
    obtain ⟨hg, ht'⟩ := hold id t ht
    have hgt : gone t.id = false := by rwa [trade?_id ht]
    refine (hs.fits id t ht' hacq).filter hs.rows.drawn gone ?_ (saleRows_filter gone hallocations htrade _)
    refine splitsForParcel_map (f := fun a => { a with counts := a.counts.filter fun c => !gone c.1 })
      (by rw [hs']) (fun _ => rfl) (fun _ => rfl) ?_
    intro a _
    exact eventFor_dropCounts a hgt

/-- A ledger whose trades changed at one id that no Sell holds. -/
theorem Valid.putParcel {s s' : Ledger} {t : Trade} (hs : s.Valid D)
    (hallocations : s'.allocations = s.allocations) (hactions : s'.actions = s.actions)
    (hself : s'.trade? t.id = some t) (hother : ∀ id, id ≠ t.id → s'.trade? id = s.trade? id)
    (hacq : t.tradeType.isAcquisition = true) (hpos : 0 < t.quantity)
    (hstored : ∀ u, s.trade? t.id = some u → u.tradeType ≠ .sell)
    (hdrawn : ∀ a ∈ s.allocations, a.purchase = t.id → ∀ sale, s.trade? a.sale = some sale →
      t.listing = sale.listing ∧ t.date ≤ sale.date)
    (hfits : s.ParcelFits D t) : s'.Valid D := by
  have hsale : ∀ a ∈ s.allocations, a.sale ≠ t.id := by
    intro a ha heq
    obtain ⟨sale, parcel, hsale, hsell, -⟩ := (hs.rows.drawn a ha).rows
    rw [heq] at hsale
    exact hstored sale hsale hsell
  have hrows : ∀ parcel, s'.saleRows parcel = s.saleRows parcel := by
    intro parcel
    exact saleRows_congr hallocations (fun a ha => by rw [hother _ (hsale a ha)]) parcel
  have hsplits : ∀ listing parcel, s'.splitsForParcel listing parcel =
      s.splitsForParcel listing parcel := by
    intro listing parcel
    rw [splitsForParcel, hactions, splitsForParcel]
  refine ⟨⟨?_, ?_, ?_⟩, ?_, ?_⟩
  · intro id u hu
    by_cases hid : id = t.id
    · rw [hid, hself] at hu
      cases hu
      exact hpos
    · exact hs.rows.quantity_pos id u ((hother id hid).symm.trans hu)
  · intro a ha
    rw [hallocations] at ha
    obtain ⟨hq, sale, parcel, hs1, hs2, hp1, hp2, hlist, hdate⟩ := hs.rows.drawn a ha
    have hs1' := (hother _ (hsale a ha)).trans hs1
    by_cases hp : a.purchase = t.id
    · obtain ⟨hl, hd⟩ := hdrawn a ha hp sale hs1
      exact ⟨hq, sale, t, hs1', hs2, by rw [hp, hself], hacq, hl, hd⟩
    · exact ⟨hq, sale, parcel, hs1', hs2, (hother _ hp).trans hp1, hp2, hlist, hdate⟩
  · rw [hactions]
    exact hs.rows.unique_actions
  · intro id u hu husell
    have hid : id ≠ t.id := by
      rintro rfl
      rw [hself] at hu
      cases hu
      rw [husell] at hacq
      exact Bool.noConfusion hacq
    have hsum := hs.sums id u ((hother id hid).symm.trans hu) husell
    rw [SumsTo, hallocations]
    exact hsum
  · intro id u hu huacq
    by_cases hid : id = t.id
    · rw [hid, hself] at hu
      cases hu
      exact hfits.congr (hsplits _ _) (hrows _)
    · exact (hs.fits id u ((hother id hid).symm.trans hu) huacq).congr (hsplits _ _) (hrows _)

theorem Valid.recordParcel {s s' : Ledger} {t : Trade} (hs : s.Valid D)
    (h : (s.recordParcel t).Yields s') : s'.Valid D := by
  unfold Ledger.recordParcel Ledger.insertTrade at h
  obtain ⟨_, hacq, h⟩ := yields_bind.mp h
  obtain ⟨_, hpos, h⟩ := yields_bind.mp h
  obtain ⟨_, hfresh, h⟩ := yields_bind.mp h
  have hs' := (yields_pure.mp h).symm
  have hacq : t.tradeType.isAcquisition = true := by simpa using yields_refuseIf.mp hacq
  have hpos : 0 < t.quantity := not_le.mp (yields_refuseIf.mp hpos)
  have hfresh : s.trade? t.id = none := by simpa using yields_refuseIf.mp hfresh
  have htrade : ∀ id, s'.trade? id = (s.trade? id).or (if t.id = id then some t else none) := by
    intro id
    rw [hs']
    simp only [Ledger.trade?, List.find?_append, List.find?_cons, List.find?_nil]
    by_cases hid : t.id = id <;> simp [hid]
  have hfree : ∀ a ∈ s.allocations, a.purchase ≠ t.id := by
    intro a ha heq
    obtain ⟨sale, parcel, -, -, hparcel, -⟩ := (hs.rows.drawn a ha).rows
    rw [heq, hfresh] at hparcel
    cases hparcel
  refine hs.putParcel (t := t) (by rw [hs']) (by rw [hs']) ?_ ?_ hacq hpos ?_ ?_ ?_
  · rw [htrade, hfresh, if_pos rfl, Option.none_or]
  · intro id hid
    rw [htrade, if_neg (Ne.symm hid), Option.or_none]
  · intro u hu
    rw [hfresh] at hu
    cases hu
  · intro a ha heq
    exact absurd heq (hfree a ha)
  · refine fits_of_undrawn hpos ?_
    refine List.any_eq_false.mpr fun a ha => ?_
    simpa using hfree a ha

theorem Valid.recordParcels {s s' : Ledger} {ts : List Trade} (hs : s.Valid D)
    (h : (s.recordParcels ts).Yields s') : s'.Valid D := by
  unfold Ledger.recordParcels at h
  induction ts generalizing s with
  | nil =>
    obtain rfl := yields_pure.mp h
    exact hs
  | cons t ts ih =>
    rw [List.foldlM_cons] at h
    obtain ⟨mid, hmid, h⟩ := yields_bind.mp h
    exact ih (hs.recordParcel hmid) h

end Parcels

/-! ### The writes -/

section Writes
variable {D}

theorem checkSellEdit_yields {s : Ledger} {id : TradeId} {u : Unit}
    (h : ((s.trade? id).toList.forM s.checkSellEdit).Yields u) {t : Trade}
    (ht : s.trade? id = some t) : t.tradeType = .sell := by
  have hcheck := Attempt.yields_forM h t (by simp [ht])
  unfold checkSellEdit at hcheck
  obtain ⟨_, hsell, -⟩ := yields_bind.mp hcheck
  exact not_not.mp (yields_refuseIf.mp hsell)

theorem Valid.writeSell {s s' : Ledger} {id : TradeId} {body : SellBody} {recount : Recount}
    (hs : s.Valid D) (h : (s.writeSell D id body recount).Yields s') : s'.Valid D := by
  unfold Ledger.writeSell at h
  obtain ⟨_, hedit, h⟩ := yields_bind.mp h
  obtain ⟨mid, hmid, h⟩ := yields_bind.mp h
  exact (hs.upsertSellInTx (fun _ ht => checkSellEdit_yields hedit ht) hmid).dbSettle h

theorem Valid.deleteSell {s s' : Ledger} {id : TradeId} {recount : Recount} (hs : s.Valid D)
    (h : (s.deleteSell D id recount).Yields s') : s'.Valid D := by
  unfold Ledger.deleteSell at h
  obtain ⟨t, -, h⟩ := yields_bind.mp h
  obtain ⟨_, -, h⟩ := yields_bind.mp h
  obtain ⟨_, -, h⟩ := yields_bind.mp h
  obtain ⟨_, -, h⟩ := yields_bind.mp h
  obtain ⟨mid, hmid, h⟩ := yields_bind.mp h
  exact (hs.remove hmid).dbSettle h

theorem checkEdit_yields {s : Ledger} {body : TradeBody} {t : Trade} {u : Unit}
    (h : (s.checkEdit body t).Yields u) : t.tradeType = .buy ∧
      (s.drawnOn t.id = true → t.listing = body.listing) ∧
      (t.date < body.date → ∀ sale ∈ s.parcelSales t.id, body.date ≤ sale.basis) := by
  unfold checkEdit at h
  obtain ⟨_, -, h⟩ := yields_bind.mp h
  obtain ⟨_, hbuy, h⟩ := yields_bind.mp h
  obtain ⟨_, hlisting, h⟩ := yields_bind.mp h
  obtain ⟨_, -, h⟩ := yields_bind.mp h
  have hlisting := yields_refuseIf.mp hlisting
  have hlater := yields_refuseIf.mp h
  refine ⟨not_not.mp (yields_refuseIf.mp hbuy), ?_, ?_⟩
  · intro hdrawn
    by_contra hne
    exact hlisting ⟨hne, hdrawn⟩
  · intro hlate sale hsale
    by_contra hbefore
    exact hlater ⟨hlate, sale, hsale, not_le.mp hbefore⟩

theorem Valid.writeTrade {s s' : Ledger} {id : TradeId} {body : TradeBody} {recount : Recount}
    (hs : s.Valid D) (h : (s.writeTrade D id body recount).Yields s') : s'.Valid D := by
  unfold Ledger.writeTrade at h
  obtain ⟨_, hpos, h⟩ := yields_bind.mp h
  obtain ⟨_, hedit, h⟩ := yields_bind.mp h
  obtain ⟨covered, hcovered, h⟩ := yields_bind.mp h
  obtain ⟨_, hall, h⟩ := yields_bind.mp h
  obtain ⟨_, -, h⟩ := yields_bind.mp h
  have hpos : 0 < body.quantity := not_le.mp (yields_refuseIf.mp hpos)
  have hcover : covered = true := by simpa using yields_refuseIf.mp hall
  have hfit := (covers_yields hcovered).mp hcover
  have hstored : ∀ t, s.trade? id = some t → t.tradeType = .buy ∧
      (s.drawnOn t.id = true → t.listing = body.listing) ∧
      (t.date < body.date → ∀ sale ∈ s.parcelSales t.id, body.date ≤ sale.basis) :=
    fun t ht => checkEdit_yields (Attempt.yields_forM hedit t (by simp [ht]))
  refine Valid.dbSettle ?_ h
  refine hs.putParcel rfl rfl (trade?_putTrade_self s _)
    (fun i hi => trade?_putTrade_ne s hi) rfl hpos ?_ ?_ hfit
  · intro t ht hsell
    rw [(hstored t ht).1] at hsell
    cases hsell
  · intro a ha hpurchase sale hsale
    have hdrawn := hs.rows.drawn a ha
    obtain ⟨sale', parcel, hsale', -, hparcel, -, hlist, hdate⟩ := hdrawn.rows
    obtain rfl : sale' = sale := Option.some_inj.mp (hsale'.symm.trans hsale)
    rw [hpurchase] at hparcel
    obtain ⟨-, hkeep, hlater⟩ := hstored parcel hparcel
    have hid : parcel.id = id := trade?_id hparcel
    have hon : s.drawnOn parcel.id = true := by
      rw [hid]
      exact List.any_eq_true.mpr ⟨a, ha, decide_eq_true hpurchase⟩
    refine ⟨(hkeep hon).symm.trans hlist, ?_⟩
    rcases le_or_gt body.date parcel.date with hle | hlt
    · exact hle.trans hdate
    · refine hlater hlt ⟨a.quantity, sale'.date⟩ ?_
      refine List.mem_map.mpr ⟨(a.sale, ⟨a.quantity, sale'.date⟩), ?_, rfl⟩
      refine List.mem_filterMap.mpr ⟨a, ha, ?_⟩
      rw [hid, if_pos hpurchase, hsale]
      rfl

theorem Valid.deleteTrade {s s' : Ledger} {id : TradeId} {recount : Recount} (hs : s.Valid D)
    (h : (s.deleteTrade D id recount).Yields s') : s'.Valid D := by
  unfold Ledger.deleteTrade at h
  obtain ⟨t, -, h⟩ := yields_bind.mp h
  obtain ⟨_, -, h⟩ := yields_bind.mp h
  obtain ⟨_, -, h⟩ := yields_bind.mp h
  obtain ⟨mid, hmid, h⟩ := yields_bind.mp h
  exact (hs.remove hmid).dbSettle h

theorem Valid.insertSell {s s' : Ledger} {id : TradeId} {provenance : Option Provenance}
    {body : SellBody} (hs : s.Valid D) (h : (s.insertSell D id provenance body).Yields s') :
    s'.Valid D := by
  unfold Ledger.insertSell at h
  obtain ⟨_, hfresh, h⟩ := yields_bind.mp h
  have hfresh : s.trade? id = none := by simpa using yields_refuseIf.mp hfresh
  refine hs.upsertSellInTx (fun t ht => ?_) h
  rw [hfresh] at ht
  cases ht

/-- The transfers table is no part of the invariant. -/
theorem Valid.withTransfers {s : Ledger} (hs : s.Valid D) (transfers : List Transfer) :
    ({ s with transfers := transfers } : Ledger).Valid D :=
  ⟨⟨hs.rows.quantity_pos, fun a ha => ⟨(hs.rows.drawn a ha).positive, (hs.rows.drawn a ha).rows⟩,
    hs.rows.unique_actions⟩, hs.sums, hs.fits⟩

theorem Valid.writeTransferIns {s s' : Ledger} {body : TransferBody} {ids : TransferIds}
    {allocs : List AllocationInput} (hs : s.Valid D)
    (h : (allocs.foldlM (Ledger.writeTransferIn body ids) s).Yields s') : s'.Valid D := by
  induction allocs generalizing s with
  | nil =>
    obtain rfl := yields_pure.mp h
    exact hs
  | cons a allocs ih =>
    rw [List.foldlM_cons] at h
    obtain ⟨mid, hmid, h⟩ := yields_bind.mp h
    unfold Ledger.writeTransferIn at hmid
    obtain ⟨_, -, hmid⟩ := yields_bind.mp hmid
    exact ih (hs.recordParcel hmid) h

theorem Valid.writeFeeSale {s s' : Ledger} {body : TransferBody} {ids : TransferIds}
    (hs : s.Valid D) (h : (s.writeFeeSale D body ids).Yields s') : s'.Valid D := by
  unfold Ledger.writeFeeSale at h
  split at h
  · obtain rfl := yields_pure.mp h
    exact hs.withTransfers _
  · obtain ⟨_, -, h⟩ := yields_bind.mp h
    obtain ⟨feeBody, -, h⟩ := yields_bind.mp h
    obtain ⟨mid, hmid, h⟩ := yields_bind.mp h
    obtain rfl := yields_pure.mp h
    exact (hs.insertSell hmid).withTransfers _

theorem Valid.writeTransfer {s s' : Ledger} {ids : TransferIds} {body : TransferBody}
    {recount : Recount} (hs : s.Valid D) (h : (s.writeTransfer D ids body recount).Yields s') :
    s'.Valid D := by
  unfold Ledger.writeTransfer at h
  obtain ⟨_, -, h⟩ := yields_bind.mp h
  obtain ⟨_, -, h⟩ := yields_bind.mp h
  obtain ⟨_, -, h⟩ := yields_bind.mp h
  obtain ⟨_, -, h⟩ := yields_bind.mp h
  obtain ⟨sellBody, -, h⟩ := yields_bind.mp h
  obtain ⟨closed, hclosed, h⟩ := yields_bind.mp h
  obtain ⟨moved, hmoved, h⟩ := yields_bind.mp h
  obtain ⟨paid, hpaid, h⟩ := yields_bind.mp h
  exact (((hs.insertSell hclosed).writeTransferIns hmoved).writeFeeSale hpaid).dbSettle h

theorem Valid.deleteTransfer {s s' : Ledger} {id : ℤ} {recount : Recount} (hs : s.Valid D)
    (h : (s.deleteTransfer D id recount).Yields s') : s'.Valid D := by
  unfold Ledger.deleteTransfer at h
  obtain ⟨t, -, h⟩ := yields_bind.mp h
  obtain ⟨_, -, h⟩ := yields_bind.mp h
  obtain ⟨mid, hmid, h⟩ := yields_bind.mp h
  exact ((hs.remove hmid).withTransfers _).dbSettle h

theorem Valid.operate {s s' : Ledger} {id : TradeId} {provenance : Provenance} {body : SellBody}
    {replacements : List Trade} {recount : Recount} (hs : s.Valid D)
    (h : (s.operate D id provenance body replacements recount).Yields s') : s'.Valid D := by
  unfold Ledger.operate at h
  obtain ⟨closed, hclosed, h⟩ := yields_bind.mp h
  obtain ⟨replaced, hreplaced, h⟩ := yields_bind.mp h
  exact ((hs.insertSell hclosed).recordParcels hreplaced).dbSettle h

theorem putAction_rows {s : Ledger} (hs : s.Rows) (action : CorporateAction) :
    (s.putAction action).Rows := by
  have hsame : SameRows s (s.putAction action) := ⟨rfl, rfl⟩
  refine hsame.rows ?_ hs
  have hmem : ∀ c ∈ (s.putAction action).actions,
      (c ∈ s.actions ∧ c.id ≠ action.id) ∨ c = action := by
    intro c hc
    rcases List.mem_append.mp hc with hc | hc
    · obtain ⟨hc, hne⟩ := List.mem_filter.mp hc
      exact Or.inl ⟨hc, by simpa using hne⟩
    · exact Or.inr (List.mem_singleton.mp hc)
  intro a ha b hb hid
  rcases hmem a ha with ⟨ha, hane⟩ | rfl
  · rcases hmem b hb with ⟨hb, -⟩ | rfl
    · exact hs.unique_actions a ha b hb hid
    · exact absurd hid hane
  · rcases hmem b hb with ⟨-, hbne⟩ | rfl
    · exact absurd hid.symm hbne
    · rfl

/-- An action written moves the parcels of its own listing and the one it left. -/
theorem splitsForParcel_putAction {s : Ledger} (hs : s.Rows) {action : CorporateAction}
    {listing : ListingId} (hnew : listing ≠ action.listing)
    (hold : ∀ a, s.actions.find? (fun a => a.id = action.id) = some a → listing ≠ a.listing)
    (parcel : TradeId) :
    (s.putAction action).splitsForParcel listing parcel = s.splitsForParcel listing parcel := by
  have hfilter : (s.putAction action).actions.filter (fun a => decide (a.listing = listing)) =
      s.actions.filter fun a => decide (a.listing = listing) := by
    change (s.actions.filter _ ++ [action]).filter _ = _
    rw [List.filter_append, List.filter_cons_of_neg (by simpa using Ne.symm hnew),
      List.filter_nil, List.append_nil, List.filter_filter]
    refine List.filter_congr fun a ha => ?_
    by_cases hl : a.listing = listing
    · have hne : a.id ≠ action.id := by
        intro hid
        cases hfind : s.actions.find? fun a => a.id = action.id with
        | none => exact absurd (decide_eq_true hid) (List.find?_eq_none.mp hfind a ha)
        | some b =>
          have hfound := List.find?_some hfind
          have hb : b.id = action.id := of_decide_eq_true hfound
          have hab := hs.unique_actions a ha b (List.mem_of_find?_eq_some hfind) (hid.trans hb.symm)
          exact hold b hfind (hl.symm.trans (congrArg CorporateAction.listing hab))
      simp [hl, hne]
    · simp [hl]
  rw [splitsForParcel, hfilter, splitsForParcel]

theorem Valid.writeAction {s s' : Ledger} {action : CorporateAction} {changed : Bool}
    {recount : Recount} (hs : s.Valid D) (h : (s.writeAction D action changed recount).Yields s') :
    s'.Valid D := by
  unfold Ledger.writeAction at h
  obtain ⟨_, -, h⟩ := yields_bind.mp h
  obtain ⟨settled, hsettled, h⟩ := yields_bind.mp h
  obtain ⟨_, hchecked, h⟩ := yields_bind.mp h
  obtain rfl := yields_pure.mp h
  refine Valid.of_checked hs (putAction_rows hs.rows _) ⟨rfl, rfl⟩ ?_ hsettled hchecked
  intro id t ht hacq hout
  have hnew : t.listing ≠ action.listing := fun heq => hout (heq ▸ List.mem_cons_self)
  refine (hs.fits id t ht hacq).congr (splitsForParcel_putAction hs.rows ?_ ?_ t.id) rfl
  · exact hnew
  intro a ha heq
  refine hout (List.mem_cons_of_mem _ (List.mem_filter.mpr ⟨?_, by simpa using hnew⟩))
  rw [heq]
  exact List.mem_map.mpr ⟨a, by simp [ha], rfl⟩

theorem Valid.deleteAction {s s' : Ledger} {id : ℤ} {recount : Recount} (hs : s.Valid D)
    (h : (s.deleteAction D id recount).Yields s') : s'.Valid D := by
  unfold Ledger.deleteAction at h
  obtain ⟨action, haction, h⟩ := yields_bind.mp h
  obtain ⟨_, hlater, h⟩ := yields_bind.mp h
  obtain ⟨_, -, h⟩ := yields_bind.mp h
  have haction := Attempt.yields_orRefuse.mp haction
  have hlater := yields_refuseIf.mp hlater
  refine Valid.dbSettle ?_ h
  refine ⟨⟨hs.rows.quantity_pos, ?_, ?_⟩, hs.sums, ?_⟩
  · intro a ha
    exact ⟨(hs.rows.drawn a ha).positive, (hs.rows.drawn a ha).rows⟩
  · intro a ha b hb
    exact hs.rows.unique_actions a (List.mem_filter.mp ha).1 b (List.mem_filter.mp hb).1
  · intro i t ht hacq
    have hfit := hs.fits i t ht hacq
    -- every trade of the listing, and so every sale of its parcels, is before the action
    have hfactor : ∀ sale ∈ s.parcelSales t.id,
        basisFactor (s.splitsForParcel t.listing t.id) t.date sale.basis =
          basisFactor (({ s with actions := s.actions.filter fun a => a.id ≠ id } : Ledger).splitsForParcel
            t.listing t.id) t.date sale.basis := by
      intro sale hsale
      obtain ⟨r, hr, rfl⟩ := List.mem_map.mp hsale
      obtain ⟨a, ha, u, hpurchase, hu, rfl⟩ := mem_saleRows hr
      obtain ⟨u', parcel, hu', -, hparcel, -, hlist, hdate⟩ := (hs.rows.drawn a ha).rows
      obtain rfl : u' = u := Option.some_inj.mp (hu'.symm.trans hu)
      obtain rfl : parcel = t := by
        rw [hpurchase, trade?_id ht] at hparcel
        exact Option.some_inj.mp (hparcel.symm.trans ht)
      have hsorted : (({ s with actions := s.actions.filter fun a => a.id ≠ id } : Ledger).splitsForParcel
          parcel.listing parcel.id) = ((StableSort.sortBy order
            (s.actions.filter fun a => a.listing = parcel.listing)).filter
              fun a => decide (a.id ≠ id)).filterMap (·.eventFor parcel.id) := by
        rw [StableSort.filter_sortBy, List.filter_filter]
        unfold splitsForParcel
        rw [List.filter_filter]
        simp only [Bool.and_comm]
      rw [basisFactor_of_le _ hdate, basisFactor_of_le _ hdate, hsorted, splitRatio_filterMap]
      · rfl
      · intro b hb hdrop e he
        obtain ⟨hb, hblist⟩ := List.mem_filter.mp (StableSort.mem_sortBy.mp hb)
        have hbid : b.id = id := by simpa using hdrop
        have hfound := List.find?_some haction
        have hba : b = action := hs.rows.unique_actions b hb action
          (List.mem_of_find?_eq_some haction) (hbid.trans (of_decide_eq_true hfound).symm)
        obtain ⟨e', he', heq⟩ := Option.map_eq_some_iff.mp he
        have hdate' : e.date = action.date := by
          rw [← heq, ← hba, ← b.rebase_date e' he']
          split <;> rfl
        have hsome : action.rebase.isSome = true := by
          rw [← hba, he']
          rfl
        have hbefore : u'.date < action.date := by
          by_contra hnot
          refine hlater ⟨hsome, u', mem_of_trade? hu, ?_, not_lt.mp hnot⟩
          rw [← hlist, ← hba]
          exact (of_decide_eq_true hblist).symm
        simp [inWindow, hdate', hbefore]
    rw [ParcelFits] at hfit ⊢
    rw [unitsLeft_congr D t.date hfactor] at hfit
    exact hfit

/-- Every accepted write that rounds nowhere keeps the invariant. -/
theorem Valid.step {s s' : Ledger} {w : Write} (hs : s.Valid D) (h : (s.step D w).Yields s') :
    s'.Valid D := by
  cases w with
  | writeSell id body recount => exact hs.writeSell h
  | deleteSell id recount => exact hs.deleteSell h
  | writeTrade id body recount => exact hs.writeTrade h
  | recordParcel t recount =>
    obtain ⟨mid, hmid, h⟩ := yields_bind.mp h
    exact (hs.recordParcel hmid).dbSettle h
  | deleteTrade id recount => exact hs.deleteTrade h
  | writeTransfer ids body recount => exact hs.writeTransfer h
  | deleteTransfer id recount => exact hs.deleteTransfer h
  | operate id provenance body replacements recount => exact hs.operate h
  | writeAction action changed recount => exact hs.writeAction h
  | deleteAction id recount => exact hs.deleteAction h
  | setUnitScale scale recount touched =>
    refine Valid.dbSettle ?_ h
    exact ⟨⟨hs.rows.quantity_pos, fun a ha => ⟨(hs.rows.drawn a ha).positive,
      (hs.rows.drawn a ha).rows⟩, hs.rows.unique_actions⟩, hs.sums, hs.fits⟩

theorem Valid.run {s s' : Ledger} {ws : List Write} (hs : s.Valid D)
    (h : s.run D ws = .ok s') (hexact : s.roundsNowhere D ws = true) : s'.Valid D := by
  induction ws generalizing s with
  | nil =>
    cases h
    exact hs
  | cons w ws ih =>
    unfold Ledger.run at h
    unfold Ledger.roundsNowhere at hexact
    obtain ⟨hstep, hrest⟩ := (Bool.and_eq_true _ _).mp hexact
    cases hanswer : (s.step D w).answer with
    | error e =>
      rw [hanswer] at h
      cases h
    | ok mid =>
      rw [hanswer] at h hrest
      exact ih (hs.step ⟨hanswer, hstep⟩) h hrest

theorem valid_empty (D : DecimalRounding) : Ledger.empty.Valid D where
  rows := {
    quantity_pos := fun _ _ h => nomatch h
    drawn := fun _ h => nomatch h
    unique_actions := fun _ h => nomatch h }
  sums := fun _ _ h => nomatch h
  fits := fun _ _ h => nomatch h

end Writes

/-- In every state that accepted writes reach from an empty ledger without
rounding, each Sell's allocations are positive draws that sum to its quantity,
on Buys and DRPs of its own listing dated on or before it, and every parcel
covers what is drawn on it. -/
theorem run_valid (ws : List Write) (s : Ledger) (hrun : Ledger.empty.run D ws = .ok s)
    (hexact : Ledger.empty.roundsNowhere D ws = true) : s.Valid D :=
  (valid_empty D).run hrun hexact

/-- No action of the listing is rounded, so nothing is recounted. -/
def noCounts : Recount := fun _ _ => []

theorem tripled_pos : (0 : ℚ) < 3 := by norm_num

/-- A 3-for-1 split over a parcel of 100, sold in two parts after it, and the
first Sell deleted again. -/
def splitThenSold : List Write := [
  .writeTrade 1 ⟨ymd 2024 1 2, 1, 1, 100⟩ noCounts,
  .writeAction
    { id := 7
      listing := 1
      date := ymd 2024 3 1
      rebase := some (.shareSplit (ymd 2024 3 1) 3 1 tripled_pos SplitRatio.unit_pos)
      rounded := false
      counts := []
      rebase_date := by
        rintro _ ⟨⟩
        rfl } true noCounts,
  .writeSell 3 ⟨ymd 2024 6 3, 1, 1, 200,
    [⟨1, .new 200 0⟩]⟩ noCounts,
  .writeSell 4 ⟨ymd 2024 7 3, 1, 1, 100,
    [⟨1, .new 100 0⟩]⟩ noCounts,
  .deleteSell 3 noCounts]

theorem run_valid_split : ∃ s, Ledger.empty.run halfEvenRounding splitThenSold = .ok s ∧
    s.Valid halfEvenRounding := by
  obtain ⟨s, h⟩ := Checked.exists_ok (x := Ledger.empty.run halfEvenRounding splitThenSold)
    (by decide +kernel)
  exact ⟨s, h, run_valid halfEvenRounding splitThenSold s h (by decide +kernel)⟩

/-- Two parcels, and a Sell of 101 units drawn as 100 and 1 + 10⁻²⁸. -/
def roundedSum : List Write := [
  .writeTrade 1 ⟨ymd 2024 1 2, 1, 1, 100⟩ noCounts,
  .writeTrade 2 ⟨ymd 2024 1 3, 1, 1, 2⟩ noCounts,
  .writeSell 3 ⟨ymd 2024 6 3, 1, 1, 101,
    [⟨1, .new 100 0⟩,
     ⟨2, .new 10000000000000000000000000001 28⟩]⟩ noCounts]

/-- A sum that rounds to the quantity is accepted as the quantity. -/
theorem run_invalid_roundedSum : ∃ s, Ledger.empty.run halfEvenRounding roundedSum = .ok s ∧
    ¬ s.Valid halfEvenRounding := by
  have hsum : Checked.accepts (Ledger.empty.run halfEvenRounding roundedSum) (fun s =>
      s.trades.any fun t => s.trade? t.id = some t && t.tradeType = .sell &&
        ((s.allocations.filter fun a => a.sale = t.id).map fun a => a.quantity.value).sum ≠
          t.quantity) = true := by
    decide +kernel
  obtain ⟨s, h, hs⟩ := Checked.accepts_iff.mp hsum
  obtain ⟨t, -, ht⟩ := List.any_eq_true.mp hs
  simp only [Bool.and_eq_true, decide_eq_true_eq] at ht
  exact ⟨s, h, fun hvalid => ht.2 (hvalid.sums t.id t ht.1.1 ht.1.2)⟩

end Ledger

end ShareTracker
