import ShareTracker.SellRecount
import ShareTracker.WholeHoldingRun

/-!
A Sell of everything the open parcels show of a parcel. The read counts the sales
up to its date, and the check on a Sell counts them all: stated last, the figure
shown is accepted, takes what is left, and is costed as just that. A recount the
Sell triggers moves no event the parcel's sales are re-based by.
-/
namespace ShareTracker.EmptyingSells
open WholeHolding (UniqueIds left)
open Ledger (noCounts tripled_pos)


/-! ### The read and the Sell -/

section Read
variable (D : DecimalRounding)

/-- The as-acquired units sold of a parcel by a date. -/
def soldBy (s : Ledger) (t : Trade) (asOf : NaiveDate) : Attempt Refusal AcquiredUnits :=
  D.soldInAcquiredUnits (s.splitsForParcel t.listing t.id) t.date (.new t.quantity)
    ((s.parcelSales t.id).filter fun sale => sale.basis ≤ asOf)

def remainingAsAcquired (s : Ledger) (t : Trade) (asOf : NaiveDate) :
    Attempt Refusal AcquiredUnits := do
  AcquiredUnits.sub D (.new t.quantity) (← soldBy D s t asOf)

/-- What the open parcels show of a parcel at a date, in the basis of that date;
one with nothing left is not open. -/
def remainingAsOf (s : Ledger) (t : Trade) (asOf : NaiveDate) : Attempt Refusal (Option ℚ) := do
  let remaining ← remainingAsAcquired D s t asOf
  if ← AcquiredUnits.lt D .zero remaining then
    return some (← D.splitAdjustedQuantity remaining (s.splitsForParcel t.listing t.id) t.date asOf)
  else return none

end Read

/-- A Sell from one parcel alone. -/
def sellFrom (t : Trade) (date : NaiveDate) (stated : Decimal) : SellBody :=
  ⟨date, t.listing, t.account, stated.value, [⟨t.id, stated⟩]⟩

/-- The rows of the Sell stored. -/
def stored (s : Ledger) (t : Trade) (date : NaiveDate) (stated : Decimal) (id : TradeId) : Ledger :=
  (s.putTrade ((sellFrom t date stated).row id none)).addAllocation ⟨id, t.id, stated⟩

/-- A Sell, at an id no row holds, of what the open parcels show of a parcel at a
date past which nothing is sold of it, on the grid of its holding. -/
structure SellsShown (D : DecimalRounding) (s : Ledger) (t : Trade) (date : NaiveDate)
    (stated : Decimal) (id : TradeId) : Prop where
  acquired : t.date ≤ date
  shown : (remainingAsOf D s t date).Yields (some stated.value)
  positive : 0 < stated.value
  last : ∀ sale ∈ s.parcelSales t.id, sale.basis ≤ date
  onGrid : s.tooFine t.account t.listing stated.value = none
  fresh : s.trade? id = none

/-- The Sell is the parcel's last sale, nothing is left after it, and its entry of
the costing walk is what was left before it. -/
structure Emptied (D : DecimalRounding) (s s' : Ledger) (t : Trade) (date : NaiveDate)
    (stated : Decimal) : Prop where
  sale : s'.parcelSales t.id = s.parcelSales t.id ++ [⟨stated, date⟩]
  sold : ∃ total, (s'.soldUnits D t).Yields total ∧ total.value = t.quantity
  costed : ∃ before units remaining,
    (D.acquiredUnitsOfSales (s'.splitsForParcel t.listing t.id) t.date (.new t.quantity)
        (s'.parcelSales t.id) : Attempt Refusal _).Yields (before ++ [units]) ∧
      (remainingAsAcquired D s t date).Yields remaining ∧ units.value = remaining.value

/-! ### The counts a recount stores -/

section Recount
open RoundedCounts (Db TradeRow CountRow Settled applyAll sellOps)

/-- A stored row, as it re-bases its parcel. -/
def storedCount (r : CountRow) : Option (TradeId × StoredCount) :=
  if h : 0 < r.count.before ∧ 0 < r.count.after then
    some (r.count.tradeId, ⟨r.count.before, r.count.after, h.1, h.2⟩)
  else none

def storedCounts (b : Db) (action : ℤ) : List (TradeId × StoredCount) :=
  (b.counts.filter fun r => r.action = action).filterMap storedCount

/-- A row as the ledger has it, whatever wrote it. -/
def tradeOf (t : TradeRow) : Trade :=
  ⟨t.id, t.tradeType, t.date, t.listing, t.account, t.quantity, none⟩

/-- A database whose tables hold a ledger's rows. -/
structure Holds (b : Db) (s : Ledger) : Prop where
  trades : (b.trades.map tradeOf).Perm (s.trades.map fun t => { t with provenance := none })
  allocations : b.allocations.Perm s.allocations
  actions : (b.actions.map fun a => (a.id, a.listing, a.date, a.event, a.rounded)).Perm
    (s.actions.map fun a => (a.id, a.listing, a.date, a.rebase, a.isRounded))
  counts : ∀ a ∈ s.actions, a.counts = storedCounts b a.id
  scale : ∀ t ∈ s.trades, b.unitScale t.account t.listing = s.unitScale t.account t.listing

/-- A recount stores what the listing's recompute does, once the Sell's rows are
written to a database that holds the ledger and was settled. -/
def Recounts (D : DecimalRounding) (s : Ledger) (t : Trade) (date : NaiveDate) (stated : Decimal)
    (id : TradeId) (recount : Recount) : Prop :=
  ∃ b settled written recounted, Holds b s ∧ b.Rows ∧ Settled D b t.listing ∧
    applyAll b (sellOps ⟨id, .sell, t.listing, date, settled, stated.value, t.account⟩ t.id stated) =
      .ok written ∧
    RoundedCounts.recompute D written t.listing = .ok recounted ∧
    recount = fun _ action => storedCounts recounted action

/-- The listing's other parcels cover what is drawn on them. -/
def OthersCover (D : DecimalRounding) (s : Ledger) (t : Trade) : Prop :=
  ∀ u ∈ s.trades, u.listing = t.listing → u.id ≠ t.id → s.drawnOn u.id = true →
    (s.covers D u).answer = .ok true

/-- Where the listing has a rounded action, the Sell's recount goes through and
leaves its other parcels covering their sales. -/
def Settles (D : DecimalRounding) (s : Ledger) (t : Trade) (date : NaiveDate) (stated : Decimal)
    (id : TradeId) (recount : Recount) : Prop :=
  s.dirty [t.listing] ≠ [] → Recounts D s t date stated id recount ∧
    OthersCover D ((stored s t date stated id).recompute recount t.listing) t

end Recount

/-- By no date is more sold of the parcel than it holds. -/
structure NeverExceeded (D : DecimalRounding) (s : Ledger) (t : Trade) : Prop where
  left_nonneg : ∀ date, 0 ≤ unitsLeft D (s.splitsForParcel t.listing t.id) t.date t.quantity
    ((s.parcelSales t.id).filter fun sale => sale.basis ≤ date)
  sold_le : ∀ date sold, (soldBy D s t date).Yields sold → sold.value ≤ t.quantity

/-! ### A sale after the others -/

section Last
variable {ε : Type} [Panics ε] {D : DecimalRounding} {splits : List SplitEvent}
  {acquired : NaiveDate} {sales : List UnitsAt} {sale : UnitsAt}

theorem draws_append (h : ∀ s ∈ sales, s.basis ≤ sale.basis) :
    draws D splits acquired (sales ++ [sale]) =
      draws D splits acquired sales ++ [saleDraw D splits acquired sale] := by
  have hsort : StableSort.sortBy UnitsAt.basis (sales ++ [sale]) =
      StableSort.sortBy UnitsAt.basis sales ++ [sale] := by
    refine StableSort.sortBy_append fun a ha b hb => ?_
    rw [List.mem_singleton.mp hb]
    exact h a ha
  rw [draws, hsort, List.map_append]
  rfl

theorem unitsLeft_append (h : ∀ s ∈ sales, s.basis ≤ sale.basis) (quantity : ℚ) :
    unitsLeft D splits acquired quantity (sales ++ [sale]) =
      EmptyingWalk.after (unitsLeft D splits acquired quantity sales)
        (saleDraw D splits acquired sale) := by
  rw [unitsLeft, draws_append h, EmptyingWalk.remaining_append]
  rfl

theorem sortBy_zipIdx_append (h : ∀ s ∈ sales, s.basis ≤ sale.basis) :
    StableSort.sortBy (fun s => s.1.basis) (sales ++ [sale]).zipIdx =
      StableSort.sortBy (fun s => s.1.basis) sales.zipIdx ++ [(sale, sales.length)] := by
  have hnumbered : (sales ++ [sale]).zipIdx = sales.zipIdx ++ [(sale, sales.length)] := by
    rw [List.zipIdx_append, Nat.zero_add]
    rfl
  rw [hnumbered]
  refine StableSort.sortBy_append fun a ha b hb => ?_
  rw [List.mem_singleton.mp hb]
  exact h a.1 (List.fst_mem_of_mem_zipIdx ha)

/-- The last sale's entry of the costing walk takes what its draw takes of what the
others left. -/
theorem acquiredUnitsOfSales_last {parcel : AcquiredUnits} {us : List AcquiredUnits}
    (hparcel : 0 < parcel.den) (hlast : ∀ s ∈ sales, s.basis ≤ sale.basis)
    (h : (D.acquiredUnitsOfSales splits acquired parcel (sales ++ [sale]) : Attempt ε _).Yields us) :
    ∃ before units, us = before ++ [units] ∧ units.value =
      (saleDraw D splits acquired sale).units (unitsLeft D splits acquired parcel.value sales) := by
  unfold DecimalRounding.acquiredUnitsOfSales at h
  obtain ⟨drawn, hdrawn, h⟩ := yields_bind.mp h
  obtain rfl := yields_pure.mp h
  rw [sortBy_zipIdx_append hlast] at hdrawn
  obtain ⟨hidx, htaken, -⟩ := walkSales_yields hparcel one_pos hdrawn
  rw [List.map_append, List.map_singleton] at hidx
  obtain ⟨earlier, final, rfl, hearlier, hfinal⟩ := List.map_eq_append_iff.mp hidx
  obtain ⟨d, rfl, hd⟩ := List.map_eq_singleton_iff.mp hfinal
  refine ⟨(StableSort.sortBy Prod.fst earlier).map Prod.snd, d.2, ?_, ?_⟩
  · have hsort : StableSort.sortBy Prod.fst (earlier ++ [d]) =
        StableSort.sortBy Prod.fst earlier ++ [d] := by
      refine StableSort.sortBy_append fun a ha b hb => ?_
      -- the others are numbered below the last
      rw [List.mem_singleton.mp hb, hd]
      have hnumber : a.1 ∈ (StableSort.sortBy (fun s => s.1.basis) sales.zipIdx).map Prod.snd :=
        hearlier ▸ List.mem_map_of_mem ha
      obtain ⟨s, hs, hsa⟩ := List.mem_map.mp hnumber
      rw [← hsa]
      exact (List.snd_lt_of_mem_zipIdx (StableSort.mem_sortBy.mp hs)).le
    rw [hsort, List.map_append]
    rfl
  · rw [List.map_append, List.map_append, EmptyingWalk.taken_append, draws_zipIdx] at htaken
    have hlength : (earlier.map fun d => d.2.value).length =
        (EmptyingWalk.taken (parcel.value - AcquiredUnits.zero.value)
          (draws D splits acquired sales)).length := by
      have hcount := congrArg List.length hearlier
      simp only [List.length_map] at hcount
      rw [EmptyingWalk.length_taken, List.length_map, hcount, draws, List.length_map]
      simp only [(StableSort.sortBy_perm _ _).length_eq, List.length_zipIdx]
    have hvalue := (List.append_inj htaken hlength).2
    rw [AcquiredUnits.zero_value, sub_zero] at hvalue
    exact (List.cons.inj hvalue).1

end Last

/-! ### The Sell stored -/

section Stored
variable {D : DecimalRounding} {s : Ledger} {t : Trade} {date : NaiveDate} {stated : Decimal}
  {id : TradeId}

theorem stored_trade?_ne {i : TradeId} (h : i ≠ id) :
    (stored s t date stated id).trade? i = s.trade? i :=
  Ledger.trade?_putTrade_ne s h

/-- The Sell takes no parcel's row. -/
theorem SellsShown.stored_trade? (h : SellsShown D s t date stated id)
    (ht : s.trade? t.id = some t) : (stored s t date stated id).trade? t.id = some t := by
  have hne : t.id ≠ id := by
    rintro rfl
    rw [h.fresh] at ht
    cases ht
  exact (stored_trade?_ne hne).trans ht

theorem sale_ne_fresh (hs : s.Rows) (hfresh : s.trade? id = none) {a : ParcelAllocation}
    (ha : a ∈ s.allocations) : a.sale ≠ id := by
  obtain ⟨sale, parcel, hsale, -⟩ := (hs.drawn a ha).rows
  rintro rfl
  rw [hfresh] at hsale
  cases hsale

theorem saleRows_putTrade_fresh (hs : s.Rows) {row : Trade} (hfresh : s.trade? row.id = none)
    (parcel : TradeId) : (s.putTrade row).saleRows parcel = s.saleRows parcel := by
  have hallocations : (s.putTrade row).allocations = s.allocations := rfl
  refine Ledger.saleRows_congr hallocations (fun a ha => ?_) parcel
  rw [Ledger.trade?_putTrade_ne s (sale_ne_fresh hs hfresh ha)]

theorem parcelSales_stored (hs : s.Rows) (hfresh : s.trade? id = none) :
    (stored s t date stated id).parcelSales t.id =
      s.parcelSales t.id ++ [⟨stated, date⟩] := by
  have hself := Ledger.trade?_putTrade_self s ((sellFrom t date stated).row id none)
  have hnew : (stored s t date stated id).saleRows t.id =
      (s.putTrade ((sellFrom t date stated).row id none)).saleRows t.id ++
        [(id, ⟨stated, date⟩)] := by
    unfold Ledger.saleRows
    change (s.allocations ++ [(⟨id, t.id, stated⟩ : ParcelAllocation)]).filterMap _ = _
    rw [List.filterMap_append]
    refine congrArg₂ (· ++ ·) rfl ?_
    have hrow : (stored s t date stated id).trade? id =
        some ((sellFrom t date stated).row id none) := hself
    simp [hrow, sellFrom, SellBody.row]
  rw [Ledger.parcelSales, hnew, saleRows_putTrade_fresh hs hfresh, List.map_append]
  rfl

theorem remainingAsAcquired_yields {remaining : AcquiredUnits}
    (hlast : ∀ sale ∈ s.parcelSales t.id, sale.basis ≤ date)
    (h : (remainingAsAcquired D s t date).Yields remaining) :
    remaining.value = left D s t ∧ 0 < remaining.den := by
  unfold remainingAsAcquired soldBy at h
  obtain ⟨sold, hsold, h⟩ := yields_bind.mp h
  have hall : (s.parcelSales t.id).filter (fun sale => sale.basis ≤ date) = s.parcelSales t.id :=
    List.filter_eq_self.mpr fun sale hsale => decide_eq_true (hlast sale hsale)
  rw [hall] at hsold
  obtain ⟨hvalue, hden⟩ := soldInAcquiredUnits_yields one_pos hsold
  obtain ⟨hremains, hremainsden⟩ := AcquiredUnits.sub_yields one_pos hden h
  refine ⟨?_, hremainsden⟩
  rw [hremains, hvalue, AcquiredUnits.new_value, sub_sub_cancel]
  rfl

/-- What is shown is what is left, as the date prints it. -/
theorem SellsShown.prints (h : SellsShown D s t date stated id) :
    ∃ remaining, (remainingAsAcquired D s t date).Yields remaining ∧
      remaining.value = left D s t ∧ 0 < left D s t ∧
      (saleDraw D (s.splitsForParcel t.listing t.id) t.date ⟨stated, date⟩).print (left D s t) =
        stated.value := by
  have hshown := h.shown
  unfold remainingAsOf at hshown
  obtain ⟨remaining, hremaining, hshown⟩ := yields_bind.mp hshown
  obtain ⟨open_, hopen, hshown⟩ := yields_bind.mp hshown
  obtain ⟨hvalue, hden⟩ := remainingAsAcquired_yields h.last hremaining
  have hopen := AcquiredUnits.lt_yields one_pos hden hopen
  rw [AcquiredUnits.zero_value, hvalue] at hopen
  split at hshown
  · rename_i hpos
    obtain ⟨figure, hfigure, hshown⟩ := yields_bind.mp hshown
    have hsame : figure = stated.value := Option.some_inj.mp (yields_pure.mp hshown)
    refine ⟨remaining, hremaining, hvalue, of_decide_eq_true (hopen ▸ hpos), ?_⟩
    rw [← hsame, splitAdjustedQuantity_yields hfigure, hvalue]
    rfl
  · cases yields_pure.mp hshown

theorem left_stored (hs : s.Rows) (h : SellsShown D s t date stated id) :
    left D (stored s t date stated id) t = 0 := by
  obtain ⟨-, -, -, hpos, hprint⟩ := h.prints
  rw [left, parcelSales_stored hs h.fresh, unitsLeft_append h.last]
  exact EmptyingWalk.after_of_prints hpos hprint

theorem fits_stored (hs : s.Valid D) (ht : s.trade? t.id = some t)
    (h : SellsShown D s t date stated id) {u : Trade}
    (hu : (stored s t date stated id).trade? u.id = some u)
    (hacq : u.tradeType.isAcquisition = true) :
    (stored s t date stated id).ParcelFits D u := by
  have hne : u.id ≠ id := by
    intro hid
    have hself := Ledger.trade?_putTrade_self s ((sellFrom t date stated).row id none)
    rw [hid] at hu
    cases hu.symm.trans hself
    cases hacq
  rw [stored_trade?_ne hne] at hu
  by_cases hut : u.id = t.id
  · rw [hut, ht] at hu
    cases hu
    exact (left_stored hs.rows h).ge
  · refine (hs.fits u.id u hu hacq).congr rfl ?_
    rw [EmptyingSells.stored, Ledger.saleRows_addAllocation _ (Ne.symm hut)]
    exact saleRows_putTrade_fresh hs.rows h.fresh u.id

end Stored

/-! ### Events after a parcel's sales -/

section Later
variable {ε : Type} [Panics ε] {D : DecimalRounding} {splits splits' : List SplitEvent}
  {acquired bound : NaiveDate}

/-- The events up to a date are the same. -/
def AlikeBy (bound : NaiveDate) (splits splits' : List SplitEvent) : Prop :=
  splits'.filter (fun e => e.date ≤ bound) = splits.filter fun e => e.date ≤ bound

theorem splitTerms_before (splits : List SplitEvent) (since : NaiveDate) {upTo : NaiveDate}
    (h : upTo ≤ bound) : (D.splitTerms splits since (some upTo) : Attempt ε _) =
      D.splitTerms (splits.filter fun e => e.date ≤ bound) since (some upTo) := by
  unfold DecimalRounding.splitTerms
  rw [List.foldlM_filter]
  refine congrArg (fun f => splits.foldlM f (1, 1)) ?_
  funext r e
  by_cases he : e.date ≤ bound
  · rw [if_pos (decide_eq_true he)]
  · have hout : inWindow since (some upTo) e.date = false := by
      simp [inWindow, h.trans_lt (not_le.mp he)]
    simp [hout, he]

theorem rebaseTerms_congr (h : AlikeBy bound splits splits') {f t : NaiveDate} (hf : f ≤ bound)
    (ht : t ≤ bound) : (D.rebaseTerms splits' f t : Attempt ε _) = D.rebaseTerms splits f t := by
  unfold DecimalRounding.rebaseTerms
  rw [AlikeBy] at h
  rw [splitTerms_before splits' f ht, splitTerms_before splits' t hf, h,
    ← splitTerms_before splits f ht, ← splitTerms_before splits t hf]

theorem splitAdjustedQuantity_congr (h : AlikeBy bound splits splits')
    (hacquired : acquired ≤ bound) (u : AcquiredUnits) {upTo : NaiveDate} (hupTo : upTo ≤ bound) :
    (D.splitAdjustedQuantity u splits' acquired upTo : Attempt ε _) =
      D.splitAdjustedQuantity u splits acquired upTo := by
  unfold DecimalRounding.splitAdjustedQuantity
  rw [rebaseTerms_congr h hacquired hupTo]

theorem asAcquiredQuantity_congr (h : AlikeBy bound splits splits') (hacquired : acquired ≤ bound)
    {sale : UnitsAt} (hsale : sale.basis ≤ bound) :
    (D.asAcquiredQuantity sale splits' acquired : Attempt ε _) =
      D.asAcquiredQuantity sale splits acquired := by
  have hshortest : ∀ figures, (D.shortestRestating sale splits' acquired figures : Attempt ε _) =
      D.shortestRestating sale splits acquired figures := by
    intro figures
    induction figures with
    | nil => rfl
    | cons figure rest ih =>
      unfold DecimalRounding.shortestRestating
      rw [splitAdjustedQuantity_congr h hacquired _ hsale, ih]
  unfold DecimalRounding.asAcquiredQuantity
  rw [rebaseTerms_congr h hsale hacquired]
  simp only [hshortest]

theorem walkSales_congr (h : AlikeBy bound splits splits') (hacquired : acquired ≤ bound)
    {sales : List (UnitsAt × ℕ)} (hsales : ∀ s ∈ sales, s.1.basis ≤ bound)
    (parcel sold : AcquiredUnits) :
    (D.walkSales splits' acquired parcel sold sales : Attempt ε _) =
      D.walkSales splits acquired parcel sold sales := by
  induction sales generalizing sold with
  | nil => rfl
  | cons s sales ih =>
    obtain ⟨sale, i⟩ := s
    have hsale := hsales (sale, i) List.mem_cons_self
    have hunits : ∀ left, (D.saleUnits splits' acquired left sale : Attempt ε _) =
        D.saleUnits splits acquired left sale := by
      intro left
      unfold DecimalRounding.saleUnits
      rw [splitAdjustedQuantity_congr h hacquired left hsale,
        asAcquiredQuantity_congr h hacquired hsale]
    have hrest := ih fun s hs => hsales s (List.mem_cons_of_mem _ hs)
    unfold DecimalRounding.walkSales
    simp only [hunits, hrest]

/-- A parcel's sales up to a date are walked by the events up to it. -/
theorem acquiredUnitsOfSales_congr (h : AlikeBy bound splits splits')
    (hacquired : acquired ≤ bound) {sales : List UnitsAt} (hsales : ∀ s ∈ sales, s.basis ≤ bound)
    (parcel : AcquiredUnits) :
    (D.acquiredUnitsOfSales splits' acquired parcel sales : Attempt ε _) =
      D.acquiredUnitsOfSales splits acquired parcel sales := by
  have hbasis : ∀ s ∈ StableSort.sortBy (fun s => s.1.basis) sales.zipIdx, s.1.basis ≤ bound :=
    fun s hs => hsales s.1 (List.fst_mem_of_mem_zipIdx (StableSort.mem_sortBy.mp hs))
  have hwalk := walkSales_congr (ε := ε) (D := D) h hacquired hbasis parcel .zero
  unfold DecimalRounding.acquiredUnitsOfSales
  simp only [hwalk]

end Later

section Recounted
variable {D : DecimalRounding} {s : Ledger} {t : Trade} {date : NaiveDate} {stated : Decimal}
  {id : TradeId} {recount : Recount}

/-- The recount stores the counts stored of the actions that re-base up to the Sell. -/
theorem Recounts.kept (h : Recounts D s t date stated id recount) (hfresh : s.trade? id = none)
    {a : CorporateAction} (ha : a ∈ s.actions)
    (hrelevant : WholeHolding.relevant ((sellFrom t date stated).row id none) a = true) :
    recount t.listing a.id = a.counts := by
  obtain ⟨b, settled, written, recounted, hholds, R, S, hwritten, hrecompute, rfl⟩ := h
  obtain ⟨hbefore, hrebase⟩ := (Bool.and_eq_true _ _).mp hrelevant
  obtain ⟨hlisting, hdate⟩ := (Bool.and_eq_true _ _).mp hbefore
  obtain ⟨row, hrow, heq⟩ := List.mem_map.mp (hholds.actions.mem_iff.mpr (List.mem_map_of_mem ha))
  simp only [Prod.mk.injEq] at heq
  obtain ⟨hid, hrowListing, hrowDate, hevent, -⟩ := heq
  have hsplit : row ∈ b.splitActions t.listing :=
    RoundedCounts.Db.mem_splitActions.mpr ⟨hrow, hrowListing.trans (of_decide_eq_true hlisting),
      (congrArg Option.isSome hevent).trans hrebase⟩
  have hnew : b.trade? id = none := by
    refine List.find?_eq_none.mpr fun u hu hid => ?_
    obtain ⟨v, hv, heq⟩ := List.mem_map.mp (hholds.trades.mem_iff.mp (List.mem_map_of_mem hu))
    have hsame : v.id = u.id := congrArg Trade.id heq
    have hother := List.find?_eq_none.mp hfresh v hv
    exact hother (decide_eq_true (hsame.trans (of_decide_eq_true hid)))
  have hcounts := (RoundedCounts.applyAll_sellOps hwritten).recompute rfl rfl hnew R S hrecompute
    hsplit (hrowDate.trans_le (of_decide_eq_true hdate))
  rw [hholds.counts a ha, ← hid]
  exact congrArg (List.filterMap storedCount) hcounts

theorem splits_recounted (h : Recounts D s t date stated id recount)
    (hfresh : s.trade? id = none) :
    AlikeBy date ((stored s t date stated id).splitsForParcel t.listing t.id)
      (((stored s t date stated id).recompute recount t.listing).splitsForParcel t.listing
        t.id) := by
  let sell := (sellFrom t date stated).row id none
  refine (WholeHolding.filter_splitsForParcel _ sell t.id).trans
    (Eq.trans ?_ (WholeHolding.filter_splitsForParcel _ sell t.id).symm)
  refine WholeHolding.eventsBy_map rfl (fun a => ?_) (fun a => ?_) (fun a => ?_) fun a ha hrel => ?_
  · split <;> rfl
  · split <;> rfl
  · split <;> rfl
  · split
    · rw [h.kept hfresh ha hrel]
    · rfl

end Recounted

/-! ### The Sell accepted -/

section Accepted
variable {D : DecimalRounding} {s : Ledger} {t : Trade} {date : NaiveDate} {stated : Decimal}
  {id : TradeId}

theorem dropAllocations_fresh (hs : s.Rows) (hfresh : s.trade? id = none) (row : Trade) :
    (s.putTrade row).dropAllocations id = s.putTrade row := by
  have hkept : s.allocations.filter (fun a => a.sale ≠ id) = s.allocations :=
    List.filter_eq_self.mpr fun a ha => decide_eq_true (sale_ne_fresh hs hfresh ha)
  unfold Ledger.dropAllocations
  change { s.putTrade row with allocations := s.allocations.filter fun a => a.sale ≠ id } = _
  rw [hkept]
  rfl

theorem checkScale_shown (h : SellsShown D s t date stated id) :
    (s.checkScale none t.account t.listing stated.value).Yields () := by
  have hstated : Provenance.stated none = true := rfl
  unfold Ledger.checkScale Ledger.refuseTooFine
  rw [if_pos hstated, h.onGrid]
  exact yields_pure.mpr rfl

theorem sum_stated (stated : Decimal) :
    (D.sum [stated.value] : Attempt Refusal ℚ).Yields stated.value := by
  unfold DecimalRounding.sum
  simp only [List.foldlM_cons, List.foldlM_nil, bind_pure, zero_add]
  exact DecimalRounding.yields_op (holds_iff.mpr ⟨stated, rfl⟩)

/-- The Sell core stores the rows where the parcel covers them. -/
theorem upsertSellInTx_stored (hs : s.Rows) (ht : s.trade? t.id = some t)
    (hacq : t.tradeType.isAcquisition = true) (h : SellsShown D s t date stated id)
    (hcovers : ((stored s t date stated id).covers D t).Yields true) :
    (s.upsertSellInTx D id none (sellFrom t date stated)).Yields
      (stored s t date stated id) := by
  have hscale := checkScale_shown h
  have hparcel : (s.putTrade ((sellFrom t date stated).row id none)).trade? t.id = some t :=
    h.stored_trade? ht
  unfold Ledger.upsertSellInTx
  refine yields_bind.mpr ⟨(), yields_refuseIf.mpr ?_, ?_⟩
  · rintro ⟨a, ha, hle⟩
    obtain rfl := List.mem_singleton.mp ha
    exact absurd h.positive (not_lt.mpr hle)
  refine yields_bind.mpr ⟨stated.value, sum_stated stated, ?_⟩
  refine yields_bind.mpr ⟨(), yields_refuseIf.mpr fun hne => hne rfl, ?_⟩
  refine yields_bind.mpr ⟨(), yields_refuseIf.mpr (not_le.mpr h.positive), ?_⟩
  refine yields_bind.mpr ⟨(), hscale, ?_⟩
  rw [dropAllocations_fresh hs h.fresh]
  have hallocations : (sellFrom t date stated).allocations = [⟨t.id, stated⟩] := rfl
  rw [hallocations]
  simp only [List.foldlM_cons, List.foldlM_nil, bind_pure]
  unfold Ledger.allocate
  refine yields_bind.mpr ⟨t, Attempt.yields_orRefuse.mpr hparcel, ?_⟩
  refine yields_bind.mpr ⟨(), yields_refuseIf.mpr (by simp [hacq]), ?_⟩
  refine yields_bind.mpr ⟨(), yields_refuseIf.mpr fun hother => hother.2 rfl, ?_⟩
  refine yields_bind.mpr ⟨(), yields_refuseIf.mpr fun hother => hother rfl, ?_⟩
  refine yields_bind.mpr ⟨(), yields_refuseIf.mpr (not_lt.mpr h.acquired), ?_⟩
  refine yields_bind.mpr ⟨(), hscale, ?_⟩
  refine yields_bind.mpr ⟨true, hcovers, ?_⟩
  refine yields_bind.mpr ⟨(), yields_refuseIf.mpr (by simp), ?_⟩
  exact yields_pure.mpr rfl

theorem coversAll_of {ts : List Trade} (h : ∀ u ∈ ts, (s.covers D u).answer = .ok true) :
    (s.coversAll D ts).answer = .ok true := by
  induction ts with
  | nil => rfl
  | cons u ts ih =>
    unfold Ledger.coversAll
    refine answer_bind.mpr ⟨true, h u List.mem_cons_self, ?_⟩
    exact ih fun v hv => h v (List.mem_cons_of_mem u hv)

theorem refuseUnlessFit_of {listing : ListingId}
    (h : ∀ u ∈ s.trades, u.listing = listing → s.drawnOn u.id = true →
      (s.covers D u).answer = .ok true) : (s.refuseUnlessFit D listing).answer = .ok () := by
  unfold Ledger.refuseUnlessFit Ledger.allocationsFitParcels
  refine answer_bind.mpr ⟨true, coversAll_of fun u hu => ?_, ?_⟩
  · obtain ⟨hu, hkeep⟩ := List.mem_filter.mp hu
    obtain ⟨hlisting, hdrawn⟩ := (Bool.and_eq_true _ _).mp hkeep
    exact h u hu (of_decide_eq_true hlisting) hdrawn
  · exact Attempt.answer_refuseIf.mpr (by simp)

/-- A listing marked is settled alone. -/
theorem dbSettle_one {recount : Recount} {listing : ListingId} (hdirty : s.dirty [listing] ≠ [])
    (hfit : ((s.recompute recount listing).refuseUnlessFit D listing).answer = .ok ()) :
    (s.dbSettle D recount (s.dirty [listing])).answer = .ok (s.recompute recount listing) := by
  have hone : s.dirty [listing] = [listing] := by
    rcases List.sublist_singleton.mp (List.filter_sublist : (s.dirty [listing]).Sublist _) with
      hnil | hone
    · exact absurd hnil hdirty
    · exact hone
  unfold Ledger.dbSettle
  rw [hone]
  simp only [List.foldlM_cons, List.foldlM_nil, bind_pure]
  exact answer_bind.mpr ⟨(), hfit, rfl⟩

/-- The Sell stored, its parcel covers what is drawn on it. -/
theorem covers_stored (hs : s.Valid D) (ht : s.trade? t.id = some t)
    (hacq : t.tradeType.isAcquisition = true) (h : SellsShown D s t date stated id)
    (hcounts : ((stored s t date stated id).covers D t).succeeds = true) :
    ((stored s t date stated id).covers D t).Yields true := by
  have hfits := fits_stored hs ht h (h.stored_trade? ht) hacq
  obtain ⟨covered, hcovered⟩ := Attempt.succeeds_iff.mp hcounts
  rwa [(Ledger.covers_yields hcovered).mpr hfits] at hcovered

theorem neverExceeded (hs : s.Valid D) (ht : s.trade? t.id = some t)
    (hacq : t.tradeType.isAcquisition = true) : NeverExceeded D s t := by
  have hleft : ∀ date, 0 ≤ unitsLeft D (s.splitsForParcel t.listing t.id) t.date t.quantity
      ((s.parcelSales t.id).filter fun sale => sale.basis ≤ date) := by
    intro date
    refine (hs.fits t.id t ht hacq).trans ?_
    have hfewer := unitsLeft_filter D (s.splitsForParcel t.listing t.id) t.date Prod.snd t.quantity
      (Ledger.saleRows_pos hs.rows.drawn t.id) (fun r => r.2.basis ≤ date)
    rw [Ledger.parcelSales, List.filter_map]
    exact hfewer
  refine ⟨hleft, fun date sold hsold => ?_⟩
  rw [(soldInAcquiredUnits_yields one_pos hsold).1, AcquiredUnits.new_value]
  exact sub_le_self _ (hleft date)

theorem emptied_stored (hs : s.Valid D) (h : SellsShown D s t date stated id)
    (hcovers : ((stored s t date stated id).covers D t).Yields true) :
    Emptied D s (stored s t date stated id) t date stated := by
  obtain ⟨remaining, hremaining, hvalue, hpos, hprint⟩ := h.prints
  unfold Ledger.covers at hcovers
  obtain ⟨total, htotal, -⟩ := yields_bind.mp hcovers
  have hcounted := htotal
  unfold Ledger.soldUnits DecimalRounding.soldInAcquiredUnits at hcounted
  obtain ⟨us, hus, -⟩ := yields_bind.mp hcounted
  refine ⟨parcelSales_stored hs.rows h.fresh, ⟨total, htotal, ?_⟩, ?_⟩
  · have hsold := (soldInAcquiredUnits_yields one_pos htotal).1
    rw [AcquiredUnits.new_value] at hsold
    exact hsold.trans ((congrArg (t.quantity - ·) (left_stored hs.rows h)).trans (sub_zero _))
  · have hwalk := hus
    rw [parcelSales_stored hs.rows h.fresh] at hwalk
    obtain ⟨before, units, rfl, hunits⟩ := acquiredUnitsOfSales_last one_pos h.last hwalk
    refine ⟨before, units, remaining, hus, hremaining, ?_⟩
    rw [hunits, hvalue, AcquiredUnits.new_value]
    exact EmptyingWalk.Draw.units_of_prints hpos hprint

/-! The recount moves no event up to the Sell, so the parcel's walk is as it was. -/

section Settled
variable {recount : Recount}

theorem costs_recounted (hs : s.Rows) (h : SellsShown D s t date stated id)
    (hrecount : Recounts D s t date stated id recount) :
    (D.acquiredUnitsOfSales
        (((stored s t date stated id).recompute recount t.listing).splitsForParcel t.listing t.id)
        t.date (.new t.quantity) ((stored s t date stated id).parcelSales t.id) :
        Attempt Refusal _) =
      D.acquiredUnitsOfSales ((stored s t date stated id).splitsForParcel t.listing t.id) t.date
        (.new t.quantity) ((stored s t date stated id).parcelSales t.id) := by
  refine acquiredUnitsOfSales_congr (splits_recounted hrecount h.fresh) h.acquired ?_ _
  intro sale hsale
  rw [parcelSales_stored hs h.fresh] at hsale
  rcases List.mem_append.mp hsale with hsale | hsale
  · exact h.last sale hsale
  · rw [List.mem_singleton.mp hsale]

theorem soldUnits_recounted (hs : s.Rows) (h : SellsShown D s t date stated id)
    (hrecount : Recounts D s t date stated id recount) :
    ((stored s t date stated id).recompute recount t.listing).soldUnits D t =
      (stored s t date stated id).soldUnits D t := by
  have hrows : ((stored s t date stated id).recompute recount t.listing).parcelSales t.id =
      (stored s t date stated id).parcelSales t.id := rfl
  unfold Ledger.soldUnits DecimalRounding.soldInAcquiredUnits
  rw [hrows, costs_recounted hs h hrecount]

theorem emptied_recounted (hs : s.Rows) (h : SellsShown D s t date stated id)
    (hrecount : Recounts D s t date stated id recount)
    (hemptied : Emptied D s (stored s t date stated id) t date stated) :
    Emptied D s ((stored s t date stated id).recompute recount t.listing) t date stated := by
  obtain ⟨hsale, hsold, before, units, remaining, hcosts, hremaining⟩ := hemptied
  refine ⟨hsale, ?_, before, units, remaining, ?_, hremaining⟩
  · rwa [soldUnits_recounted hs h hrecount]
  · exact (costs_recounted hs h hrecount).symm ▸ hcosts

/-- Settled, the Sell's parcel covers its sales as before the recount. -/
theorem dbSettle_recounted (hs : s.Rows) (hunique : UniqueIds s) (ht : s.trade? t.id = some t)
    (h : SellsShown D s t date stated id)
    (hcovers : ((stored s t date stated id).covers D t).Yields true)
    (hrecount : Recounts D s t date stated id recount)
    (hothers : OthersCover D ((stored s t date stated id).recompute recount t.listing) t)
    (hdirty : s.dirty [t.listing] ≠ []) :
    ((stored s t date stated id).dbSettle D recount
      ((stored s t date stated id).dirty [t.listing])).answer =
        .ok ((stored s t date stated id).recompute recount t.listing) := by
  refine dbSettle_one hdirty (refuseUnlessFit_of fun u hu hlisting hdrawn => ?_)
  by_cases hut : u.id = t.id
  · have hids : UniqueIds (stored s t date stated id) :=
      Keyed.nodup_put hunique ((sellFrom t date stated).row id none)
    have hrow := hids.trade? hu
    rw [hut, h.stored_trade? ht] at hrow
    obtain rfl := Option.some.inj hrow
    unfold Ledger.covers at hcovers ⊢
    rw [soldUnits_recounted hs h hrecount]
    exact hcovers.1
  · exact hothers u hu hlisting hut hdrawn

end Settled

end Accepted

/-- In every state that accepted writes reach without rounding, no parcel is sold
past by any date; and a Sell of what the open parcels show of one at a date with
no later sale of it is accepted, leaves nothing and is costed as what was left. -/
theorem emptying_sell_accepted (D : DecimalRounding) (ws : List Write) (s : Ledger)
    (hrun : Ledger.empty.run D ws = .ok s) (hexact : Ledger.empty.roundsNowhere D ws = true)
    (t : Trade) (ht : s.trade? t.id = some t) (hacq : t.tradeType.isAcquisition = true) :
    NeverExceeded D s t ∧
      ∀ date stated id recount, SellsShown D s t date stated id →
        ((stored s t date stated id).covers D t).succeeds = true →
        Settles D s t date stated id recount →
        ∃ s', (s.writeSell D id (sellFrom t date stated) recount).answer = .ok s' ∧
          Emptied D s s' t date stated := by
  have hs := (Ledger.valid_empty D).run hrun hexact
  have hnone : UniqueIds Ledger.empty := List.nodup_nil
  have hunique := (WholeHolding.uniqueIds_kept D).run hnone hrun hexact
  refine ⟨neverExceeded hs ht hacq, fun date stated id recount h hcounts hsettles => ?_⟩
  have hcovers := covers_stored hs ht hacq h hcounts
  have hsell := upsertSellInTx_stored hs.rows ht hacq h hcovers
  have hemptied := emptied_stored hs h hcovers
  have hwrite : ∀ {s'}, ((stored s t date stated id).dbSettle D recount
      ((stored s t date stated id).dirty [t.listing])).answer = .ok s' →
        (s.writeSell D id (sellFrom t date stated) recount).answer = .ok s' := by
    intro s' hsettled
    unfold Ledger.writeSell
    rw [h.fresh]
    exact answer_bind.mpr ⟨(), rfl, answer_bind.mpr ⟨_, hsell.1, hsettled⟩⟩
  by_cases hdirty : s.dirty [t.listing] = []
  · refine ⟨_, hwrite ?_, hemptied⟩
    have hclean : (stored s t date stated id).dirty [t.listing] = [] := hdirty
    rw [hclean]
    rfl
  · obtain ⟨hrecount, hothers⟩ := hsettles hdirty
    exact ⟨_, hwrite (dbSettle_recounted hs.rows hunique ht h hcovers hrecount hothers hdirty),
      emptied_recounted hs.rows h hrecount hemptied⟩

/-! ### A Sell before a rounded split -/

section Examples
open RoundedCounts (Db Settled applyAll sellOps)

theorem event_injective :
    Function.Injective fun e : SplitEvent => (e.date, e.newUnits, e.oldUnits, e.terms) := by
  rintro ⟨date, new, old, terms, _, _⟩ ⟨date', new', old', terms', _, _⟩ h
  simpa using h

theorem count_injective : Function.Injective fun c : StoredCount => (c.before, c.after) := by
  rintro ⟨before, after, _, _⟩ ⟨before', after', _, _⟩ h
  simpa using h

instance : DecidableEq SplitEvent := event_injective.decidableEq

instance : DecidableEq StoredCount := count_injective.decidableEq

instance (b : Db) (s : Ledger) : Decidable (Holds b s) :=
  decidable_of_iff (_ ∧ _ ∧ _ ∧ _ ∧ _)
    ⟨fun ⟨h₁, h₂, h₃, h₄, h₅⟩ => ⟨h₁, h₂, h₃, h₄, h₅⟩,
      fun h => ⟨h.trades, h.allocations, h.actions, h.counts, h.scale⟩⟩

instance (D : DecimalRounding) (s : Ledger) (t : Trade) : Decidable (OthersCover D s t) :=
  inferInstanceAs (Decidable (∀ u ∈ s.trades, _ → _ → _ → _ = _))

theorem recounts_of {D : DecimalRounding} {b : Db} {s : Ledger} {p : Db → Bool} (t : Trade)
    (date settled : NaiveDate) (stated : Decimal) (id : TradeId) (hholds : Holds b s)
    (R : b.Rows) (S : Settled D b t.listing)
    (h : Checked.accepts (applyAll b (sellOps
      ⟨id, .sell, t.listing, date, settled, stated.value, t.account⟩ t.id stated)) (fun written =>
        Checked.accepts (RoundedCounts.recompute D written t.listing) p) = true) :
    ∃ recounted, Recounts D s t date stated id (fun _ action => storedCounts recounted action) ∧
      p recounted = true := by
  obtain ⟨written, hwritten, h⟩ := Checked.accepts_iff.mp h
  obtain ⟨recounted, hrecompute, hp⟩ := Checked.accepts_iff.mp h
  exact ⟨recounted, ⟨b, settled, written, recounted, hholds, R, S, hwritten, hrecompute, rfl⟩, hp⟩

theorem unit_pos : (0 : ℚ) < 1 := by norm_num

theorem two_pos : (0 : ℚ) < 2 := by norm_num

theorem three_pos : (0 : ℚ) < 3 := by norm_num

/-- Two lots in whole units, with every two shares three from March, rounded down
over both, and part of the first lot sold in June. -/
def roundedDb (first second : ℚ) (sold : Decimal) (after₁ after₂ : ℚ) : Db where
  trades := [⟨1, .buy, 1, ymd 2024 1 2, ymd 2024 1 4, first, 1⟩,
    ⟨2, .buy, 1, ymd 2024 1 3, ymd 2024 1 5, second, 1⟩,
    ⟨3, .sell, 1, ymd 2024 6 3, ymd 2024 6 5, sold.value, 1⟩]
  allocations := [⟨3, 1, sold⟩]
  accountScale := fun _ => some 0
  unitScales := fun _ _ => none
  overrides := fun _ _ => none
  actions := [⟨7, 1, ymd 2024 3 1, none, .shareSplit ⟨3, three_pos⟩ ⟨2, two_pos⟩, some .down⟩]
  counts := [⟨7, ⟨1, first, after₁, 0⟩⟩, ⟨7, ⟨2, second, after₂, 0⟩⟩]
  dirty := []

/-- Every two shares of a listing three from March. -/
def marchSplit (rounded : Bool) : CorporateAction where
  id := 7
  listing := 1
  date := ymd 2024 3 1
  rebase := some (.shareSplit (ymd 2024 3 1) 3 2 three_pos two_pos)
  rounded := rounded
  counts := []
  rebase_date := by
    rintro _ ⟨⟩
    rfl

/-- The writes that lead to it. -/
def roundedWrites (b : Db) (first second : ℚ) (sold : Decimal) : List Write :=
  let recount : Recount := fun _ action => storedCounts b action
  [.setUnitScale (fun _ _ => some 0) recount [],
    .writeTrade 1 ⟨ymd 2024 1 2, 1, 1, first⟩ recount,
    .writeTrade 2 ⟨ymd 2024 1 3, 1, 1, second⟩ recount,
    .writeAction (marchSplit true) true recount,
    .writeSell 3 ⟨ymd 2024 6 3, 1, 1, sold.value, [⟨1, sold⟩]⟩ recount]

/-- Four and five units, thirteen of 13.5 after the split, the first lot's six sold. -/
def nineUnits : Db := roundedDb 4 5 (.new 6 0) 6 7

def nineWrites : List Write := roundedWrites nineUnits 4 5 (.new 6 0)

def fiveUnits : Trade := ⟨2, .buy, ymd 2024 1 3, 1, 1, 5, none⟩

theorem nineUnits_rows : nineUnits.Rows :=
  ⟨by decide +kernel, by decide +kernel, by decide +kernel, by decide +kernel⟩

theorem nineUnits_settled : Settled halfEvenRounding nineUnits 1 :=
  ⟨nineUnits.counts, by decide +kernel, fun _ hr _ => hr, fun _ hr => hr⟩

theorem nineWrites_show :
    Checked.accepts (Ledger.empty.run halfEvenRounding nineWrites) (fun s => decide
      (s.trade? 2 = some fiveUnits ∧
        (remainingAsOf halfEvenRounding s fiveUnits (ymd 2024 2 1)).answer = .ok (some 5) ∧
        (remainingAsOf halfEvenRounding s fiveUnits (ymd 2024 2 1)).exact = true ∧
        s.parcelSales 2 = [] ∧ s.tooFine 1 1 5 = none ∧ s.trade? 4 = none ∧
        s.dirty [1] ≠ [] ∧ Holds nineUnits s ∧
        ((stored s fiveUnits (ymd 2024 2 1) (.new 5 0) 4).covers
          halfEvenRounding fiveUnits).succeeds = true) &&
      Checked.accepts (applyAll nineUnits (sellOps
        ⟨4, .sell, 1, ymd 2024 2 1, ymd 2024 2 5, (Decimal.new 5 0).value, 1⟩ 2 (.new 5 0)))
        (fun written => Checked.accepts (RoundedCounts.recompute halfEvenRounding written 1)
          (fun recounted => decide (OthersCover halfEvenRounding
            ((stored s fiveUnits (ymd 2024 2 1) (.new 5 0) 4).recompute
              (fun _ action => storedCounts recounted action) 1) fiveUnits)))) = true := by
  decide +kernel

/-- The five units of the second lot, sold before the split is counted again. -/
theorem emptying_sell_accepted_beforeSplit :
    ∃ s s' recount, Ledger.empty.run halfEvenRounding nineWrites = .ok s ∧ s.dirty [1] ≠ [] ∧
      (s.writeSell halfEvenRounding 4 (sellFrom fiveUnits (ymd 2024 2 1) (.new 5 0))
        recount).answer = .ok s' ∧
      Emptied halfEvenRounding s s' fiveUnits (ymd 2024 2 1) (.new 5 0) := by
  obtain ⟨s, hrun, hs⟩ := Checked.accepts_iff.mp nineWrites_show
  obtain ⟨hs, hrecount⟩ := (Bool.and_eq_true _ _).mp hs
  obtain ⟨ht, hanswer, hexact, hsales, hgrid, hfresh, hdirty, hholds, hcounts⟩ :=
    of_decide_eq_true hs
  obtain ⟨recounted, hrecounts, hothers⟩ :=
    recounts_of fiveUnits (ymd 2024 2 1) (ymd 2024 2 5) (.new 5 0) 4 hholds nineUnits_rows
      nineUnits_settled hrecount
  have hfive : (Decimal.new 5 0).value = 5 := by decide +kernel
  have hshown : SellsShown halfEvenRounding s fiveUnits (ymd 2024 2 1) (.new 5 0) 4 :=
    { acquired := by decide
      shown := ⟨hfive.symm ▸ hanswer, hexact⟩
      positive := by decide +kernel
      last := fun sale hsale => absurd (hsales ▸ hsale) List.not_mem_nil
      onGrid := hfive.symm ▸ hgrid
      fresh := hfresh }
  obtain ⟨s', hs', hemptied⟩ := (emptying_sell_accepted halfEvenRounding nineWrites s hrun
    (by decide +kernel) fiveUnits ht rfl).2 (ymd 2024 2 1) (.new 5 0) 4 _ hshown hcounts
      fun _ => ⟨hrecounts, of_decide_eq_true hothers⟩
  exact ⟨s, s', _, hrun, hdirty, hs', hemptied⟩

/-! ### Sells refused -/

/-- What the Sell accepted needs of the figure shown. -/
inductive Condition where
  | positive
  | last
  | onGrid
  | exact
  deriving DecidableEq

def Condition.Met (s : Ledger) (t : Trade) (date : NaiveDate) (stated : Decimal) (id : TradeId) :
    Condition → Prop
  | .positive => 0 < stated.value
  | .last => ∀ sale ∈ s.parcelSales t.id, sale.basis ≤ date
  | .onGrid => s.tooFine t.account t.listing stated.value = none
  | .exact => ((stored s t date stated id).covers halfEvenRounding t).succeeds = true

instance (s : Ledger) (t : Trade) (date : NaiveDate) (stated : Decimal) (id : TradeId) :
    DecidablePred (Condition.Met s t date stated id)
  | .positive => inferInstanceAs (Decidable (_ < _))
  | .last => inferInstanceAs (Decidable (∀ sale ∈ s.parcelSales t.id, _))
  | .onGrid => inferInstanceAs (Decidable (_ = none))
  | .exact => inferInstanceAs (Decidable (_ = true))

/-- Every Sell of what the open parcels show of a parcel that meets the conditions,
and whose recount is as `settles` says, is accepted. -/
def AllAccepted (conditions : List Condition)
    (settles : Ledger → Trade → NaiveDate → Decimal → TradeId → Recount → Prop) : Prop :=
  ∀ (ws : List Write) (s : Ledger), Ledger.empty.run halfEvenRounding ws = .ok s →
    Ledger.empty.roundsNowhere halfEvenRounding ws = true →
    ∀ t : Trade, s.trade? t.id = some t → t.tradeType.isAcquisition = true →
    ∀ (date : NaiveDate) (stated : Decimal) (id : TradeId) (recount : Recount), t.date ≤ date →
      (remainingAsOf halfEvenRounding s t date).Yields (some stated.value) → s.trade? id = none →
      (∀ c ∈ conditions, c.Met s t date stated id) → settles s t date stated id recount →
      ∃ s', (s.writeSell halfEvenRounding id (sellFrom t date stated) recount).answer = .ok s'

/-- The Sell meets the conditions. -/
def Shows (conditions : List Condition) (s : Ledger) (t : Trade) (date : NaiveDate)
    (stated : Decimal) (id : TradeId) : Prop :=
  s.trade? t.id = some t ∧ t.tradeType.isAcquisition = true ∧ t.date ≤ date ∧
    (remainingAsOf halfEvenRounding s t date).answer = .ok (some stated.value) ∧
    (remainingAsOf halfEvenRounding s t date).exact = true ∧ s.trade? id = none ∧
    ∀ c ∈ conditions, c.Met s t date stated id

instance (conditions : List Condition) (s : Ledger) (t : Trade) (date : NaiveDate)
    (stated : Decimal) (id : TradeId) : Decidable (Shows conditions s t date stated id) :=
  inferInstanceAs (Decidable (_ ∧ _ ∧ _ ∧ _ ∧ _ ∧ _ ∧ _))

theorem not_allAccepted {conditions : List Condition}
    {settles : Ledger → Trade → NaiveDate → Decimal → TradeId → Recount → Prop} {ws : List Write}
    {s : Ledger} {t : Trade} {date : NaiveDate} {stated : Decimal} {id : TradeId}
    {recount : Recount} (hrun : Ledger.empty.run halfEvenRounding ws = .ok s)
    (hexact : Ledger.empty.roundsNowhere halfEvenRounding ws = true)
    (hshows : Shows conditions s t date stated id) (hsettles : settles s t date stated id recount)
    (hrefused : Checked.accepts (s.writeSell halfEvenRounding id (sellFrom t date stated)
      recount).answer (fun _ => true) = false) : ¬ AllAccepted conditions settles := by
  obtain ⟨ht, hacq, hdate, hanswer, hrounds, hfresh, hmet⟩ := hshows
  intro h
  obtain ⟨s', hs'⟩ := h ws s hrun hexact t ht hacq date stated id recount hdate ⟨hanswer, hrounds⟩
    hfresh hmet hsettles
  rw [hs'] at hrefused
  cases hrefused

/-- Where no action is rounded, no recount is triggered. -/
theorem not_allAccepted_unrounded {conditions : List Condition} (ws : List Write) (t : Trade)
    (date : NaiveDate) (stated : Decimal) (id : TradeId)
    (h : Checked.accepts (Ledger.empty.run halfEvenRounding ws) (fun s => decide
      (Shows conditions s t date stated id ∧ s.dirty [t.listing] = []) &&
        !Checked.accepts (s.writeSell halfEvenRounding id (sellFrom t date stated)
          noCounts).answer fun _ => true) = true)
    (hexact : Ledger.empty.roundsNowhere halfEvenRounding ws = true) :
    ¬ AllAccepted conditions (Settles halfEvenRounding) := by
  obtain ⟨s, hrun, hs⟩ := Checked.accepts_iff.mp h
  obtain ⟨hs, hrefused⟩ := (Bool.and_eq_true _ _).mp hs
  obtain ⟨hshows, hdirty⟩ := of_decide_eq_true hs
  exact not_allAccepted hrun hexact hshows (fun hne => absurd hdirty hne)
    ((Bool.not_eq_true' _).mp hrefused)

def lotOf (quantity : ℚ) : Trade := ⟨1, .buy, ymd 2024 1 2, 1, 1, quantity, none⟩

/-- The lot bought in a holding of so many places, then the rest. -/
def lotThen (scale : Option ℕ) (quantity : ℚ) (rest : List Write) : List Write :=
  .setUnitScale (fun _ _ => scale) noCounts [] ::
    .writeTrade 1 ⟨ymd 2024 1 2, 1, 1, quantity⟩ noCounts :: rest

/-- 100 units, 60 of them sold in June. -/
def soldInJune : List Write :=
  lotThen none 100 [.writeSell 2 ⟨ymd 2024 6 3, 1, 1, 60, [⟨1, .new 60 0⟩]⟩ noCounts]

/-- Three shares one from March. -/
def marchConsolidation : CorporateAction where
  id := 7
  listing := 1
  date := ymd 2024 3 1
  rebase := some (.shareSplit (ymd 2024 3 1) 1 3 unit_pos three_pos)
  rounded := false
  counts := []
  rebase_date := by
    rintro _ ⟨⟩
    rfl

def smallest : ℚ := (Decimal.new 1 28).value

/-- Two single units, three after the split, the first lot's two sold. -/
def twoUnits : Db := roundedDb 1 1 (.new 2 0) 2 1

def twoWrites : List Write := roundedWrites twoUnits 1 1 (.new 2 0)

def oneUnit : Trade := ⟨2, .buy, ymd 2024 1 3, 1, 1, 1, none⟩

theorem twoUnits_rows : twoUnits.Rows :=
  ⟨by decide +kernel, by decide +kernel, by decide +kernel, by decide +kernel⟩

theorem twoUnits_settled : Settled halfEvenRounding twoUnits 1 :=
  ⟨twoUnits.counts, by decide +kernel, fun _ hr _ => hr, fun _ hr => hr⟩

/-- Sold before the split, the second unit leaves one and a half for the first lot,
whose two are sold. -/
theorem twoWrites_show :
    Checked.accepts (Ledger.empty.run halfEvenRounding twoWrites) (fun s => decide
      (Shows [.positive, .last, .onGrid, .exact] s oneUnit (ymd 2024 2 1) (.new 1 0) 4 ∧
        Holds twoUnits s) &&
      Checked.accepts (applyAll twoUnits (sellOps
        ⟨4, .sell, 1, ymd 2024 2 1, ymd 2024 2 5, (Decimal.new 1 0).value, 1⟩ 2 (.new 1 0)))
        (fun written => Checked.accepts (RoundedCounts.recompute halfEvenRounding written 1)
          (fun recounted => !Checked.accepts (s.writeSell halfEvenRounding 4
            (sellFrom oneUnit (ymd 2024 2 1) (.new 1 0))
              fun _ action => storedCounts recounted action).answer fun _ => true))) = true := by
  decide +kernel

theorem not_allAccepted_twoUnits :
    ¬ AllAccepted [.positive, .last, .onGrid, .exact] (Recounts halfEvenRounding) := by
  obtain ⟨s, hrun, hs⟩ := Checked.accepts_iff.mp twoWrites_show
  obtain ⟨hs, hrecount⟩ := (Bool.and_eq_true _ _).mp hs
  obtain ⟨hshows, hholds⟩ := of_decide_eq_true hs
  obtain ⟨recounted, hrecounts, hrefused⟩ :=
    recounts_of oneUnit (ymd 2024 2 1) (ymd 2024 2 5) (.new 1 0) 4 hholds twoUnits_rows
      twoUnits_settled hrecount
  exact not_allAccepted hrun (by decide +kernel) hshows hrecounts
    ((Bool.not_eq_true' _).mp hrefused)

/-- What the open parcels show is refused where a later sale is counted too, where it
is finer than the holding's units, where it prints as nothing, and where the recount
leaves another parcel short. -/
theorem shown_sell_refused :
    ¬ AllAccepted [.positive, .onGrid, .exact] (Settles halfEvenRounding) ∧
      ¬ AllAccepted [.positive, .last, .exact] (Settles halfEvenRounding) ∧
      ¬ AllAccepted [.last, .onGrid, .exact] (Settles halfEvenRounding) ∧
      ¬ AllAccepted [.positive, .last, .onGrid, .exact] (Recounts halfEvenRounding) := by
  refine ⟨?_, ?_, ?_, not_allAccepted_twoUnits⟩
  · exact not_allAccepted_unrounded soldInJune (lotOf 100) (ymd 2024 3 1) (.new 100 0) 3
      (by decide +kernel) (by decide +kernel)
  · exact not_allAccepted_unrounded
      (lotThen (some 0) 1 [.writeAction (marchSplit false) true noCounts]) (lotOf 1)
      (ymd 2024 6 3) (.new 15 1) 2 (by decide +kernel) (by decide +kernel)
  · exact not_allAccepted_unrounded
      (lotThen none smallest [.writeAction marchConsolidation true noCounts]) (lotOf smallest)
      (ymd 2024 6 3) (.new 0 0) 2 (by decide +kernel) (by decide +kernel)

end Examples

end ShareTracker.EmptyingSells
