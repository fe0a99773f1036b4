import ShareTracker.ActivityParcels
import ShareTracker.EmptyingSells
import ShareTracker.HeldViews

/-!
The activity ledger's balance beside the open parcels and the holding summary:
the last row by a date counts the units the parcels open on it print, where every
sale takes the units it states, every stored count starts from what is left, and
the parcels' figures add up to what their total prints as.
-/
namespace ShareTracker.Activity
open EmptyingSells (remainingAsOf neverExceeded)

/-! ### The holding summary -/

section Holdings
variable {κ : Type}

/-- One row of the portfolio overview, its units alone. -/
structure HoldingOverview where
  listing : ListingId
  account : HoldingAccountId
  quantity : ℚ

def holdingOf (o : OpenParcel κ) : ListingId ×ₗ HoldingAccountId :=
  toLex (o.parcel.listing, o.parcel.account)

/-- The order of the schedule: by holding, then as acquired. -/
def scheduleOrder (acquired : Trade → NaiveDate) (o : OpenParcel κ) :
    ListingId ×ₗ HoldingAccountId ×ₗ NaiveDate ×ₗ TradeId :=
  toLex (o.parcel.listing, toLex (o.parcel.account, toLex (acquired o.parcel, o.parcel.id)))

/-- The open parcels of each holding, in the order of the schedule. -/
def byHolding (acquired : Trade → NaiveDate) (opened : List (OpenParcel κ)) :
    List ((ListingId ×ₗ HoldingAccountId) × List (OpenParcel κ)) :=
  let sorted := StableSort.sortBy (scheduleOrder acquired) opened
  (StableSort.sortBy id (sorted.map holdingOf).dedup).map fun holding =>
    (holding, sorted.filter fun o => holdingOf o = holding)

/-- The sum of the parcels' figures as printed. -/
def holdingQuantity (D : DecimalRounding) (parcels : List (OpenParcel κ)) : Attempt Refusal ℚ :=
  D.sum (parcels.map OpenParcel.remainingAsOf)

/-- `db_holdings_on`: the holdings with any units. -/
def dbHoldingsOn (D : DecimalRounding) (acquired : Trade → NaiveDate)
    (opened : List (OpenParcel κ)) : Attempt Refusal (List HoldingOverview) := do
  let rows ← (byHolding acquired opened).mapM fun h => do
    return ⟨(ofLex h.1).1, (ofLex h.1).2, ← holdingQuantity D h.2⟩
  return rows.filter fun h => 0 < h.quantity

/-- The units open of a listing, as its parcels print them. -/
def openOf (opened : List (OpenParcel κ)) (listing : ListingId) : ℚ :=
  ((opened.filter fun o => o.parcel.listing = listing).map OpenParcel.remainingAsOf).sum

theorem openOf_cons (o : OpenParcel κ) (opened : List (OpenParcel κ)) (listing : ListingId) :
    openOf (o :: opened) listing =
      (if o.parcel.listing = listing then o.remainingAsOf else 0) + openOf opened listing := by
  by_cases hlisting : o.parcel.listing = listing <;> simp [openOf, hlisting]

/-- The holdings of a listing add up to its open parcels. -/
theorem sum_holdings {D : DecimalRounding} {acquired : Trade → NaiveDate}
    {opened : List (OpenParcel κ)} {holdings : List HoldingOverview} {listing : ListingId}
    (hopen : ∀ o ∈ opened, o.parcel.listing = listing → 0 ≤ o.remainingAsOf)
    (h : (dbHoldingsOn D acquired opened).Yields holdings) :
    ((holdings.filter fun r => r.listing = listing).map HoldingOverview.quantity).sum =
      openOf opened listing := by
  unfold dbHoldingsOn at h
  obtain ⟨rows, hrows, h⟩ := yields_bind.mp h
  obtain rfl := yields_pure.mp h
  set sorted := StableSort.sortBy (scheduleOrder acquired) opened with hsorted
  have hperm : sorted.Perm opened := StableSort.sortBy_perm _ _
  set keys := StableSort.sortBy id (sorted.map holdingOf).dedup with hkeys
  let row : ListingId ×ₗ HoldingAccountId → HoldingOverview := fun holding =>
    ⟨(ofLex holding).1, (ofLex holding).2,
      ((sorted.filter fun o => holdingOf o = holding).map OpenParcel.remainingAsOf).sum⟩
  have hall : rows = keys.map row := by
    have hmap : rows = (byHolding acquired opened).map fun h =>
        ⟨(ofLex h.1).1, (ofLex h.1).2, (h.2.map OpenParcel.remainingAsOf).sum⟩ := by
      refine Ledger.eq_map_of_forall₂ ((Attempt.yields_mapM hrows).imp fun g r hr => ?_)
      obtain ⟨quantity, hquantity, hr⟩ := yields_bind.mp hr
      rw [← yields_pure.mp hr, DecimalRounding.of_yields_sum hquantity]
    rw [hmap, byHolding, List.map_map]
    rfl
  have hunique : keys.Nodup :=
    (StableSort.sortBy_perm id _).nodup_iff.mpr (List.nodup_dedup _)
  have hnonneg : ∀ holding, (ofLex holding).1 = listing → 0 ≤ (row holding).quantity := by
    intro holding hlisting
    refine List.sum_nonneg fun x hx => ?_
    obtain ⟨o, ho, rfl⟩ := List.mem_map.mp hx
    obtain ⟨ho, hkey⟩ := List.mem_filter.mp ho
    refine hopen o (hperm.mem_iff.mp ho) (Eq.trans ?_ hlisting)
    rw [← of_decide_eq_true hkey]
    rfl
  have hterm : ∀ holding ∈ keys,
      (if decide ((row holding).listing = listing) && decide (0 < (row holding).quantity) then
        (row holding).quantity else 0) =
      (((sorted.filter fun o => o.parcel.listing = listing).filter fun o =>
        holdingOf o = holding).map OpenParcel.remainingAsOf).sum := by
    intro holding _
    by_cases hlisting : (ofLex holding).1 = listing
    · have hsame : (sorted.filter fun o => o.parcel.listing = listing).filter
          (fun o => holdingOf o = holding) = sorted.filter fun o => holdingOf o = holding := by
        rw [List.filter_filter]
        refine List.filter_congr fun o _ => ?_
        by_cases hkey : holdingOf o = holding
        · have ho : o.parcel.listing = listing := by
            rw [← hlisting, ← hkey]
            rfl
          simp [hkey, ho]
        · simp [hkey]
      rw [hsame]
      by_cases hpos : 0 < (row holding).quantity
      · rw [if_pos (by simp [row, hlisting, hpos])]
      · have hzero : (row holding).quantity = 0 :=
          le_antisymm (not_lt.mp hpos) (hnonneg holding hlisting)
        rw [if_neg (by simp [hpos])]
        exact hzero.symm
    · have hnone : (sorted.filter fun o => o.parcel.listing = listing).filter
          (fun o => holdingOf o = holding) = [] := by
        refine List.filter_eq_nil_iff.mpr fun o ho hkey => hlisting ?_
        rw [← of_decide_eq_true hkey]
        exact of_decide_eq_true (List.mem_filter.mp ho).2
      rw [hnone, if_neg (by simp [row, hlisting])]
      rfl
  have hkeyed : ∀ o ∈ sorted.filter (fun o => o.parcel.listing = listing), holdingOf o ∈ keys := by
    intro o ho
    exact StableSort.mem_sortBy.mpr
      (List.mem_dedup.mpr (List.mem_map_of_mem (List.mem_filter.mp ho).1))
  rw [hall, List.filter_map, List.filter_map, List.map_map, List.filter_filter, Tally.sum_filter]
  refine (congrArg List.sum (List.map_congr_left hterm)).trans ?_
  rw [← Tally.sum_by_key holdingOf _ hunique hkeyed, openOf]
  exact ((hperm.filter _).map _).sum_eq

end Holdings

/-! ### When they agree -/

section Conditions
variable (D : DecimalRounding)

/-- Whether every sale takes the units it states: one that prints as what is left
is just that, and any other reads back as what it states. -/
def takesStated (splits : List SplitEvent) (acquired : NaiveDate) : ℚ → List UnitsAt → Bool
  | _, [] => true
  | left, sale :: rest =>
    let factor := basisFactor splits acquired sale.basis
    let units := sale.quantity.value / factor
    (if 0 < left ∧ D.round (left * factor) = sale.quantity.value then decide (left = units)
      else decide (restated D sale.quantity factor = units)) &&
        takesStated splits acquired (left - units) rest

/-- The sales by a date out of each parcel of the listing take the units they state. -/
def SalesTakeStated (s : Ledger) (listing : ListingId) (date : NaiveDate) : Prop :=
  ∀ t ∈ s.parcelsOf listing, t.date ≤ date →
    takesStated D (s.splitsForParcel t.listing t.id) t.date t.quantity
      (StableSort.sortBy UnitsAt.basis (s.unitsSold date t.id)) = true

/-- What is left of the parcels prints as their total does. -/
def PrintsTogether (s : Ledger) (listing : ListingId) (date : NaiveDate) : Prop :=
  D.round ((s.parcelsOf listing).map fun t => unitsStated s t date).sum =
    ((s.parcelsOf listing).map fun t => D.round (unitsStated s t date)).sum

/-- The open parcels of the listing are read without rounding. -/
def ReadsExactly (s : Ledger) (listing : ListingId) (date : NaiveDate) : Prop :=
  ∀ t ∈ s.parcelsOf listing, t.date ≤ date → (remainingAsOf D s t date).succeeds = true

instance decidableSalesTakeStated (s : Ledger) (listing : ListingId) (date : NaiveDate) :
    Decidable (SalesTakeStated D s listing date) :=
  inferInstanceAs (Decidable (∀ t ∈ s.parcelsOf listing, t.date ≤ date → _))

instance decidablePrintsTogether (s : Ledger) (listing : ListingId) (date : NaiveDate) :
    Decidable (PrintsTogether D s listing date) := inferInstanceAs (Decidable (_ = _))

instance decidableReadsExactly (s : Ledger) (listing : ListingId) (date : NaiveDate) :
    Decidable (ReadsExactly D s listing date) :=
  inferInstanceAs (Decidable (∀ t ∈ s.parcelsOf listing, t.date ≤ date → _))

end Conditions

/-! ### The open parcels -/

section Open
variable {D : DecimalRounding} {s : Ledger} {listing : ListingId} {date : NaiveDate} {t : Trade}

theorem remaining_stated {splits : List SplitEvent} {acquired : NaiveDate} {left : ℚ}
    {sales : List UnitsAt} (h : takesStated D splits acquired left sales = true) :
    EmptyingWalk.remaining left (sales.map (saleDraw D splits acquired)) =
      left - (sales.map fun sale =>
        sale.quantity.value / basisFactor splits acquired sale.basis).sum := by
  induction sales generalizing left with
  | nil => simp [EmptyingWalk.remaining]
  | cons sale sales ih =>
    obtain ⟨hsale, hrest⟩ := (Bool.and_eq_true _ _).mp h
    have hunits : (saleDraw D splits acquired sale).units left =
        sale.quantity.value / basisFactor splits acquired sale.basis := by
      by_cases hall : 0 < left ∧
          D.round (left * basisFactor splits acquired sale.basis) = sale.quantity.value
      · rw [if_pos hall] at hsale
        rw [EmptyingWalk.Draw.units_of_prints hall.1 hall.2]
        exact of_decide_eq_true hsale
      · rw [if_neg hall] at hsale
        exact (if_neg hall).trans (of_decide_eq_true hsale)
    have hafter : EmptyingWalk.after left (saleDraw D splits acquired sale) =
        left - sale.quantity.value / basisFactor splits acquired sale.basis := by
      rw [EmptyingWalk.after, hunits]
    have hstep : EmptyingWalk.remaining left ((sale :: sales).map (saleDraw D splits acquired)) =
        EmptyingWalk.remaining (EmptyingWalk.after left (saleDraw D splits acquired sale))
          (sales.map (saleDraw D splits acquired)) := rfl
    rw [hstep, hafter, ih hrest, List.map_cons, List.sum_cons, sub_sub]

/-- The walk leaves of a parcel what its sales' stated units leave. -/
theorem left_stated (hdate : t.date ≤ date)
    (hstated : takesStated D (s.splitsForParcel t.listing t.id) t.date t.quantity
      (StableSort.sortBy UnitsAt.basis (s.unitsSold date t.id)) = true) :
    unitsLeft D (s.splitsForParcel t.listing t.id) t.date t.quantity (s.unitsSold date t.id) *
      basisFactor (s.splitsForParcel t.listing t.id) t.date date = unitsStated s t date := by
  have hsum := ((StableSort.sortBy_perm UnitsAt.basis (s.unitsSold date t.id)).map fun sale =>
    sale.quantity.value / basisFactor (s.splitsForParcel t.listing t.id) t.date sale.basis).sum_eq
  rw [unitsLeft, draws, remaining_stated hstated, hsum, unitsStated, if_pos hdate]

/-- One parcel as the schedule reads it: open with what it prints, or with nothing left. -/
theorem parcel_reads (hvalid : s.Valid D) (hnet : s.TransfersNet) (ht : t ∈ s.parcelsOf listing)
    (hdate : t.date ≤ date) (hstates : SalesTakeStated D s listing date)
    (hreads : ReadsExactly D s listing date) :
    ∃ sold remaining b,
      (D.soldInAcquiredUnits (s.splitsForParcel t.listing t.id) t.date (.new t.quantity)
        (s.unitsSold date t.id) : Attempt Refusal _).answer = .ok sold ∧
      (AcquiredUnits.sub D (.new t.quantity) sold : Attempt Refusal _).answer = .ok remaining ∧
      (AcquiredUnits.lt D .zero remaining : Attempt Refusal _).answer = .ok b ∧
      (b = true → (D.splitAdjustedQuantity remaining (s.splitsForParcel t.listing t.id) t.date date :
        Attempt Refusal _).answer = .ok (D.round (unitsStated s t date)) ∧
          0 < unitsStated s t date) ∧
      (b = false → unitsStated s t date = 0) := by
  obtain ⟨hmem, hacq, -⟩ := mem_parcelsOf.mp ht
  obtain ⟨shown, hshown⟩ := Attempt.succeeds_iff.mp (hreads t ht hdate)
  unfold remainingAsOf EmptyingSells.remainingAsAcquired EmptyingSells.soldBy at hshown
  obtain ⟨remaining, hremaining, hshown⟩ := yields_bind.mp hshown
  obtain ⟨sold, hsold, hremaining⟩ := yields_bind.mp hremaining
  obtain ⟨b, hopen, hshown⟩ := yields_bind.mp hshown
  obtain ⟨hsoldv, hsoldd⟩ := soldInAcquiredUnits_yields one_pos hsold
  obtain ⟨hvalue, hden⟩ := AcquiredUnits.sub_yields one_pos hsoldd hremaining
  have hleft : remaining.value = unitsLeft D (s.splitsForParcel t.listing t.id) t.date t.quantity
      (s.unitsSold date t.id) := by
    rw [hvalue, hsoldv, AcquiredUnits.new_value, sub_sub_cancel]
    rfl
  have hstated := left_stated hdate (hstates t ht hdate)
  have hb := AcquiredUnits.lt_yields one_pos hden hopen
  rw [AcquiredUnits.zero_value, hleft] at hb
  have hfactor := basisFactor_pos (s.splitsForParcel t.listing t.id) t.date date
  refine ⟨sold, remaining, b, hsold.1, hremaining.1, hopen.1, fun hpos => ?_, fun hnone => ?_⟩
  · rw [if_pos hpos] at hshown
    obtain ⟨figure, hfigure, -⟩ := yields_bind.mp hshown
    have hprinted := splitAdjustedQuantity_yields hfigure
    rw [hleft, hstated] at hprinted
    rw [← hprinted, ← hstated]
    exact ⟨hfigure.1, mul_pos (of_decide_eq_true (hb ▸ hpos)) hfactor⟩
  · have hnonneg := (neverExceeded hvalid (Ledger.trade?_of_mem hnet.unique hmem) hacq).left_nonneg
      date
    have hnot : ¬ 0 < unitsLeft D (s.splitsForParcel t.listing t.id) t.date t.quantity
        (s.unitsSold date t.id) := of_decide_eq_false (hb ▸ hnone)
    rw [← hstated, le_antisymm (not_lt.mp hnot) hnonneg, zero_mul]

/-- The open parcels of the listing print what is left of each. -/
theorem openAmong_prints {κ : Type} {costed : Trade → AcquiredUnits → Attempt Refusal κ}
    (hvalid : s.Valid D) (hnet : s.TransfersNet) (hstates : SalesTakeStated D s listing date)
    (hreads : ReadsExactly D s listing date) {ts : List Trade}
    (hts : ∀ t ∈ ts, t ∈ s.trades ∧ t.tradeType.isAcquisition = true ∧ t.date ≤ date)
    {opened : List (OpenParcel κ)} (h : (s.openAmong D costed date ts).answer = .ok opened) :
    (∀ o ∈ opened, o.parcel.listing = listing → 0 ≤ o.remainingAsOf) ∧ openOf opened listing =
      ((ts.filter fun t => t.listing = listing).map fun t => D.round (unitsStated s t date)).sum := by
  induction ts generalizing opened with
  | nil =>
    obtain rfl := answer_pure.mp h
    exact ⟨fun o ho => absurd ho List.not_mem_nil, rfl⟩
  | cons t ts ih =>
    have hrest : ∀ u ∈ ts, u ∈ s.trades ∧ u.tradeType.isAcquisition = true ∧ u.date ≤ date :=
      fun u hu => hts u (List.mem_cons_of_mem t hu)
    obtain ⟨hmem, hacq, hdate⟩ := hts t List.mem_cons_self
    unfold Ledger.openAmong at h
    obtain ⟨sold, hsold, h⟩ := answer_bind.mp h
    obtain ⟨remaining, hremaining, h⟩ := answer_bind.mp h
    obtain ⟨b, hb, h⟩ := answer_bind.mp h
    have hread : t.listing = listing →
        (b = true → (D.splitAdjustedQuantity remaining (s.splitsForParcel t.listing t.id) t.date
          date : Attempt Refusal _).answer = .ok (D.round (unitsStated s t date)) ∧
            0 < unitsStated s t date) ∧ (b = false → unitsStated s t date = 0) := by
      intro hlisting
      obtain ⟨sold', remaining', b', hsold', hremaining', hb', hpos, hnone⟩ :=
        parcel_reads hvalid hnet (mem_parcelsOf.mpr ⟨hmem, hacq, hlisting⟩) hdate hstates hreads
      obtain rfl := Except.ok.inj (hsold.symm.trans hsold')
      obtain rfl := Except.ok.inj (hremaining.symm.trans hremaining')
      obtain rfl := Except.ok.inj (hb.symm.trans hb')
      exact ⟨hpos, hnone⟩
    cases b with
    | true =>
      obtain ⟨cost, -, h⟩ := answer_bind.mp h
      obtain ⟨figure, hfigure, h⟩ := answer_bind.mp h
      obtain ⟨others, hothers, h⟩ := answer_bind.mp h
      obtain rfl := answer_pure.mp h
      obtain ⟨hnonneg, hsum⟩ := ih hrest hothers
      by_cases hlisting : t.listing = listing
      · obtain ⟨hprinted, hleft⟩ := (hread hlisting).1 rfl
        obtain rfl := Except.ok.inj (hfigure.symm.trans hprinted)
        refine ⟨fun o ho hlo => ?_, ?_⟩
        · rcases List.mem_cons.mp ho with rfl | ho
          · exact D.round_nonneg hleft.le
          · exact hnonneg o ho hlo
        · rw [openOf_cons, if_pos hlisting, hsum, List.filter_cons,
            if_pos (decide_eq_true hlisting), List.map_cons, List.sum_cons]
      · refine ⟨fun o ho hlo => ?_, ?_⟩
        · rcases List.mem_cons.mp ho with rfl | ho
          · exact absurd hlo hlisting
          · exact hnonneg o ho hlo
        · rw [openOf_cons, if_neg hlisting, zero_add, hsum, List.filter_cons,
            if_neg (by simpa using hlisting)]
    | false =>
      obtain ⟨hnonneg, hsum⟩ := ih hrest h
      refine ⟨hnonneg, ?_⟩
      by_cases hlisting : t.listing = listing
      · rw [hsum, List.filter_cons, if_pos (decide_eq_true hlisting), List.map_cons,
          List.sum_cons, (hread hlisting).2 rfl, D.round_zero, zero_add]
      · rw [hsum, List.filter_cons, if_neg (by simpa using hlisting)]

theorem openParcels_prints {κ : Type} {costed : Trade → AcquiredUnits → Attempt Refusal κ}
    (hvalid : s.Valid D) (hnet : s.TransfersNet) (hstates : SalesTakeStated D s listing date)
    (hreads : ReadsExactly D s listing date) {opened : List (OpenParcel κ)}
    (h : (s.openParcels D costed date).answer = .ok opened) :
    (∀ o ∈ opened, o.parcel.listing = listing → 0 ≤ o.remainingAsOf) ∧ openOf opened listing =
      ((s.parcelsOf listing).map fun t => D.round (unitsStated s t date)).sum := by
  have hperm := StableSort.sortBy_perm Trade.id
    (s.trades.filter fun t => t.tradeType.isAcquisition && decide (t.date ≤ date))
  have hts : ∀ t ∈ StableSort.sortBy Trade.id
      (s.trades.filter fun t => t.tradeType.isAcquisition && decide (t.date ≤ date)),
      t ∈ s.trades ∧ t.tradeType.isAcquisition = true ∧ t.date ≤ date := by
    intro t ht
    obtain ⟨hmem, hkept⟩ := List.mem_filter.mp (StableSort.mem_sortBy.mp ht)
    obtain ⟨hacq, hdate⟩ := (Bool.and_eq_true _ _).mp hkept
    exact ⟨hmem, hacq, of_decide_eq_true hdate⟩
  obtain ⟨hnonneg, hsum⟩ := openAmong_prints hvalid hnet hstates hreads hts h
  refine ⟨hnonneg, hsum.trans ?_⟩
  have hsorted := ((hperm.filter fun t => t.listing = listing).map fun t =>
    D.round (unitsStated s t date)).sum_eq
  rw [hsorted, List.filter_filter, Tally.sum_filter, Ledger.parcelsOf, Tally.sum_filter]
  refine congrArg List.sum (List.map_congr_left fun t _ => ?_)
  by_cases hdate : t.date ≤ date
  · simp [hdate, Bool.and_comm]
  · -- a parcel acquired later has nothing yet
    have hzero : unitsStated s t date = 0 := if_neg hdate
    simp [hzero, D.round_zero]

end Open

/-- In every state that accepted writes reach without rounding, the last row of a
listing's activity ledger by a date counts what the open parcels of the date add
up to, and the final balance what the holding summary does: every stored count
starts from what is left, every sale takes the units it states, and the parcels
print as their total does. -/
theorem balance_is_held {κ : Type} (D : DecimalRounding)
    (costed : Trade → AcquiredUnits → Attempt Refusal κ) (acquired : Trade → NaiveDate)
    (ws : List Write) (s : Ledger) (hrun : Ledger.empty.run D ws = .ok s)
    (hexact : Ledger.empty.roundsNowhere D ws = true) (hlabels : ∀ w ∈ ws, w.labelled = true)
    (listing : ListingId) (notes : List Note) (events : List ActivityEvent)
    (hevents : (activity D s listing notes : Attempt Refusal _).Yields events)
    (hcounts : CountsEnter s listing) (date : NaiveDate)
    (hstates : SalesTakeStated D s listing date) (hprints : PrintsTogether D s listing date)
    (hreads : ReadsExactly D s listing date) (opened : List (OpenParcel κ))
    (hopened : (s.openParcels D costed date).answer = .ok opened) :
    (∀ pre row post, events = pre ++ row :: post → row.date ≤ date →
      (∀ later ∈ post, date < later.date) → row.unitsAfter = openOf opened listing) ∧
    ∀ holdings, (dbHoldingsOn D acquired opened).Yields holdings →
      (∀ row ∈ events, row.date ≤ date) → ∀ row ∈ events.getLast?,
        row.unitsAfter =
          ((holdings.filter fun h => h.listing = listing).map HoldingOverview.quantity).sum := by
  obtain ⟨hvalid, hnet⟩ :=
    Ledger.transfersNet_empty.run (Ledger.valid_empty D) hlabels hrun hexact
  have hnone : UniqueActions Ledger.empty := List.nodup_nil
  have hunique := (uniqueActions_kept D).run hnone hrun hexact
  obtain ⟨hnonneg, hopen⟩ := openParcels_prints hvalid hnet hstates hreads hopened
  have hlast : ∀ pre row post, events = pre ++ row :: post → row.date ≤ date →
      (∀ later ∈ post, date < later.date) → row.unitsAfter = openOf opened listing := by
    intro pre row post hsplit hby hlater
    rw [last_by hevents hsplit hby hlater, run_without_transfers hnet date,
      run_stated hvalid hnet hunique hcounts date, hopen]
    exact hprints
  refine ⟨hlast, fun holdings hholdings hby row hrow => ?_⟩
  rw [sum_holdings hnonneg hholdings]
  obtain ⟨pre, rfl⟩ := List.getLast?_eq_some_iff.mp hrow
  exact hlast pre row [] rfl (hby row (List.mem_append_right _ List.mem_cons_self))
    fun later hlater => absurd hlater List.not_mem_nil

/-- 100 units, split 3-for-1, 30 sold after it, 90 moved to another account. -/
def splitSoldMoved : List Write := [
  .writeTrade 1 ⟨ymd 2024 1 2, 1, 1, 100⟩ Ledger.noCounts,
  .writeAction (Ledger.splitAction 7 1 (ymd 2024 3 1) 3 1 Ledger.tripled_pos SplitRatio.unit_pos) true
    Ledger.noCounts,
  .writeSell 2 ⟨ymd 2024 4 3, 1, 1, 30, [⟨1, .new 30 0⟩]⟩ Ledger.noCounts,
  .writeTransfer ⟨1, 3, fun _ => 4, 5⟩
    ⟨1, ymd 2024 5 1, 1, 2, [⟨1, .new 90 0⟩], []⟩ Ledger.noCounts]

theorem balance_is_held_moved : ∃ s events opened holdings,
    Ledger.empty.run halfEvenRounding splitSoldMoved = .ok s ∧
    (activity halfEvenRounding s 1 [] : Attempt Refusal _).Yields events ∧
    (s.openParcels halfEvenRounding (fun _ _ => pure ()) (ymd 2024 6 3) :
      Attempt Refusal (List (OpenParcel Unit))).answer = .ok opened ∧
    (dbHoldingsOn halfEvenRounding Trade.date opened).Yields holdings ∧
    ∀ row ∈ events.getLast?, row.unitsAfter =
      ((holdings.filter fun h => h.listing = 1).map HoldingOverview.quantity).sum := by
  have hrun : Checked.accepts (Ledger.empty.run halfEvenRounding splitSoldMoved) (fun s =>
      ((decide (CountsEnter s 1) &&
        decide (SalesTakeStated halfEvenRounding s 1 (ymd 2024 6 3))) &&
        (decide (PrintsTogether halfEvenRounding s 1 (ymd 2024 6 3)) &&
          decide (ReadsExactly halfEvenRounding s 1 (ymd 2024 6 3)))) &&
        ((activity halfEvenRounding s 1 [] >>= fun events =>
            Attempt.refuseIf (¬ ∀ row ∈ events, row.date ≤ ymd 2024 6 3) Refusal.notFound).succeeds &&
          Checked.accepts (s.openParcels halfEvenRounding
            (fun _ _ => (pure () : Attempt Refusal Unit)) (ymd 2024 6 3)).answer fun opened =>
              (dbHoldingsOn halfEvenRounding Trade.date opened).succeeds)) = true := by
    decide +kernel
  obtain ⟨s, hs, hall⟩ := Checked.accepts_iff.mp hrun
  simp only [Bool.and_eq_true, decide_eq_true_eq] at hall
  obtain ⟨⟨⟨hcounts, hstates⟩, hprints, hreads⟩, hactivity, hopen⟩ := hall
  obtain ⟨u, hactivity⟩ := Attempt.succeeds_iff.mp hactivity
  obtain ⟨events, hevents, hdates⟩ := yields_bind.mp hactivity
  obtain ⟨opened, hopened, hholdings⟩ := Checked.accepts_iff.mp hopen
  obtain ⟨holdings, hholdings⟩ := Attempt.succeeds_iff.mp hholdings
  have hby : ∀ row ∈ events, row.date ≤ ymd 2024 6 3 := not_not.mp (yields_refuseIf.mp hdates)
  exact ⟨s, events, opened, holdings, hs, hevents, hopened, hholdings,
    (balance_is_held halfEvenRounding (fun _ _ => pure ()) Trade.date splitSoldMoved s hs
      (by decide +kernel) (by decide +kernel) 1 [] events hevents hcounts (ymd 2024 6 3) hstates hprints
      hreads opened hopened).2 holdings hholdings hby⟩

end ShareTracker.Activity
