import ShareTracker.SaleReadings
import ShareTracker.LedgerInvariant
import ShareTracker.Lib.Keyed

/-!
What is held at a date, read twice: from the parcels open after the walk over
each one's sales, and from the timeline price collection and the health report
ask, where every sale is read on its own.
-/
namespace ShareTracker

/-- A parcel's part of its listing's holding, its sales in as-acquired units. -/
structure ParcelHolding where
  holdingAccountId : HoldingAccountId
  tradeId : TradeId
  acquired : NaiveDate
  qty : AcquiredUnits
  sales : List (NaiveDate × AcquiredUnits)
  deriving DecidableEq

structure HeldTimeline where
  parcels : List (ListingId × ParcelHolding)
  splits : ListingId → TradeId → List SplitEvent

/-- One open parcel of the schedule, in the unit basis of its date. -/
structure OpenParcel (κ : Type) where
  parcel : Trade
  remainingAsOf : ℚ
  costBase : κ

section Definitions
variable {ε : Type} [Panics ε] (D : DecimalRounding)

def AcquiredUnits.max (u v : AcquiredUnits) : Attempt ε AcquiredUnits := do
  if ← AcquiredUnits.lt D u v then return v else return u

/-- Units of the parcel still held on `date`, never below nil. -/
def ParcelHolding.remainingOn (p : ParcelHolding) (date : NaiveDate) :
    Attempt ε AcquiredUnits := do
  if date < p.acquired then return .zero
  let sold ← AcquiredUnits.sum D ((p.sales.filter fun s => s.1 ≤ date).map Prod.snd)
  AcquiredUnits.max D (← AcquiredUnits.sub D p.qty sold) .zero

def ParcelHolding.heldOn (p : ParcelHolding) (date : NaiveDate) : Attempt ε Bool := do
  AcquiredUnits.lt D .zero (← p.remainingOn D date)

/-- The sales out of a parcel, each read in its as-acquired units. -/
def Ledger.readSales (s : Ledger) (t : Trade) : Attempt ε (List (NaiveDate × AcquiredUnits)) :=
  (s.parcelSales t.id).mapM fun sold => do
    return (sold.basis, ← (D.asAcquiredQuantity sold (s.splitsForParcel t.listing t.id) t.date).asPrinted)

def Ledger.parcelHolding (s : Ledger) (t : Trade) : Attempt ε (ListingId × ParcelHolding) := do
  let sales ← s.readSales D t
  return (t.listing, ⟨t.account, t.id, t.date, .new t.quantity, sales⟩)

namespace HeldTimeline

/-- `HeldTimeline::load`. -/
def load (s : Ledger) : Attempt ε HeldTimeline := do
  let parcels ← (s.trades.filter fun t => t.tradeType.isAcquisition).mapM (s.parcelHolding D)
  return ⟨parcels, s.splitsForParcel⟩

def parcelsOf (timeline : HeldTimeline) (listing : ListingId) : List ParcelHolding :=
  (timeline.parcels.filter fun p => p.1 = listing).map Prod.snd

/-- Whether any of the parcels is held, asked one at a time. -/
def anyHeld (date : NaiveDate) : List ParcelHolding → Attempt ε Bool
  | [] => pure false
  | p :: rest => do if ← p.heldOn D date then return true else anyHeld date rest

def heldAmong (timeline : HeldTimeline) (date : NaiveDate) :
    List ListingId → Attempt ε (List ListingId)
  | [] => pure []
  | listing :: rest => do
      let held ← anyHeld D date (timeline.parcelsOf listing)
      let others ← heldAmong timeline date rest
      return if held then listing :: others else others

/-- Listings with a non-zero holding as at `date`, ascending. -/
def heldListingIds (timeline : HeldTimeline) (date : NaiveDate) : Attempt ε (List ListingId) := do
  let ids ← timeline.heldAmong D date (timeline.parcels.map Prod.fst).dedup
  return StableSort.sortBy id ids

/-- The units so far in each account, with `units` more in one of them. -/
def addUnits (byAccount : List (HoldingAccountId × ℚ)) (account : HoldingAccountId) (units : ℚ) :
    Attempt ε (List (HoldingAccountId × ℚ)) := do
  let total ← D.op (((Keyed.get? Prod.fst byAccount account).map Prod.snd).getD 0 + units)
  return Keyed.put Prod.fst byAccount (account, total)

def addParcel (timeline : HeldTimeline) (listing : ListingId) (heldOn unitBasisAt : NaiveDate)
    (byAccount : List (HoldingAccountId × ℚ)) (p : ParcelHolding) :
    Attempt ε (List (HoldingAccountId × ℚ)) := do
  let remaining ← p.remainingOn D heldOn
  if ← AcquiredUnits.lt D .zero remaining then
    let units ← (D.splitAdjustedQuantity remaining (timeline.splits listing p.tradeId) p.acquired
      unitBasisAt).asPrinted
    addUnits D byAccount p.holdingAccountId units
  else return byAccount

/-- Units of a listing in each account at the close of `heldOn`, in the basis
at `unitBasisAt`; an account holding nothing is left out. -/
def unitsByAccountOn (timeline : HeldTimeline) (listing : ListingId)
    (heldOn unitBasisAt : NaiveDate) : Attempt ε (List (HoldingAccountId × ℚ)) := do
  let byAccount ← (timeline.parcelsOf listing).foldlM
    (timeline.addParcel D listing heldOn unitBasisAt) []
  return StableSort.sortBy Prod.fst (byAccount.filter fun entry => 0 < entry.2)

end HeldTimeline

namespace Ledger

/-- The units sold out of a parcel on or before `asOf`. -/
def unitsSold (s : Ledger) (asOf : NaiveDate) (parcel : TradeId) : List UnitsAt :=
  (s.parcelSales parcel).filter fun sale => sale.basis ≤ asOf

variable {κ : Type} (costed : Trade → AcquiredUnits → Attempt ε κ)

/-- The open parcels among `ts`, each costed by the pipeline. -/
def openAmong (s : Ledger) (asOf : NaiveDate) : List Trade → Attempt ε (List (OpenParcel κ))
  | [] => pure []
  | t :: rest => do
      let splits := s.splitsForParcel t.listing t.id
      let sold ← D.soldInAcquiredUnits splits t.date (.new t.quantity) (s.unitsSold asOf t.id)
      let remaining ← AcquiredUnits.sub D (.new t.quantity) sold
      if ← AcquiredUnits.lt D .zero remaining then
        let costBase ← costed t remaining
        let remainingAsOf ← D.splitAdjustedQuantity remaining splits t.date asOf
        return ⟨t, remainingAsOf, costBase⟩ :: (← openAmong s asOf rest)
      else openAmong s asOf rest

/-- `open_parcels::load`: the parcels with units still open as at `asOf`. -/
def openParcels (s : Ledger) (asOf : NaiveDate) : Attempt ε (List (OpenParcel κ)) :=
  s.openAmong D costed asOf (StableSort.sortBy Trade.id
    (s.trades.filter fun t => t.tradeType.isAcquisition && decide (t.date ≤ asOf)))

end Ledger

/-- Each account once. -/
theorem HeldTimeline.unitsByAccountOn_nodup {D : DecimalRounding} {timeline : HeldTimeline}
    {listing : ListingId} {heldOn unitBasisAt : NaiveDate} {units : List (HoldingAccountId × ℚ)}
    (h : (timeline.unitsByAccountOn D listing heldOn unitBasisAt : Attempt ε _).answer = .ok units) :
    (units.map Prod.fst).Nodup := by
  unfold unitsByAccountOn at h
  obtain ⟨byAccount, hfold, h⟩ := answer_bind.mp h
  obtain rfl := answer_pure.mp h
  have keeps : ∀ l : List (HoldingAccountId × ℚ), (l.map Prod.fst).Nodup →
      ∀ p ∈ timeline.parcelsOf listing, ∀ l',
        (timeline.addParcel D listing heldOn unitBasisAt l p : Attempt ε _).answer = .ok l' →
          (l'.map Prod.fst).Nodup := by
    intro l hl p _ l' hstep
    unfold addParcel at hstep
    obtain ⟨remaining, -, hstep⟩ := answer_bind.mp hstep
    obtain ⟨held, -, hstep⟩ := answer_bind.mp hstep
    split at hstep
    · obtain ⟨counted, -, hstep⟩ := answer_bind.mp hstep
      unfold addUnits at hstep
      obtain ⟨total, -, hstep⟩ := answer_bind.mp hstep
      obtain rfl := answer_pure.mp hstep
      exact Keyed.nodup_put hl _
    · exact answer_pure.mp hstep ▸ hl
  have hempty : (([] : List (HoldingAccountId × ℚ)).map Prod.fst).Nodup := List.nodup_nil
  have hkeys : (byAccount.map Prod.fst).Nodup := Attempt.answer_foldlM keeps hempty hfold
  have hperm := StableSort.sortBy_perm Prod.fst (byAccount.filter fun entry => 0 < entry.2)
  exact (hperm.map Prod.fst).nodup_iff.mpr (Keyed.nodup_filter hkeys _)

end Definitions

/-! ### Views -/

/-- A part of what is held at a date: units in one account of a listing. -/
structure Position where
  listing : ListingId
  account : HoldingAccountId
  units : ℚ

def OpenParcel.position {κ : Type} (o : OpenParcel κ) : Position :=
  ⟨o.parcel.listing, o.parcel.account, o.remainingAsOf⟩

/-- The units a view counts in one account of a listing. -/
def unitsOf (view : List Position) (listing : ListingId) (account : HoldingAccountId) : ℚ :=
  ((view.filter fun p => p.listing = listing && p.account = account).map Position.units).sum

theorem unitsOf_perm {view view' : List Position} (h : view.Perm view') (listing : ListingId)
    (account : HoldingAccountId) : unitsOf view listing account = unitsOf view' listing account :=
  ((h.filter _).map _).sum_eq

/-! ### One parcel -/

namespace Ledger

variable (D : DecimalRounding) (s : Ledger) (date : NaiveDate) (t : Trade)

/-- What a sale of a parcel reads back as, on its own. -/
def readCount (sale : UnitsAt) : AcquiredUnits :=
  D.readCount (s.splitsForParcel t.listing t.id) t.date sale

/-- The units left of a parcel at a date, its sales read one by one. -/
def unitsRead : ℚ :=
  t.quantity - ((s.unitsSold date t.id).map fun sale => (s.readCount D t sale).value).sum

/-- The same units as the arithmetic counts them. -/
def leftRead : AcquiredUnits :=
  Attempt.answerD (ε := Refusal) (do
    AcquiredUnits.sub D (.new t.quantity)
      (← AcquiredUnits.sum D ((s.unitsSold date t.id).map (s.readCount D t)))) .zero

/-- What the units left of a parcel at a date print as. -/
def leftPrinted : ℚ :=
  D.printedOn (s.splitsForParcel t.listing t.id) t.date date (s.leftRead D date t)

def heldAt : Bool := decide (t.date ≤ date) && decide (0 < s.unitsRead D date t)

/-- The units the walk leaves open of a parcel, counting as exact what is exact
but for the figures read and printed. -/
def openCount : Attempt Refusal AcquiredUnits := do
  let order := StableSort.sortBy (fun sale => sale.1.basis) (s.unitsSold date t.id).zipIdx
  let drawn ← D.walkCounts (s.splitsForParcel t.listing t.id) t.date (.new t.quantity) .zero order
  let sold ← AcquiredUnits.sum D ((StableSort.sortBy Prod.fst drawn).map Prod.snd)
  let left ← AcquiredUnits.sub D (.new t.quantity) sold
  let _ ← AcquiredUnits.lt D .zero left
  return left

variable {D s date t}

theorem readCount_of_openCount {left : AcquiredUnits}
    (hq : ∀ sale ∈ s.unitsSold date t.id, 0 ≤ sale.quantity.value)
    (h : (s.openCount D date t).Yields left) :
    ∀ sale ∈ s.unitsSold date t.id,
      0 ≤ (s.readCount D t sale).value ∧ 0 < (s.readCount D t sale).den := by
  unfold openCount at h
  obtain ⟨drawn, hdrawn, -⟩ := yields_bind.mp h
  intro sale hsale
  obtain ⟨i, hi⟩ : ∃ i, (sale, i) ∈ (s.unitsSold date t.id).zipIdx := by
    obtain ⟨i, hlt, rfl⟩ := List.mem_iff_getElem.mp hsale
    exact ⟨i, List.mem_zipIdx_iff_getElem?.mpr (List.getElem?_eq_getElem hlt)⟩
  have hterms := DecimalRounding.walkCounts_terms hdrawn (sale, i) (StableSort.mem_sortBy.mpr hi)
  have hcount := DecimalRounding.readCount_nonneg (hq sale hsale) hterms
  exact hcount

/-- Where no sale of all that is left reads back as less, the walk leaves open
what the sales read one by one leave. -/
theorem openCount_yields {left : AcquiredUnits}
    (hq : ∀ sale ∈ s.unitsSold date t.id, 0 ≤ sale.quantity.value)
    (hback : D.ReadsBackFrom (s.splitsForParcel t.listing t.id) t.date (.new t.quantity) .zero
      (StableSort.sortBy UnitsAt.basis (s.unitsSold date t.id)))
    (h : (s.openCount D date t).Yields left) :
    (∃ sold, (D.soldInAcquiredUnits (s.splitsForParcel t.listing t.id) t.date (.new t.quantity)
        (s.unitsSold date t.id) : Attempt Refusal _).answer = .ok sold ∧
      (AcquiredUnits.sub D (.new t.quantity) sold : Attempt Refusal _).answer = .ok left) ∧
    (AcquiredUnits.lt D .zero left : Attempt Refusal _).answer = .ok (decide (0 < left.value)) ∧
    (0 < left.value ↔ 0 < s.unitsRead D date t) ∧
    (0 < left.value → left = s.leftRead D date t) := by
  have hreads := readCount_of_openCount hq h
  unfold openCount at h
  obtain ⟨drawn, hdrawn, h⟩ := yields_bind.mp h
  obtain ⟨sold, hsold, h⟩ := yields_bind.mp h
  obtain ⟨left', hleft, h⟩ := yields_bind.mp h
  obtain ⟨b, hopen, h⟩ := yields_bind.mp h
  obtain rfl := yields_pure.mp h
  have horder := StableSort.sortBy_perm (fun sale : UnitsAt × ℕ => sale.1.basis)
    (s.unitsSold date t.id).zipIdx
  have hqorder : ∀ sale ∈ StableSort.sortBy (fun sale : UnitsAt × ℕ => sale.1.basis)
      (s.unitsSold date t.id).zipIdx, 0 ≤ sale.1.quantity.value := by
    intro sale hsale
    exact hq _ (List.fst_mem_of_mem_zipIdx (StableSort.mem_sortBy.mp hsale))
  have hfirsts : (StableSort.sortBy (fun sale : UnitsAt × ℕ => sale.1.basis)
      (s.unitsSold date t.id).zipIdx).map Prod.fst =
        StableSort.sortBy UnitsAt.basis (s.unitsSold date t.id) := by
    rw [StableSort.map_sortBy Prod.fst (fun _ => rfl), List.zipIdx_map_fst]
  rw [← hfirsts] at hback
  obtain ⟨hwalk, -, hcounts⟩ := DecimalRounding.walkCounts_walk one_pos one_pos hqorder hdrawn
  have hdens : ∀ u ∈ (StableSort.sortBy Prod.fst drawn).map Prod.snd, 0 < u.den := by
    intro u hu
    obtain ⟨d, hd, rfl⟩ := List.mem_map.mp hu
    exact (hcounts d (StableSort.mem_sortBy.mp hd)).2
  obtain ⟨hsoldv, hsoldd⟩ := AcquiredUnits.sum_yields hdens hsold
  obtain ⟨hleftv, hleftd⟩ := AcquiredUnits.sub_yields one_pos hsoldd hleft
  have hb := AcquiredUnits.lt_yields one_pos hleftd hopen
  rw [AcquiredUnits.zero_value] at hb
  refine ⟨⟨sold, ?_, hleft.1⟩, hb ▸ hopen.1, ?_⟩
  · unfold DecimalRounding.soldInAcquiredUnits DecimalRounding.acquiredUnitsOfSales
    exact answer_bind.mpr ⟨_, answer_bind.mpr ⟨drawn, hwalk, rfl⟩, hsold.1⟩
  rcases DecimalRounding.walkCounts_reads one_pos one_pos hqorder hback hdrawn with
    hsame | ⟨hwalked, hread⟩
  · have hcount : (StableSort.sortBy Prod.fst drawn).map Prod.snd =
        (s.unitsSold date t.id).map (s.readCount D t) := by
      rw [hsame]
      exact StableSort.sortBy_indexed _ horder
    rw [hcount] at hsold hsoldv
    have hunits : s.unitsRead D date t = left'.value := by
      rw [hleftv, hsoldv, List.map_map, AcquiredUnits.new_value]
      rfl
    have hleftRead : s.leftRead D date t = left' :=
      Attempt.answerD_eq (answer_bind.mpr ⟨sold, hsold.1, hleft.1⟩) _
    exact ⟨by rw [hunits], fun _ => hleftRead.symm⟩
  · have hdrawnSum : ((StableSort.sortBy Prod.fst drawn).map fun d => d.2.value).sum =
        (drawn.map fun d => d.2.value).sum :=
      ((StableSort.sortBy_perm Prod.fst drawn).map _).sum_eq
    rw [List.map_map] at hsoldv
    have hsoldv : sold.value = (drawn.map fun d => d.2.value).sum := hsoldv.trans hdrawnSum
    have hreadSum := (horder.map fun sale => (s.readCount D t sale.1).value).sum_eq
    have hzip : (s.unitsSold date t.id).zipIdx.map (fun sale => (s.readCount D t sale.1).value) =
        (s.unitsSold date t.id).map fun sale => (s.readCount D t sale).value := by
      conv_rhs => rw [← List.zipIdx_map_fst (l := s.unitsSold date t.id) 0, List.map_map]
      rfl
    rw [AcquiredUnits.new_value, AcquiredUnits.zero_value, sub_zero] at hwalked hread
    have hleftNeg : left'.value ≤ 0 := by
      rw [hleftv, hsoldv, AcquiredUnits.new_value]
      exact sub_nonpos.mpr hwalked
    have hreadNeg : s.unitsRead D date t ≤ 0 := by
      rw [unitsRead, ← hzip, ← hreadSum]
      exact sub_nonpos.mpr hread
    exact ⟨iff_of_false hleftNeg.not_gt hreadNeg.not_gt, fun hpos => absurd hpos hleftNeg.not_gt⟩

/-! The schedule -/

/-- The condition on a parcel's sales at a date: none of all that is left reads
back as less. -/
def ReadsBack (D : DecimalRounding) (s : Ledger) (date : NaiveDate) : Prop :=
  ∀ t ∈ s.trades, t.tradeType.isAcquisition = true → t.date ≤ date →
    D.ReadsBackFrom (s.splitsForParcel t.listing t.id) t.date (.new t.quantity) .zero
      (StableSort.sortBy UnitsAt.basis (s.unitsSold date t.id))

/-- The counts of every parcel's sales add up exactly. -/
def CountsExact (D : DecimalRounding) (s : Ledger) (date : NaiveDate) : Prop :=
  ∀ t ∈ s.trades, t.tradeType.isAcquisition = true → t.date ≤ date →
    (s.openCount D date t).succeeds = true

/-- No units left of a parcel at a date are too few to print. -/
def PrintsOpen (D : DecimalRounding) (s : Ledger) (date : NaiveDate) : Prop :=
  ∀ t ∈ s.trades, t.tradeType.isAcquisition = true → s.heldAt D date t = true →
    0 < s.leftPrinted D date t

instance decidableReadsBack (D : DecimalRounding) (s : Ledger) (date : NaiveDate) :
    Decidable (s.ReadsBack D date) :=
  inferInstanceAs (Decidable (∀ t ∈ s.trades, t.tradeType.isAcquisition = true → t.date ≤ date → _))

instance decidableCountsExact (D : DecimalRounding) (s : Ledger) (date : NaiveDate) :
    Decidable (s.CountsExact D date) :=
  inferInstanceAs (Decidable (∀ t ∈ s.trades, t.tradeType.isAcquisition = true → t.date ≤ date → _))

instance decidablePrintsOpen (D : DecimalRounding) (s : Ledger) (date : NaiveDate) :
    Decidable (s.PrintsOpen D date) :=
  inferInstanceAs (Decidable (∀ t ∈ s.trades, t.tradeType.isAcquisition = true → _ → _))

/-- A parcel as a position. -/
def heldPosition (D : DecimalRounding) (s : Ledger) (date : NaiveDate) (t : Trade) : Position :=
  ⟨t.listing, t.account, s.leftPrinted D date t⟩

/-- The acquisitions held at a date. -/
def heldTrades (D : DecimalRounding) (s : Ledger) (date : NaiveDate) : List Trade :=
  s.trades.filter fun t => t.tradeType.isAcquisition && s.heldAt D date t

section Schedule
variable {κ : Type} {costed : Trade → AcquiredUnits → Attempt Refusal κ}
  (hpos : ∀ a ∈ s.allocations, 0 < a.quantity.value) (hcounts : s.CountsExact D date)

include hpos in
theorem unitsSold_nonneg : ∀ sale ∈ s.unitsSold date t.id, 0 ≤ sale.quantity.value := by
  intro sale hsale
  obtain ⟨r, hr, rfl⟩ := List.mem_map.mp (List.mem_filter.mp hsale).1
  obtain ⟨a, ha, u, -, -, rfl⟩ := mem_saleRows hr
  exact (hpos a ha).le

include hpos hcounts in
theorem openAmong_answer (hreads : s.ReadsBack D date) {ts : List Trade}
    (hts : ∀ t ∈ ts, t ∈ s.trades ∧ t.tradeType.isAcquisition = true ∧ t.date ≤ date)
    {opened : List (OpenParcel κ)} (h : (s.openAmong D costed date ts).answer = .ok opened) :
    opened.map OpenParcel.position = (ts.filter (s.heldAt D date)).map (s.heldPosition D date) := by
  induction ts generalizing opened with
  | nil =>
    obtain rfl := answer_pure.mp h
    rfl
  | cons t ts ih =>
    obtain ⟨hmem, hacq, hdate⟩ := hts t List.mem_cons_self
    have hrest : ∀ t ∈ ts, t ∈ s.trades ∧ t.tradeType.isAcquisition = true ∧ t.date ≤ date :=
      fun u hu => hts u (List.mem_cons_of_mem t hu)
    obtain ⟨left, hleft⟩ := Attempt.succeeds_iff.mp (hcounts t hmem hacq hdate)
    obtain ⟨⟨sold, hsold, hsub⟩, hlt, hsame, hcount⟩ :=
      openCount_yields (unitsSold_nonneg hpos) (hreads t hmem hacq hdate) hleft
    unfold openAmong at h
    obtain ⟨sold', hsold', h⟩ := answer_bind.mp h
    obtain rfl := Except.ok.inj (hsold'.symm.trans hsold)
    obtain ⟨left', hsub', h⟩ := answer_bind.mp h
    obtain rfl := Except.ok.inj (hsub'.symm.trans hsub)
    obtain ⟨b, hb, h⟩ := answer_bind.mp h
    obtain rfl := Except.ok.inj (hb.symm.trans hlt)
    have hheld : s.heldAt D date t = decide (0 < left'.value) := by
      rw [heldAt, decide_eq_true hdate, Bool.true_and]
      exact decide_eq_decide.mpr hsame.symm
    rw [List.filter_cons, hheld]
    split at h
    · rename_i hopen
      obtain ⟨cost, -, h⟩ := answer_bind.mp h
      obtain ⟨figure, hfigure, h⟩ := answer_bind.mp h
      obtain ⟨rest, hopened, h⟩ := answer_bind.mp h
      obtain rfl := answer_pure.mp h
      have hprinted : s.leftPrinted D date t = figure := by
        rw [leftPrinted, ← hcount (of_decide_eq_true hopen)]
        exact Attempt.answerD_eq hfigure 0
      rw [if_pos hopen, List.map_cons, List.map_cons, ih hrest hopened, heldPosition, hprinted]
      rfl
    · rename_i hnot
      rw [if_neg hnot]
      exact ih hrest h

include hpos hcounts in
theorem opened_perm (hreads : s.ReadsBack D date) {opened : List (OpenParcel κ)}
    (h : (s.openParcels D costed date).answer = .ok opened) :
    (opened.map OpenParcel.position).Perm ((s.heldTrades D date).map (s.heldPosition D date)) := by
  have hperm := StableSort.sortBy_perm Trade.id
    (s.trades.filter fun t => t.tradeType.isAcquisition && decide (t.date ≤ date))
  have hts : ∀ t ∈ StableSort.sortBy Trade.id
      (s.trades.filter fun t => t.tradeType.isAcquisition && decide (t.date ≤ date)),
      t ∈ s.trades ∧ t.tradeType.isAcquisition = true ∧ t.date ≤ date := by
    intro t ht
    obtain ⟨hmem, hkept⟩ := List.mem_filter.mp (StableSort.mem_sortBy.mp ht)
    obtain ⟨hacq, hdate⟩ := (Bool.and_eq_true _ _).mp hkept
    exact ⟨hmem, hacq, of_decide_eq_true hdate⟩
  rw [openAmong_answer hpos hcounts hreads hts h]
  refine ((hperm.filter _).map _).trans (List.Perm.of_eq ?_)
  rw [List.filter_filter, heldTrades]
  refine congrArg (List.map _) (List.filter_congr fun t _ => ?_)
  cases hdate : decide (t.date ≤ date) with
  | false => simp [heldAt, hdate]
  | true => simp [Bool.and_comm]

end Schedule

/-! The timeline -/

/-- A parcel's part of the timeline. -/
def holdingOf (D : DecimalRounding) (s : Ledger) (t : Trade) : ParcelHolding :=
  ⟨t.account, t.id, t.date, .new t.quantity,
    (s.parcelSales t.id).map fun sold => (sold.basis, s.readCount D t sold)⟩

theorem eq_map_of_forall₂ {α β : Type*} {f : α → β} {l : List α} {l' : List β}
    (h : List.Forall₂ (fun a b => b = f a) l l') : l' = l.map f := by
  induction h with
  | nil => rfl
  | cons hab _ ih => rw [List.map_cons, hab, ih]

theorem parcelHolding_yields {e : ListingId × ParcelHolding}
    (h : (s.parcelHolding D t : Attempt Refusal _).Yields e) :
    e = (t.listing, s.holdingOf D t) := by
  unfold parcelHolding at h
  obtain ⟨sales, hsales, h⟩ := yields_bind.mp h
  obtain rfl := yields_pure.mp h
  have hread : sales = (s.parcelSales t.id).map fun sold => (sold.basis, s.readCount D t sold) := by
    refine eq_map_of_forall₂ ((Attempt.yields_mapM hsales).imp fun sold e he => ?_)
    obtain ⟨u, hu, he⟩ := yields_bind.mp he
    rw [← yields_pure.mp he]
    exact congrArg _ (Attempt.answerD_eq (Attempt.yields_asPrinted.mp hu) _).symm
  rw [hread]
  rfl

theorem load_yields {timeline : HeldTimeline}
    (h : (HeldTimeline.load D s : Attempt Refusal _).Yields timeline) :
    timeline.splits = s.splitsForParcel ∧
      timeline.parcels = (s.trades.filter fun t => t.tradeType.isAcquisition).map fun t =>
        (t.listing, s.holdingOf D t) := by
  unfold HeldTimeline.load at h
  obtain ⟨parcels, hparcels, h⟩ := yields_bind.mp h
  obtain rfl := yields_pure.mp h
  exact ⟨rfl, eq_map_of_forall₂ ((Attempt.yields_mapM hparcels).imp fun t e =>
    parcelHolding_yields)⟩

/-- The sales of the parcel up to a date read back as counts. -/
def Readable (D : DecimalRounding) (s : Ledger) (date : NaiveDate) (t : Trade) : Prop :=
  t.date ≤ date → ∀ sale ∈ s.unitsSold date t.id, 0 < (s.readCount D t sale).den

theorem remainingOn_yields (hread : s.Readable D date t) {u : AcquiredUnits}
    (h : ((s.holdingOf D t).remainingOn D date : Attempt Refusal _).Yields u) :
    0 < u.den ∧ (0 < u.value ↔ s.heldAt D date t = true) ∧
      (0 < u.value → u = s.leftRead D date t) := by
  unfold ParcelHolding.remainingOn at h
  split at h
  · rename_i hbefore
    obtain rfl := yields_pure.mp h
    have hdate : ¬ t.date ≤ date := not_le.mpr hbefore
    have hzero : ¬ 0 < AcquiredUnits.zero.value := by rw [AcquiredUnits.zero_value]; exact lt_irrefl 0
    exact ⟨one_pos, by simp [heldAt, hdate], fun hpos => absurd hpos hzero⟩
  · rename_i hfrom
    have hdate : t.date ≤ date := not_lt.mp hfrom
    obtain ⟨sold, hsold, h⟩ := yields_bind.mp h
    obtain ⟨left, hleft, h⟩ := yields_bind.mp h
    have hcounts : (((s.holdingOf D t).sales.filter fun e => e.1 ≤ date).map Prod.snd) =
        (s.unitsSold date t.id).map (s.readCount D t) := by
      unfold holdingOf unitsSold
      rw [List.filter_map, List.map_map]
      rfl
    rw [hcounts] at hsold
    have hdens : ∀ u ∈ (s.unitsSold date t.id).map (s.readCount D t), 0 < u.den := by
      intro u hu
      obtain ⟨sale, hsale, rfl⟩ := List.mem_map.mp hu
      exact hread hdate sale hsale
    obtain ⟨hsoldv, hsoldd⟩ := AcquiredUnits.sum_yields hdens hsold
    obtain ⟨hleftv, hleftd⟩ := AcquiredUnits.sub_yields one_pos hsoldd hleft
    have hunits : left.value = s.unitsRead D date t := by
      rw [hleftv, hsoldv, List.map_map]
      exact congrArg (· - _) (AcquiredUnits.new_value t.quantity)
    have hleftRead : s.leftRead D date t = left :=
      Attempt.answerD_eq (answer_bind.mpr ⟨sold, hsold.1, hleft.1⟩) _
    have hheld : s.heldAt D date t = true ↔ 0 < left.value := by
      rw [heldAt, decide_eq_true hdate, Bool.true_and, decide_eq_true_eq, hunits]
    unfold AcquiredUnits.max at h
    obtain ⟨b, hb, h⟩ := yields_bind.mp h
    obtain rfl := AcquiredUnits.lt_yields hleftd one_pos hb
    split at h
    · rename_i hneg
      obtain rfl := yields_pure.mp h
      have hneg := of_decide_eq_true hneg
      rw [AcquiredUnits.zero_value] at hneg
      have hzero : ¬ 0 < AcquiredUnits.zero.value := by
        rw [AcquiredUnits.zero_value]
        exact lt_irrefl 0
      exact ⟨one_pos, by rw [hheld]; exact iff_of_false hzero hneg.not_gt,
        fun hpos => absurd hpos hzero⟩
    · obtain rfl := yields_pure.mp h
      exact ⟨hleftd, hheld.symm, fun _ => hleftRead.symm⟩

theorem heldOn_yields (hread : s.Readable D date t) {b : Bool}
    (h : ((s.holdingOf D t).heldOn D date : Attempt Refusal _).Yields b) :
    b = s.heldAt D date t := by
  unfold ParcelHolding.heldOn at h
  obtain ⟨u, hu, h⟩ := yields_bind.mp h
  obtain ⟨hden, hheld, -⟩ := remainingOn_yields hread hu
  rw [AcquiredUnits.lt_yields one_pos hden h, AcquiredUnits.zero_value]
  exact Bool.eq_iff_iff.mpr (decide_eq_true_iff.trans hheld)

theorem anyHeld_yields {ts : List Trade} (hread : ∀ t ∈ ts, s.Readable D date t) {b : Bool}
    (h : (HeldTimeline.anyHeld D date (ts.map (s.holdingOf D)) : Attempt Refusal _).Yields b) :
    b = ts.any (s.heldAt D date) := by
  induction ts with
  | nil => exact (yields_pure.mp h).symm
  | cons t ts ih =>
    rw [List.map_cons] at h
    unfold HeldTimeline.anyHeld at h
    obtain ⟨held, hheld, h⟩ := yields_bind.mp h
    obtain rfl := heldOn_yields (hread t List.mem_cons_self) hheld
    rw [List.any_cons]
    split at h
    · rename_i hpos
      rw [hpos, ← yields_pure.mp h, Bool.true_or]
    · rename_i hnot
      rw [Bool.eq_false_of_not_eq_true hnot, Bool.false_or]
      exact ih (fun u hu => hread u (List.mem_cons_of_mem t hu)) h

/-- The acquisitions of a listing. -/
def parcelsOf (s : Ledger) (listing : ListingId) : List Trade :=
  s.trades.filter fun t => t.tradeType.isAcquisition && decide (t.listing = listing)

section Timeline
variable {timeline : HeldTimeline}
  (hload : (HeldTimeline.load D s : Attempt Refusal _).Yields timeline)
  (hread : ∀ t ∈ s.trades, t.tradeType.isAcquisition = true → s.Readable D date t)

include hload in
theorem timeline_parcelsOf (listing : ListingId) :
    timeline.parcelsOf listing = (s.parcelsOf listing).map (s.holdingOf D) := by
  unfold HeldTimeline.parcelsOf parcelsOf
  rw [(load_yields hload).2, List.filter_map, List.map_map, List.filter_filter]
  refine congrArg (List.map _) (List.filter_congr fun t _ => Bool.and_comm _ _)

include hread in
theorem readable_of_parcelsOf {listing : ListingId} :
    ∀ t ∈ s.parcelsOf listing, s.Readable D date t := by
  intro t ht
  obtain ⟨hmem, hkept⟩ := List.mem_filter.mp ht
  exact hread t hmem ((Bool.and_eq_true _ _).mp hkept).1

include hload hread in
theorem heldAmong_yields {listings held : List ListingId}
    (h : (timeline.heldAmong D date listings : Attempt Refusal _).Yields held) :
    held = listings.filter fun l => (s.parcelsOf l).any (s.heldAt D date) := by
  induction listings generalizing held with
  | nil => exact (yields_pure.mp h).symm
  | cons l listings ih =>
    unfold HeldTimeline.heldAmong at h
    obtain ⟨b, hb, h⟩ := yields_bind.mp h
    obtain ⟨others, hothers, h⟩ := yields_bind.mp h
    rw [timeline_parcelsOf hload] at hb
    rw [← yields_pure.mp h, anyHeld_yields (readable_of_parcelsOf hread) hb, ih hothers,
      List.filter_cons]

include hload hread in
/-- The listings held are those of the parcels held. -/
theorem mem_heldListingIds {held : List ListingId}
    (h : (timeline.heldListingIds D date : Attempt Refusal _).Yields held) (listing : ListingId) :
    listing ∈ held ↔ ∃ t ∈ s.heldTrades D date, t.listing = listing := by
  unfold HeldTimeline.heldListingIds at h
  obtain ⟨ids, hids, h⟩ := yields_bind.mp h
  rw [← yields_pure.mp h, StableSort.mem_sortBy, heldAmong_yields hload hread hids,
    List.mem_filter, List.mem_dedup, List.any_eq_true]
  constructor
  · rintro ⟨-, t, ht, hheld⟩
    obtain ⟨hmem, hkept⟩ := List.mem_filter.mp ht
    obtain ⟨hacq, hlisting⟩ := (Bool.and_eq_true _ _).mp hkept
    exact ⟨t, List.mem_filter.mpr ⟨hmem, (Bool.and_eq_true _ _).mpr ⟨hacq, hheld⟩⟩,
      of_decide_eq_true hlisting⟩
  · rintro ⟨t, ht, rfl⟩
    obtain ⟨hmem, hkept⟩ := List.mem_filter.mp ht
    obtain ⟨hacq, hheld⟩ := (Bool.and_eq_true _ _).mp hkept
    refine ⟨?_, t, List.mem_filter.mpr ⟨hmem, by simp [hacq]⟩, hheld⟩
    rw [(load_yields hload).2, List.map_map]
    exact List.mem_map_of_mem (List.mem_filter.mpr ⟨hmem, hacq⟩)

/-- The units entered so far in one account. -/
def totalOf (byAccount : List (HoldingAccountId × ℚ)) (account : HoldingAccountId) : ℚ :=
  ((Keyed.get? Prod.fst byAccount account).map Prod.snd).getD 0

theorem addUnits_yields {byAccount byAccount' : List (HoldingAccountId × ℚ)}
    (hkeys : (byAccount.map Prod.fst).Nodup) {account : HoldingAccountId} {units : ℚ}
    (h : (HeldTimeline.addUnits D byAccount account units : Attempt Refusal _).Yields byAccount') :
    (byAccount'.map Prod.fst).Nodup ∧
      ∀ a, totalOf byAccount' a = totalOf byAccount a + if account = a then units else 0 := by
  unfold HeldTimeline.addUnits at h
  obtain ⟨total, htotal, h⟩ := yields_bind.mp h
  obtain ⟨rfl, -⟩ := DecimalRounding.of_yields_op htotal
  obtain rfl := yields_pure.mp h
  refine ⟨Keyed.nodup_put hkeys _, fun a => ?_⟩
  by_cases ha : account = a
  · subst ha
    have hself := Keyed.get?_put_self hkeys (account, totalOf byAccount account + units)
    simp only [totalOf] at hself ⊢
    rw [hself, if_pos trivial]
    rfl
  · have hother : Keyed.get? Prod.fst
        (Keyed.put Prod.fst byAccount (account, totalOf byAccount account + units)) a =
          Keyed.get? Prod.fst byAccount a := Keyed.get?_put_ne hkeys (Ne.symm ha)
    simp only [totalOf] at hother ⊢
    rw [hother, if_neg ha, add_zero]

/-- One parcel's part of an account's units. -/
def share (D : DecimalRounding) (s : Ledger) (date : NaiveDate) (account : HoldingAccountId)
    (t : Trade) : ℚ :=
  if s.heldAt D date t = true ∧ t.account = account then s.leftPrinted D date t else 0

include hload in
theorem addParcel_yields {listing : ListingId} {byAccount byAccount' : List (HoldingAccountId × ℚ)}
    (hkeys : (byAccount.map Prod.fst).Nodup) (hlisting : t.listing = listing)
    (hreadable : s.Readable D date t)
    (h : (timeline.addParcel D listing date date byAccount (s.holdingOf D t) :
      Attempt Refusal _).Yields byAccount') :
    (byAccount'.map Prod.fst).Nodup ∧
      ∀ a, totalOf byAccount' a = totalOf byAccount a + s.share D date a t := by
  unfold HeldTimeline.addParcel at h
  obtain ⟨u, hu, h⟩ := yields_bind.mp h
  obtain ⟨hden, hheld, hcount⟩ := remainingOn_yields hreadable hu
  obtain ⟨b, hb, h⟩ := yields_bind.mp h
  obtain rfl := AcquiredUnits.lt_yields one_pos hden hb
  rw [AcquiredUnits.zero_value] at h
  split at h
  · rename_i hpos
    have hpos := of_decide_eq_true hpos
    obtain ⟨units, hunits, h⟩ := yields_bind.mp h
    rw [(load_yields hload).1, hcount hpos, ← hlisting] at hunits
    have hprinted : s.leftPrinted D date t = units :=
      Attempt.answerD_eq (Attempt.yields_asPrinted.mp hunits) 0
    obtain ⟨hkeys', htotals⟩ := addUnits_yields hkeys h
    refine ⟨hkeys', fun a => ?_⟩
    rw [htotals a, share, hprinted]
    simp only [hheld.mp hpos, true_and]
    rfl
  · rename_i hnot
    obtain rfl := yields_pure.mp h
    refine ⟨hkeys, fun a => ?_⟩
    rw [share, if_neg fun hshare => hnot (decide_eq_true (hheld.mpr hshare.1)), add_zero]

include hload in
theorem addParcels_yields {listing : ListingId} {ts : List Trade}
    (hts : ∀ t ∈ ts, t.listing = listing ∧ s.Readable D date t)
    {byAccount byAccount' : List (HoldingAccountId × ℚ)} (hkeys : (byAccount.map Prod.fst).Nodup)
    (h : ((ts.map (s.holdingOf D)).foldlM (timeline.addParcel D listing date date) byAccount :
      Attempt Refusal _).Yields byAccount') :
    (byAccount'.map Prod.fst).Nodup ∧ ∀ a, totalOf byAccount' a =
      totalOf byAccount a + (ts.map (s.share D date a)).sum := by
  induction ts generalizing byAccount with
  | nil =>
    obtain rfl := yields_pure.mp h
    exact ⟨hkeys, fun a => (add_zero _).symm⟩
  | cons t ts ih =>
    rw [List.map_cons, List.foldlM_cons] at h
    obtain ⟨mid, hmid, h⟩ := yields_bind.mp h
    obtain ⟨hlisting, hreadable⟩ := hts t List.mem_cons_self
    obtain ⟨hmidKeys, hstep⟩ := addParcel_yields hload hkeys hlisting hreadable hmid
    obtain ⟨hkeys', hrest⟩ := ih (fun u hu => hts u (List.mem_cons_of_mem t hu)) hmidKeys h
    refine ⟨hkeys', fun a => ?_⟩
    rw [hrest a, hstep a, List.map_cons, List.sum_cons, add_assoc]

theorem sum_share (listing : ListingId) (account : HoldingAccountId) :
    ((s.parcelsOf listing).map (s.share D date account)).sum =
      unitsOf ((s.heldTrades D date).map (s.heldPosition D date)) listing account := by
  unfold parcelsOf heldTrades unitsOf
  induction s.trades with
  | nil => rfl
  | cons t ts ih =>
    cases hacq : t.tradeType.isAcquisition with
    | false => simpa [hacq] using ih
    | true =>
      cases hheld : s.heldAt D date t with
      | false =>
        by_cases hlisting : t.listing = listing
        · simpa [hacq, hheld, hlisting, share] using ih
        · simpa [hacq, hheld, hlisting] using ih
      | true =>
        by_cases hlisting : t.listing = listing
        · by_cases haccount : t.account = account
          · simpa [hacq, hheld, hlisting, haccount, share, heldPosition] using ih
          · simpa [hacq, hheld, hlisting, haccount, share, heldPosition] using ih
        · simpa [hacq, hheld, hlisting, heldPosition] using ih

include hload hread in
/-- The units of an account are the sum of the parcels held in it. -/
theorem mem_unitsByAccountOn {listing : ListingId} {out : List (HoldingAccountId × ℚ)}
    (h : (timeline.unitsByAccountOn D listing date date : Attempt Refusal _).Yields out)
    (account : HoldingAccountId) (units : ℚ) :
    (account, units) ∈ out ↔ 0 < units ∧ units =
      unitsOf ((s.heldTrades D date).map (s.heldPosition D date)) listing account := by
  unfold HeldTimeline.unitsByAccountOn at h
  obtain ⟨byAccount, hfold, h⟩ := yields_bind.mp h
  rw [timeline_parcelsOf hload] at hfold
  have hts : ∀ t ∈ s.parcelsOf listing, t.listing = listing ∧ s.Readable D date t := by
    intro t ht
    have hkept := (Bool.and_eq_true _ _).mp (List.mem_filter.mp ht).2
    exact ⟨of_decide_eq_true hkept.2, readable_of_parcelsOf hread t ht⟩
  have hnone : (([] : List (HoldingAccountId × ℚ)).map Prod.fst).Nodup := List.nodup_nil
  obtain ⟨hkeys, htotals⟩ := addParcels_yields hload hts hnone hfold
  have htotal : totalOf byAccount account =
      unitsOf ((s.heldTrades D date).map (s.heldPosition D date)) listing account := by
    rw [htotals account, sum_share]
    exact zero_add _
  rw [← yields_pure.mp h, StableSort.mem_sortBy, List.mem_filter, decide_eq_true_eq,
    and_comm, ← htotal]
  refine and_congr_right fun hpos => ?_
  constructor
  · intro hmem
    rw [totalOf, (Keyed.get?_eq_some hkeys).mpr ⟨hmem, rfl⟩]
    rfl
  · rintro rfl
    cases hget : Keyed.get? Prod.fst byAccount account with
    | none => simp [totalOf, hget] at hpos
    | some e =>
      obtain ⟨hmem, hkey⟩ := (Keyed.get?_eq_some hkeys).mp hget
      have hentry : (account, totalOf byAccount account) = e := by
        rw [totalOf, hget, ← hkey]
        rfl
      exact hentry ▸ hmem

end Timeline

end Ledger

end ShareTracker
