import ShareTracker.OpenParcels

/-!
Gains without a disposal: the walk of the net capital gain report down each
cohort of a parcel's units, raising CGT events E10, G1 and C2.
-/
namespace ShareTracker

/-- A parcel with what its AUD conversion and discount clock read. -/
structure ParcelRow where
  parcel : Parcel
  deemedAcquisitionDate : Option NaiveDate
  fxRate : ℚ
  spotFxRate : Option ℚ

def ParcelRow.acquired (row : ParcelRow) : NaiveDate :=
  row.deemedAcquisitionDate.getD row.parcel.tradeDate

def ParcelRow.fxOverride (row : ParcelRow) : FxOverride := .fromTrade row.fxRate row.spotFxRate

/-- 100 units bought for 100 dollars on 10 January 2024. -/
def sampleRow : ParcelRow where
  parcel :=
    { quantity := 100, averagePrice := 1, brokerage := 0, gstOnBrokerage := 0
      currency := ⟨"AUD"⟩
      tradeDate := ymd 2024 1 10
      settled := ymd 2024 1 12
      rollover := none
      averagePrice_nonneg := by decide
      brokerage_nonneg := le_rfl
      gstOnBrokerage_nonneg := le_rfl
      settled_ge := by decide
      rollover_on := by simp }
  deemedAcquisitionDate := none
  fxRate := 1
  spotFxRate := none

/-- One cost-base reduction against a parcel, per as-acquired unit. -/
inductive Reduction where
  | amit (e : AmitReductionEvent)
  | roc (date : NaiveDate) (currency : CurrencyCode) (perUnit : ℚ) (recordDate : Option NaiveDate)
  deriving DecidableEq

inductive CgtEventKind where
  | e10
  | g1
  | c2
  deriving DecidableEq

namespace Reduction

/-- The date the reduction arises. -/
def date : Reduction → NaiveDate
  | amit e => e.taxYearEndDate
  | roc date _ _ _ => date

def rank : Reduction → ℕ
  | amit _ => 0
  | roc .. => 1

def order (r : Reduction) : NaiveDate ×ₗ ℕ := toLex (r.date, r.rank)

/-- The reduction reaching `units` of a `parcelQuantity`-unit parcel that left
it on `disposedOn`, by a real disposal where `disposal`. -/
def reductionForUnits (parcelQuantity units : ℚ) (disposedOn : Option NaiveDate)
    (disposal : Bool) : Reduction → ℚ
  | amit e =>
    let whereabouts : Whereabouts :=
      match disposedOn with
      | none => .inParcel
      | some d => if disposal then .disposedOn d else .carriedOut
    e.reductionForUnits parcelQuantity units whereabouts
  | roc date _ perUnit _ =>
    if disposedOn.all (fun d => decide (date ≤ d)) then perUnit * units else 0

/-- The event an overrun raises. -/
def gainKind : Reduction → CgtEventKind
  | amit _ => .e10
  | roc .. => .g1

/-- The currency the reduction is stated in. -/
def currency (parcel : Parcel) : Reduction → CurrencyCode
  | amit _ => parcel.currency
  | roc _ currency _ _ => currency

end Reduction

/-- Units of a parcel that share an event history. -/
structure Cohort where
  leftOn : Option NaiveDate
  leftRegisterOn : Option NaiveDate
  disposal : Bool
  units : ℚ
  units_pos : 0 < units

/-- The reduction of the cohort by one event. -/
def Cohort.reduction (parcelQuantity : ℚ) (c : Cohort) (event : Reduction) : ℚ :=
  event.reductionForUnits parcelQuantity c.units c.leftOn c.disposal

/-- One cohort for each consumption, and the units still held. -/
def unitCohorts (parcelQuantity : ℚ) (sales : List UnitsConsumed) : List Cohort :=
  let gone := sales.filterMap fun c =>
    if h : 0 < c.units then
      some { leftOn := some c.date, leftRegisterOn := some c.settled, disposal := c.disposal
             units := c.units, units_pos := h }
    else none
  let stillHeld := parcelQuantity - (gone.map (·.units)).sum
  gone ++
    if h : 0 < stillHeld then
      [{ leftOn := none, leftRegisterOn := none, disposal := false
         units := stillHeld, units_pos := h }]
    else []

structure EventGain where
  kind : CgtEventKind
  taxYear : ℤ
  amount : ℚ
  discountEligible : Bool
  deriving DecidableEq

/-- A payment on units disposed of between its record date and its payment ends
a right to receive it: the whole payment is the gain. -/
def c2Gain (fx : FxRates) (row : ParcelRow) (c : Cohort) :
    Reduction → Except FxError (List EventGain)
  | .roc date currency perUnit (some recordDate) =>
    if c.disposal && c.leftRegisterOn.any (fun s => decide (recordDate < s)) &&
        c.leftOn.any (fun d => decide (d < date)) then do
      return [{
        kind := .c2
        taxYear := taxYearFor date
        amount := ← fx.toAud (perUnit * c.units) currency date .none
        discountEligible := discountEligible row.acquired date }]
    else .ok []
  | _ => .ok []

/-- The AUD cost base an event overran, at the rate it was acquired at. -/
def exhaustedCost (fx : FxRates) (row : ParcelRow) (exhausted : ℚ) : Except FxError ℚ :=
  if exhausted = 0 then .ok 0
  else fx.toAud exhausted row.parcel.currency row.acquired row.fxOverride

/-- The gain of a reduction that overran the cost base `exhausted`: each of the
two is translated at its own date, and their difference never makes a loss. -/
def excessGain (fx : FxRates) (row : ParcelRow) (event : Reduction) (amount exhausted : ℚ) :
    Except FxError EventGain := do
  let reduction ← fx.toAud amount (event.currency row.parcel) event.date .none
  let costBase ← exhaustedCost fx row exhausted
  return {
    kind := event.gainKind
    taxYear := taxYearFor event.date
    amount := max (reduction - costBase) 0
    discountEligible := discountEligible row.acquired event.date }

/-- What one event did to a cohort: the reduction reaching it, the cost base it
met, and the gains it raised. -/
structure EventOutcome where
  event : Reduction
  amount : ℚ
  before : ℚ
  gains : List EventGain
  deriving DecidableEq

/-- The loop over a cohort's events, from the cost base `remaining`. -/
def cohortWalk (fx : FxRates) (row : ParcelRow) (c : Cohort) (remaining : ℚ) :
    List Reduction → Except FxError (List EventOutcome × ℚ)
  | [] => .ok ([], remaining)
  | event :: events => do
      let right ← c2Gain fx row c event
      let amount := c.reduction row.parcel.quantity event
      if amount ≤ remaining then
        let (rest, left) ← cohortWalk fx row c (remaining - amount) events
        return (⟨event, amount, remaining, right⟩ :: rest, left)
      else
        let gain ← excessGain fx row event amount remaining
        let (rest, left) ← cohortWalk fx row c 0 events
        return (⟨event, amount, remaining, right ++ [gain]⟩ :: rest, left)

/-- The payment's reduction of the parcel, where the query joins the two and
the payment reaches the parcel. -/
def paymentReduction (parcel : Parcel) (splits : List SplitEvent) (e : RocEvent) :
    Except CurrencyDiffers (Option Reduction) :=
  if e.date < parcel.tradeDate then .ok none
  else do
    let perUnit ← e.perUnitFor splits parcel.currency parcel.tradeDate parcel.settled
      parcel.rollover none
    return perUnit.map fun p => .roc e.date e.currency p e.recordDate

/-- The parcel's reductions in the order they arise. -/
def parcelReductions (parcel : Parcel) (amitEvents : List AmitReductionEvent)
    (rocEvents : List RocEvent) (splits : List SplitEvent) :
    Except CurrencyDiffers (List Reduction) := do
  let payments ← gather (paymentReduction parcel splits) rocEvents
  return StableSort.sortBy Reduction.order (amitEvents.map .amit ++ payments)

def cohortInitialCost (parcel : Parcel) (units : ℚ) : ℚ :=
  proratedInitialCost parcel.initialCost units parcel.quantity

inductive ReportError where
  | payment (e : CurrencyDiffers)
  | fx (e : FxError)
  deriving DecidableEq

/-- One cohort of a parcel walked from its share of the initial cost base. -/
def walkCohort (fx : FxRates) (row : ParcelRow) (events : List Reduction) (c : Cohort) :
    Except FxError (List EventOutcome × ℚ) :=
  cohortWalk fx row c (cohortInitialCost row.parcel c.units) events

/-- The gains of one parcel. -/
def parcelGains (fx : FxRates) (row : ParcelRow) (amitEvents : List AmitReductionEvent)
    (rocEvents : List RocEvent) (splits : List SplitEvent) (sales : List UnitsConsumed) :
    Except ReportError (List EventGain) := do
  let events ← (parcelReductions row.parcel amitEvents rocEvents splits).mapError .payment
  if row.parcel.quantity ≤ 0 then return []
  let walks ← ((unitCohorts row.parcel.quantity sales).mapM (walkCohort fx row events)).mapError .fx
  return walks.flatMap fun walk => walk.1.flatMap (·.gains)

section Walk
variable (fx : FxRates) (row : ParcelRow) (c : Cohort)

/-- An outcome that raised a gain other than C2. -/
def EventOutcome.overran (o : EventOutcome) : Bool := o.gains.any fun g => g.kind != .c2

variable {fx row c}

theorem c2Gain_spec {event : Reduction} {gains : List EventGain}
    (h : c2Gain fx row c event = .ok gains) :
    ∀ g ∈ gains, g.kind = .c2 ∧ c.disposal = true ∧
      c.leftOn.any (fun d => decide (d < event.date)) = true ∧ event.rank = 1 := by
  intro g hg
  unfold c2Gain at h
  split at h
  · split at h
    · rename_i hcond
      obtain ⟨amount, -, h⟩ := bind_ok h
      cases h
      obtain rfl := List.mem_singleton.mp hg
      simp only [Bool.and_eq_true] at hcond
      exact ⟨rfl, hcond.1.1, hcond.2, rfl⟩
    · cases h
      cases hg
  · cases h
    cases hg

theorem excessGain_kind {event : Reduction} {amount exhausted : ℚ} {gain : EventGain}
    (h : excessGain fx row event amount exhausted = .ok gain) :
    gain.kind = event.gainKind ∧ gain.taxYear = taxYearFor event.date ∧
      gain.discountEligible = discountEligible row.acquired event.date := by
  obtain ⟨reduction, -, h⟩ := bind_ok h
  obtain ⟨costBase, -, h⟩ := bind_ok h
  cases h
  exact ⟨rfl, rfl, rfl⟩

theorem Reduction.gainKind_ne_c2 (event : Reduction) : event.gainKind ≠ .c2 := by
  cases event <;> simp [Reduction.gainKind]

/-- In AUD the gain is the native excess. -/
theorem excessGain_aud {event : Reduction} {amount exhausted : ℚ} {gain : EventGain}
    (haud : row.parcel.currency.isAud) (hcur : event.currency row.parcel = row.parcel.currency)
    (hlt : exhausted < amount) (h : excessGain fx row event amount exhausted = .ok gain) :
    gain.amount = amount - exhausted := by
  unfold excessGain at h
  rw [hcur, fx.toAud_of_isAud haud] at h
  have hcost : exhaustedCost fx row exhausted = .ok exhausted := by
    unfold exhaustedCost
    split
    · rename_i h0
      rw [h0]
    · exact fx.toAud_of_isAud haud _ _ _
  rw [hcost] at h
  cases h
  exact max_eq_left (sub_nonneg.mpr hlt.le)

/-- One event of the walk: it raises an E10 or G1 gain exactly where it overruns. -/
structure EventOutcome.Sound (fx : FxRates) (row : ParcelRow) (c : Cohort) (o : EventOutcome) :
    Prop where
  amount_eq : o.amount = c.reduction row.parcel.quantity o.event
  overran_iff : o.overran = true ↔ o.before < o.amount
  single : (o.gains.filter fun g => g.kind != .c2).length ≤ 1
  excess : ∀ g ∈ o.gains, g.kind ≠ .c2 → excessGain fx row o.event o.amount o.before = .ok g
  right : ∀ g ∈ o.gains, g.kind = .c2 → c.disposal = true ∧
    c.leftOn.any (fun d => decide (d < o.event.date)) = true ∧ o.event.rank = 1

theorem cohortWalk_cons {remaining : ℚ} {event : Reduction} {events : List Reduction}
    {outcomes : List EventOutcome} {left : ℚ}
    (h : cohortWalk fx row c remaining (event :: events) = .ok (outcomes, left)) :
    ∃ o rest, outcomes = o :: rest ∧ o.event = event ∧ o.before = remaining ∧
      o.Sound fx row c ∧
      cohortWalk fx row c (FlooredWalk.draw remaining (c.reduction row.parcel.quantity event))
        events = .ok (rest, left) := by
  simp only [cohortWalk] at h
  obtain ⟨right, hright, h⟩ := bind_ok h
  have hc2 := c2Gain_spec hright
  split at h
  · rename_i hle
    obtain ⟨⟨rest, left'⟩, hrest, h⟩ := bind_ok h
    cases h
    refine ⟨_, rest, rfl, rfl, rfl, ⟨rfl, ?_, ?_, ?_, ?_⟩, ?_⟩
    · refine iff_of_false ?_ (not_lt.mpr hle)
      simpa [EventOutcome.overran] using fun g hg => (hc2 g hg).1
    · rw [List.filter_eq_nil_iff.mpr fun g hg => by simp [(hc2 g hg).1]]
      exact Nat.zero_le 1
    · exact fun g hg hne => absurd (hc2 g hg).1 hne
    · exact fun g hg _ => (hc2 g hg).2
    · rw [FlooredWalk.draw_of_le hle]
      exact hrest
  · rename_i hnot
    have hlt := not_le.mp hnot
    obtain ⟨gain, hgain, h⟩ := bind_ok h
    obtain ⟨⟨rest, left'⟩, hrest, h⟩ := bind_ok h
    cases h
    have hkind : gain.kind ≠ .c2 := by
      rw [(excessGain_kind hgain).1]
      exact event.gainKind_ne_c2
    refine ⟨_, rest, rfl, rfl, rfl, ⟨rfl, ?_, ?_, ?_, ?_⟩, ?_⟩
    · simp [EventOutcome.overran, hkind, hlt]
    · rw [List.filter_append, List.filter_eq_nil_iff.mpr fun g hg => by simp [(hc2 g hg).1],
        List.nil_append]
      exact List.length_filter_le _ [gain]
    · intro g hg hne
      rcases List.mem_append.mp hg with hg | hg
      · exact absurd (hc2 g hg).1 hne
      · obtain rfl := List.mem_singleton.mp hg
        exact hgain
    · intro g hg heq
      rcases List.mem_append.mp hg with hg | hg
      · exact (hc2 g hg).2
      · obtain rfl := List.mem_singleton.mp hg
        exact absurd heq hkind
    · rw [FlooredWalk.draw_of_lt hlt]
      exact hrest

/-- The walk is the floored walk over the events: the same balance before each
and the same balance left. -/
theorem cohortWalk_spec {remaining : ℚ} {events : List Reduction} {outcomes : List EventOutcome}
    {left : ℚ} (h : cohortWalk fx row c remaining events = .ok (outcomes, left)) :
    outcomes.map (fun o => (o.event, o.before)) =
        FlooredWalk.steps (c.reduction row.parcel.quantity) remaining events ∧
      left = FlooredWalk.final (c.reduction row.parcel.quantity) remaining events ∧
      ∀ o ∈ outcomes, o.Sound fx row c := by
  induction events generalizing remaining outcomes with
  | nil =>
    cases h
    exact ⟨rfl, rfl, fun o ho => absurd ho List.not_mem_nil⟩
  | cons event events ih =>
    obtain ⟨o, rest, rfl, rfl, rfl, hsound, hrest⟩ := cohortWalk_cons h
    obtain ⟨hsteps, hfinal, hall⟩ := ih hrest
    refine ⟨?_, hfinal, ?_⟩
    · rw [List.map_cons, hsteps]
      rfl
    · intro o' ho'
      rcases List.mem_cons.mp ho' with rfl | ho'
      · exact hsound
      · exact hall o' ho'

/-- The outcomes that raised an E10 or G1 gain are the overruns of the walk. -/
theorem cohortWalk_overruns {remaining : ℚ} {events : List Reduction}
    {outcomes : List EventOutcome} {left : ℚ}
    (h : cohortWalk fx row c remaining events = .ok (outcomes, left)) :
    (outcomes.filter (·.overran)).map (fun o => (o.event, o.before)) =
      FlooredWalk.overruns (c.reduction row.parcel.quantity) remaining events := by
  obtain ⟨hsteps, -, hall⟩ := cohortWalk_spec h
  rw [FlooredWalk.overruns, ← hsteps, List.filter_map]
  refine congrArg _ (List.filter_congr fun o ho => ?_)
  have hs := hall o ho
  rw [Bool.eq_iff_iff, hs.overran_iff, hs.amount_eq]
  simp

/-- A parcel's gains are those of its cohorts, each walked over the same reductions. -/
theorem parcelGains_cohorts {amitEvents : List AmitReductionEvent} {rocEvents : List RocEvent}
    {splits : List SplitEvent} {sales : List UnitsConsumed} {gains : List EventGain}
    (hq : 0 < row.parcel.quantity)
    (h : parcelGains fx row amitEvents rocEvents splits sales = .ok gains) :
    ∃ events walks, parcelReductions row.parcel amitEvents rocEvents splits = .ok events ∧
      List.Forall₂ (fun c walk => walkCohort fx row events c = .ok walk)
        (unitCohorts row.parcel.quantity sales) walks ∧
      gains = walks.flatMap fun walk => walk.1.flatMap (·.gains) := by
  obtain ⟨events, hevents, h⟩ := bind_ok h
  rw [if_neg (not_le.mpr hq)] at h
  obtain ⟨walks, hwalks, h⟩ := bind_ok h
  cases h
  exact ⟨events, walks, Checked.mapError_ok.mp hevents, mapM_ok (Checked.mapError_ok.mp hwalks), rfl⟩

end Walk

end ShareTracker
