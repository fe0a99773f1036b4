import Mathlib
import ShareTracker.NonDisposalGains

/-!
The cost base a rollover carries: units moved into a replacement parcel take
their share of the source parcel's reduced cost base with them.
-/
namespace ShareTracker

/-- What one listing's parcel is costed against, bounded by the operation's date. -/
structure CostBaseInputs where
  splits : List SplitEvent
  rocEvents : List RocEvent
  amitEvents : List AmitReductionEvent
  upTo : NaiveDate

namespace CostBaseInputs

def load (splits : List SplitEvent) (tradeDate : NaiveDate) (rocEvents : List RocEvent)
    (rows : List AmitAdjustment) (consumed : List UnitsConsumed) (upTo : NaiveDate) :
    CostBaseInputs where
  splits := splits
  rocEvents := rocEvents
  amitEvents := costBaseReductionEvents splits tradeDate rows consumed (some upTo)
  upTo := upTo

def carriedCostBase (inputs : CostBaseInputs) (parcel : Parcel) (units : ℚ) :
    Except CurrencyDiffers ℚ := do
  return (← adjustedCostBase parcel units inputs.amitEvents inputs.rocEvents inputs.splits
    (.asAt (some inputs.upTo))).adjusted

end CostBaseInputs

/-- A transfer-in Buy to create. -/
structure TransferIn where
  quantity : ℚ
  carriedCostBase : ℚ
  currency : CurrencyCode
  fxRate : ℚ
  spotFxRate : Option ℚ
  deemedAcquisitionDate : NaiveDate

/-- The moved units in the parcel's as-acquired basis. -/
def movedUnits (inputs : CostBaseInputs) (row : ParcelRow) (quantityAllocated : ℚ) : ℚ :=
  asAcquiredQuantity quantityAllocated (some inputs.upTo) inputs.splits row.parcel.tradeDate

def transferIn (inputs : CostBaseInputs) (row : ParcelRow) (quantityAllocated : ℚ) :
    Except CurrencyDiffers TransferIn := do
  let carriedCostBase ←
    inputs.carriedCostBase row.parcel (movedUnits inputs row quantityAllocated)
  return {
    quantity := quantityAllocated
    carriedCostBase
    currency := row.parcel.currency
    fxRate := row.fxRate
    spotFxRate := row.spotFxRate
    deemedAcquisitionDate := row.acquired }

/-- The parcel's consumptions once the transfer's closing Sell is recorded. -/
def recordTransferOut (consumed : List UnitsConsumed) (date : NaiveDate) (moved : ℚ) :
    List UnitsConsumed :=
  consumed ++ [{ date := date, settled := date, disposal := false, units := moved }]

section UnitCost
variable (parcel : Parcel) (whereabouts : Whereabouts)

theorem AmitReductionEvent.reductionForUnits_eq (e : AmitReductionEvent) (q u : ℚ) :
    e.reductionForUnits q u whereabouts = e.perUnitFor q whereabouts * u := by
  simp only [perUnitFor, reductionForUnits]
  split
  · rw [zero_mul]
  · ring

/-- A statement's event, or a payment's row, behind the pipeline's walk. -/
abbrev ReductionSource := AmitReductionEvent ⊕ CostBaseAdjustment

namespace ReductionSource

def order : ReductionSource → NaiveDate ×ₗ ℕ
  | .inl e => toLex (e.taxYearEndDate, 0)
  | .inr row => row.order

/-- What the source takes off one unit. -/
def perUnit : ReductionSource → ℚ
  | .inl e => e.perUnitFor parcel.quantity whereabouts
  | .inr row => row.perUnit.getD 0

/-- The source's row for `units` of the parcel. -/
def row (units : ℚ) : ReductionSource → CostBaseAdjustment
  | .inl e => amitRow parcel units whereabouts e
  | .inr row => { row with amount := row.perUnit.getD 0 * units }

theorem row_order (units : ℚ) (s : ReductionSource) :
    (s.row parcel whereabouts units).order = s.order := by
  cases s <;> rfl

theorem row_amount (units : ℚ) (s : ReductionSource) :
    (s.row parcel whereabouts units).amount = s.perUnit parcel whereabouts * units := by
  cases s with
  | inl e => exact e.reductionForUnits_eq whereabouts parcel.quantity units
  | inr row => rfl

end ReductionSource

/-- The sources in the order they arise. -/
def reductionSources (amitEvents : List AmitReductionEvent) (payments : List CostBaseAdjustment) :
    List ReductionSource :=
  StableSort.sortBy ReductionSource.order (amitEvents.map .inl ++ payments.map .inr)

/-- The cost base one unit is left with. -/
def unitCost (amitEvents : List AmitReductionEvent) (payments : List CostBaseAdjustment) : ℚ :=
  FlooredWalk.final (ReductionSource.perUnit parcel whereabouts)
    (parcel.initialCost / parcel.quantity) (reductionSources amitEvents payments)

variable {parcel} {splits : List SplitEvent} {held : Held} {rocEvents : List RocEvent}

/-- The payments' rows for one count of units are those for any other, restated. -/
theorem rocRows_units {units : ℚ} {rows : List CostBaseAdjustment} (units' : ℚ)
    (h : rocRows parcel units splits held rocEvents = .ok rows) :
    rocRows parcel units' splits held rocEvents =
      .ok (rows.map fun row => { row with amount := row.perUnit.getD 0 * units' }) := by
  have hrow : ∀ e o, paymentRow parcel units splits held e = .ok o →
      paymentRow parcel units' splits held e = .ok ((o.filter fun _ => true).map
        fun row => { row with amount := row.perUnit.getD 0 * units' }) := by
    intro e o he
    obtain ⟨perUnit, hper, he⟩ := bind_ok he
    cases he
    rw [paymentRow, hper]
    cases perUnit <;> rfl
  have := gather_restrict hrow h
  rwa [List.filter_true] at this

theorem rocRows_reduces {units : ℚ} {rows : List CostBaseAdjustment}
    (h : rocRows parcel units splits held rocEvents = .ok rows) :
    ∀ row ∈ rows, row.reduces = true := by
  intro row hrow
  obtain ⟨e, -, he⟩ := mem_gather h hrow
  obtain ⟨perUnit, -, he⟩ := bind_ok he
  cases perUnit with
  | none => cases he
  | some p =>
    cases he
    rfl

/-- The adjusted cost base is the unit's, times the units. -/
theorem adjustedCostBase_eq_unitCost (hq : 0 < parcel.quantity) {units : ℚ} (hu : 0 ≤ units)
    (amitEvents : List AmitReductionEvent) {payments : List CostBaseAdjustment}
    (h : rocRows parcel 1 splits held rocEvents = .ok payments) :
    ∃ costBase, adjustedCostBase parcel units amitEvents rocEvents splits held = .ok costBase ∧
      costBase.adjusted = unitCost parcel held.whereabouts amitEvents payments * units := by
  have hwalk : reductionWalk parcel units amitEvents rocEvents splits held =
      .ok (applyRows (startingCost parcel units) (StableSort.sortBy CostBaseAdjustment.order
        ((amitEvents.map Sum.inl ++ payments.map Sum.inr).map
          (ReductionSource.row parcel held.whereabouts units) ++ splitRows parcel splits held))) := by
    rw [reductionWalk, rocRows_units units h, List.map_append, List.map_map, List.map_map]
    rfl
  refine ⟨_, by rw [adjustedCostBase, hwalk]; rfl, ?_⟩
  have hreduces : ∀ row ∈ (amitEvents.map Sum.inl ++ payments.map Sum.inr).map
      (ReductionSource.row parcel held.whereabouts units), row.reduces = true := by
    intro row hrow
    obtain ⟨s, hs, rfl⟩ := List.mem_map.mp hrow
    rcases List.mem_append.mp hs with hs | hs
    · obtain ⟨e, -, rfl⟩ := List.mem_map.mp hs
      rfl
    · obtain ⟨row, hr, rfl⟩ := List.mem_map.mp hs
      exact rocRows_reduces h row hr
  have hsplit : ∀ row ∈ splitRows parcel splits held, ¬ row.reduces = true := by
    intro row hrow
    obtain ⟨s, -, rfl⟩ := List.mem_map.mp hrow
    simp [splitRow, CostBaseAdjustment.reduces]
  have hstart : startingCost parcel units = parcel.initialCost / parcel.quantity * units := by
    rw [startingCost, if_pos hq, proratedInitialCost_eq hq]
    ring
  calc (applyRows (startingCost parcel units) _).2
      = FlooredWalk.final (·.amount) (startingCost parcel units)
          ((reductionSources amitEvents payments).map
            (ReductionSource.row parcel held.whereabouts units)) := by
        rw [applyRows_final, StableSort.filter_sortBy, List.filter_append,
          List.filter_eq_self.mpr hreduces, List.filter_eq_nil_iff.mpr hsplit, List.append_nil,
          reductionSources, StableSort.map_sortBy _ (ReductionSource.row_order _ _ units)]
    _ = FlooredWalk.final (fun s => ReductionSource.perUnit parcel held.whereabouts s * units)
          (parcel.initialCost / parcel.quantity * units)
          (reductionSources amitEvents payments) := by
        rw [FlooredWalk.final_map, hstart]
        exact FlooredWalk.final_congr (fun s _ => s.row_amount parcel held.whereabouts units) _
    _ = _ := FlooredWalk.final_mul _ hu _ _

theorem payments_of_adjustedCostBase {units : ℚ} {amitEvents : List AmitReductionEvent}
    {costBase : CostBase}
    (h : adjustedCostBase parcel units amitEvents rocEvents splits held = .ok costBase) :
    ∃ payments, rocRows parcel 1 splits held rocEvents = .ok payments := by
  obtain ⟨walk, hwalk, -⟩ := bind_ok h
  obtain ⟨rows, hrows, -⟩ := bind_ok hwalk
  exact ⟨_, rocRows_units 1 hrows⟩

end UnitCost

end ShareTracker
