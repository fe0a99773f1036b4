import ShareTracker.CostBase

/-!
A parcel with what was consumed of it: the statements' reductions of its units
and the cost base of the units still open at a date.
-/
namespace ShareTracker

/-- A consumption of a parcel's units, in its as-acquired basis: a real
disposal's allocation, or a rollover's. -/
structure UnitsConsumed where
  date : NaiveDate
  settled : NaiveDate
  disposal : Bool
  units : ℚ
  deriving DecidableEq

/-- The consumptions dated on or before `asOf`. -/
def unitsSold (consumed : List UnitsConsumed) (asOf : Option NaiveDate) : List UnitsConsumed :=
  consumed.filter fun c => asOf.all fun d => decide (c.date ≤ d)

/-- The units of the consumptions that satisfy `p`. -/
def unitsWhere (p : UnitsConsumed → Bool) (consumed : List UnitsConsumed) : ℚ :=
  ((consumed.filter p).map (·.units)).sum

/-- One row attributing a statement's per-unit figure to `quantity` units of the parcel. -/
structure AmitAdjustment where
  ammaStatementId : ℤ
  taxYearEndDate : NaiveDate
  quantity : ℚ
  costBaseAdjustment : ℚ
  deriving DecidableEq

/-- The statement's reduction of `quantity` units, re-based into its year-end basis. -/
def reductionFor (quantity costBaseAdjustment : ℚ) (splits : List SplitEvent)
    (acquired taxYearEndDate : NaiveDate) : ℚ :=
  splitAdjustedQuantity quantity splits acquired (some taxYearEndDate) * costBaseAdjustment

/-- The row as the pipeline reads it, beside the consumptions `consumed`. -/
def reductionEvent (splits : List SplitEvent) (tradeDate : NaiveDate)
    (consumed : List UnitsConsumed) (row : AmitAdjustment) : AmitReductionEvent where
  ammaStatementId := row.ammaStatementId
  taxYearEndDate := row.taxYearEndDate
  perUnit := reductionFor 1 row.costBaseAdjustment splits tradeDate row.taxYearEndDate
  covered := row.quantity
  disposedByYearEnd := unitsWhere (fun c => c.disposal && decide (c.date ≤ row.taxYearEndDate)) consumed
  disposedBeforeYearStart :=
    unitsWhere (fun c => c.disposal && decide (c.date < fyStart row.taxYearEndDate)) consumed
  carriedOut := unitsWhere (fun c => !c.disposal) consumed

/-- The statements of years ended by `upTo`, in year order. -/
def costBaseReductionEvents (splits : List SplitEvent) (tradeDate : NaiveDate)
    (rows : List AmitAdjustment) (consumed : List UnitsConsumed) (upTo : Option NaiveDate) :
    List AmitReductionEvent :=
  let inScope := rows.filter fun row => upTo.all fun d => decide (row.taxYearEndDate ≤ d)
  (StableSort.sortBy (fun row => toLex (row.taxYearEndDate, row.ammaStatementId)) inScope).map
    (reductionEvent splits tradeDate (unitsSold consumed upTo))

/-- The units of the parcel still open at `asOf`. -/
def remainingUnits (parcel : Parcel) (consumed : List UnitsConsumed) (asOf : Option NaiveDate) :
    ℚ :=
  parcel.quantity - ((unitsSold consumed asOf).map (·.units)).sum

/-- The cost base of the units still open at `asOf`; an emptied parcel has none. -/
def openCostBase (parcel : Parcel) (splits : List SplitEvent) (rocEvents : List RocEvent)
    (rows : List AmitAdjustment) (consumed : List UnitsConsumed) (asOf : Option NaiveDate) :
    Except CurrencyDiffers ℚ :=
  let remaining := remainingUnits parcel consumed asOf
  if remaining ≤ 0 then .ok 0
  else do
    let amitEvents := costBaseReductionEvents splits parcel.tradeDate rows consumed asOf
    return (← adjustedCostBase parcel remaining amitEvents rocEvents splits (.asAt asOf)).adjusted

section Consumed

theorem unitsWhere_eq (p : UnitsConsumed → Bool) (consumed : List UnitsConsumed) :
    unitsWhere p consumed = (consumed.map fun c => if p c then c.units else 0).sum := by
  rw [List.sum_map_ite]
  simp [unitsWhere]

theorem unitsWhere_nonneg {consumed : List UnitsConsumed} (h : ∀ c ∈ consumed, 0 ≤ c.units)
    (p : UnitsConsumed → Bool) : 0 ≤ unitsWhere p consumed := by
  refine List.sum_nonneg fun u hu => ?_
  obtain ⟨c, hc, rfl⟩ := List.mem_map.mp hu
  exact h c (List.mem_filter.mp hc).1

/-- Two groups of consumptions with none in common take no more than all of them. -/
theorem unitsWhere_add_le {consumed : List UnitsConsumed} (h : ∀ c ∈ consumed, 0 ≤ c.units)
    {p q : UnitsConsumed → Bool} (hpq : ∀ c, p c = true → q c = false) :
    unitsWhere p consumed + unitsWhere q consumed ≤ (consumed.map (·.units)).sum := by
  rw [unitsWhere_eq, unitsWhere_eq, ← List.sum_map_add]
  refine List.sum_le_sum fun c hc => ?_
  have hc0 := h c hc
  cases hp : p c with
  | true => simp [hpq c hp]
  | false =>
    cases hq : q c with
    | true => simp
    | false => simpa using hc0

end Consumed

end ShareTracker
