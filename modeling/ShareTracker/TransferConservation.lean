import ShareTracker.Rollover

/-!
What a transfer does to cost base: the share carried into the replacement
parcel and the cost base of the units left, against the holding before it.
-/
namespace ShareTracker

section ShareRate

/-- The part of a statement's per-unit figure that reaches each of `held` units. -/
def shareRate (covered held : ℚ) : ℚ := if held ≤ 0 then 0 else min covered held / held

variable {covered held moved : ℚ}

theorem shareRate_eq (h : 0 < held) : shareRate covered held = min covered held / held :=
  if_neg (not_le.mpr h)

theorem shareRate_nonneg (hc : 0 ≤ covered) : 0 ≤ shareRate covered held := by
  unfold shareRate
  split
  · exact le_rfl
  · rename_i h
    exact div_nonneg (le_min hc (not_le.mp h).le) (not_le.mp h).le

/-- Taking units out of the parcel changes no rate of a row that covers all of them or none. -/
theorem shareRate_sub (hm : 0 ≤ moved) (h : 0 < held - moved) (hc : covered = 0 ∨ held ≤ covered) :
    shareRate covered (held - moved) = shareRate covered held := by
  have hpos : 0 < held := by linarith
  rw [shareRate_eq h, shareRate_eq hpos]
  rcases hc with rfl | hc
  · rw [min_eq_left h.le, min_eq_left hpos.le, zero_div, zero_div]
  · rw [min_eq_right (by linarith : held - moved ≤ covered), min_eq_right hc, div_self h.ne',
      div_self hpos.ne']

/-- A row covering only some of the units is concentrated on those left. -/
theorem shareRate_lt (hm : 0 < moved) (h : 0 < held - moved) (hc : 0 < covered)
    (hpart : covered < held) : shareRate covered held < shareRate covered (held - moved) := by
  have hpos : 0 < held := by linarith
  rw [shareRate_eq h, shareRate_eq hpos, min_eq_left hpart.le, div_lt_div_iff₀ hpos h]
  rcases le_total covered (held - moved) with hle | hle
  · rw [min_eq_left hle]
    exact mul_lt_mul_of_pos_left (by linarith) hc
  · rw [min_eq_right hle, mul_comm]
    exact mul_lt_mul_of_pos_left hpart h

theorem shareRate_le (hm : 0 < moved) (h : 0 < held - moved) (hc : 0 ≤ covered) :
    shareRate covered held ≤ shareRate covered (held - moved) := by
  rcases hc.eq_or_lt with rfl | hpos
  · rw [shareRate_sub hm.le h (.inl rfl)]
  rcases lt_or_ge covered held with hlt | hle
  · exact (shareRate_lt hm h hpos hlt).le
  · rw [shareRate_sub hm.le h (.inr hle)]

end ShareRate

namespace AmitReductionEvent

/-- The event once `moved` more units have been carried out. -/
def carryOut (e : AmitReductionEvent) (moved : ℚ) : AmitReductionEvent :=
  { e with carriedOut := e.carriedOut + moved }

variable {e : AmitReductionEvent} {q : ℚ}

theorem held_eq (hC : 0 ≤ e.carriedOut) (hD : 0 ≤ e.disposedByYearEnd)
    (hq : e.carriedOut + e.disposedByYearEnd ≤ q) :
    e.held q = q - e.carriedOut - e.disposedByYearEnd := by
  have hcarried : e.carried q = e.carriedOut := by
    rw [carried, min_eq_left (by linarith), max_eq_left hC]
  have hdisposed : e.disposed q = e.disposedByYearEnd := by
    rw [disposed, hcarried, min_eq_left (by linarith), max_eq_left hD]
  rw [held, hcarried, hdisposed]

theorem perUnitFor_inParcel (e : AmitReductionEvent) (q : ℚ) :
    e.perUnitFor q .inParcel = e.perUnit * shareRate e.covered (e.held q) := by
  change (if e.held q ≤ 0 then 0 else e.perUnit * min e.covered (e.held q) * 1 / e.held q) = _
  unfold shareRate
  by_cases h : e.held q ≤ 0
  · rw [if_pos h, if_pos h, mul_zero]
  · rw [if_neg h, if_neg h, mul_one, mul_div_assoc]

end AmitReductionEvent

/-- The units in the parcel for a statement's row: not carried out by then and
not disposed of by its year end. -/
def heldForStatement (parcel : Parcel) (consumed : List UnitsConsumed) (row : AmitAdjustment) : ℚ :=
  parcel.quantity - unitsWhere (fun c => !c.disposal) consumed -
    unitsWhere (fun c => c.disposal && decide (c.date ≤ row.taxYearEndDate)) consumed

/-- A transfer that changes no statement's rate on the units it leaves: none are
left, or every row in scope states nothing, covers nothing, or covers every unit
in the parcel for it. -/
def KeepsRates (parcel : Parcel) (rows : List AmitAdjustment) (consumed : List UnitsConsumed)
    (date : NaiveDate) (moved : ℚ) : Prop :=
  moved = remainingUnits parcel consumed (some date) ∨
    ∀ row ∈ rows, row.taxYearEndDate ≤ date → row.costBaseAdjustment = 0 ∨ row.quantity = 0 ∨
      heldForStatement parcel (unitsSold consumed (some date)) row ≤ row.quantity

section Transfer
variable {parcel : Parcel} {splits : List SplitEvent} {rocEvents : List RocEvent}
  {rows : List AmitAdjustment} {consumed : List UnitsConsumed} {date : NaiveDate} {moved : ℚ}

theorem unitsSold_recordTransferOut (consumed : List UnitsConsumed) (date : NaiveDate)
    (moved : ℚ) : unitsSold (recordTransferOut consumed date moved) (some date) =
      recordTransferOut (unitsSold consumed (some date)) date moved := by
  simp [unitsSold, recordTransferOut, List.filter_append]

theorem remainingUnits_recordTransferOut (parcel : Parcel) (consumed : List UnitsConsumed)
    (date : NaiveDate) (moved : ℚ) :
    remainingUnits parcel (recordTransferOut consumed date moved) (some date) =
      remainingUnits parcel consumed (some date) - moved := by
  rw [remainingUnits, unitsSold_recordTransferOut]
  simp only [recordTransferOut, List.map_append, List.sum_append, List.map_cons, List.map_nil,
    List.sum_cons, List.sum_nil, remainingUnits]
  ring

theorem reductionEvent_recordTransferOut (tradeDate : NaiveDate) (consumed : List UnitsConsumed)
    (row : AmitAdjustment) :
    reductionEvent splits tradeDate (recordTransferOut consumed date moved) row =
      (reductionEvent splits tradeDate consumed row).carryOut moved := by
  simp [reductionEvent, AmitReductionEvent.carryOut, recordTransferOut, unitsWhere,
    List.filter_append]

/-- Recording the transfer carries its units out of every statement's event. -/
theorem events_recordTransferOut (tradeDate : NaiveDate) :
    costBaseReductionEvents splits tradeDate rows (recordTransferOut consumed date moved)
        (some date) =
      (costBaseReductionEvents splits tradeDate rows consumed (some date)).map
        (·.carryOut moved) := by
  unfold costBaseReductionEvents
  rw [unitsSold_recordTransferOut, List.map_map]
  exact List.map_congr_left fun row _ => reductionEvent_recordTransferOut tradeDate _ row

/-- A statement's event spreads its row over the units in the parcel for it, and
the transfer takes its units out of that group. -/
theorem held_reductionEvent (splits : List SplitEvent)
    (hconsumed : ∀ c ∈ consumed, 0 ≤ c.units) (hm : 0 ≤ moved)
    (hle : moved ≤ remainingUnits parcel consumed (some date)) (row : AmitAdjustment) :
    let sold := unitsSold consumed (some date)
    let e := reductionEvent splits parcel.tradeDate sold row
    e.held parcel.quantity = heldForStatement parcel sold row ∧
      (e.carryOut moved).held parcel.quantity = heldForStatement parcel sold row - moved ∧
      remainingUnits parcel consumed (some date) ≤ heldForStatement parcel sold row := by
  intro sold e
  have hsold : ∀ c ∈ sold, 0 ≤ c.units := fun c hc => hconsumed c (List.mem_filter.mp hc).1
  have hC : 0 ≤ e.carriedOut := unitsWhere_nonneg hsold _
  have hD : 0 ≤ e.disposedByYearEnd := unitsWhere_nonneg hsold _
  have hsum : e.carriedOut + e.disposedByYearEnd ≤ (sold.map (·.units)).sum := by
    refine unitsWhere_add_le hsold fun c hc => ?_
    simp only [Bool.not_eq_true'] at hc
    rw [hc, Bool.false_and]
  have hrem : remainingUnits parcel consumed (some date) =
      parcel.quantity - (sold.map (·.units)).sum := rfl
  have hheld : heldForStatement parcel sold row =
      parcel.quantity - e.carriedOut - e.disposedByYearEnd := rfl
  refine ⟨AmitReductionEvent.held_eq hC hD (by linarith), ?_, by linarith⟩
  rw [AmitReductionEvent.held_eq (e := e.carryOut moved) (add_nonneg hC hm) hD
    (show e.carriedOut + moved + e.disposedByYearEnd ≤ _ by linarith), hheld]
  change parcel.quantity - (e.carriedOut + moved) - e.disposedByYearEnd = _
  ring

/-- The source once `moved` more units have been carried out of the parcel. -/
def ReductionSource.carryOut (moved : ℚ) : ReductionSource → ReductionSource
  | .inl e => .inl (e.carryOut moved)
  | .inr row => .inr row

theorem ReductionSource.carryOut_order (moved : ℚ) (s : ReductionSource) :
    (s.carryOut moved).order = s.order := by
  cases s <;> rfl

theorem unitCost_carryOut (whereabouts : Whereabouts) (amitEvents : List AmitReductionEvent)
    (payments : List CostBaseAdjustment) :
    unitCost parcel whereabouts (amitEvents.map (·.carryOut moved)) payments =
      FlooredWalk.final (fun s => (ReductionSource.carryOut moved s).perUnit parcel whereabouts)
        (parcel.initialCost / parcel.quantity) (reductionSources amitEvents payments) := by
  have hmap : reductionSources (amitEvents.map (·.carryOut moved)) payments =
      (reductionSources amitEvents payments).map (ReductionSource.carryOut moved) := by
    unfold reductionSources
    rw [StableSort.map_sortBy _ (ReductionSource.carryOut_order moved), List.map_append,
      List.map_map, List.map_map, List.map_map]
    rfl
  rw [unitCost, hmap, FlooredWalk.final_map]
  rfl

/-- A source of the pipeline's walk: a statement in scope, or a payment's row. -/
theorem mem_reductionSources {payments : List CostBaseAdjustment} {s : ReductionSource}
    (hs : s ∈ reductionSources
      (costBaseReductionEvents splits parcel.tradeDate rows consumed (some date)) payments) :
    (∃ row ∈ rows, row.taxYearEndDate ≤ date ∧ s = .inl (reductionEvent splits parcel.tradeDate
      (unitsSold consumed (some date)) row)) ∨ ∃ row ∈ payments, s = .inr row := by
  rcases List.mem_append.mp (StableSort.mem_sortBy.mp hs) with hs | hs
  · obtain ⟨e, he, rfl⟩ := List.mem_map.mp hs
    obtain ⟨row, hrow, rfl⟩ := List.mem_map.mp he
    have hscope := List.mem_filter.mp (StableSort.mem_sortBy.mp hrow)
    exact .inl ⟨row, hscope.1, by simpa using hscope.2, rfl⟩
  · obtain ⟨row, hrow, rfl⟩ := List.mem_map.mp hs
    exact .inr ⟨row, hrow, rfl⟩

/-- The figure a statement states for one as-acquired unit of the parcel. -/
def statedPerUnit (parcel : Parcel) (splits : List SplitEvent) (row : AmitAdjustment) : ℚ :=
  (rebaseRatio splits (some parcel.tradeDate) (some row.taxYearEndDate)).factor *
    row.costBaseAdjustment

/-- A statement's rate on the units in the parcel, before the transfer and after it. -/
theorem perUnit_statement (splits : List SplitEvent)
    (hconsumed : ∀ c ∈ consumed, 0 ≤ c.units) (hm : 0 ≤ moved)
    (hle : moved ≤ remainingUnits parcel consumed (some date)) (row : AmitAdjustment) :
    let sold := unitsSold consumed (some date)
    let s : ReductionSource := .inl (reductionEvent splits parcel.tradeDate sold row)
    s.perUnit parcel .inParcel = statedPerUnit parcel splits row *
        shareRate row.quantity (heldForStatement parcel sold row) ∧
      (s.carryOut moved).perUnit parcel .inParcel = statedPerUnit parcel splits row *
        shareRate row.quantity (heldForStatement parcel sold row - moved) := by
  intro sold s
  obtain ⟨hbefore, hafter, -⟩ := held_reductionEvent splits hconsumed hm hle row
  have hstated : statedPerUnit parcel splits row =
      (reductionEvent splits parcel.tradeDate sold row).perUnit := by
    change _ = splitAdjustedQuantity 1 splits parcel.tradeDate _ * row.costBaseAdjustment
    rw [splitAdjustedQuantity_eq, one_mul]
    rfl
  refine ⟨?_, ?_⟩
  · change AmitReductionEvent.perUnitFor _ _ _ = _
    rw [AmitReductionEvent.perUnitFor_inParcel, hbefore, hstated]
    rfl
  · change AmitReductionEvent.perUnitFor _ _ _ = _
    rw [AmitReductionEvent.perUnitFor_inParcel, hafter, hstated]
    rfl

/-- The cost base one open unit of the parcel is left with at `date`. -/
def unitCostAt (parcel : Parcel) (splits : List SplitEvent) (rows : List AmitAdjustment)
    (consumed : List UnitsConsumed) (date : NaiveDate) (payments : List CostBaseAdjustment) : ℚ :=
  unitCost parcel .inParcel
    (costBaseReductionEvents splits parcel.tradeDate rows consumed (some date)) payments

theorem openCostBase_eq (hq : 0 < parcel.quantity)
    (hpos : 0 < remainingUnits parcel consumed (some date)) {payments : List CostBaseAdjustment}
    (hpayments : rocRows parcel 1 splits (.asAt (some date)) rocEvents = .ok payments) :
    openCostBase parcel splits rocEvents rows consumed (some date) =
      .ok (unitCostAt parcel splits rows consumed date payments *
        remainingUnits parcel consumed (some date)) := by
  obtain ⟨costBase, hcost, hadjusted⟩ := adjustedCostBase_eq_unitCost hq hpos.le
    (costBaseReductionEvents splits parcel.tradeDate rows consumed (some date)) hpayments
  simp only [openCostBase, if_neg (not_le.mpr hpos), hcost]
  exact congrArg Except.ok hadjusted

theorem payments_of_openCostBase (hpos : 0 < remainingUnits parcel consumed (some date)) {cost : ℚ}
    (h : openCostBase parcel splits rocEvents rows consumed (some date) = .ok cost) :
    ∃ payments, rocRows parcel 1 splits (.asAt (some date)) rocEvents = .ok payments := by
  rw [openCostBase, if_neg (not_le.mpr hpos)] at h
  obtain ⟨costBase, hcost, -⟩ := bind_ok h
  exact payments_of_adjustedCostBase hcost

theorem payments_nonneg {payments : List CostBaseAdjustment} {held : Held}
    (h : rocRows parcel 1 splits held rocEvents = .ok payments) :
    ∀ row ∈ payments, 0 ≤ row.perUnit.getD 0 := by
  intro row hrow
  obtain ⟨e, -, he⟩ := mem_gather h hrow
  obtain ⟨perUnit, hper, he⟩ := bind_ok he
  cases perUnit with
  | none => cases he
  | some p =>
    cases he
    exact (RocEvent.perUnitFor_pos hper).le

section UnitCosts
variable {payments : List CostBaseAdjustment}

theorem unitCostAt_recordTransferOut :
    unitCostAt parcel splits rows (recordTransferOut consumed date moved) date payments =
      FlooredWalk.final (fun s => (ReductionSource.carryOut moved s).perUnit parcel .inParcel)
        (parcel.initialCost / parcel.quantity) (reductionSources
          (costBaseReductionEvents splits parcel.tradeDate rows consumed (some date)) payments) := by
  rw [unitCostAt, events_recordTransferOut, unitCost_carryOut]

variable (hconsumed : ∀ c ∈ consumed, 0 ≤ c.units) (hm : 0 < moved)
  (hlt : moved < remainingUnits parcel consumed (some date))
include hconsumed hm hlt

/-- Where every rate is kept, the units left keep their cost base. -/
theorem unitCostAt_of_keepsRates (hkeeps : KeepsRates parcel rows consumed date moved) :
    unitCostAt parcel splits rows (recordTransferOut consumed date moved) date payments =
      unitCostAt parcel splits rows consumed date payments := by
  rw [unitCostAt_recordTransferOut]
  refine FlooredWalk.final_congr (fun s hs => ?_) _
  rcases mem_reductionSources hs with ⟨row, hrow, hscope, rfl⟩ | ⟨row, -, rfl⟩
  · obtain ⟨hbefore, hafter⟩ := perUnit_statement splits hconsumed hm.le hlt.le row
    obtain ⟨-, -, hheld⟩ := held_reductionEvent splits hconsumed hm.le hlt.le row
    rw [hbefore, hafter]
    rcases (hkeeps.resolve_left hlt.ne) row hrow hscope with h0 | hcover
    · rw [statedPerUnit, h0, mul_zero, zero_mul, zero_mul]
    · rw [shareRate_sub hm.le (by linarith) hcover]
  · rfl

section NoIncrease
variable (hrows : ∀ row ∈ rows, 0 ≤ row.costBaseAdjustment ∧ 0 ≤ row.quantity)
  (hpayments : ∀ row ∈ payments, 0 ≤ row.perUnit.getD 0)
include hrows hpayments

/-- Without upward adjustments no source's rate falls with the transfer. -/
theorem perUnit_le_carryOut {s : ReductionSource} (hs : s ∈ reductionSources
    (costBaseReductionEvents splits parcel.tradeDate rows consumed (some date)) payments) :
    0 ≤ s.perUnit parcel .inParcel ∧
      s.perUnit parcel .inParcel ≤ (s.carryOut moved).perUnit parcel .inParcel := by
  rcases mem_reductionSources hs with ⟨row, hrow, -, rfl⟩ | ⟨row, hrow, rfl⟩
  · obtain ⟨hbefore, hafter⟩ := perUnit_statement splits hconsumed hm.le hlt.le row
    obtain ⟨-, -, hheld⟩ := held_reductionEvent splits hconsumed hm.le hlt.le row
    have hstated : 0 ≤ statedPerUnit parcel splits row :=
      mul_nonneg (SplitRatio.factor_pos _).le (hrows row hrow).1
    rw [hbefore, hafter]
    exact ⟨mul_nonneg hstated (shareRate_nonneg (hrows row hrow).2),
      mul_le_mul_of_nonneg_left (shareRate_le hm (by linarith) (hrows row hrow).2) hstated⟩
  · exact ⟨hpayments row hrow, le_rfl⟩

/-- A partial row takes more off the units left than it took off the holding. -/
theorem sum_perUnit_lt (hnot : ¬ KeepsRates parcel rows consumed date moved) :
    ((reductionSources (costBaseReductionEvents splits parcel.tradeDate rows consumed (some date))
        payments).map (ReductionSource.perUnit parcel .inParcel)).sum <
      ((reductionSources (costBaseReductionEvents splits parcel.tradeDate rows consumed (some date))
        payments).map fun s => (ReductionSource.carryOut moved s).perUnit parcel .inParcel).sum := by
  unfold KeepsRates at hnot
  push Not at hnot
  obtain ⟨-, row, hrow, hscope, hcba, hquantity, hpart⟩ := hnot
  obtain ⟨hbefore, hafter⟩ := perUnit_statement splits hconsumed hm.le hlt.le row
  obtain ⟨-, -, hheld⟩ := held_reductionEvent splits hconsumed hm.le hlt.le row
  refine List.sum_lt_sum _ _
    (fun s hs => (perUnit_le_carryOut hconsumed hm hlt hrows hpayments hs).2)
    ⟨.inl (reductionEvent splits parcel.tradeDate (unitsSold consumed (some date)) row), ?_, ?_⟩
  · refine StableSort.mem_sortBy.mpr (List.mem_append_left _ (List.mem_map_of_mem ?_))
    refine List.mem_map_of_mem (StableSort.mem_sortBy.mpr (List.mem_filter.mpr ⟨hrow, ?_⟩))
    simpa using hscope
  · have hstated : 0 < statedPerUnit parcel splits row :=
      mul_pos (SplitRatio.factor_pos _) ((hrows row hrow).1.lt_of_ne' hcba)
    have hcovered : 0 < row.quantity := (hrows row hrow).2.lt_of_ne' hquantity
    rw [hbefore, hafter]
    exact mul_lt_mul_of_pos_left (shareRate_lt hm (by linarith) hcovered hpart) hstated

/-- Without upward adjustments the units left keep their cost base exactly where
it was nil already or every rate is kept. -/
theorem unitCostAt_eq_iff (hq : 0 < parcel.quantity) :
    unitCostAt parcel splits rows (recordTransferOut consumed date moved) date payments =
        unitCostAt parcel splits rows consumed date payments ↔
      unitCostAt parcel splits rows consumed date payments = 0 ∨
        KeepsRates parcel rows consumed date moved := by
  have hstart : 0 ≤ parcel.initialCost / parcel.quantity :=
    div_nonneg (parcel.initialCost_nonneg hq.le) hq.le
  have hrates : ∀ s ∈ reductionSources
      (costBaseReductionEvents splits parcel.tradeDate rows consumed (some date)) payments,
      0 ≤ s.perUnit parcel .inParcel ∧
        s.perUnit parcel .inParcel ≤ (s.carryOut moved).perUnit parcel .inParcel :=
    fun s hs => perUnit_le_carryOut hconsumed hm hlt hrows hpayments hs
  have hiff := FlooredWalk.final_eq_iff hstart (fun s hs => (hrates s hs).1)
    (fun s hs => (hrates s hs).2)
  rw [← unitCostAt_recordTransferOut] at hiff
  constructor
  · intro heq
    refine (hiff.mp heq).imp_right fun hnot => ?_
    by_contra hkeeps
    exact hnot (sum_perUnit_lt hconsumed hm hlt hrows hpayments hkeeps)
  · rintro (h0 | hkeeps)
    · exact hiff.mpr (.inl h0)
    · exact unitCostAt_of_keepsRates hconsumed hm hlt hkeeps

end NoIncrease

end UnitCosts

end Transfer

theorem moved_add_left_iff {u u' m n : ℚ} (h : 0 < n - m) :
    u * m + u' * (n - m) = u * n ↔ u' = u := by
  constructor
  · intro heq
    have hmul : u' * (n - m) = u * (n - m) := by linarith
    exact mul_right_cancel₀ h.ne' hmul
  · rintro rfl
    ring

/-- A transfer moves cost base and neither makes nor loses any wherever it keeps
every statement's rate on the units it leaves. Without upward adjustments that
is the only way, but for a holding whose cost base was nil already: a row over
some of the units is then taken off the moved units at the diluted rate and off
the units left at the whole one. -/
theorem transfer_conserves_costBase (row : ParcelRow) (hq : 0 < row.parcel.quantity)
    (splits : List SplitEvent) (rocEvents : List RocEvent) (rows : List AmitAdjustment)
    {consumed : List UnitsConsumed} (hconsumed : ∀ c ∈ consumed, 0 ≤ c.units) (date : NaiveDate)
    {quantityAllocated : ℚ} (hallocated : 0 < quantityAllocated) :
    let inputs := CostBaseInputs.load splits row.parcel.tradeDate rocEvents rows consumed date
    let moved := movedUnits inputs row quantityAllocated
    ∀ {before : ℚ}, moved ≤ remainingUnits row.parcel consumed (some date) →
      openCostBase row.parcel splits rocEvents rows consumed (some date) = .ok before →
      ∃ replacement left, transferIn inputs row quantityAllocated = .ok replacement ∧
        openCostBase row.parcel splits rocEvents rows (recordTransferOut consumed date moved)
          (some date) = .ok left ∧
        (KeepsRates row.parcel rows consumed date moved →
          replacement.carriedCostBase + left = before) ∧
        ((∀ r ∈ rows, 0 ≤ r.costBaseAdjustment ∧ 0 ≤ r.quantity) →
          (replacement.carriedCostBase + left = before ↔
            before = 0 ∨ KeepsRates row.parcel rows consumed date moved)) := by
  intro inputs moved before hle hbefore
  have hm : 0 < moved := by
    change 0 < asAcquiredQuantity _ _ _ _
    rw [asAcquiredQuantity_eq]
    exact mul_pos hallocated (SplitRatio.factor_pos _)
  have hpos := hm.trans_le hle
  obtain ⟨payments, hpayments⟩ := payments_of_openCostBase hpos hbefore
  rw [openCostBase_eq hq hpos hpayments] at hbefore
  cases hbefore
  obtain ⟨costBase, hcost, hadjusted⟩ := adjustedCostBase_eq_unitCost hq hm.le
    inputs.amitEvents hpayments
  have hin : transferIn inputs row quantityAllocated = .ok {
      quantity := quantityAllocated
      carriedCostBase := costBase.adjusted
      currency := row.parcel.currency
      fxRate := row.fxRate
      spotFxRate := row.spotFxRate
      deemedAcquisitionDate := row.acquired } := by
    unfold transferIn CostBaseInputs.carriedCostBase
    rw [show adjustedCostBase row.parcel (movedUnits inputs row quantityAllocated)
      inputs.amitEvents inputs.rocEvents inputs.splits (.asAt (some inputs.upTo)) = .ok costBase
      from hcost]
    rfl
  have hcarried : costBase.adjusted =
      unitCostAt row.parcel splits rows consumed date payments * moved := hadjusted
  have hremaining := remainingUnits_recordTransferOut row.parcel consumed date moved
  rcases hle.eq_or_lt with hall | hlt
  · -- the whole holding moves: nothing is left to be costed
    have hkeeps : KeepsRates row.parcel rows consumed date moved := .inl hall
    refine ⟨_, 0, hin, ?_, fun _ => ?_, fun _ => iff_of_true ?_ (.inr hkeeps)⟩
    · rw [openCostBase, if_pos (by rw [hremaining, hall, sub_self])]
    · rw [add_zero, hcarried, hall]
    · rw [add_zero, hcarried, hall]
  · have hleft : 0 < remainingUnits row.parcel consumed (some date) - moved := sub_pos.mpr hlt
    refine ⟨_, _, hin, openCostBase_eq hq (by rw [hremaining]; exact hleft) hpayments,
      fun hkeeps => ?_, fun hrows => ?_⟩
    · rw [hremaining, hcarried, unitCostAt_of_keepsRates hconsumed hm hlt hkeeps]
      ring
    · rw [hremaining, hcarried, moved_add_left_iff hleft, mul_eq_zero, or_iff_left hpos.ne']
      exact unitCostAt_eq_iff hconsumed hm hlt hrows (payments_nonneg hpayments) hq

section Sample

/-- A statement of the year to 30 June 2024 on `quantity` units. -/
def sampleStatement (quantity costBaseAdjustment : ℚ) : AmitAdjustment :=
  ⟨1, ymd 2024 6 30, quantity, costBaseAdjustment⟩

def sampleTransferDate : NaiveDate := ymd 2024 8 1

/-- 40 of 100 units moved after a statement of 50 cents a unit on all of them:
of the $50 left, $20 goes and $30 stays. -/
theorem transfer_conserves_costBase_covered :
    ∃ replacement left, transferIn
        (.load [] sampleRow.parcel.tradeDate [] [sampleStatement 100 (1 / 2)] [] sampleTransferDate)
        sampleRow 40 = .ok replacement ∧
      openCostBase sampleRow.parcel [] [] [sampleStatement 100 (1 / 2)]
        (recordTransferOut [] sampleTransferDate 40) (some sampleTransferDate) = .ok left ∧
      replacement.carriedCostBase + left = 50 := by
  obtain ⟨replacement, left, hin, hleft, hkeeps, -⟩ :=
    transfer_conserves_costBase sampleRow (by decide) [] [] [sampleStatement 100 (1 / 2)]
      (fun _ h => absurd h List.not_mem_nil) sampleTransferDate (by norm_num : (0 : ℚ) < 40)
      (by decide +kernel) (show _ = Except.ok (50 : ℚ) by decide +kernel)
  exact ⟨replacement, left, hin, hleft, hkeeps (.inr (by decide +kernel))⟩

/-- The same move after a statement of $1 on 60 of the units: $40 was left, $16
is carried and nothing stays. -/
theorem transfer_loses_costBase :
    openCostBase sampleRow.parcel [] [] [sampleStatement 60 1] [] (some sampleTransferDate) =
        .ok 40 ∧
      (transferIn (.load [] sampleRow.parcel.tradeDate [] [sampleStatement 60 1] []
        sampleTransferDate) sampleRow 40).toOption.map (·.carriedCostBase) = some 16 ∧
      openCostBase sampleRow.parcel [] [] [sampleStatement 60 1]
        (recordTransferOut [] sampleTransferDate 40) (some sampleTransferDate) = .ok 0 := by
  decide +kernel

end Sample

end ShareTracker
