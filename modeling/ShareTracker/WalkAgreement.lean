import ShareTracker.NonDisposalGains

/-!
The E10/G1 walk of the net capital gain report and the cost-base pipeline apply
the same reductions: same balances, same overruns, same totals.
-/
namespace ShareTracker

/-- How the pipeline costs a cohort: units still held, or a real disposal's.
Units a rollover carried out are costed by the operation, not by a report. -/
def Cohort.costedAs (c : Cohort) : Option Held :=
  match c.leftOn with
  | none => some (.asAt none)
  | some d => if c.disposal then some (.disposedOn d) else none

namespace Reduction

/-- Whether the pipeline gives the reduction a row. -/
def reaches (held : Held) : Reduction → Bool
  | amit _ => true
  | roc date _ _ _ => held.upTo.all fun d => decide (date ≤ d)

/-- The pipeline's row of the reduction. -/
def row (parcel : Parcel) (units : ℚ) (held : Held) : Reduction → CostBaseAdjustment
  | amit e => amitRow parcel units held.whereabouts e
  | roc date _ perUnit _ => rocRow parcel units date perUnit

variable (parcel : Parcel) (units : ℚ) (held : Held) (r : Reduction)

theorem row_order : (r.row parcel units held).order = r.order := by
  cases r <;> rfl

theorem row_reduces : (r.row parcel units held).reduces = true := by
  cases r <;> rfl

theorem row_capped : (r.row parcel units held).capped = false := by
  cases r <;> rfl

variable {held r}

theorem row_amount {c : Cohort} (hc : c.costedAs = some held) (hr : r.reaches held = true) :
    (r.row parcel c.units held).amount = c.reduction parcel.quantity r := by
  unfold Cohort.costedAs at hc
  unfold Cohort.reduction
  cases hl : c.leftOn with
  | none =>
    rw [hl] at hc
    cases hc
    cases r <;> rfl
  | some d =>
    rw [hl] at hc
    simp only [Option.ite_none_right_eq_some, Option.some.injEq] at hc
    obtain ⟨hdisposal, rfl⟩ := hc
    rw [hdisposal]
    cases r with
    | amit e => rfl
    | roc date currency perUnit recordDate =>
      simp only [reaches, Held.upTo, Option.all_some] at hr
      simp [row, rocRow, reductionForUnits, hr]

theorem reduction_of_not_reaches {c : Cohort} (hc : c.costedAs = some held)
    (hr : r.reaches held = false) : c.reduction parcel.quantity r = 0 := by
  unfold Cohort.costedAs at hc
  unfold Cohort.reduction
  cases r with
  | amit e => cases hr
  | roc date currency perUnit recordDate =>
    cases hl : c.leftOn with
    | none =>
      rw [hl] at hc
      cases hc
      cases hr
    | some d =>
      rw [hl] at hc
      simp only [Option.ite_none_right_eq_some, Option.some.injEq] at hc
      obtain ⟨-, rfl⟩ := hc
      simp only [reaches, Held.upTo, Option.all_some] at hr
      simp [reductionForUnits, hr]

/-- A payment after a disposal gets no row. -/
theorem not_reaches_of_left {c : Cohort} (hc : c.costedAs = some held)
    (h : c.disposal = true ∧ c.leftOn.any (fun d => decide (d < r.date)) = true ∧ r.rank = 1) :
    r.reaches held = false := by
  obtain ⟨hdisposal, hleft, hrank⟩ := h
  unfold Cohort.costedAs at hc
  cases r with
  | amit e => cases hrank
  | roc date currency perUnit recordDate =>
    cases hl : c.leftOn with
    | none => simp [hl] at hleft
    | some d =>
      simp only [hl, Option.any_some, decide_eq_true_eq] at hleft
      rw [hl, hdisposal] at hc
      cases hc
      exact decide_eq_false (not_le.mpr hleft)

end Reduction

section Agreement
variable {parcel : Parcel} {amitEvents : List AmitReductionEvent} {rocEvents : List RocEvent}
  {splits : List SplitEvent}

/-- The pipeline's payment rows are the walk's payments that reach the units. -/
theorem rocRows_of_payments {payments : List Reduction} (units : ℚ) (held : Held)
    (h : gather (paymentReduction parcel splits) rocEvents = .ok payments) :
    rocRows parcel units splits held rocEvents =
      .ok ((payments.filter (·.reaches held)).map (·.row parcel units held)) := by
  refine gather_restrict ?_ h
  intro e o he
  unfold paymentReduction at he
  split at he
  · rename_i hbefore
    cases he
    rw [paymentRow, RocEvent.perUnitFor_before e splits parcel.currency parcel.settled_ge parcel.rollover_on
      hbefore]
    rfl
  · obtain ⟨perUnit, hper, he⟩ := bind_ok he
    cases he
    rw [paymentRow, RocEvent.perUnitFor_upTo, hper]
    cases perUnit with
    | none => split <;> rfl
    | some p =>
      cases hd : held.upTo with
      | none => simp [Reduction.reaches, hd, Option.filter, Reduction.row]
      | some d =>
        by_cases hle : e.date ≤ d
        · simp [Reduction.reaches, hd, hle, Option.filter, Reduction.row, not_lt.mpr hle]
        · simp [Reduction.reaches, hd, hle, Option.filter, not_le.mp hle]

/-- The pipeline succeeds where the walk's reductions load, and its reducing
rows are the walk's reductions that reach the units, in the walk's order. -/
theorem reductionWalk_of_reductions {events : List Reduction} (units : ℚ) (held : Held)
    (h : parcelReductions parcel amitEvents rocEvents splits = .ok events) :
    ∃ rows, reductionWalk parcel units amitEvents rocEvents splits held =
        .ok (applyRows (startingCost parcel units) rows) ∧
      (∀ row ∈ rows, row.capped = false) ∧
      rows.filter (·.reduces) =
        (events.filter (·.reaches held)).map (·.row parcel units held) := by
  obtain ⟨payments, hpay, h⟩ := bind_ok h
  cases h
  refine ⟨_, by rw [reductionWalk, rocRows_of_payments units held hpay]; rfl, ?_, ?_⟩
  · intro row hrow
    simp only [StableSort.mem_sortBy, List.mem_append, List.mem_map] at hrow
    obtain (⟨e, -, rfl⟩ | ⟨r, -, rfl⟩) | hsplit := hrow
    · rfl
    · exact r.row_capped parcel units held
    · obtain ⟨s, -, rfl⟩ := List.mem_map.mp hsplit
      rfl
  · have hamit : ∀ row ∈ amitEvents.map (amitRow parcel units held.whereabouts),
        row.reduces = true := by
      intro row hrow
      obtain ⟨e, -, rfl⟩ := List.mem_map.mp hrow
      rfl
    have hroc : ∀ row ∈ (payments.filter (·.reaches held)).map (·.row parcel units held),
        row.reduces = true := by
      intro row hrow
      obtain ⟨r, -, rfl⟩ := List.mem_map.mp hrow
      exact r.row_reduces parcel units held
    have hsplit : ∀ row ∈ splitRows parcel splits held, ¬ row.reduces = true := by
      intro row hrow
      obtain ⟨s, -, rfl⟩ := List.mem_map.mp hrow
      simp [splitRow, CostBaseAdjustment.reduces]
    have hall : ∀ r ∈ amitEvents.map Reduction.amit, r.reaches held = true := by
      intro r hr
      obtain ⟨e, -, rfl⟩ := List.mem_map.mp hr
      rfl
    rw [StableSort.filter_sortBy, StableSort.filter_sortBy,
      StableSort.map_sortBy _ (fun r => r.row_order parcel units held), List.filter_append,
      List.filter_append, List.filter_eq_self.mpr hamit, List.filter_eq_self.mpr hroc,
      List.filter_eq_nil_iff.mpr hsplit, List.append_nil, List.filter_append, List.map_append,
      List.filter_eq_self.mpr hall, List.map_map]
    rfl

/-- A payment that reaches the parcel is in the parcel's own currency. -/
theorem parcelReductions_currency {events : List Reduction}
    (h : parcelReductions parcel amitEvents rocEvents splits = .ok events) :
    ∀ r ∈ events, r.currency parcel = parcel.currency := by
  obtain ⟨payments, hpay, h⟩ := bind_ok h
  cases h
  intro r hr
  simp only [StableSort.mem_sortBy, List.mem_append, List.mem_map] at hr
  rcases hr with ⟨e, -, rfl⟩ | hr
  · rfl
  · obtain ⟨e, -, he⟩ := mem_gather hpay hr
    unfold paymentReduction at he
    split at he
    · cases he
    · obtain ⟨perUnit, hper, he⟩ := bind_ok he
      cases perUnit with
      | none => cases he
      | some p =>
        cases he
        exact RocEvent.perUnitFor_currency hper

/-- The pipeline's figures for a cohort are those of the floored walk over the
cohort's reductions; the events it gives no row take nothing. -/
theorem pipeline_of_reductions (hq : 0 < parcel.quantity) {events : List Reduction}
    (hevents : parcelReductions parcel amitEvents rocEvents splits = .ok events)
    (c : Cohort) {held : Held} (hc : c.costedAs = some held) :
    ∃ costBase rows,
      adjustedCostBase parcel c.units amitEvents rocEvents splits held = .ok costBase ∧
      adjustmentDetail parcel c.units amitEvents rocEvents splits held = .ok rows ∧
      costBase.costedInitialCost = cohortInitialCost parcel c.units ∧
      costBase.adjusted = FlooredWalk.final (c.reduction parcel.quantity)
        (cohortInitialCost parcel c.units) events ∧
      rows.filter (·.capped) = (FlooredWalk.overruns (c.reduction parcel.quantity)
        (cohortInitialCost parcel c.units) events).map
          (fun s => { s.1.row parcel c.units held with capped := true }) ∧
      costBase.amitReduction + costBase.rocReduction =
        (events.map (c.reduction parcel.quantity)).sum := by
  obtain ⟨rows, hrows, huncapped, hreduces⟩ := reductionWalk_of_reductions c.units held hevents
  have hstart : startingCost parcel c.units = cohortInitialCost parcel c.units := if_pos hq
  have hstart0 : 0 ≤ cohortInitialCost parcel c.units := by
    rw [cohortInitialCost, proratedInitialCost_eq hq]
    exact div_nonneg (mul_nonneg (parcel.initialCost_nonneg hq.le) c.units_pos.le) hq.le
  have hnil : ∀ r ∈ events, r.reaches held = false → c.reduction parcel.quantity r = 0 :=
    fun r _ => Reduction.reduction_of_not_reaches parcel hc
  have hamount : ∀ r ∈ events.filter (·.reaches held),
      ((·.amount) ∘ fun r => r.row parcel c.units held) r = c.reduction parcel.quantity r :=
    fun r hr => Reduction.row_amount parcel hc (List.mem_filter.mp hr).2
  rw [hstart] at hrows
  refine ⟨_, _, by rw [adjustedCostBase, hrows]; rfl, by rw [adjustmentDetail, hrows]; rfl, hstart,
    ?_, ?_, ?_⟩
  · rw [applyRows_final, hreduces, FlooredWalk.final_map, FlooredWalk.final_congr hamount,
      FlooredWalk.final_filter _ hstart0 hnil]
  · rw [applyRows_capped _ huncapped, hreduces, FlooredWalk.overruns_map,
      FlooredWalk.overruns_congr hamount, FlooredWalk.overruns_filter _ hstart0 hnil,
      List.map_map]
    rfl
  · rw [applyRows_reductionOf, applyRows_reductionOf, reductionOf_add, hreduces, List.map_map,
      List.map_congr_left hamount, FlooredWalk.sum_filter hnil]

/-- The E10/G1 walk agrees with the cost-base pipeline on every cohort a report
costs: the same balance is left, the rows flagged are the events that raised an
E10 or G1 gain, and what the reductions take is what the balance lost and what
those gains brought to tax. A C2 gain belongs to a payment the pipeline gives
no row. -/
theorem walkCohort_agrees (fx : FxRates) (row : ParcelRow) (hq : 0 < row.parcel.quantity)
    {events : List Reduction}
    (hevents : parcelReductions row.parcel amitEvents rocEvents splits = .ok events)
    (c : Cohort) {held : Held} (hc : c.costedAs = some held)
    {outcomes : List EventOutcome} {remaining : ℚ}
    (hwalk : walkCohort fx row events c = .ok (outcomes, remaining)) :
    ∃ costBase rows,
      adjustedCostBase row.parcel c.units amitEvents rocEvents splits held = .ok costBase ∧
      adjustmentDetail row.parcel c.units amitEvents rocEvents splits held = .ok rows ∧
      outcomes.map (·.event) = events ∧
      remaining = costBase.adjusted ∧
      (outcomes.filter (·.overran)).map
          (fun o => { o.event.row row.parcel c.units held with capped := true }) =
        rows.filter (·.capped) ∧
      costBase.costedInitialCost - (costBase.amitReduction + costBase.rocReduction) =
        remaining - ((outcomes.filter (·.overran)).map fun o => o.amount - o.before).sum ∧
      (outcomes.map (·.amount)).sum = costBase.amitReduction + costBase.rocReduction ∧
      ∀ o ∈ outcomes, (o.gains.filter fun g => g.kind != .c2).length ≤ 1 ∧ ∀ g ∈ o.gains,
        (g.kind = .c2 → o.event.reaches held = false ∧ o.amount = 0) ∧
        (g.kind ≠ .c2 → excessGain fx row o.event o.amount o.before = .ok g ∧
          (row.parcel.currency.isAud → g.amount = o.amount - o.before)) := by
  obtain ⟨costBase, rows, hcost, hdetail, hcosted, hadjusted, hcapped, hsum⟩ :=
    pipeline_of_reductions hq hevents c hc
  obtain ⟨hsteps, hfinal, hsound⟩ := cohortWalk_spec hwalk
  have hover := cohortWalk_overruns hwalk
  have hmap : outcomes.map (·.event) = events := by
    have := congrArg (List.map Prod.fst) hsteps
    rwa [List.map_map, FlooredWalk.steps_map_fst] at this
  refine ⟨costBase, rows, hcost, hdetail, hmap, ?_, ?_, ?_, ?_, ?_⟩
  · rw [hadjusted, hfinal]
  · rw [hcapped, ← hover, List.map_map]
    rfl
  · have hconserves := FlooredWalk.conserves (c.reduction row.parcel.quantity)
      (cohortInitialCost row.parcel c.units) events
    rw [← hover, List.map_map] at hconserves
    rw [hcosted, hsum, hfinal, hconserves]
    congr 2
    refine List.map_congr_left fun o ho => ?_
    rw [(hsound o (List.mem_filter.mp ho).1).amount_eq]
    rfl
  · rw [hsum, ← hmap, List.map_map]
    exact congrArg List.sum (List.map_congr_left fun o ho => (hsound o ho).amount_eq)
  · intro o ho
    have hs := hsound o ho
    refine ⟨hs.single, fun g hg => ⟨fun hkind => ?_, fun hkind => ⟨hs.excess g hg hkind, ?_⟩⟩⟩
    · have hreach := Reduction.not_reaches_of_left hc (hs.right g hg hkind)
      exact ⟨hreach, by rw [hs.amount_eq, Reduction.reduction_of_not_reaches row.parcel hc hreach]⟩
    · intro haud
      have hover : o.overran = true := List.any_eq_true.mpr ⟨g, hg, by simpa using hkind⟩
      have hmem : o.event ∈ events := hmap ▸ List.mem_map_of_mem ho
      exact excessGain_aud haud (parcelReductions_currency hevents o.event hmem)
        (hs.overran_iff.mp hover) (hs.excess g hg hkind)

end Agreement

section Sample

/-- A payment of $1.50 a unit on 20 June 2024 to the register of 1 June. -/
def samplePayment : RocEvent where
  date := ymd 2024 6 20
  amountPerUnit := 3 / 2
  currency := ⟨"AUD"⟩
  recordDate := some (ymd 2024 6 1)
  amount_pos := by norm_num
  recordDate_le := by decide

def sampleHeld : Cohort := ⟨none, none, false, 100, by norm_num⟩

/-- Sold on 10 June 2024, off the register on the 12th. -/
def sampleSold : Cohort where
  leftOn := some (ymd 2024 6 10)
  leftRegisterOn := some (ymd 2024 6 12)
  disposal := true
  units := 100
  units_pos := by norm_num

def sampleReduction : Reduction :=
  .roc samplePayment.date samplePayment.currency (3 / 2) samplePayment.recordDate

/-- Units still held meet the payment: $50 runs past nil, raised and flagged. -/
theorem walkCohort_agrees_held :
    ∃ costBase rows,
      adjustedCostBase sampleRow.parcel 100 [] [samplePayment] [] (.asAt none) = .ok costBase ∧
      adjustmentDetail sampleRow.parcel 100 [] [samplePayment] [] (.asAt none) = .ok rows ∧
      0 = costBase.adjusted ∧ (rows.filter (·.capped)).length = 1 := by
  have hevents : parcelReductions sampleRow.parcel [] [samplePayment] [] =
      .ok [sampleReduction] := by decide +kernel
  have hwalk : walkCohort ⟨fun _ => none⟩ sampleRow [sampleReduction] sampleHeld =
      .ok ([⟨sampleReduction, 150, 100, [⟨.g1, 2024, 50, false⟩]⟩], 0) := by decide +kernel
  obtain ⟨costBase, rows, hcost, hdetail, -, hleft, hcapped, -⟩ :=
    walkCohort_agrees _ sampleRow (by decide) hevents sampleHeld rfl hwalk
  refine ⟨costBase, rows, hcost, hdetail, hleft, ?_⟩
  rw [← hcapped]
  rfl

/-- Units sold between the record date and the payment raise a C2 gain at a
payment the pipeline flags nowhere. -/
theorem walkCohort_c2_unflagged :
    parcelReductions sampleRow.parcel [] [samplePayment] [] = .ok [sampleReduction] ∧
      (walkCohort ⟨fun _ => none⟩ sampleRow [sampleReduction] sampleSold).toOption.map
        (fun walk => walk.1.flatMap (·.gains)) = some [⟨.c2, 2024, 150, false⟩] ∧
      (adjustmentDetail sampleRow.parcel 100 [] [samplePayment] []
        (.disposedOn (ymd 2024 6 10))).toOption.map
          (·.filter (·.capped)) = some [] := by
  decide +kernel

end Sample

end ShareTracker
