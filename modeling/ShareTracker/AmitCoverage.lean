import ShareTracker.NonDisposalGains
import ShareTracker.TransferConservation
import ShareTracker.Lib.Tally

/-!
What one statement's row takes off each group of a parcel's units. The units
consumed of the parcel are read in date order into its as-acquired basis, and
the row's coverage runs over the units held, those carried out and those sold in
the income year: however the units are grouped, the groups are charged the row's
own total, and none of them less than nothing.
-/
namespace ShareTracker.AmitCoverage

/-! ### The units consumed -/

/-- An allocation out of a parcel, counted in its own date's units: a real
disposal's, or one of a rollover's closing Sell. -/
structure Consumption where
  date : NaiveDate
  settled : NaiveDate
  disposal : Bool
  quantity : ℚ
  quantity_pos : 0 < quantity

section Walk
variable (quantity : ℚ) (splits : List SplitEvent) (tradeDate : NaiveDate)

/-- The allocations in date order, each in as-acquired units: one that states
exactly what is left on its date takes exactly what is left. -/
def walkUnits : ℚ → List (Consumption × ℕ) → List (ℕ × ℚ)
  | _, [] => []
  | sold, (c, i) :: rest =>
    let left := quantity - sold
    let units :=
      if 0 < left ∧ splitAdjustedQuantity left splits tradeDate (some c.date) = c.quantity
      then left
      else asAcquiredQuantity c.quantity (some c.date) splits tradeDate
    (i, units) :: walkUnits (sold + units) rest

/-- The units of each allocation, in the order given. -/
def acquiredUnitsOfSales (sales : List Consumption) : List ℚ :=
  (StableSort.sortBy Prod.fst (walkUnits quantity splits tradeDate 0
    (StableSort.sortBy (fun s => s.1.date) sales.zipIdx))).map Prod.snd

def unitsConsumed (sales : List Consumption) : List UnitsConsumed :=
  List.zipWith (fun c units => ⟨c.date, c.settled, c.disposal, units⟩) sales
    (acquiredUnitsOfSales quantity splits tradeDate sales)

/-- An allocation read on its own. -/
def Consumption.acquiredUnits (c : Consumption) : ℚ :=
  asAcquiredQuantity c.quantity (some c.date) splits tradeDate

variable {quantity splits tradeDate}

theorem Consumption.acquiredUnits_pos (c : Consumption) : 0 < c.acquiredUnits splits tradeDate := by
  unfold acquiredUnits
  rw [asAcquiredQuantity_eq, rebaseRatio_factor]
  have := c.quantity_pos
  have := basisLevel_pos splits tradeDate
  have := basisLevel_pos splits c.date
  positivity

/-- What is left reads back as itself. -/
theorem acquiredUnits_of_left {left : ℚ} {c : Consumption}
    (h : splitAdjustedQuantity left splits tradeDate (some c.date) = c.quantity) :
    c.acquiredUnits splits tradeDate = left := by
  have hacquired := basisLevel_pos splits tradeDate
  have hdate := basisLevel_pos splits c.date
  unfold Consumption.acquiredUnits
  rw [asAcquiredQuantity_eq, ← h, splitAdjustedQuantity_eq, rebaseRatio_factor, rebaseRatio_factor]
  field_simp

theorem walkUnits_eq (sold : ℚ) (order : List (Consumption × ℕ)) :
    walkUnits quantity splits tradeDate sold order =
      order.map fun s => (s.2, s.1.acquiredUnits splits tradeDate) := by
  induction order generalizing sold with
  | nil => rfl
  | cons s rest ih =>
    obtain ⟨c, i⟩ := s
    simp only [walkUnits, List.map_cons, ih]
    congr 2
    split
    · rename_i h
      exact (acquiredUnits_of_left h.2).symm
    · rfl

theorem acquiredUnitsOfSales_eq (sales : List Consumption) :
    acquiredUnitsOfSales quantity splits tradeDate sales =
      sales.map fun c => c.acquiredUnits splits tradeDate := by
  unfold acquiredUnitsOfSales
  rw [walkUnits_eq]
  exact StableSort.sortBy_indexed _ (StableSort.sortBy_perm _ _)

/-- In exact arithmetic the walk reads every allocation as it stands alone. -/
theorem unitsConsumed_eq (sales : List Consumption) :
    unitsConsumed quantity splits tradeDate sales =
      sales.map fun c => ⟨c.date, c.settled, c.disposal, c.acquiredUnits splits tradeDate⟩ := by
  unfold unitsConsumed
  rw [acquiredUnitsOfSales_eq, List.zipWith_map_right, List.zipWith_self]

end Walk

/-- A parcel with what was taken out of it, never more than it held. -/
structure ConsumedParcel where
  quantity : ℚ
  tradeDate : NaiveDate
  splits : List SplitEvent
  sales : List Consumption
  fits : ((unitsConsumed quantity splits tradeDate sales).map (·.units)).sum ≤ quantity

namespace ConsumedParcel
variable (p : ConsumedParcel)

/-- What a read as at `upTo` sees consumed. -/
def consumed (upTo : Option NaiveDate) : List UnitsConsumed :=
  unitsConsumed p.quantity p.splits p.tradeDate
    (p.sales.filter fun c => upTo.all fun d => decide (c.date ≤ d))

/-- The row's event in a read as at `upTo`. -/
def event (upTo : Option NaiveDate) (row : AmitAdjustment) : AmitReductionEvent :=
  reductionEvent p.splits p.tradeDate (p.consumed upTo) row

/-- The units of the parcel held at some point during the row's income year. -/
def heldInYear (row : AmitAdjustment) : ℚ :=
  max (p.quantity - (acquiredUnitsOfSales p.quantity p.splits p.tradeDate
    (p.sales.filter fun c => decide (c.date < fyStart row.taxYearEndDate))).sum) 0

/-- The units of the parcel at each place, in a read as at `upTo`. -/
def unitsAt (upTo : Option NaiveDate) : Whereabouts → ℚ
  | .inParcel => p.quantity - ((p.consumed upTo).map (·.units)).sum
  | .disposedOn d => unitsWhere (fun c => c.disposal && decide (c.date = d)) (p.consumed upTo)
  | .carriedOut => unitsWhere (fun c => !c.disposal) (p.consumed upTo)

end ConsumedParcel

/-- Some of a parcel's units, all in one place. -/
structure UnitGroup where
  whereabouts : Whereabouts
  units : ℚ
  units_nonneg : 0 ≤ units

namespace UnitGroup
variable (p : ConsumedParcel) (upTo : Option NaiveDate)

/-- Groups with no unit in common that leave none out. -/
def Parts (groups : List UnitGroup) : Prop :=
  ∀ w, ((groups.filter fun g => g.whereabouts = w).map (·.units)).sum = p.unitsAt upTo w

/-- The reduction a row charges the group. -/
def charge (row : AmitAdjustment) (g : UnitGroup) : ℚ :=
  (p.event upTo row).reductionForUnits p.quantity g.units g.whereabouts

/-- Whether the units were disposed of before the row's income year. -/
def goneBefore (row : AmitAdjustment) (g : UnitGroup) : Prop :=
  ∃ d, g.whereabouts = .disposedOn d ∧ d < fyStart row.taxYearEndDate

end UnitGroup

/-- The row's total reaches the parcel's units, however they are grouped: none of
it those gone before its year, and no group a share below nothing. -/
def Conserves (p : ConsumedParcel) (upTo : Option NaiveDate) (row : AmitAdjustment) : Prop :=
  ∀ groups, UnitGroup.Parts p upTo groups →
    (groups.map (UnitGroup.charge p upTo row)).sum = (p.event upTo row).perUnit * row.quantity ∧
    ∀ g ∈ groups,
      (g.goneBefore row → g.charge p upTo row = 0) ∧
      ∃ share, 0 ≤ share ∧ g.charge p upTo row = (p.event upTo row).perUnit * share


/-! ### The parcel in a read -/

section Read
variable (p : ConsumedParcel) (upTo : Option NaiveDate)

/-- A read cut at a date sees what the whole list has by then. -/
theorem ConsumedParcel.consumed_eq : p.consumed upTo =
    unitsSold (unitsConsumed p.quantity p.splits p.tradeDate p.sales) upTo := by
  unfold ConsumedParcel.consumed unitsSold
  rw [unitsConsumed_eq, unitsConsumed_eq, List.filter_map]
  rfl

/-- The pipeline's events are the rows' own, in year order. -/
theorem costBaseReductionEvents_eq (rows : List AmitAdjustment) :
    costBaseReductionEvents p.splits p.tradeDate rows
        (unitsConsumed p.quantity p.splits p.tradeDate p.sales) upTo =
      (StableSort.sortBy (fun row => toLex (row.taxYearEndDate, row.ammaStatementId))
        (rows.filter fun row => upTo.all fun d => decide (row.taxYearEndDate ≤ d))).map
          (p.event upTo) := by
  unfold costBaseReductionEvents ConsumedParcel.event
  rw [p.consumed_eq]

theorem consumed_pos : ∀ c ∈ p.consumed upTo, 0 < c.units := by
  intro c hc
  rw [ConsumedParcel.consumed, unitsConsumed_eq] at hc
  obtain ⟨sale, -, rfl⟩ := List.mem_map.mp hc
  exact sale.acquiredUnits_pos

/-- However far a read sees, no more was taken out of the parcel than it held. -/
theorem consumed_fits : ((p.consumed upTo).map (·.units)).sum ≤ p.quantity := by
  refine le_trans ?_ p.fits
  rw [p.consumed_eq]
  refine (List.filter_sublist.map _).sum_le_sum fun u hu => ?_
  obtain ⟨c, hc, rfl⟩ := List.mem_map.mp hu
  rw [unitsConsumed_eq] at hc
  obtain ⟨sale, -, rfl⟩ := List.mem_map.mp hc
  exact sale.acquiredUnits_pos.le

/-- Where a consumption took its units. -/
def place (c : UnitsConsumed) : Whereabouts :=
  if c.disposal then .disposedOn c.date else .carriedOut

/-- One group for each consumption, and the units left. -/
def standing : List (Whereabouts × ℚ) :=
  ((p.consumed upTo).map fun c => (place c, c.units)) ++ [(.inParcel, p.unitsAt upTo .inParcel)]

theorem standing_total (w : Whereabouts) :
    (((standing p upTo).filter fun g => g.1 = w).map Prod.snd).sum = p.unitsAt upTo w := by
  have hfilter : (((standing p upTo).filter fun g => g.1 = w).map Prod.snd).sum =
      unitsWhere (fun c => decide (place c = w)) (p.consumed upTo) +
        if w = .inParcel then p.unitsAt upTo .inParcel else 0 := by
    unfold standing unitsWhere
    rw [List.filter_append, List.map_append, List.sum_append, List.filter_map, List.map_map]
    congr 1
    by_cases hw : w = .inParcel
    · simp [hw]
    · simp [hw, Ne.symm hw]
  rw [hfilter]
  have hplace : ∀ q : UnitsConsumed → Bool, (∀ c, decide (place c = w) = q c) →
      unitsWhere (fun c => decide (place c = w)) (p.consumed upTo) =
        unitsWhere q (p.consumed upTo) := by
    intro q hq
    rw [funext hq]
  cases w with
  | inParcel =>
    rw [hplace (fun _ => false) fun c => by cases h : c.disposal <;> simp [place, h]]
    simp [unitsWhere]
  | disposedOn d =>
    rw [hplace (fun c => c.disposal && decide (c.date = d)) fun c => by
      cases h : c.disposal <;> simp [place, h]]
    exact add_zero _
  | carriedOut =>
    rw [hplace (fun c => !c.disposal) fun c => by cases h : c.disposal <;> simp [place, h]]
    exact add_zero _

end Read

/-! ### The waterfall -/

/-- Covered units run over three groups in turn, none taking more than it has. -/
theorem waterfall_total {covered held carried sold : ℚ} (hcarried : 0 ≤ carried)
    (hsold : 0 ≤ sold) (hfits : covered ≤ held + carried + sold) :
    min covered held + min (max (covered - held) 0) carried +
      min (max (covered - held - carried) 0) sold = covered := by
  rcases le_total covered held with h | h
  · rw [min_eq_left h, max_eq_right (by linarith), max_eq_right (by linarith),
      min_eq_left hcarried, min_eq_left (by linarith)]
    ring
  rw [min_eq_right h, max_eq_left (by linarith)]
  rcases le_total (covered - held) carried with h' | h'
  · rw [min_eq_left h', max_eq_right (by linarith), min_eq_left (by linarith)]
    ring
  · rw [min_eq_right h', max_eq_left (by linarith), min_eq_left (by linarith)]
    ring


/-! ### The charge on the groups -/

section Charge
variable (p : ConsumedParcel) (upTo : Option NaiveDate) (row : AmitAdjustment)

/-- The event's counts fit the parcel, those gone before its year among those gone by its end. -/
theorem event_counts : 0 ≤ (p.event upTo row).carriedOut ∧
    0 ≤ (p.event upTo row).disposedBeforeYearStart ∧
    (p.event upTo row).disposedBeforeYearStart ≤ (p.event upTo row).disposedByYearEnd ∧
    (p.event upTo row).carriedOut + (p.event upTo row).disposedByYearEnd ≤ p.quantity := by
  have hpos : ∀ c ∈ p.consumed upTo, 0 ≤ c.units := fun c hc => (consumed_pos p upTo c hc).le
  refine ⟨unitsWhere_nonneg hpos _, unitsWhere_nonneg hpos _, ?_, ?_⟩
  · change unitsWhere _ (p.consumed upTo) ≤ unitsWhere _ (p.consumed upTo)
    rw [unitsWhere_eq, unitsWhere_eq]
    refine List.sum_le_sum fun c hc => ?_
    have hunits := hpos c hc
    by_cases hdisposal : c.disposal = true
    · by_cases hbefore : c.date < fyStart row.taxYearEndDate
      · have hend : c.date ≤ row.taxYearEndDate := hbefore.le.trans (fyStart_le _)
        simp [hdisposal, hbefore, hend]
      · simp only [hdisposal, hbefore, Bool.true_and, decide_false, Bool.false_eq_true, if_false]
        split
        · exact hunits
        · exact le_rfl
    · simp [hdisposal]
  · refine le_trans (unitsWhere_add_le hpos fun c hc => ?_) (consumed_fits p upTo)
    simp only [Bool.not_eq_true'] at hc
    simp [hc]

theorem event_carried : (p.event upTo row).carried p.quantity = (p.event upTo row).carriedOut := by
  obtain ⟨hC, hD0, hD, hfits⟩ := event_counts p upTo row
  unfold AmitReductionEvent.carried
  rw [min_eq_left (by linarith), max_eq_left hC]

theorem event_disposed :
    (p.event upTo row).disposed p.quantity = (p.event upTo row).disposedByYearEnd := by
  obtain ⟨hC, hD0, hD, hfits⟩ := event_counts p upTo row
  unfold AmitReductionEvent.disposed
  rw [event_carried, min_eq_left (by linarith), max_eq_left (by linarith)]

theorem event_sold : (p.event upTo row).sold p.quantity =
    (p.event upTo row).disposedByYearEnd - (p.event upTo row).disposedBeforeYearStart := by
  obtain ⟨hC, hD0, hD, hfits⟩ := event_counts p upTo row
  unfold AmitReductionEvent.sold
  rw [event_disposed, max_eq_left hD0, max_eq_left (by linarith)]

/-- Every part of the parcel is some whole number of units or none. -/
theorem event_parts_nonneg : 0 ≤ (p.event upTo row).held p.quantity ∧
    0 ≤ (p.event upTo row).carried p.quantity ∧ 0 ≤ (p.event upTo row).sold p.quantity := by
  obtain ⟨hC, hD0, hD, hfits⟩ := event_counts p upTo row
  rw [event_sold, AmitReductionEvent.held, event_carried, event_disposed]
  exact ⟨by linarith, hC, by linarith⟩

/-- What a rate charges a whole group is the units it covers there. -/
theorem rate_mul_group {perUnit coverage group : ℚ} (hgroup : 0 ≤ group)
    (hcovers : group = 0 → coverage = 0) :
    (if group ≤ 0 then 0 else perUnit * coverage * 1 / group) * group = perUnit * coverage := by
  rcases hgroup.eq_or_lt with h | h
  · rw [← h, hcovers h.symm]
    simp
  · rw [if_neg (not_le.mpr h)]
    field_simp

/-- The three rates, each on all the units of its group. -/
def heldRate : ℚ := (p.event upTo row).perUnitFor p.quantity .inParcel

def carriedRate : ℚ := (p.event upTo row).perUnitFor p.quantity .carriedOut

def soldRate : ℚ :=
  (p.event upTo row).perUnitFor p.quantity (.disposedOn row.taxYearEndDate)

variable {p upTo row}

theorem perUnitFor_disposedOn (d : NaiveDate) :
    (p.event upTo row).perUnitFor p.quantity (.disposedOn d) =
      if d < fyStart row.taxYearEndDate then 0
      else if d ≤ row.taxYearEndDate then soldRate p upTo row else heldRate p upTo row := by
  have hend : ¬ row.taxYearEndDate < fyStart row.taxYearEndDate := (fyStart_le _).not_gt
  have hdate : (p.event upTo row).taxYearEndDate = row.taxYearEndDate := rfl
  unfold soldRate heldRate AmitReductionEvent.perUnitFor AmitReductionEvent.reductionForUnits
    AmitReductionEvent.coverage
  rw [hdate]
  by_cases hbefore : d < fyStart row.taxYearEndDate
  · simp [hbefore]
  · by_cases hby : d ≤ row.taxYearEndDate
    · simp [hbefore, hby, hend]
    · simp [hbefore, hby]

/-- The charge on the groups is each rate on what the parcel has there. -/
theorem charge_sum {groups : List UnitGroup} (h : UnitGroup.Parts p upTo groups) :
    (groups.map (UnitGroup.charge p upTo row)).sum =
      heldRate p upTo row * (p.event upTo row).held p.quantity +
        carriedRate p upTo row * (p.event upTo row).carried p.quantity +
        soldRate p upTo row * (p.event upTo row).sold p.quantity := by
  let rate := (p.event upTo row).perUnitFor p.quantity
  have hcharge : groups.map (UnitGroup.charge p upTo row) =
      groups.map fun g => rate g.whereabouts * g.units :=
    List.map_congr_left fun g _ => AmitReductionEvent.reductionForUnits_eq _ _ _ _
  have hstanding := Tally.sum_rate_congr rate fun w => (h w).trans (standing_total p upTo w).symm
  have hsplit : ((p.consumed upTo).map fun c => rate (place c) * c.units).sum =
      carriedRate p upTo row * unitsWhere (fun c => !c.disposal) (p.consumed upTo) +
        (soldRate p upTo row * unitsWhere (fun c => c.disposal &&
            (!decide (c.date < fyStart row.taxYearEndDate) && decide (c.date ≤ row.taxYearEndDate)))
          (p.consumed upTo) +
        heldRate p upTo row * unitsWhere (fun c => c.disposal &&
            !decide (c.date ≤ row.taxYearEndDate)) (p.consumed upTo)) := by
    simp only [unitsWhere_eq, ← List.sum_map_mul_left, ← List.sum_map_add]
    refine congrArg List.sum (List.map_congr_left fun c _ => ?_)
    cases hdisposal : c.disposal with
    | false => simp [place, hdisposal, rate, carriedRate]
    | true =>
      have hplace : place c = .disposedOn c.date := by rw [place, hdisposal, if_pos rfl]
      rw [hplace, show rate (.disposedOn c.date) = _ from perUnitFor_disposedOn c.date]
      by_cases hbefore : c.date < fyStart row.taxYearEndDate
      · have hend : c.date ≤ row.taxYearEndDate := hbefore.le.trans (fyStart_le _)
        simp [hbefore, hend]
      · by_cases hby : c.date ≤ row.taxYearEndDate
        · simp [hbefore, hby]
        · simp [hbefore, hby]
  have hsold : unitsWhere (fun c => c.disposal &&
      (!decide (c.date < fyStart row.taxYearEndDate) && decide (c.date ≤ row.taxYearEndDate)))
        (p.consumed upTo) = (p.event upTo row).sold p.quantity := by
    rw [event_sold, eq_sub_iff_add_eq]
    change _ + unitsWhere _ (p.consumed upTo) = unitsWhere _ (p.consumed upTo)
    simp only [unitsWhere_eq, ← List.sum_map_add]
    refine congrArg List.sum (List.map_congr_left fun c _ => ?_)
    by_cases hbefore : c.date < fyStart row.taxYearEndDate
    · have hend : c.date ≤ row.taxYearEndDate := hbefore.le.trans (fyStart_le _)
      simp [hbefore, hend]
    · simp [hbefore]
  have hall : ((p.consumed upTo).map (·.units)).sum =
      unitsWhere (fun c => !c.disposal) (p.consumed upTo) +
        (unitsWhere (fun c => c.disposal && decide (c.date ≤ row.taxYearEndDate)) (p.consumed upTo) +
        unitsWhere (fun c => c.disposal && !decide (c.date ≤ row.taxYearEndDate))
          (p.consumed upTo)) := by
    simp only [unitsWhere_eq, ← List.sum_map_add]
    refine congrArg List.sum (List.map_congr_left fun c _ => ?_)
    cases c.disposal <;> by_cases hby : c.date ≤ row.taxYearEndDate <;> simp [hby]
  have hheld : (p.event upTo row).held p.quantity = p.unitsAt upTo .inParcel +
      unitsWhere (fun c => c.disposal && !decide (c.date ≤ row.taxYearEndDate)) (p.consumed upTo) := by
    rw [AmitReductionEvent.held, event_carried, event_disposed, ConsumedParcel.unitsAt, hall]
    change p.quantity - unitsWhere _ (p.consumed upTo) - unitsWhere _ (p.consumed upTo) = _
    ring
  rw [hcharge, hstanding, standing, List.map_append, List.sum_append, List.map_map]
  change ((p.consumed upTo).map fun c => rate (place c) * c.units).sum +
    [heldRate p upTo row * p.unitsAt upTo .inParcel].sum = _
  rw [hsplit, hsold, hheld, event_carried, List.sum_singleton]
  change _ = _ + carriedRate p upTo row * unitsWhere _ (p.consumed upTo) + _
  ring

end Charge


/-! ### The row's total -/

section Total
variable {p : ConsumedParcel} {upTo : Option NaiveDate} {row : AmitAdjustment}

/-- The row covers no more than the groups it is spread over. -/
theorem covered_le_groups (h : row.quantity ≤ p.heldInYear row) :
    row.quantity ≤ (p.event upTo row).held p.quantity +
      (p.event upTo row).carried p.quantity + (p.event upTo row).sold p.quantity := by
  obtain ⟨hC, hD0, hD, hfits⟩ := event_counts p upTo row
  have hsum : (p.event upTo row).held p.quantity + (p.event upTo row).carried p.quantity +
      (p.event upTo row).sold p.quantity =
        p.quantity - (p.event upTo row).disposedBeforeYearStart := by
    rw [AmitReductionEvent.held, event_sold, event_carried, event_disposed]
    ring
  have hgone : (p.event upTo row).disposedBeforeYearStart ≤
      (acquiredUnitsOfSales p.quantity p.splits p.tradeDate
        (p.sales.filter fun c => decide (c.date < fyStart row.taxYearEndDate))).sum := by
    change unitsWhere _ (p.consumed upTo) ≤ _
    rw [acquiredUnitsOfSales_eq, ConsumedParcel.consumed, unitsConsumed_eq, unitsWhere,
      List.filter_map, List.filter_filter, List.map_map]
    refine List.Sublist.sum_le_sum (List.Sublist.map _ (List.monotone_filter_right _ ?_)) ?_
    · intro c hc
      simp only [Function.comp_apply, Bool.and_eq_true] at hc
      exact hc.1.2
    · intro u hu
      obtain ⟨c, -, rfl⟩ := List.mem_map.mp hu
      exact c.acquiredUnits_pos.le
  rw [hsum]
  refine h.trans (max_le ?_ ?_) <;> linarith

theorem coverage_inYear :
    (p.event upTo row).coverage p.quantity (.disposedOn row.taxYearEndDate) =
      (min (max (row.quantity - (p.event upTo row).held p.quantity -
        (p.event upTo row).carried p.quantity) 0) ((p.event upTo row).sold p.quantity),
        (p.event upTo row).sold p.quantity) :=
  (if_neg (fyStart_le _).not_gt).trans (if_pos le_rfl)

/-- A row covering nothing less than nil charges the groups its own total. -/
theorem charge_total (h : row.quantity ≤ p.heldInYear row) (hcovered : 0 ≤ row.quantity)
    {groups : List UnitGroup} (hparts : UnitGroup.Parts p upTo groups) :
    (groups.map (UnitGroup.charge p upTo row)).sum =
      (p.event upTo row).perUnit * row.quantity := by
  obtain ⟨hheld, hcarried, hsold⟩ := event_parts_nonneg p upTo row
  have hheldCharge : heldRate p upTo row * (p.event upTo row).held p.quantity =
      (p.event upTo row).perUnit * min row.quantity ((p.event upTo row).held p.quantity) :=
    rate_mul_group hheld fun h0 => by rw [h0]; exact min_eq_right hcovered
  have hcarriedCharge : carriedRate p upTo row * (p.event upTo row).carried p.quantity =
      (p.event upTo row).perUnit *
        min (max (row.quantity - (p.event upTo row).held p.quantity) 0)
          ((p.event upTo row).carried p.quantity) :=
    rate_mul_group hcarried fun h0 => by rw [h0]; exact min_eq_right (le_max_right _ _)
  have hsoldCharge : soldRate p upTo row * (p.event upTo row).sold p.quantity =
      (p.event upTo row).perUnit *
        min (max (row.quantity - (p.event upTo row).held p.quantity -
          (p.event upTo row).carried p.quantity) 0) ((p.event upTo row).sold p.quantity) := by
    unfold soldRate AmitReductionEvent.perUnitFor AmitReductionEvent.reductionForUnits
    rw [coverage_inYear]
    exact rate_mul_group hsold fun h0 => by rw [h0]; exact min_eq_right (le_max_right _ _)
  rw [charge_sum hparts, hheldCharge, hcarriedCharge, hsoldCharge, ← mul_add, ← mul_add,
    waterfall_total hcarried hsold (covered_le_groups h)]

/-- Every group is charged a share of the per-unit figure, none below nothing. -/
theorem charge_share (hcovered : 0 ≤ row.quantity) (g : UnitGroup) :
    ∃ share, 0 ≤ share ∧ g.charge p upTo row = (p.event upTo row).perUnit * share := by
  obtain ⟨hheld, hcarried, hsold⟩ := event_parts_nonneg p upTo row
  let coverage := (p.event upTo row).coverage p.quantity g.whereabouts
  have hcoverage : 0 ≤ coverage.1 := by
    change 0 ≤ ((p.event upTo row).coverage p.quantity g.whereabouts).1
    cases g.whereabouts with
    | inParcel => exact le_min hcovered hheld
    | carriedOut => exact le_min (le_max_right _ _) hcarried
    | disposedOn d =>
      simp only [AmitReductionEvent.coverage]
      split
      · exact le_rfl
      · split
        · exact le_min (le_max_right _ _) hsold
        · exact le_min hcovered hheld
  refine ⟨if coverage.2 ≤ 0 then 0 else coverage.1 * g.units / coverage.2, ?_, ?_⟩
  · split
    · exact le_rfl
    · rename_i hgroup
      have := g.units_nonneg
      have := (not_le.mp hgroup).le
      positivity
  · change (if coverage.2 ≤ 0 then 0
      else (p.event upTo row).perUnit * coverage.1 * g.units / coverage.2) = _
    split
    · exact (mul_zero _).symm
    · ring

theorem charge_goneBefore {g : UnitGroup} (h : g.goneBefore row) : g.charge p upTo row = 0 := by
  obtain ⟨d, hd, hbefore⟩ := h
  have hcoverage : (p.event upTo row).coverage p.quantity (.disposedOn d) = (0, 0) :=
    if_pos hbefore
  unfold UnitGroup.charge AmitReductionEvent.reductionForUnits
  rw [hd, hcoverage]
  exact if_pos le_rfl

theorem charge_of_perUnit (h : (p.event upTo row).perUnit = 0) (g : UnitGroup) :
    g.charge p upTo row = 0 := by
  unfold UnitGroup.charge AmitReductionEvent.reductionForUnits
  simp [h]

/-- The per-unit figure is nil just where the statement's is. -/
theorem perUnit_eq_zero : (p.event upTo row).perUnit = 0 ↔ row.costBaseAdjustment = 0 := by
  change reductionFor 1 row.costBaseAdjustment p.splits p.tradeDate row.taxYearEndDate = 0 ↔ _
  have hacquired := basisLevel_pos p.splits p.tradeDate
  have hend := basisLevel_pos p.splits row.taxYearEndDate
  have hfactor : splitAdjustedQuantity 1 p.splits p.tradeDate (some row.taxYearEndDate) ≠ 0 := by
    rw [splitAdjustedQuantity_eq, rebaseRatio_factor]
    positivity
  unfold reductionFor
  rw [mul_eq_zero, or_iff_right hfactor]

theorem standing_nonneg : ∀ g ∈ standing p upTo, 0 ≤ g.2 := by
  intro g hg
  rcases List.mem_append.mp hg with hg | hg
  · obtain ⟨c, hc, rfl⟩ := List.mem_map.mp hg
    exact (consumed_pos p upTo c hc).le
  · rw [List.mem_singleton.mp hg]
    exact sub_nonneg.mpr (consumed_fits p upTo)

variable (p upTo) in
/-- Each consumption and the units left, as groups. -/
def standingGroups : List UnitGroup :=
  (standing p upTo).attach.map fun g => ⟨g.1.1, g.1.2, standing_nonneg g.1 g.2⟩

theorem parts_standingGroups : UnitGroup.Parts p upTo (standingGroups p upTo) := by
  intro w
  rw [← standing_total p upTo w, standingGroups, List.filter_map, List.map_map]
  conv_rhs => rw [← List.attach_map_subtype_val (standing p upTo), List.filter_map, List.map_map]
  rfl

/-- Where no group's share is below nothing, neither is the row's cover, unless
the statement's figure is nil. -/
theorem covered_nonneg_of_conserves (h : Conserves p upTo row) :
    0 ≤ row.quantity ∨ row.costBaseAdjustment = 0 := by
  obtain ⟨htotal, hgroups⟩ := h _ parts_standingGroups
  by_cases hzero : (p.event upTo row).perUnit = 0
  · exact .inr (perUnit_eq_zero.mp hzero)
  refine .inl ?_
  have hshare : ∀ g ∈ standingGroups p upTo,
      0 ≤ g.charge p upTo row / (p.event upTo row).perUnit := by
    intro g hg
    obtain ⟨share, hnonneg, heq⟩ := (hgroups g hg).2
    rwa [heq, mul_div_cancel_left₀ _ hzero]
  have hsum : row.quantity = ((standingGroups p upTo).map fun g =>
      g.charge p upTo row / (p.event upTo row).perUnit).sum := by
    simp only [div_eq_mul_inv, List.sum_map_mul_right]
    rw [htotal]
    field_simp
  rw [hsum]
  refine List.sum_nonneg fun u hu => ?_
  obtain ⟨g, hg, rfl⟩ := List.mem_map.mp hu
  exact hshare g hg

/-- A row within the units held in its year is conserved over them just where it
covers no less than nil, or states nothing. -/
theorem conserves_iff (p : ConsumedParcel) (upTo : Option NaiveDate) (row : AmitAdjustment)
    (h : row.quantity ≤ p.heldInYear row) :
    Conserves p upTo row ↔ 0 ≤ row.quantity ∨ row.costBaseAdjustment = 0 := by
  refine ⟨covered_nonneg_of_conserves, ?_⟩
  rintro (hcovered | hzero) groups hparts
  · exact ⟨charge_total h hcovered hparts,
      fun g _ => ⟨charge_goneBefore, charge_share hcovered g⟩⟩
  · have hperUnit := (@perUnit_eq_zero p upTo row).mpr hzero
    refine ⟨?_, fun g _ => ⟨charge_goneBefore, 0, le_rfl, ?_⟩⟩
    · rw [List.map_congr_left fun g _ => charge_of_perUnit hperUnit g, hperUnit, zero_mul]
      simp
    · rw [charge_of_perUnit hperUnit, mul_zero]

end Total

/-- 100 units, 40 of them carried out and 30 sold in the year. -/
def partlyGone : ConsumedParcel where
  quantity := 100
  tradeDate := ymd 2022 8 1
  splits := []
  sales :=
    [⟨ymd 2023 9 1, ymd 2023 9 3, true, 30, by decide⟩,
      ⟨ymd 2023 11 1, ymd 2023 11 1, false, 40, by decide⟩]
  fits := by decide +kernel

/-- A statement of two dollars a unit over 85 of them. -/
def statementRow : AmitAdjustment := ⟨1, ymd 2024 6 30, 85, 2⟩

theorem conserves_statementRow : Conserves partlyGone none statementRow :=
  (conserves_iff partlyGone none statementRow (by decide +kernel)).mpr (.inl (by decide))

/-- Units a row cannot cover: ten fewer than none. -/
def negativeRow : AmitAdjustment := ⟨1, ymd 2024 6 30, -10, 1⟩

def wholeParcel : ConsumedParcel where
  quantity := 100
  tradeDate := ymd 2022 8 1
  splits := []
  sales := []
  fits := by decide

theorem conserves_fails : ¬ ∀ (p : ConsumedParcel) (upTo : Option NaiveDate) (row : AmitAdjustment),
    row.quantity ≤ p.heldInYear row → Conserves p upTo row := by
  intro h
  have hwithin : negativeRow.quantity ≤ wholeParcel.heldInYear negativeRow := by decide +kernel
  rcases covered_nonneg_of_conserves (h wholeParcel none negativeRow hwithin) with hq | hc
  · exact absurd hq (by decide)
  · exact absurd hc (by decide)

/-! ### The report's cohorts -/

/-- A cohort of the net capital gain report, as a group. -/
def cohortGroup (c : Cohort) : UnitGroup where
  whereabouts :=
    match c.leftOn with
    | none => .inParcel
    | some d => if c.disposal then .disposedOn d else .carriedOut
  units := c.units
  units_nonneg := c.units_pos.le

theorem cohort_reduction (p : ConsumedParcel) (upTo : Option NaiveDate) (row : AmitAdjustment)
    (c : Cohort) :
    c.reduction p.quantity (.amit (p.event upTo row)) = (cohortGroup c).charge p upTo row := rfl

section Cohorts
variable (p : ConsumedParcel) (upTo : Option NaiveDate)

theorem cohorts_gone (sales : List UnitsConsumed) (h : ∀ c ∈ sales, 0 < c.units) :
    ((sales.filterMap fun c => if h : 0 < c.units then
        some (⟨some c.date, some c.settled, c.disposal, c.units, h⟩ : Cohort) else none).map
      fun c => ((cohortGroup c).whereabouts, (cohortGroup c).units)) =
        sales.map fun c => (place c, c.units) := by
  induction sales with
  | nil => rfl
  | cons c sales ih =>
    have hc := h c List.mem_cons_self
    rw [List.filterMap_cons_some (dif_pos hc), List.map_cons, List.map_cons,
      ih fun c' hc' => h c' (List.mem_cons_of_mem c hc')]
    rfl

/-- The cohorts are the parcel's consumptions and the units left, where some are. -/
theorem cohorts_eq : ((unitCohorts p.quantity (p.consumed upTo)).map fun c =>
      ((cohortGroup c).whereabouts, (cohortGroup c).units)) =
    ((p.consumed upTo).map fun c => (place c, c.units)) ++
      if 0 < p.unitsAt upTo .inParcel then [(.inParcel, p.unitsAt upTo .inParcel)] else [] := by
  have hgone := cohorts_gone (p.consumed upTo) (consumed_pos p upTo)
  have hunits := congrArg (fun l => (l.map Prod.snd).sum) hgone
  simp only [List.map_map] at hunits
  unfold unitCohorts
  rw [List.map_append, hgone]
  congr 1
  have hleft : p.unitsAt upTo .inParcel = p.quantity - (((p.consumed upTo).filterMap fun c =>
      if h : 0 < c.units then
        some (⟨some c.date, some c.settled, c.disposal, c.units, h⟩ : Cohort)
      else none).map (·.units)).sum := congrArg (p.quantity - ·) hunits.symm
  rw [hleft]
  split
  · rfl
  · rfl

theorem parts_cohorts :
    UnitGroup.Parts p upTo ((unitCohorts p.quantity (p.consumed upTo)).map cohortGroup) := by
  intro w
  have hpairs : (((unitCohorts p.quantity (p.consumed upTo)).map cohortGroup).filter fun g =>
      g.whereabouts = w).map (·.units) =
        (((unitCohorts p.quantity (p.consumed upTo)).map fun c =>
          ((cohortGroup c).whereabouts, (cohortGroup c).units)).filter fun g =>
            g.1 = w).map Prod.snd := by
    rw [List.filter_map, List.map_map, List.filter_map, List.map_map]
    rfl
  rw [hpairs, cohorts_eq, ← standing_total p upTo w, standing, List.filter_append,
    List.filter_append, List.map_append, List.map_append, List.sum_append, List.sum_append]
  congr 1
  split
  · rfl
  · rename_i hnone
    have hzero : p.unitsAt upTo .inParcel = 0 :=
      le_antisymm (not_lt.mp hnone) (sub_nonneg.mpr (consumed_fits p upTo))
    rw [hzero]
    by_cases hw : Whereabouts.inParcel = w <;> simp [hw]

/-- The report's cohorts between them are charged the row's own total. -/
theorem cohorts_total {row : AmitAdjustment} (h : row.quantity ≤ p.heldInYear row)
    (hcovered : 0 ≤ row.quantity) :
    ((unitCohorts p.quantity (p.consumed upTo)).map fun c =>
      c.reduction p.quantity (.amit (p.event upTo row))).sum =
        (p.event upTo row).perUnit * row.quantity := by
  have htotal := charge_total h hcovered (parts_cohorts p upTo)
  rwa [List.map_map] at htotal

end Cohorts

end ShareTracker.AmitCoverage
