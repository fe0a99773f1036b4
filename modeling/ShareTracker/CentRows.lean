import ShareTracker.DisposalSchedule

/-!
A sale's rows at the cent. Proceeds round cumulatively and each cost base on its
own, so a row's gain is the difference of two rounded figures: the identity
between the columns is exact, and the gain strays further than either figure.
-/
namespace ShareTracker.Disposals
open ReportData

namespace DisposalCents

/-- One row's own figures. -/
def ofRow (proceeds costBase : ℚ) (discountEligible : Bool) : DisposalCents :=
  DisposalCents.default.add proceeds costBase discountEligible

/-- The buckets less the loss are the gain. -/
def Balanced (t : DisposalCents) : Prop :=
  t.discountEligibleGain + t.nonDiscountableGain - t.capitalLoss = t.proceeds - t.costBase

theorem Balanced.default : DisposalCents.default.Balanced := by
  simp [Balanced, DisposalCents.default]

theorem Balanced.add {t : DisposalCents} (h : t.Balanced) (proceeds costBase : ℚ) (eligible : Bool) :
    (t.add proceeds costBase eligible).Balanced := by
  unfold Balanced at h ⊢
  unfold DisposalCents.add
  dsimp only
  split_ifs <;> dsimp only <;> linarith

/-- Every figure is a whole number of cents. -/
structure Whole (t : DisposalCents) : Prop where
  proceeds : Grid.On cent t.proceeds
  costBase : Grid.On cent t.costBase
  discountEligibleGain : Grid.On cent t.discountEligibleGain
  nonDiscountableGain : Grid.On cent t.nonDiscountableGain
  capitalLoss : Grid.On cent t.capitalLoss

theorem Whole.default : DisposalCents.default.Whole :=
  ⟨.zero _, .zero _, .zero _, .zero _, .zero _⟩

theorem Whole.add {t : DisposalCents} (h : t.Whole) {proceeds costBase : ℚ}
    (hp : Grid.On cent proceeds) (hc : Grid.On cent costBase) (eligible : Bool) :
    (t.add proceeds costBase eligible).Whole := by
  have hgain := hp.sub hc
  have hproceeds := h.proceeds.add hp
  have hcost := h.costBase.add hc
  unfold DisposalCents.add
  dsimp only
  split_ifs
  · exact ⟨hproceeds, hcost, h.discountEligibleGain.add hgain, h.nonDiscountableGain, h.capitalLoss⟩
  · exact ⟨hproceeds, hcost, h.discountEligibleGain, h.nonDiscountableGain.add hgain, h.capitalLoss⟩
  · exact ⟨hproceeds, hcost, h.discountEligibleGain, h.nonDiscountableGain, h.capitalLoss.sub hgain⟩

/-- Three figures of a row by the sign of its gain. -/
theorem ofRow_buckets (proceeds costBase : ℚ) (eligible : Bool) :
    (ofRow proceeds costBase eligible).discountEligibleGain =
        (if eligible = true then max (proceeds - costBase) 0 else 0) ∧
      (ofRow proceeds costBase eligible).nonDiscountableGain =
        (if eligible = true then 0 else max (proceeds - costBase) 0) ∧
      (ofRow proceeds costBase eligible).capitalLoss = max (-(proceeds - costBase)) 0 := by
  rcases lt_or_ge 0 (proceeds - costBase) with hgain | hgain
  · have hle : costBase ≤ proceeds := (sub_pos.mp hgain).le
    cases eligible <;> simp [ofRow, DisposalCents.add, DisposalCents.default, hgain, hle]
  · have hle : proceeds ≤ costBase := sub_nonpos.mp hgain
    cases eligible <;>
      simp [ofRow, DisposalCents.add, DisposalCents.default, not_lt.mpr hgain, hle]

end DisposalCents
open DisposalCents

/-! ### One row -/

/-- A printed row beside the exact one: whole cents, the columns balanced,
proceeds within a cent, the cost base within half of one, and the gain and its
buckets within a cent and a half. -/
structure CentRow (row : ℚ × ℚ × Bool) (rounded : ℚ × ℚ) : Prop where
  whole : (ofRow rounded.1 rounded.2 row.2.2).Whole
  gain_whole : Grid.On cent (rounded.1 - rounded.2)
  balanced : (ofRow rounded.1 rounded.2 row.2.2).Balanced
  proceeds : |rounded.1 - row.1| ≤ cent
  costBase : |rounded.2 - row.2.1| ≤ cent / 2
  gain : |(rounded.1 - rounded.2) - (row.1 - row.2.1)| ≤ cent + cent / 2
  discountEligibleGain : |(ofRow rounded.1 rounded.2 row.2.2).discountEligibleGain -
    (ofRow row.1 row.2.1 row.2.2).discountEligibleGain| ≤ cent + cent / 2
  nonDiscountableGain : |(ofRow rounded.1 rounded.2 row.2.2).nonDiscountableGain -
    (ofRow row.1 row.2.1 row.2.2).nonDiscountableGain| ≤ cent + cent / 2
  capitalLoss : |(ofRow rounded.1 rounded.2 row.2.2).capitalLoss -
    (ofRow row.1 row.2.1 row.2.2).capitalLoss| ≤ cent + cent / 2

/-- A step between two rounded running totals is within a cent of the exact. -/
theorem step_near (running proceeds : ℚ) :
    |(toCents (running + proceeds) - toCents running) - proceeds| ≤ cent := by
  have hnow := abs_le.mp (toCents_near (running + proceeds))
  have hbefore := abs_le.mp (toCents_near running)
  refine abs_le.mpr ⟨?_, ?_⟩ <;> linarith [hnow.1, hnow.2, hbefore.1, hbefore.2]

theorem bucket_near {a b bound : ℚ} (h : |a - b| ≤ bound) : |max a 0 - max b 0| ≤ bound :=
  (abs_max_sub_max_le_abs a b 0).trans h

theorem CentRow.of_near {row : ℚ × ℚ × Bool} {rounded : ℚ × ℚ} (hp : Grid.On cent rounded.1)
    (hc : Grid.On cent rounded.2) (hproceeds : |rounded.1 - row.1| ≤ cent)
    (hcost : |rounded.2 - row.2.1| ≤ cent / 2) : CentRow row rounded := by
  have hgain : |(rounded.1 - rounded.2) - (row.1 - row.2.1)| ≤ cent + cent / 2 := by
    have hsplit : (rounded.1 - rounded.2) - (row.1 - row.2.1) =
        (rounded.1 - row.1) - (rounded.2 - row.2.1) := by ring
    rw [hsplit]
    exact (abs_sub _ _).trans (add_le_add hproceeds hcost)
  have hloss : |(-(rounded.1 - rounded.2)) - (-(row.1 - row.2.1))| ≤ cent + cent / 2 := by
    rw [neg_sub_neg, abs_sub_comm]
    exact hgain
  have hzero : |(0 : ℚ) - 0| ≤ cent + cent / 2 := by
    rw [sub_self, abs_zero]
    linarith [cent_pos]
  obtain ⟨hdisc, hnon, hcapital⟩ := ofRow_buckets rounded.1 rounded.2 row.2.2
  obtain ⟨hdisc', hnon', hcapital'⟩ := ofRow_buckets row.1 row.2.1 row.2.2
  constructor
  case whole => exact Whole.default.add hp hc _
  case gain_whole => exact hp.sub hc
  case balanced => exact Balanced.default.add _ _ _
  case proceeds => exact hproceeds
  case costBase => exact hcost
  case gain => exact hgain
  case discountEligibleGain =>
    rw [hdisc, hdisc']
    cases row.2.2 with
    | true => exact bucket_near hgain
    | false => exact hzero
  case nonDiscountableGain =>
    rw [hnon, hnon']
    cases row.2.2 with
    | true => exact hzero
    | false => exact bucket_near hgain
  case capitalLoss =>
    rw [hcapital, hcapital']
    exact bucket_near hloss

/-! ### The walk -/

/-- The running total of the rounded rows is the rounded running total. -/
theorem centWalk_rows (running : ℚ) (totals : DisposalCents) (l : List (ℚ × ℚ × Bool)) :
    List.Forall₂ CentRow l (centWalk running (toCents running) totals l).1 := by
  induction l generalizing running totals with
  | nil => exact .nil
  | cons row l ih =>
    refine .cons ?_ (ih _ _)
    exact .of_near ((toCents_on _).sub (toCents_on _)) (toCents_on _) (step_near _ _)
      (toCents_near _)

theorem centWalk_sum (running : ℚ) (totals : DisposalCents) (l : List (ℚ × ℚ × Bool)) :
    ((centWalk running (toCents running) totals l).1.map Prod.fst).sum =
      toCents (running + (l.map Prod.fst).sum) - toCents running := by
  induction l generalizing running totals with
  | nil => simp [centWalk]
  | cons row l ih =>
    rw [centWalk, List.map_cons, List.sum_cons, ih, List.map_cons, List.sum_cons, ← add_assoc]
    ring

/-- What every row's figures keep, the totals keep. -/
theorem centWalk_invariant {P : DisposalCents → Prop}
    (hadd : ∀ t p c e, Grid.On cent p → Grid.On cent c → P t → P (t.add p c e)) (running : ℚ)
    {totals : DisposalCents} (h : P totals) (l : List (ℚ × ℚ × Bool)) :
    P (centWalk running (toCents running) totals l).2 := by
  induction l generalizing running totals with
  | nil => exact h
  | cons row l ih =>
    exact ih _ (hadd _ _ _ _ ((toCents_on _).sub (toCents_on _)) (toCents_on _) h)

theorem toCents_zero : toCents 0 = 0 := toCents_of_on (.zero _)

/-- The rows and the totals of a sale, for every sale. -/
theorem parcelsAtTheCent_rows (parcels : List (ℚ × ℚ × Bool)) :
    List.Forall₂ CentRow parcels (parcelsAtTheCent parcels).1 ∧
      ((parcelsAtTheCent parcels).1.map Prod.fst).sum = toCents ((parcels.map Prod.fst).sum) ∧
      (parcelsAtTheCent parcels).2.proceeds = toCents ((parcels.map Prod.fst).sum) ∧
      (parcelsAtTheCent parcels).2.Whole ∧ (parcelsAtTheCent parcels).2.Balanced := by
  have hrows := centWalk_rows 0 .default parcels
  have hsum := centWalk_sum 0 .default parcels
  have htotals := (centWalk_totals 0 0 .default parcels).1
  have hwhole := centWalk_invariant (fun t p c e hp hc (h : t.Whole) => h.add hp hc e) 0
    Whole.default parcels
  have hbalanced := centWalk_invariant (fun t p c e _ _ (h : t.Balanced) => h.add p c e) 0
    Balanced.default parcels
  rw [toCents_zero] at hrows hsum hwhole hbalanced
  rw [zero_add, sub_zero] at hsum
  refine ⟨hrows, hsum, ?_, hwhole, hbalanced⟩
  rw [parcelsAtTheCent, htotals, hsum]
  exact zero_add _

/-- Two rounded figures can take a gain more than a cent from the exact one: the
first row holds the running total just below half a cent. -/
theorem gain_strays_past_a_cent :
    ¬ ∀ parcels : List (ℚ × ℚ × Bool), List.Forall₂
      (fun row rounded => |(rounded.1 - rounded.2) - (row.1 - row.2.1)| ≤ cent)
      parcels (parcelsAtTheCent parcels).1 := by
  intro h
  have hrows : (parcelsAtTheCent [(4 / 1000, 0, true), (11 / 10000, 149 / 10000, true)]).1 =
      [(0, 0), (1 / 100, 1 / 100)] := by decide +kernel
  have hrow := h [(4 / 1000, 0, true), (11 / 10000, 149 / 10000, true)]
  rw [hrows] at hrow
  cases hrow with
  | cons _ hrest =>
    cases hrest with
    | cons hsecond _ =>
      norm_num [cent] at hsecond

end ShareTracker.Disposals
