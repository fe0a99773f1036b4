import Mathlib
import ShareTracker.Lib.FractionalFill
import ShareTracker.Lib.StableSort

/-! The loss-aware choice of the indexation cross-check: which units of a
year's candidates are indexed once the year's losses are applied. Figures are
exact rationals. -/
namespace ShareTracker.IndexationCrossCheck
open FractionalFill

/-- A discount-eligible allocation, in whole-allocation figures. -/
structure Candidate where
  units : ℚ
  gain : ℚ
  indexedGain : ℚ
  units_pos : 0 < units
  indexedGain_nonneg : 0 ≤ indexedGain
  indexedGain_le : indexedGain ≤ gain

namespace Candidate
variable (c : Candidate)

def winsAlone : Bool := decide (c.indexedGain * 2 < c.gain)

/-- The gross and indexed gains of `x` of the units. -/
def share (x : ℚ) : ℚ × ℚ :=
  if x = c.units then (c.gain, c.indexedGain)
  else (c.gain * x / c.units, c.indexedGain * x / c.units)

/-- What indexing the whole allocation takes off its gross gain. -/
def uplift : ℚ := c.gain - c.indexedGain

theorem uplift_nonneg : 0 ≤ c.uplift := sub_nonneg.mpr c.indexedGain_le

theorem winsAlone_iff : c.winsAlone = true ↔ c.indexedGain < c.uplift := by
  rw [winsAlone, decide_eq_true_eq, uplift]
  constructor <;> intro h <;> linarith

theorem share_eq (x : ℚ) :
    c.share x = (c.gain * (x / c.units), c.indexedGain * (x / c.units)) := by
  unfold share
  split
  · next h => rw [h, div_self c.units_pos.ne', mul_one, mul_one]
  · rw [mul_div_assoc, mul_div_assoc]

end Candidate

/-- The year's gains outside the candidates and its losses. -/
structure LossPool where
  otherGains : ℚ
  otherDiscountGains : ℚ
  losses : ℚ
  otherGains_nonneg : 0 ≤ otherGains
  otherDiscountGains_nonneg : 0 ≤ otherDiscountGains
  losses_nonneg : 0 ≤ losses

section Choice
variable {n : ℕ} (pool : LossPool) (cands : Fin n → Candidate)

/-- The year's net capital gain with `indexed i` units of candidate `i` indexed. -/
def LossPool.assessed (indexed : Fin n → ℚ) : ℚ :=
  let indexedGains := ∑ i, ((cands i).share (indexed i)).2
  let discountGains :=
    pool.otherDiscountGains + ∑ i, ((cands i).gain - ((cands i).share (indexed i)).1)
  let otherLeft := max (pool.otherGains - pool.losses) 0
  let lossLeft := max (pool.losses - pool.otherGains) 0
  let indexedLeft := max (indexedGains - lossLeft) 0
  let lossLeft := max (lossLeft - indexedGains) 0
  let discountLeft := max (discountGains - lossLeft) 0
  otherLeft + indexedLeft + discountLeft / 2

/-- Descending saving for a dollar of loss, compared by cross-multiplying. -/
def goesBefore (a b : Fin n) : Prop :=
  (cands b).uplift * (cands a).indexedGain < (cands a).uplift * (cands b).indexedGain ∨
    ((cands b).uplift * (cands a).indexedGain = (cands a).uplift * (cands b).indexedGain ∧ a ≤ b)

instance decidableGoesBefore : DecidableRel (goesBefore cands) :=
  fun _ _ => inferInstanceAs (Decidable (_ ∨ _))

/-- The candidates with an uplift, in the order they are considered. -/
def order : List (Fin n) :=
  ((List.finRange n).filter fun i => decide ((cands i).indexedGain < (cands i).gain)).insertionSort
    (goesBefore cands)

/-- The units indexed so far and the losses they have left. -/
structure Fill (n : ℕ) where
  indexed : Fin n → ℚ
  budget : ℚ

/-- The whole units that `budget` absorbs in full. -/
def Candidate.below (c : Candidate) (budget : ℚ) : ℚ :=
  min (⌊budget * c.units / c.indexedGain⌋ : ℚ) c.units

/-- One more than these, or the whole allocation. -/
def Candidate.above (c : Candidate) (budget : ℚ) : ℚ := min (c.below budget + 1) c.units

def fill (st : Fill n) (i : Fin n) : Fill n :=
  let c := cands i
  if c.winsAlone ∨ c.indexedGain ≤ st.budget then
    ⟨Function.update st.indexed i c.units, max (st.budget - c.indexedGain) 0⟩
  else if st.budget = 0 then st
  else
    let above := Function.update st.indexed i (c.above st.budget)
    let below := Function.update st.indexed i (c.below st.budget)
    if pool.assessed cands above < pool.assessed cands below then ⟨above, 0⟩
    else ⟨below, st.budget - (c.share (c.below st.budget)).2⟩

/-- Nothing indexed, and the losses left after the 'other' gains. -/
def start : Fill n := ⟨fun _ => 0, max (pool.losses - pool.otherGains) 0⟩

/-- The later choice only where it assesses less. -/
def cheaper (best next : Fin n → ℚ) : Fin n → ℚ :=
  if pool.assessed cands next < pool.assessed cands best then next else best

def lossAwareOptimum : Fin n → ℚ :=
  let indexed := ((order cands).foldl (fill pool cands) (start pool)).indexed
  cheaper pool cands (cheaper pool cands (fun _ => 0) indexed) fun i => (cands i).units

/-- The loss-aware columns of a year's row, with the count each candidate's row prints. -/
structure LossAwareFigures (n : ℕ) where
  lossAwareUnitsIndexed : Fin n → ℚ
  discountThroughoutNetCapitalGain : ℚ
  indexationThroughoutNetCapitalGain : ℚ
  lossAwareNetCapitalGain : ℚ
  lossAwareSaving : ℚ

def lossAwareFigures : LossAwareFigures n :=
  let indexed := lossAwareOptimum pool cands
  { lossAwareUnitsIndexed := indexed
    discountThroughoutNetCapitalGain := pool.assessed cands fun _ => 0
    indexationThroughoutNetCapitalGain := pool.assessed cands fun i => (cands i).units
    lossAwareNetCapitalGain := pool.assessed cands indexed
    lossAwareSaving := pool.assessed cands (fun _ => 0) - pool.assessed cands indexed }

/-- A count of units from nothing to the whole allocation. -/
def Within (indexed : Fin n → ℚ) : Prop := ∀ i, 0 ≤ indexed i ∧ indexed i ≤ (cands i).units

/-- Every count is whole, or the whole allocation with its fraction. -/
def WholeUnits (indexed : Fin n → ℚ) : Prop :=
  ∀ i, 0 ≤ indexed i ∧ indexed i ≤ (cands i).units ∧
    ((∃ count : ℕ, indexed i = count) ∨ indexed i = (cands i).units)

/-- The indexed gain of one unit of the candidate whose units gain most. -/
def largestUnit : ℚ :=
  (List.finRange n).foldr (fun i largest => max ((cands i).indexedGain / (cands i).units) largest) 0

end Choice

section Excess
variable {n : ℕ} (pool : LossPool) (cands : Fin n → Candidate)

/-- The losses left after the 'other' gains. -/
def LossPool.room : ℚ := max (pool.losses - pool.otherGains) 0

/-- The discount-eligible gains past these losses with nothing indexed. -/
def total : ℚ := pool.otherDiscountGains + ∑ i, (cands i).gain - pool.room

def fraction (indexed : Fin n → ℚ) (i : Fin n) : ℚ := indexed i / (cands i).units

def saved (indexed : Fin n → ℚ) : ℚ := taken (fun i => (cands i).uplift) (fraction cands indexed)

def weighed (indexed : Fin n → ℚ) : ℚ :=
  taken (fun i => (cands i).indexedGain) (fraction cands indexed)

/-- Twice what the choice leaves to be assessed of the discount-eligible gains. -/
def excess (indexed : Fin n → ℚ) : ℚ :=
  cost (total pool cands) pool.room (saved cands indexed) (weighed cands indexed)

variable {pool cands}

theorem fraction_mem {indexed : Fin n → ℚ} (h : Within cands indexed) (i : Fin n) :
    0 ≤ fraction cands indexed i ∧ fraction cands indexed i ≤ 1 :=
  ⟨div_nonneg (h i).1 (cands i).units_pos.le, (div_le_one (cands i).units_pos).mpr (h i).2⟩

theorem fraction_update (indexed : Fin n → ℚ) (i : Fin n) (x : ℚ) :
    fraction cands (Function.update indexed i x) =
      Function.update (fraction cands indexed) i (x / (cands i).units) := by
  funext j
  by_cases hj : j = i
  · rw [hj, fraction, Function.update_self, Function.update_self]
  · rw [fraction, Function.update_of_ne hj, Function.update_of_ne hj, fraction]

variable (cands) in
theorem saved_update (indexed : Fin n → ℚ) (i : Fin n) (x : ℚ) :
    saved cands (Function.update indexed i x) =
      saved cands indexed + (cands i).uplift * ((x - indexed i) / (cands i).units) := by
  rw [saved, fraction_update, taken_update, saved, fraction, sub_div]

variable (cands) in
theorem weighed_update (indexed : Fin n → ℚ) (i : Fin n) (x : ℚ) :
    weighed cands (Function.update indexed i x) =
      weighed cands indexed + (cands i).indexedGain * ((x - indexed i) / (cands i).units) := by
  rw [weighed, fraction_update, taken_update, weighed, fraction, sub_div]

variable (pool cands) in
/-- What the discount method keeps of the gains, once the choice is made. -/
theorem total_sub_saved (indexed : Fin n → ℚ) :
    total pool cands - saved cands indexed =
      pool.otherDiscountGains + ∑ i, (cands i).gain * (1 - fraction cands indexed i) +
        (weighed cands indexed - pool.room) := by
  have hparts : ∑ i, (cands i).gain * (1 - fraction cands indexed i) =
      ∑ i, (cands i).gain - saved cands indexed - weighed cands indexed := by
    simp only [saved, weighed, taken, ← Finset.sum_sub_distrib]
    refine Finset.sum_congr rfl fun i _ => ?_
    rw [Candidate.uplift]
    ring
  rw [hparts, total]
  ring

variable (pool) in
theorem kept_nonneg {indexed : Fin n → ℚ} (h : Within cands indexed) :
    0 ≤ pool.otherDiscountGains + ∑ i, (cands i).gain * (1 - fraction cands indexed i) := by
  refine add_nonneg pool.otherDiscountGains_nonneg (Finset.sum_nonneg fun i _ => ?_)
  have hgain : 0 ≤ (cands i).gain :=
    (cands i).indexedGain_nonneg.trans (cands i).indexedGain_le
  exact mul_nonneg hgain (sub_nonneg.mpr (fraction_mem h i).2)

theorem saved_le_total {indexed : Fin n → ℚ} (h : Within cands indexed)
    (hroom : pool.room ≤ weighed cands indexed) : saved cands indexed ≤ total pool cands := by
  have hkept := kept_nonneg pool h
  have hsub := total_sub_saved pool cands indexed
  linarith

/-- The netting in the order of the source is half the excess over what the
'other' gains leave. -/
theorem assessed_eq {indexed : Fin n → ℚ} (h : Within cands indexed) :
    pool.assessed cands indexed =
      max (pool.otherGains - pool.losses) 0 + excess pool cands indexed / 2 := by
  have hindexed : ∑ i, ((cands i).share (indexed i)).2 = weighed cands indexed := by
    simp only [Candidate.share_eq, weighed, taken, fraction]
  have hdiscount : ∑ i, ((cands i).gain - ((cands i).share (indexed i)).1) =
      ∑ i, (cands i).gain * (1 - fraction cands indexed i) := by
    refine Finset.sum_congr rfl fun i _ => ?_
    rw [Candidate.share_eq, fraction]
    ring
  have hkept := kept_nonneg pool h
  simp only [LossPool.assessed, hindexed, hdiscount]
  rw [excess, cost, total_sub_saved, add_assoc]
  change _ + (max (weighed cands indexed - pool.room) 0 +
    max (_ - max (pool.room - weighed cands indexed) 0) 0 / 2) = _
  congr 1
  rcases le_total pool.room (weighed cands indexed) with hover | hfits
  · rw [max_eq_right (sub_nonpos.mpr hover), sub_zero, max_eq_left hkept,
      max_eq_left (sub_nonneg.mpr hover), max_eq_left (add_nonneg hkept (sub_nonneg.mpr hover))]
    ring
  · rw [max_eq_left (sub_nonneg.mpr hfits), max_eq_right (sub_nonpos.mpr hfits)]
    ring_nf

variable (pool) in
theorem assessed_le_iff {x y : Fin n → ℚ} (hx : Within cands x) (hy : Within cands y) (gap : ℚ) :
    pool.assessed cands x ≤ pool.assessed cands y + gap ↔
      excess pool cands x ≤ excess pool cands y + 2 * gap := by
  rw [assessed_eq hx, assessed_eq hy]
  constructor <;> intro h <;> linarith

end Excess

section Below
variable {c : Candidate} {budget : ℚ}

theorem exact_lt_units (hlt : budget < c.indexedGain) (hpos : 0 < budget) :
    budget * c.units / c.indexedGain < c.units := by
  rw [div_lt_iff₀ (hpos.trans hlt), mul_comm c.units]
  exact mul_lt_mul_of_pos_right hlt c.units_pos

theorem below_eq_floor (hlt : budget < c.indexedGain) (hpos : 0 < budget) :
    c.below budget = (⌊budget * c.units / c.indexedGain⌋ : ℚ) :=
  min_eq_left ((Int.floor_le _).trans (exact_lt_units hlt hpos).le)

/-- The count below is whole. -/
theorem exists_below (hlt : budget < c.indexedGain) (hpos : 0 < budget) :
    ∃ count : ℕ, c.below budget = count := by
  have hnonneg : 0 ≤ ⌊budget * c.units / c.indexedGain⌋ :=
    Int.floor_nonneg.mpr (div_nonneg (mul_nonneg hpos.le c.units_pos.le) c.indexedGain_nonneg)
  obtain ⟨count, hcount⟩ := Int.eq_ofNat_of_zero_le hnonneg
  refine ⟨count, ?_⟩
  rw [below_eq_floor hlt hpos, hcount, Int.cast_natCast]

theorem below_nonneg (hlt : budget < c.indexedGain) (hpos : 0 < budget) : 0 ≤ c.below budget := by
  obtain ⟨count, hcount⟩ := exists_below hlt hpos
  rw [hcount]
  exact count.cast_nonneg

theorem below_le_units : c.below budget ≤ c.units := min_le_right _ _

theorem below_le_above : c.below budget ≤ c.above budget :=
  le_min (le_add_of_nonneg_right zero_le_one) below_le_units

/-- The losses absorb the whole units below, and not one unit more. -/
theorem below_absorbed (hlt : budget < c.indexedGain) (hpos : 0 < budget) :
    c.indexedGain * (c.below budget / c.units) ≤ budget ∧
      budget ≤ c.indexedGain * (c.below budget / c.units) + c.indexedGain / c.units := by
  have hgain : 0 < c.indexedGain := hpos.trans hlt
  have hscale : ∀ x : ℚ, c.indexedGain * (x / c.units) = x * (c.indexedGain / c.units) := by
    intro x
    rw [mul_div_left_comm]
  have hbudget : budget = budget * c.units / c.indexedGain * (c.indexedGain / c.units) := by
    rw [div_mul_div_cancel₀ hgain.ne', mul_div_cancel_right₀ _ c.units_pos.ne']
  have hunit : 0 ≤ c.indexedGain / c.units := (div_pos hgain c.units_pos).le
  rw [below_eq_floor hlt hpos, hscale]
  constructor
  · calc _ ≤ budget * c.units / c.indexedGain * (c.indexedGain / c.units) :=
          mul_le_mul_of_nonneg_right (Int.floor_le _) hunit
      _ = budget := hbudget.symm
  · calc budget = budget * c.units / c.indexedGain * (c.indexedGain / c.units) := hbudget
      _ ≤ (⌊budget * c.units / c.indexedGain⌋ + 1) * (c.indexedGain / c.units) :=
          mul_le_mul_of_nonneg_right (Int.lt_floor_add_one _).le hunit
      _ = _ := by rw [add_mul, one_mul]

end Below

section Order
variable {n : ℕ} {cands : Fin n → Candidate}

theorem uplift_pos_iff {i : Fin n} : 0 < (cands i).uplift ↔ (cands i).indexedGain < (cands i).gain :=
  sub_pos

theorem mem_order {i : Fin n} : i ∈ order cands ↔ 0 < (cands i).uplift := by
  rw [order, List.mem_insertionSort, List.mem_filter, decide_eq_true_eq, uplift_pos_iff]
  exact and_iff_right (List.mem_finRange i)

theorem order_nodup : (order cands).Nodup :=
  (List.perm_insertionSort _ _).nodup_iff.mpr ((List.nodup_finRange n).filter _)

theorem goesBefore_le {a b : Fin n} (h : goesBefore cands a b) :
    (cands b).uplift * (cands a).indexedGain ≤ (cands a).uplift * (cands b).indexedGain :=
  h.elim le_of_lt fun heq => heq.1.le

theorem order_sorted : (order cands).Pairwise (goesBefore cands) := by
  refine StableSort.insertionSort_sorted_of ?_ ?_
  · intro a _ b _
    rcases lt_trichotomy ((cands b).uplift * (cands a).indexedGain)
      ((cands a).uplift * (cands b).indexedGain) with hlt | heq | hgt
    · exact .inl (.inl hlt)
    · exact (le_total a b).imp (fun hab => .inr ⟨heq, hab⟩) fun hba => .inr ⟨heq.symm, hba⟩
    · exact .inr (.inl hgt)
  · intro a ha b hb c hc hab hbc
    have hpos : ∀ i ∈ (List.finRange n).filter
        (fun i => decide ((cands i).indexedGain < (cands i).gain)), 0 < (cands i).uplift :=
      fun i hi => uplift_pos_iff.mpr (of_decide_eq_true (List.mem_filter.mp hi).2)
    have hsa := hpos a ha
    have hsb := hpos b hb
    have hsc := hpos c hc
    -- the middle uplift is positive, so it cancels from the product of the two comparisons
    have hchain : ((cands c).uplift * (cands a).indexedGain) * (cands b).uplift ≤
        ((cands a).uplift * (cands c).indexedGain) * (cands b).uplift ∧
        (((cands c).uplift * (cands a).indexedGain) * (cands b).uplift =
          ((cands a).uplift * (cands c).indexedGain) * (cands b).uplift → a ≤ c) := by
      rcases hab with hab | ⟨hab, hle⟩ <;> rcases hbc with hbc | ⟨hbc, hle'⟩
      · have h1 := mul_lt_mul_of_pos_left hab hsc
        have h2 := mul_lt_mul_of_pos_left hbc hsa
        exact ⟨by nlinarith, fun heq => by exfalso; nlinarith⟩
      · have h1 := mul_lt_mul_of_pos_left hab hsc
        exact ⟨by nlinarith, fun heq => by exfalso; nlinarith⟩
      · have h2 := mul_lt_mul_of_pos_left hbc hsa
        exact ⟨by nlinarith, fun heq => by exfalso; nlinarith⟩
      · exact ⟨by nlinarith, fun _ => hle.trans hle'⟩
    rcases hchain.1.lt_or_eq with hlt | heq
    · exact .inl (lt_of_mul_lt_mul_right hlt hsb.le)
    · exact .inr ⟨mul_right_cancel₀ hsb.ne' heq, hchain.2 heq⟩

/-- Whatever goes before a candidate that wins alone wins alone. -/
theorem winsAlone_of_goesBefore {a b : Fin n} (h : goesBefore cands a b)
    (ha : 0 < (cands a).uplift) (hb : (cands b).winsAlone = true) :
    (cands a).winsAlone = true := by
  rw [Candidate.winsAlone_iff] at hb ⊢
  have hle := goesBefore_le h
  by_contra hnot
  have hswap : (cands a).uplift * (cands b).indexedGain ≤
      (cands a).indexedGain * (cands b).indexedGain :=
    mul_le_mul_of_nonneg_right (not_lt.mp hnot) (cands b).indexedGain_nonneg
  have hgain : 0 < (cands a).indexedGain := ha.trans_le (not_lt.mp hnot)
  have hstrict : (cands b).indexedGain * (cands a).indexedGain <
      (cands b).uplift * (cands a).indexedGain := mul_lt_mul_of_pos_right hb hgain
  linarith [mul_comm (cands a).indexedGain (cands b).indexedGain]

end Order

section Filled
variable {n : ℕ} {pool : LossPool} {cands : Fin n → Candidate}

/-- The losses still absorb the candidate, or it wins without them. -/
def Takes (cands : Fin n → Candidate) (st : Fill n) (i : Fin n) : Prop :=
  (cands i).winsAlone = true ∨ (cands i).indexedGain ≤ st.budget

theorem fill_of_takes {st : Fill n} {i : Fin n} (h : Takes cands st i) :
    fill pool cands st i = ⟨Function.update st.indexed i (cands i).units,
      max (st.budget - (cands i).indexedGain) 0⟩ :=
  if_pos h

theorem fill_of_spent {st : Fill n} {i : Fin n} (h : ¬ Takes cands st i) (hspent : st.budget = 0) :
    fill pool cands st i = st :=
  (if_neg h).trans (if_pos hspent)

variable (pool) in
/-- Where the losses run out the count either side is chosen, the one below on a tie. -/
theorem fill_of_runsOut {st : Fill n} {i : Fin n} (h : ¬ Takes cands st i) (hleft : st.budget ≠ 0) :
    (pool.assessed cands (Function.update st.indexed i ((cands i).above st.budget)) <
        pool.assessed cands (Function.update st.indexed i ((cands i).below st.budget)) ∧
      fill pool cands st i = ⟨Function.update st.indexed i ((cands i).above st.budget), 0⟩) ∨
    (¬ pool.assessed cands (Function.update st.indexed i ((cands i).above st.budget)) <
        pool.assessed cands (Function.update st.indexed i ((cands i).below st.budget)) ∧
      fill pool cands st i = ⟨Function.update st.indexed i ((cands i).below st.budget),
        st.budget - ((cands i).share ((cands i).below st.budget)).2⟩) := by
  have hfill := (if_neg h).trans (if_neg hleft) (a := fill pool cands st i)
  by_cases hless : pool.assessed cands
      (Function.update st.indexed i ((cands i).above st.budget)) <
        pool.assessed cands (Function.update st.indexed i ((cands i).below st.budget))
  · exact .inl ⟨hless, hfill.trans (if_pos hless)⟩
  · exact .inr ⟨hless, hfill.trans (if_neg hless)⟩

/-- The walk has taken exactly `pre`, each candidate whole. -/
structure Filled (pool : LossPool) (cands : Fin n → Candidate) (pre : List (Fin n))
    (st : Fill n) : Prop where
  indexed : ∀ i, st.indexed i = if i ∈ pre then (cands i).units else 0
  budget : st.budget = max (pool.room - weighed cands st.indexed) 0
  pastRoom : pool.room < weighed cands st.indexed → ∀ i ∈ pre, (cands i).winsAlone = true

theorem filled_start : Filled pool cands [] (start pool) where
  indexed i := by simp [start]
  budget := by
    have hnone : weighed cands (start pool).indexed = 0 := by
      rw [weighed, taken]
      exact Finset.sum_eq_zero fun i _ => by simp [fraction, start]
    rw [hnone, sub_zero]
    exact (max_eq_left (le_max_right _ _)).symm
  pastRoom _ i hi := absurd hi List.not_mem_nil

theorem Filled.budget_nonneg {pre : List (Fin n)} {st : Fill n} (h : Filled pool cands pre st) :
    0 ≤ st.budget := by
  rw [h.budget]
  exact le_max_right _ _

theorem Filled.weighed_take {pre : List (Fin n)} {st : Fill n} (h : Filled pool cands pre st)
    {b : Fin n} (hb : b ∉ pre) :
    weighed cands (Function.update st.indexed b (cands b).units) =
      weighed cands st.indexed + (cands b).indexedGain := by
  rw [weighed_update, h.indexed b, if_neg hb, sub_zero, div_self (cands b).units_pos.ne', mul_one]

/-- A candidate taken in its turn. -/
theorem Filled.take {pre : List (Fin n)} {st : Fill n} (h : Filled pool cands pre st) {b : Fin n}
    (hb : b ∉ pre) (htakes : Takes cands st b) (hpos : ∀ i ∈ b :: pre, 0 < (cands i).uplift)
    (hbefore : ∀ i ∈ pre, goesBefore cands i b) :
    Filled pool cands (pre ++ [b]) (fill pool cands st b) := by
  rw [fill_of_takes htakes]
  constructor
  · intro i
    by_cases hi : i = b
    · subst hi
      simp
    · simp [h.indexed i, hi]
  · dsimp only
    rw [h.weighed_take hb, h.budget, ← sub_sub]
    rcases le_total 0 (pool.room - weighed cands st.indexed) with hpos | hneg
    · rw [max_eq_left hpos]
    · have hgain := (cands b).indexedGain_nonneg
      rw [max_eq_right hneg, max_eq_right (by linarith), max_eq_right (by linarith)]
  · dsimp only
    rw [h.weighed_take hb]
    intro hover
    have hwins : (cands b).winsAlone = true := by
      rcases htakes with hwins | hfits
      · exact hwins
      · -- a gain the losses absorb takes the walk past them only when it is nil
        rw [h.budget] at hfits
        have hspent : pool.room - weighed cands st.indexed ≤ 0 := by
          by_contra hleft
          rw [max_eq_left (not_le.mp hleft).le] at hfits
          linarith
        rw [max_eq_right hspent] at hfits
        exact Candidate.winsAlone_iff _ |>.mpr (hfits.trans_lt (hpos b List.mem_cons_self))
    intro i hi
    rcases List.mem_append.mp hi with hi | hi
    · exact winsAlone_of_goesBefore (hbefore i hi) (hpos i (List.mem_cons_of_mem b hi)) hwins
    · rw [List.mem_singleton.mp hi]
      exact hwins

/-- The walk takes every candidate, or stops first at one that it cannot take whole. -/
theorem Filled.walk {l : List (Fin n)} {pre : List (Fin n)} {st : Fill n}
    (h : Filled pool cands pre st) (hnodup : (pre ++ l).Nodup)
    (hpos : ∀ i ∈ pre ++ l, 0 < (cands i).uplift) (hsorted : (pre ++ l).Pairwise (goesBefore cands)) :
    Filled pool cands (pre ++ l) (l.foldl (fill pool cands) st) ∨
      ∃ mid b post st', l = mid ++ b :: post ∧ Filled pool cands (pre ++ mid) st' ∧
        ¬ Takes cands st' b ∧
        l.foldl (fill pool cands) st = (b :: post).foldl (fill pool cands) st' := by
  induction l generalizing pre st with
  | nil => exact .inl (by simpa using h)
  | cons b l ih =>
    by_cases htakes : Takes cands st b
    · have hb : b ∉ pre := fun hmem =>
        (List.nodup_append.mp hnodup).2.2 b hmem b List.mem_cons_self rfl
      have hbefore : ∀ i ∈ pre, goesBefore cands i b := fun i hi =>
        (List.pairwise_append.mp hsorted).2.2 i hi b List.mem_cons_self
      have hposb : ∀ i ∈ b :: pre, 0 < (cands i).uplift := by
        intro i hi
        refine hpos i ?_
        rcases List.mem_cons.mp hi with rfl | hi
        · exact List.mem_append_right _ List.mem_cons_self
        · exact List.mem_append_left _ hi
      have hnext := h.take hb htakes hposb hbefore
      have hassoc : pre ++ b :: l = pre ++ [b] ++ l := by simp
      rw [hassoc] at hnodup hpos hsorted ⊢
      rcases ih hnext hnodup hpos hsorted with hall | ⟨mid, b', post, st', rfl, hstop, hnot, hrest⟩
      · exact .inl hall
      · refine .inr ⟨b :: mid, b', post, st', rfl, ?_, hnot, hrest⟩
        simpa using hstop
    · exact .inr ⟨[], b, l, st, rfl, by simpa using h, htakes, rfl⟩

theorem Filled.fraction_eq {pre : List (Fin n)} {st : Fill n} (h : Filled pool cands pre st)
    (i : Fin n) : fraction cands st.indexed i = if i ∈ pre then 1 else 0 := by
  rw [fraction, h.indexed i]
  split
  · exact div_self (cands i).units_pos.ne'
  · exact zero_div _

theorem Filled.within {pre : List (Fin n)} {st : Fill n} (h : Filled pool cands pre st) :
    Within cands st.indexed := by
  intro i
  rw [h.indexed i]
  split
  · exact ⟨(cands i).units_pos.le, le_rfl⟩
  · exact ⟨le_rfl, (cands i).units_pos.le⟩

/-- A price of the room that the taken candidates are worth and the others are not
bounds every choice from below. -/
theorem Filled.priced {pre : List (Fin n)} {st : Fill n} (h : Filled pool cands pre st)
    {price : ℚ} (hprice : 0 ≤ price) (hcap : price ≤ 1)
    (hworth : ∀ i ∈ pre, price * (cands i).indexedGain ≤ (cands i).uplift)
    (hleft : ∀ i, i ∉ pre → (cands i).uplift ≤ price * (cands i).indexedGain)
    {y : Fin n → ℚ} (hy : Within cands y) :
    total pool cands - saved cands st.indexed + price * (weighed cands st.indexed - pool.room) ≤
      excess pool cands y := by
  refine priced_le_cost hprice hcap ?_ (fraction_mem hy)
  intro i
  rw [h.fraction_eq i]
  by_cases hi : i ∈ pre
  · exact .inl ⟨if_pos hi, hworth i hi⟩
  · exact .inr (.inl ⟨if_neg hi, hleft i hi⟩)

/-- Past the losses every candidate taken wins alone, and the choice is the best. -/
theorem Filled.least_pastRoom {pre : List (Fin n)} {st : Fill n} (h : Filled pool cands pre st)
    (hover : pool.room < weighed cands st.indexed)
    (hleft : ∀ i, i ∉ pre → (cands i).winsAlone = false) {y : Fin n → ℚ} (hy : Within cands y) :
    excess pool cands st.indexed ≤ excess pool cands y := by
  have hbound := h.priced (zero_le_one' ℚ) le_rfl
    (fun i hi => by
      rw [one_mul]
      exact ((Candidate.winsAlone_iff _).mp (h.pastRoom hover i hi)).le)
    (fun i hi => by
      rw [one_mul]
      by_contra hlt
      have hwins := (Candidate.winsAlone_iff _).mpr (not_le.mp hlt)
      rw [hleft i hi] at hwins
      cases hwins)
    hy
  rw [one_mul] at hbound
  rw [excess, cost_of_over hover.le (saved_le_total h.within hover.le)]
  exact hbound

/-- With every candidate that has an uplift taken, the choice is the best. -/
theorem Filled.least {pre : List (Fin n)} {st : Fill n} (h : Filled pool cands pre st)
    (hall : ∀ i, i ∉ pre → (cands i).uplift = 0) {y : Fin n → ℚ} (hy : Within cands y) :
    excess pool cands st.indexed ≤ excess pool cands y := by
  rcases lt_or_ge pool.room (weighed cands st.indexed) with hover | hfits
  · refine h.least_pastRoom hover (fun i hi => ?_) hy
    rw [Bool.eq_false_iff, ne_eq, Candidate.winsAlone_iff, hall i hi, not_lt]
    exact (cands i).indexedGain_nonneg
  · have hbound := h.priced le_rfl zero_le_one
      (fun i _ => by
        rw [zero_mul]
        exact (cands i).uplift_nonneg)
      (fun i hi => by rw [zero_mul, hall i hi]) hy
    rw [zero_mul, add_zero] at hbound
    rw [excess, cost_of_fits hfits]
    exact max_le hbound (cost_nonneg _ _ _ _)

/-- Where the walk stops, filling the losses up to `gap` leaves at most `gap` to be gained. -/
theorem Filled.near {pre : List (Fin n)} {st : Fill n} (h : Filled pool cands pre st) {b : Fin n}
    (hb : b ∉ pre) (hstop : ¬ Takes cands st b) (hpre : ∀ i ∈ pre, goesBefore cands i b)
    (hpost : ∀ i, i ∉ pre → i = b ∨ (cands i).uplift = 0 ∨ goesBefore cands b i)
    {x gap : ℚ} (hx : 0 ≤ x) (hgap : 0 ≤ gap)
    (hfills : (cands b).indexedGain * (x / (cands b).units) = st.budget - gap)
    {y : Fin n → ℚ} (hy : Within cands y) :
    excess pool cands (Function.update st.indexed b x) ≤ excess pool cands y + gap := by
  have hwins : (cands b).uplift ≤ (cands b).indexedGain :=
    not_lt.mp fun hlt => hstop (.inl ((Candidate.winsAlone_iff _).mpr hlt))
  have hgain : 0 < (cands b).indexedGain :=
    h.budget_nonneg.trans_lt (not_le.mp fun hle => hstop (.inr hle))
  have hzero : st.indexed b = 0 := by rw [h.indexed b, if_neg hb]
  rcases lt_or_ge pool.room (weighed cands st.indexed) with hover | hfits
  · -- nothing of the losses is left, so nothing of the candidate is indexed
    have hspent : st.budget = 0 := by rw [h.budget, max_eq_right (by linarith)]
    have hshare : 0 ≤ (cands b).indexedGain * (x / (cands b).units) :=
      mul_nonneg hgain.le (div_nonneg hx (cands b).units_pos.le)
    have hnone : x / (cands b).units = 0 := by
      have : (cands b).indexedGain * (x / (cands b).units) = 0 := by linarith
      exact (mul_eq_zero.mp this).resolve_left hgain.ne'
    have hxzero : x = 0 := (div_eq_zero_iff.mp hnone).resolve_right (cands b).units_pos.ne'
    rw [hxzero, ← hzero, Function.update_eq_self]
    refine (h.least_pastRoom hover (fun i hi => ?_) hy).trans (le_add_of_nonneg_right hgap)
    rw [Bool.eq_false_iff, ne_eq, Candidate.winsAlone_iff, not_lt]
    rcases hpost i hi with rfl | hnil | hafter
    · exact hwins
    · rw [hnil]
      exact (cands i).indexedGain_nonneg
    · have hle := (goesBefore_le hafter).trans
        (mul_le_mul_of_nonneg_right hwins (cands i).indexedGain_nonneg)
      rw [mul_comm (cands b).indexedGain] at hle
      exact le_of_mul_le_mul_right hle hgain
  · -- the room is priced at what the candidate saves for a dollar of it
    have hprice : (cands b).uplift / (cands b).indexedGain * (cands b).indexedGain =
        (cands b).uplift := div_mul_cancel₀ _ hgain.ne'
    have hnonneg : 0 ≤ (cands b).uplift / (cands b).indexedGain :=
      div_nonneg (cands b).uplift_nonneg hgain.le
    have hcap : (cands b).uplift / (cands b).indexedGain ≤ 1 := (div_le_one hgain).mpr hwins
    have hbound := h.priced hnonneg hcap
      (fun i hi => by
        rw [div_mul_eq_mul_div, div_le_iff₀ hgain]
        exact goesBefore_le (hpre i hi))
      (fun i hi => by
        rcases hpost i hi with rfl | hnil | hafter
        · exact hprice.ge
        · rw [hnil]
          exact mul_nonneg hnonneg (cands i).indexedGain_nonneg
        · rw [div_mul_eq_mul_div, le_div_iff₀ hgain]
          exact goesBefore_le hafter)
      hy
    have hbudget : st.budget = pool.room - weighed cands st.indexed := by
      rw [h.budget, max_eq_left (sub_nonneg.mpr hfits)]
    have hsaves : (cands b).uplift * (x / (cands b).units) =
        (cands b).uplift / (cands b).indexedGain * (st.budget - gap) := by
      rw [← hfills, ← mul_assoc, hprice]
    rw [excess, saved_update, weighed_update, hzero, sub_zero, hfills, hsaves,
      cost_of_fits (by linarith)]
    refine max_le ?_ (add_nonneg (cost_nonneg _ _ _ _) hgap)
    have hloss : (cands b).uplift / (cands b).indexedGain * gap ≤ gap :=
      mul_le_of_le_one_left hgap hcap
    rw [hbudget]
    linarith [mul_sub ((cands b).uplift / (cands b).indexedGain)
      (pool.room - weighed cands st.indexed) gap, mul_sub
      ((cands b).uplift / (cands b).indexedGain) pool.room (weighed cands st.indexed), mul_sub
      ((cands b).uplift / (cands b).indexedGain) (weighed cands st.indexed) pool.room]

end Filled

section Sound
variable {n : ℕ} {pool : LossPool} {cands : Fin n → Candidate}

/-- Whole counts, and no more losses counted as left than there are. -/
structure Sound (pool : LossPool) (cands : Fin n → Candidate) (st : Fill n) : Prop where
  whole : WholeUnits cands st.indexed
  budget_nonneg : 0 ≤ st.budget
  budget_le : st.budget ≤ max (pool.room - weighed cands st.indexed) 0

theorem WholeUnits.within {indexed : Fin n → ℚ} (h : WholeUnits cands indexed) :
    Within cands indexed := fun i => ⟨(h i).1, (h i).2.1⟩

theorem wholeUnits_none : WholeUnits cands fun _ => 0 :=
  fun i => ⟨le_rfl, (cands i).units_pos.le, .inl ⟨0, Nat.cast_zero.symm⟩⟩

theorem wholeUnits_all : WholeUnits cands fun i => (cands i).units :=
  fun i => ⟨(cands i).units_pos.le, le_rfl, .inr rfl⟩

theorem WholeUnits.update {indexed : Fin n → ℚ} (h : WholeUnits cands indexed) {i : Fin n} {x : ℚ}
    (hx : 0 ≤ x) (hle : x ≤ (cands i).units)
    (hwhole : (∃ count : ℕ, x = count) ∨ x = (cands i).units) :
    WholeUnits cands (Function.update indexed i x) := by
  intro j
  by_cases hj : j = i
  · subst hj
    rw [Function.update_self]
    exact ⟨hx, hle, hwhole⟩
  · rw [Function.update_of_ne hj]
    exact h j

theorem above_whole {c : Candidate} {budget : ℚ} (hlt : budget < c.indexedGain)
    (hpos : 0 < budget) : (∃ count : ℕ, c.above budget = count) ∨ c.above budget = c.units := by
  rcases min_choice (c.below budget + 1) c.units with hcount | hall
  · obtain ⟨count, hbelow⟩ := exists_below hlt hpos
    refine .inl ⟨count + 1, ?_⟩
    rw [Candidate.above, hcount, hbelow, Nat.cast_succ]
  · exact .inr hall

theorem not_takes {st : Fill n} {i : Fin n} (h : ¬ Takes cands st i) :
    (cands i).uplift ≤ (cands i).indexedGain ∧ st.budget < (cands i).indexedGain :=
  ⟨not_lt.mp fun hlt => h (.inl ((Candidate.winsAlone_iff _).mpr hlt)),
    not_le.mp fun hle => h (.inr hle)⟩

theorem fill_indexed_of_ne {st : Fill n} {i j : Fin n} (hj : j ≠ i) :
    (fill pool cands st i).indexed j = st.indexed j := by
  by_cases htakes : Takes cands st i
  · rw [fill_of_takes htakes]
    exact Function.update_of_ne hj _ _
  by_cases hspent : st.budget = 0
  · rw [fill_of_spent htakes hspent]
  rcases fill_of_runsOut pool htakes hspent with ⟨-, heq⟩ | ⟨-, heq⟩
  · rw [heq]
    exact Function.update_of_ne hj _ _
  · rw [heq]
    exact Function.update_of_ne hj _ _

/-- The count below is within the losses, so indexing it never assesses more. -/
theorem Sound.below {st : Fill n} (h : Sound pool cands st) {i : Fin n} (hzero : st.indexed i = 0)
    (hlt : st.budget < (cands i).indexedGain) (hleft : st.budget ≠ 0) :
    Sound pool cands ⟨Function.update st.indexed i ((cands i).below st.budget),
        st.budget - ((cands i).share ((cands i).below st.budget)).2⟩ ∧
      excess pool cands (Function.update st.indexed i ((cands i).below st.budget)) ≤
        excess pool cands st.indexed := by
  have hpos : 0 < st.budget := lt_of_le_of_ne h.budget_nonneg hleft.symm
  have hroom : st.budget ≤ pool.room - weighed cands st.indexed := by
    rcases le_max_iff.mp h.budget_le with hle | hle
    · exact hle
    · exact absurd hle (not_le.mpr hpos)
  have habsorbed := (below_absorbed hlt hpos).1
  have hbelow := below_nonneg hlt hpos
  have hweighed := weighed_update cands st.indexed i ((cands i).below st.budget)
  have hsaved := saved_update cands st.indexed i ((cands i).below st.budget)
  rw [hzero, sub_zero] at hweighed hsaved
  constructor
  · constructor
    · exact h.whole.update hbelow below_le_units (.inl (exists_below hlt hpos))
    · rw [Candidate.share_eq]
      exact sub_nonneg.mpr habsorbed
    · refine le_max_of_le_left ?_
      dsimp only
      rw [hweighed, Candidate.share_eq]
      linarith
  · refine cost_anti ?_ ?_
    · rw [hsaved]
      exact le_add_of_nonneg_right (mul_nonneg (cands i).uplift_nonneg
        (div_nonneg hbelow (cands i).units_pos.le))
    · rw [hweighed]
      linarith

/-- One candidate of the walk: the counts stay whole and the year is assessed no more. -/
theorem Sound.fill {st : Fill n} (h : Sound pool cands st) {i : Fin n} (hzero : st.indexed i = 0)
    (hpos : 0 < (cands i).uplift) :
    Sound pool cands (fill pool cands st i) ∧
      excess pool cands (IndexationCrossCheck.fill pool cands st i).indexed ≤
        excess pool cands st.indexed := by
  by_cases htakes : Takes cands st i
  · have hgain := (cands i).indexedGain_nonneg
    have hunit : (cands i).units / (cands i).units = 1 := div_self (cands i).units_pos.ne'
    have hweighed := weighed_update cands st.indexed i (cands i).units
    have hsaved := saved_update cands st.indexed i (cands i).units
    rw [hzero, sub_zero, hunit, mul_one] at hweighed hsaved
    have hwhole := h.whole.update (cands i).units_pos.le le_rfl (.inr rfl)
    rw [fill_of_takes htakes]
    refine ⟨⟨hwhole, le_max_right _ _, ?_⟩, ?_⟩
    · refine max_le ?_ (le_max_right _ _)
      dsimp only
      rw [hweighed]
      rcases le_max_iff.mp h.budget_le with hle | hle
      · exact le_max_of_le_left (by linarith)
      · exact le_max_of_le_right (by linarith)
    · dsimp only
      rcases lt_or_ge pool.room
        (weighed cands (Function.update st.indexed i (cands i).units)) with hover | hfits
      · -- past the losses the candidate was taken because it wins alone
        have hwins : (cands i).indexedGain ≤ (cands i).uplift := by
          rcases htakes with hwins | hle
          · exact ((Candidate.winsAlone_iff _).mp hwins).le
          · rcases le_max_iff.mp h.budget_le with hroom | hspent
            · linarith
            · linarith
        rw [excess, cost_of_over hover.le (saved_le_total hwhole.within hover.le), hsaved, hweighed]
        have hleft := le_max_left (total pool cands - saved cands st.indexed) 0
        have hright := le_max_left (weighed cands st.indexed - pool.room) 0
        rw [excess, cost]
        linarith
      · refine cost_anti ?_ hfits
        rw [hsaved]
        exact le_add_of_nonneg_right hpos.le
  · have hlt := (not_takes htakes).2
    by_cases hleft : st.budget = 0
    · rw [fill_of_spent htakes hleft]
      exact ⟨h, le_rfl⟩
    · have hbelow := h.below hzero hlt hleft
      have hbudget : 0 < st.budget := lt_of_le_of_ne h.budget_nonneg (Ne.symm hleft)
      rcases fill_of_runsOut pool htakes hleft with ⟨hless, heq⟩ | ⟨-, heq⟩
      · have habove := (below_nonneg hlt hbudget).trans below_le_above
        have hwhole := h.whole.update habove (min_le_right _ _) (above_whole hlt hbudget)
        rw [heq]
        refine ⟨⟨hwhole, le_rfl, le_max_right _ _⟩, ?_⟩
        have hcompare := (assessed_le_iff pool hwhole.within hbelow.1.whole.within 0).mp
          (by rw [add_zero]; exact hless.le)
        rw [mul_zero, add_zero] at hcompare
        exact hcompare.trans hbelow.2
      · rw [heq]
        exact hbelow

theorem Sound.walk {l : List (Fin n)} {st : Fill n} (h : Sound pool cands st) (hnodup : l.Nodup)
    (hzero : ∀ i ∈ l, st.indexed i = 0) (hpos : ∀ i ∈ l, 0 < (cands i).uplift) :
    Sound pool cands (l.foldl (IndexationCrossCheck.fill pool cands) st) ∧
      excess pool cands (l.foldl (IndexationCrossCheck.fill pool cands) st).indexed ≤
        excess pool cands st.indexed := by
  induction l generalizing st with
  | nil => exact ⟨h, le_rfl⟩
  | cons i l ih =>
    obtain ⟨hi, hl⟩ := List.nodup_cons.mp hnodup
    have hstep := h.fill (hzero i List.mem_cons_self) (hpos i List.mem_cons_self)
    have hkept : ∀ j ∈ l, (IndexationCrossCheck.fill pool cands st i).indexed j = 0 := by
      intro j hj
      have hne : j ≠ i := by
        rintro rfl
        exact hi hj
      rw [fill_indexed_of_ne hne]
      exact hzero j (List.mem_cons_of_mem i hj)
    have hrest := ih hstep.1 hl hkept fun j hj => hpos j (List.mem_cons_of_mem i hj)
    exact ⟨hrest.1, hrest.2.trans hstep.2⟩

theorem Filled.sound {pre : List (Fin n)} {st : Fill n} (h : Filled pool cands pre st) :
    Sound pool cands st where
  whole i := by
    refine ⟨(h.within i).1, (h.within i).2, ?_⟩
    rw [h.indexed i]
    split
    · exact .inr rfl
    · exact .inl ⟨0, Nat.cast_zero.symm⟩
  budget_nonneg := h.budget_nonneg
  budget_le := h.budget.le

end Sound

section Optimum
variable {n : ℕ} {pool : LossPool} {cands : Fin n → Candidate}

variable (cands) in
theorem le_largestUnit (i : Fin n) :
    (cands i).indexedGain / (cands i).units ≤ largestUnit cands := by
  have hall : ∀ l : List (Fin n), i ∈ l → (cands i).indexedGain / (cands i).units ≤
      l.foldr (fun i largest => max ((cands i).indexedGain / (cands i).units) largest) 0 := by
    intro l
    induction l with
    | nil => exact fun h => absurd h List.not_mem_nil
    | cons j l ih =>
      intro h
      rcases List.mem_cons.mp h with rfl | h
      · exact le_max_left _ _
      · exact (ih h).trans (le_max_right _ _)
  exact hall _ (List.mem_finRange i)

variable (cands) in
theorem largestUnit_nonneg : 0 ≤ largestUnit cands := by
  unfold largestUnit
  induction List.finRange n with
  | nil => exact le_rfl
  | cons i l ih => exact ih.trans (le_max_right _ _)

/-- Where the walk stops, the count it chooses is no worse than filling the losses. -/
theorem Filled.stop_le {pre : List (Fin n)} {st : Fill n} (h : Filled pool cands pre st) {b : Fin n}
    (hb : b ∉ pre) (hstop : ¬ Takes cands st b) (hpre : ∀ i ∈ pre, goesBefore cands i b)
    (hpost : ∀ i, i ∉ pre → i = b ∨ (cands i).uplift = 0 ∨ goesBefore cands b i)
    {y : Fin n → ℚ} (hy : Within cands y) :
    excess pool cands (fill pool cands st b).indexed ≤
      excess pool cands y + (cands b).indexedGain / (cands b).units := by
  have hzero : st.indexed b = 0 := by rw [h.indexed b, if_neg hb]
  have hlt := (not_takes hstop).2
  by_cases hspent : st.budget = 0
  · have hnear := h.near hb hstop hpre hpost le_rfl le_rfl
      (by rw [hspent, zero_div, mul_zero, sub_zero]) hy
    rw [add_zero, ← hzero, Function.update_eq_self] at hnear
    rw [fill_of_spent hstop hspent]
    exact hnear.trans (le_add_of_nonneg_right
      (div_nonneg (cands b).indexedGain_nonneg (cands b).units_pos.le))
  · have hpos : 0 < st.budget := lt_of_le_of_ne h.budget_nonneg (Ne.symm hspent)
    obtain ⟨habsorbed, hunit⟩ := below_absorbed hlt hpos
    have hbelow := h.near hb hstop hpre hpost (below_nonneg hlt hpos) (sub_nonneg.mpr habsorbed)
      (sub_sub_cancel _ _).symm hy
    have hsound := h.sound.below hzero hlt hspent
    have hchosen : excess pool cands (fill pool cands st b).indexed ≤
        excess pool cands (Function.update st.indexed b ((cands b).below st.budget)) := by
      rcases fill_of_runsOut pool hstop hspent with ⟨hless, heq⟩ | ⟨-, heq⟩
      · have habove : 0 ≤ (cands b).above st.budget :=
          (below_nonneg hlt hpos).trans below_le_above
        have hwhole := h.sound.whole.update habove (min_le_right _ _) (above_whole hlt hpos)
        have hcompare := (assessed_le_iff pool hwhole.within
          hsound.1.whole.within 0).mp (by rw [add_zero]; exact hless.le)
        rw [mul_zero, add_zero] at hcompare
        rw [heq]
        exact hcompare
      · rw [heq]
    linarith

theorem sorted_around {mid post : List (Fin n)} {b : Fin n}
    (hsplit : order cands = mid ++ b :: post) :
    b ∉ mid ∧ (∀ i ∈ mid, goesBefore cands i b) ∧
      ∀ i, i ∉ mid → i = b ∨ (cands i).uplift = 0 ∨ goesBefore cands b i := by
  have hnodup : (mid ++ b :: post).Nodup := hsplit ▸ order_nodup
  have hsorted : (mid ++ b :: post).Pairwise (goesBefore cands) := hsplit ▸ order_sorted
  obtain ⟨-, hrest, hcross⟩ := List.pairwise_append.mp hsorted
  refine ⟨?_, fun i hi => hcross i hi b List.mem_cons_self, ?_⟩
  · intro hb
    exact (List.nodup_append.mp hnodup).2.2 b hb b List.mem_cons_self rfl
  · intro i hi
    by_cases hmem : i ∈ order cands
    · rw [hsplit] at hmem
      rcases List.mem_append.mp hmem with hmid | htail
      · exact absurd hmid hi
      · rcases List.mem_cons.mp htail with rfl | hpost
        · exact .inl rfl
        · exact .inr (.inr ((List.pairwise_cons.mp hrest).1 i hpost))
    · have huplift := mt mem_order.mpr hmem
      exact .inr (.inl (le_antisymm (not_lt.mp huplift) (cands i).uplift_nonneg))

/-- The walk's choice is best but for part of one unit. -/
theorem walk_near (pool : LossPool) (cands : Fin n → Candidate) :
    Sound pool cands ((order cands).foldl (fill pool cands) (start pool)) ∧
      ∀ y, Within cands y →
        excess pool cands ((order cands).foldl (fill pool cands) (start pool)).indexed ≤
          excess pool cands y + largestUnit cands := by
  have hpos : ∀ i ∈ order cands, 0 < (cands i).uplift := fun i hi => mem_order.mp hi
  have hstart : Filled pool cands [] (start pool) := filled_start
  refine ⟨(hstart.sound.walk order_nodup (fun _ _ => rfl) hpos).1, ?_⟩
  intro y hy
  rcases hstart.walk (l := order cands) order_nodup hpos order_sorted with
    hall | ⟨mid, b, post, st, hsplit, hfilled, hstop, hrest⟩
  · refine (hall.least (fun i hi => ?_) hy).trans (le_add_of_nonneg_right (largestUnit_nonneg cands))
    have huplift := mt mem_order.mpr hi
    exact le_antisymm (not_lt.mp huplift) (cands i).uplift_nonneg
  · obtain ⟨hb, hpre, hpost⟩ := sorted_around hsplit
    have hnodup : (mid ++ b :: post).Nodup := hsplit ▸ order_nodup
    have htail : ∀ i ∈ b :: post, st.indexed i = 0 := by
      intro i hi
      rw [hfilled.indexed i, if_neg]
      intro hmid
      exact (List.nodup_append.mp hnodup).2.2 i hmid i hi rfl
    -- the step at which the losses run out already is near enough, and no later one loses
    have hstep := hfilled.sound.fill (htail b List.mem_cons_self)
      (hpos b (hsplit ▸ List.mem_append_right mid List.mem_cons_self))
    have hlater := hstep.1.walk (List.nodup_cons.mp (List.nodup_append.mp hnodup).2.1).2
      (fun i hi => by
        have hne : i ≠ b := by
          rintro rfl
          exact (List.nodup_cons.mp (List.nodup_append.mp hnodup).2.1).1 hi
        rw [fill_indexed_of_ne hne]
        exact htail i (List.mem_cons_of_mem b hi))
      fun i hi => hpos i (hsplit ▸ List.mem_append_right mid (List.mem_cons_of_mem b hi))
    rw [hrest]
    calc excess pool cands ((b :: post).foldl (fill pool cands) st).indexed
        ≤ excess pool cands (fill pool cands st b).indexed := hlater.2
      _ ≤ excess pool cands y + (cands b).indexedGain / (cands b).units :=
        hfilled.stop_le hb hstop hpre hpost hy
      _ ≤ excess pool cands y + largestUnit cands := by
        have hunit := le_largestUnit cands b
        linarith

end Optimum

section Result
variable {n : ℕ} {pool : LossPool} {cands : Fin n → Candidate}

variable (pool cands) in
theorem assessed_cheaper_le (best next : Fin n → ℚ) :
    pool.assessed cands (cheaper pool cands best next) ≤ pool.assessed cands best ∧
      pool.assessed cands (cheaper pool cands best next) ≤ pool.assessed cands next := by
  unfold cheaper
  split
  · next h => exact ⟨h.le, le_rfl⟩
  · next h => exact ⟨le_rfl, not_lt.mp h⟩

variable (pool cands) in
theorem cheaper_mem (best next : Fin n → ℚ) :
    cheaper pool cands best next = next ∨ cheaper pool cands best next = best :=
  ite_eq_or_eq _ _ _

theorem lossAwareOptimum_whole (pool : LossPool) (cands : Fin n → Candidate) :
    WholeUnits cands (lossAwareOptimum pool cands) := by
  have hwalk := (walk_near pool cands).1.whole
  rw [lossAwareOptimum]
  rcases cheaper_mem pool cands (cheaper pool cands (fun _ => 0)
    ((order cands).foldl (fill pool cands) (start pool)).indexed) (fun i => (cands i).units) with
    heq | heq
  · rw [heq]
    exact wholeUnits_all
  · rw [heq]
    rcases cheaper_mem pool cands (fun _ => 0)
      ((order cands).foldl (fill pool cands) (start pool)).indexed with heq | heq
    · rw [heq]
      exact hwalk
    · rw [heq]
      exact wholeUnits_none

theorem assessed_optimum_le (pool : LossPool) (cands : Fin n → Candidate) :
    pool.assessed cands (lossAwareOptimum pool cands) ≤ pool.assessed cands (fun _ => 0) ∧
      pool.assessed cands (lossAwareOptimum pool cands) ≤
        pool.assessed cands ((order cands).foldl (fill pool cands) (start pool)).indexed ∧
      pool.assessed cands (lossAwareOptimum pool cands) ≤
        pool.assessed cands fun i => (cands i).units := by
  have hlast := assessed_cheaper_le pool cands
    (cheaper pool cands (fun _ => 0) ((order cands).foldl (fill pool cands) (start pool)).indexed)
    fun i => (cands i).units
  have hfirst := assessed_cheaper_le pool cands (fun _ => 0)
    ((order cands).foldl (fill pool cands) (start pool)).indexed
  exact ⟨hlast.1.trans hfirst.1, hlast.1.trans hfirst.2, hlast.2⟩

/-- More units within the losses never assess more. -/
theorem excess_update_anti {indexed : Fin n → ℚ} {i : Fin n} (hzero : indexed i = 0) {x z : ℚ}
    (hxz : x ≤ z) (hfits : weighed cands (Function.update indexed i z) ≤ pool.room) :
    excess pool cands (Function.update indexed i z) ≤
      excess pool cands (Function.update indexed i x) := by
  refine cost_anti ?_ hfits
  rw [saved_update, saved_update, hzero, sub_zero, sub_zero]
  exact add_le_add_right (mul_le_mul_of_nonneg_left
    (div_le_div_of_nonneg_right hxz (cands i).units_pos.le) (cands i).uplift_nonneg) _

/-- More units past the losses never assess less, unless the candidate wins alone. -/
theorem excess_update_mono {indexed : Fin n → ℚ} {i : Fin n}
    (hcosts : (cands i).uplift ≤ (cands i).indexedGain) {x z : ℚ}
    (hx : Within cands (Function.update indexed i x))
    (hz : Within cands (Function.update indexed i z)) (hxz : x ≤ z)
    (hpast : pool.room ≤ weighed cands (Function.update indexed i x)) :
    excess pool cands (Function.update indexed i x) ≤
      excess pool cands (Function.update indexed i z) := by
  have hscale : (x - indexed i) / (cands i).units ≤ (z - indexed i) / (cands i).units :=
    div_le_div_of_nonneg_right (sub_le_sub_right hxz _) (cands i).units_pos.le
  have hmore : weighed cands (Function.update indexed i x) ≤
      weighed cands (Function.update indexed i z) := by
    rw [weighed_update, weighed_update]
    exact add_le_add_right (mul_le_mul_of_nonneg_left hscale (cands i).indexedGain_nonneg) _
  have hpast' := hpast.trans hmore
  rw [excess, excess, cost_of_over hpast (saved_le_total hx hpast),
    cost_of_over hpast' (saved_le_total hz hpast')]
  rw [saved_update, saved_update, weighed_update, weighed_update]
  have hgap := mul_nonneg (sub_nonneg.mpr hscale) (sub_nonneg.mpr hcosts)
  linarith

/-- One allocation of whole units: the walk's choice is the best whole count. -/
theorem walk_least_of_one (pool : LossPool) (cands : Fin 1 → Candidate)
    (hunits : ∃ count : ℕ, (cands 0).units = count) {y : Fin 1 → ℚ} (hy : WholeUnits cands y) :
    excess pool cands ((order cands).foldl (fill pool cands) (start pool)).indexed ≤
      excess pool cands y := by
  have hpos : ∀ i ∈ order cands, 0 < (cands i).uplift := fun i hi => mem_order.mp hi
  have hstart : Filled pool cands [] (start pool) := filled_start
  rcases hstart.walk (l := order cands) order_nodup hpos order_sorted with
    hall | ⟨mid, b, post, st, hsplit, hfilled, hstop, hrest⟩
  · refine hall.least (fun i hi => ?_) hy.within
    exact le_antisymm (not_lt.mp (mt mem_order.mpr hi)) (cands i).uplift_nonneg
  rw [List.nil_append] at hfilled
  obtain ⟨hb, hpre, hpost⟩ := sorted_around hsplit
  have hnodup : (mid ++ b :: post).Nodup := hsplit ▸ order_nodup
  have hb0 : b = 0 := Subsingleton.elim b 0
  have hpostnil : post = [] := by
    refine List.eq_nil_iff_forall_not_mem.mpr fun i hi => ?_
    rw [Subsingleton.elim i b] at hi
    exact (List.nodup_cons.mp (List.nodup_append.mp hnodup).2.1).1 hi
  have hzero : st.indexed b = 0 := by rw [hfilled.indexed b, if_neg hb]
  rw [hrest, hpostnil, List.foldl_cons, List.foldl_nil]
  by_cases hspent : st.budget = 0
  · have hnear := hfilled.near hb hstop hpre hpost le_rfl le_rfl
      (by rw [hspent, zero_div, mul_zero, sub_zero]) hy.within
    rw [add_zero, ← hzero, Function.update_eq_self] at hnear
    rw [fill_of_spent hstop hspent]
    exact hnear
  obtain ⟨hcosts, hlt⟩ := not_takes hstop
  have hbudget : 0 < st.budget := lt_of_le_of_ne hfilled.budget_nonneg (Ne.symm hspent)
  obtain ⟨habsorbed, hunit⟩ := below_absorbed hlt hbudget
  have hsound := hfilled.sound.below hzero hlt hspent
  have hwhole := hfilled.sound.whole.update ((below_nonneg hlt hbudget).trans below_le_above)
    (min_le_right _ _) (above_whole hlt hbudget)
  -- the counts are one number, so each choice is an update of the one before
  have hupdate : ∀ z : Fin 1 → ℚ, z = Function.update st.indexed b (z b) := by
    intro z
    funext i
    rw [Subsingleton.elim i b, Function.update_self]
  have hweighed := fun x => weighed_update cands st.indexed b x
  simp only [hzero, sub_zero] at hweighed
  have hroom : st.budget = pool.room - weighed cands st.indexed := by
    rw [hfilled.budget]
    rcases max_choice (pool.room - weighed cands st.indexed) 0 with heq | heq
    · exact heq
    · exact absurd (hfilled.budget.trans heq) hspent
  obtain ⟨count, hcount⟩ := exists_below hlt hbudget
  obtain ⟨all, hunits⟩ := hunits
  rw [← hb0] at hunits
  have hyb := hy b
  have hycount : ∃ m : ℕ, y b = m := by
    rcases hyb.2.2 with hm | hm
    · exact hm
    · exact ⟨all, hm.trans hunits⟩
  obtain ⟨m, hm⟩ := hycount
  have hbest : excess pool cands
        (Function.update st.indexed b ((cands b).below st.budget)) ≤ excess pool cands y ∨
      excess pool cands
        (Function.update st.indexed b ((cands b).above st.budget)) ≤ excess pool cands y := by
    rw [hupdate y]
    rcases le_or_gt m count with hle | hgt
    · refine .inl (excess_update_anti hzero ?_ ?_)
      · rw [hm, hcount]
        exact Nat.cast_le.mpr hle
      · rw [hweighed]
        linarith
    · right
      have hnext : (cands b).below st.budget + 1 ≤ y b := by
        rw [hcount, hm]
        exact_mod_cast hgt
      have habove : (cands b).above st.budget = (cands b).below st.budget + 1 :=
        min_eq_left (hnext.trans hyb.2.1)
      refine excess_update_mono hcosts hwhole.within (hupdate y ▸ hy.within)
        (habove.le.trans hnext) ?_
      rw [hweighed, habove, add_div, mul_add, mul_one_div]
      linarith
  have hcompare := fun {x z : Fin 1 → ℚ} (hx : Within cands x) (hz : Within cands z) =>
    assessed_le_iff pool hx hz 0
  simp only [mul_zero, add_zero] at hcompare
  rcases fill_of_runsOut pool hstop hspent with ⟨hless, heq⟩ | ⟨hless, heq⟩
  · rw [heq]
    have hle := (hcompare hwhole.within hsound.1.whole.within).mp hless.le
    exact hbest.elim hle.trans id
  · rw [heq]
    have hle := (hcompare hsound.1.whole.within hwhole.within).mp (not_lt.mp hless)
    exact hbest.elim id hle.trans

/-- **The loss-aware choice is near-optimal**, in exact arithmetic. The figure reported is
what its split assesses; it is no worse than indexing nothing or everything, exceeds no
split by more than one unit's indexed gain, and one allocation of whole units is
split at the least figure. -/
theorem lossAware_near_optimal (pool : LossPool) :
    (∀ {n : ℕ} (cands : Fin n → Candidate),
      WholeUnits cands (lossAwareFigures pool cands).lossAwareUnitsIndexed ∧
      (lossAwareFigures pool cands).lossAwareNetCapitalGain =
        pool.assessed cands (lossAwareFigures pool cands).lossAwareUnitsIndexed ∧
      (lossAwareFigures pool cands).lossAwareNetCapitalGain ≤ pool.assessed cands (fun _ => 0) ∧
      (lossAwareFigures pool cands).lossAwareNetCapitalGain ≤
        pool.assessed cands (fun i => (cands i).units) ∧
      ∀ split, WholeUnits cands split →
        (lossAwareFigures pool cands).lossAwareNetCapitalGain ≤
          pool.assessed cands split + largestUnit cands) ∧
    ∀ (cands : Fin 1 → Candidate) (units : ℕ), (cands 0).units = units →
      IsLeast { figure | ∃ split, WholeUnits cands split ∧ figure = pool.assessed cands split }
        (lossAwareFigures pool cands).lossAwareNetCapitalGain := by
  constructor
  · intro n cands
    obtain ⟨hnone, hwalk, hall⟩ := assessed_optimum_le pool cands
    obtain ⟨hsound, hnear⟩ := walk_near pool cands
    refine ⟨lossAwareOptimum_whole pool cands, rfl, hnone, hall, ?_⟩
    intro split hsplit
    refine hwalk.trans ((assessed_le_iff pool hsound.whole.within hsplit.within _).mpr ?_)
    have hunit := largestUnit_nonneg cands
    exact (hnear split hsplit.within).trans (by linarith)
  · intro cands units hunits
    have hwalk := (assessed_optimum_le pool cands).2.1
    refine ⟨⟨_, lossAwareOptimum_whole pool cands, rfl⟩, ?_⟩
    rintro figure ⟨split, hsplit, rfl⟩
    refine hwalk.trans ?_
    have hleast := walk_least_of_one pool cands ⟨units, hunits⟩ hsplit
    have hcompare := (assessed_le_iff pool (walk_near pool cands).1.whole.within
      hsplit.within 0).mpr (by rw [mul_zero, add_zero]; exact hleast)
    rwa [add_zero] at hcompare

end Result

end ShareTracker.IndexationCrossCheck
