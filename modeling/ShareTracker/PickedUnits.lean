import ShareTracker.ParcelOptimiser
import ShareTracker.Lib.CheapestFill

/-!
The units an exact walk picks: each parcel in turn fills in order, and picks
that add up to the sale's units already are left as they are.
-/
namespace ShareTracker.ParcelOptimiser
open CheapestFill CandidateParcel

/-- The units picked of a trade. -/
def takenOf (picks : List (TradeId × ℚ)) (trade : TradeId) : ℚ :=
  ((picks.filter fun pick => pick.1 = trade).map Prod.snd).sum

def oneUnit : Decimal := ⟨1, 0, Decimal.one_mantissa_lt, Decimal.no_scale_le⟩

theorem oneUnit_value : oneUnit.value = 1 := by simp [oneUnit, Decimal.value]

theorem oneUnit_pos : 0 < oneUnit.value := by simp [oneUnit_value]

/-- Units of the candidate parcels that make up a sale. -/
structure Allocates (parcels : List CandidateParcel) (sold : ℚ) (taken : CandidateParcel → ℚ) :
    Prop where
  within : Within units parcels taken
  total : amount parcels taken = sold

/-! ### What an allocation realises -/

section Realised
variable (price : ℚ) (saleDate : NaiveDate) (parcels : List CandidateParcel)
  (taken : CandidateParcel → ℚ)

/-- A gain that gets no discount. -/
def dilutes (p : CandidateParcel) : Bool :=
  0 < gainPerUnit id price p && !discountEligible p.acquisitionDate saleDate

/-- The gain an allocation realises with the discount, and the one without. -/
def discountedGain : ℚ :=
  (parcels.map fun p => if 0 < gainPerUnit id price p ∧
    discountEligible p.acquisitionDate saleDate = true then gainPerUnit id price p * taken p else 0).sum

def dilutingGain : ℚ :=
  (parcels.map fun p => if dilutes price saleDate p = true then gainPerUnit id price p * taken p else 0).sum

/-- The loss it realises, as a positive figure. -/
def lossRealised : ℚ :=
  (parcels.map fun p => if gainPerUnit id price p ≤ 0 then -(gainPerUnit id price p * taken p) else 0).sum

end Realised

section Taken
variable {picks picks' : List (TradeId × ℚ)} {trade : TradeId}

theorem takenOf_append : takenOf (picks ++ picks') trade = takenOf picks trade + takenOf picks' trade := by
  rw [takenOf, List.filter_append, List.map_append, List.sum_append, takenOf, takenOf]

theorem takenOf_cons_self (take : ℚ) :
    takenOf ((trade, take) :: picks) trade = take + takenOf picks trade := by
  simp [takenOf]

theorem takenOf_cons_ne {other : TradeId} (h : other ≠ trade) (take : ℚ) :
    takenOf ((other, take) :: picks) trade = takenOf picks trade := by
  simp [takenOf, h]

theorem takenOf_eq_zero (h : ∀ pick ∈ picks, pick.1 ≠ trade) : takenOf picks trade = 0 := by
  have hnone : (picks.filter fun pick => pick.1 = trade) = [] :=
    List.filter_eq_nil_iff.mpr fun pick hpick heq => h pick hpick (of_decide_eq_true heq)
  rw [takenOf, hnone]
  rfl

end Taken

/-! ### The walk -/

section Walk
variable {left : ℚ} {parcels : List CandidateParcel}

theorem consume_ids (keep : ℚ → ℚ) (left : ℚ) (parcels : List CandidateParcel) :
    ((consume keep left parcels).map Prod.fst).Sublist (parcels.map tradeId) := by
  induction parcels generalizing left with
  | nil => exact List.Sublist.refl []
  | cons p parcels ih =>
    rw [consume]
    split
    · exact List.nil_sublist _
    · exact (ih _).cons_cons _

theorem takenOf_consume_of_notMem {trade : TradeId} (h : trade ∉ parcels.map tradeId) :
    takenOf (consume id left parcels) trade = 0 := by
  refine takenOf_eq_zero fun pick hpick heq => h ?_
  rw [← heq]
  exact (consume_ids id left parcels).subset (List.mem_map_of_mem hpick)

theorem consume_of_nonpos (h : left ≤ 0) : consume id left parcels = [] := by
  cases parcels with
  | nil => rfl
  | cons p parcels => rw [consume, if_pos h]

theorem consume_cons {p : CandidateParcel} (h : 0 < left) :
    consume id left (p :: parcels) =
      (p.tradeId, min p.units left) :: consume id (left - min p.units left) parcels := by
  rw [consume, if_neg (not_le.mpr h)]
  rfl

/-- The walk fills the parcels in their order. -/
theorem consume_fills (hids : (parcels.map tradeId).Nodup) (left : ℚ) :
    FillsInOrder units left parcels fun p => takenOf (consume id left parcels) p.tradeId := by
  induction parcels generalizing left with
  | nil =>
    intro pre p post hsplit
    simp at hsplit
  | cons q parcels ih =>
    obtain ⟨hq, hids⟩ := List.nodup_cons.mp hids
    intro pre p post hsplit
    change takenOf (consume id left (q :: parcels)) p.tradeId = _
    by_cases hleft : left ≤ 0
    · have hpre : 0 ≤ amount pre units := amount_nonneg_of fun r _ => r.units_pos.le
      have hnone : min p.units (left - amount pre units) ≤ 0 :=
        (min_le_right _ _).trans (by linarith)
      rw [consume_of_nonpos hleft, max_eq_left hnone]
      rfl
    · rw [consume_cons (not_le.mp hleft)]
      cases pre with
      | nil =>
        obtain ⟨rfl, rfl⟩ := List.cons.inj hsplit
        have hpos : 0 ≤ min q.units left := le_min q.units_pos.le (not_le.mp hleft).le
        rw [takenOf_cons_self, takenOf_consume_of_notMem hq, add_zero, amount, List.map_nil,
          List.sum_nil, sub_zero, max_eq_right hpos]
      | cons r pre =>
        obtain ⟨rfl, rfl⟩ := List.cons.inj hsplit
        have hne : q.tradeId ≠ p.tradeId := fun heq =>
          hq (heq ▸ List.mem_map_of_mem (List.mem_append_right _ List.mem_cons_self))
        have hrest := ih hids (left - min q.units left) pre p post rfl
        have htotal : amount (q :: pre) units = q.units + amount pre units := List.sum_cons
        rw [takenOf_cons_ne hne]
        refine hrest.trans ?_
        rw [htotal]
        rcases le_total q.units left with hfull | hpart
        · rw [min_eq_left hfull, sub_sub]
        · have hpre : 0 ≤ amount pre units := amount_nonneg_of fun r _ => r.units_pos.le
          rw [min_eq_right hpart, sub_self, max_eq_left ((min_le_right _ _).trans (by linarith)),
            max_eq_left ((min_le_right _ _).trans (by linarith))]

/-- What a first parcel fills and the rest fill of what it leaves. -/
theorem min_add_min_sub {first rest : ℚ} (hrest : 0 ≤ rest) (left : ℚ) :
    min first left + min (left - min first left) rest = min left (first + rest) := by
  rcases le_total first left with hfull | hpart
  · rw [min_eq_left hfull, ← min_add_add_left, add_sub_cancel]
  · rw [min_eq_right hpart, sub_self, min_eq_left hrest, add_zero, min_eq_left (by linarith)]

theorem sum_consume (hleft : 0 ≤ left) :
    ((consume id left parcels).map Prod.snd).sum = min left (amount parcels units) := by
  induction parcels generalizing left with
  | nil =>
    rw [consume, List.map_nil, List.sum_nil]
    exact (min_eq_right hleft).symm
  | cons p parcels ih =>
    have htotal : amount (p :: parcels) units = p.units + amount parcels units := List.sum_cons
    have hrest : 0 ≤ amount parcels units := amount_nonneg_of fun r _ => r.units_pos.le
    rcases hleft.eq_or_lt with rfl | hpos
    · rw [consume_of_nonpos le_rfl]
      exact (min_eq_left (amount_nonneg_of fun r _ => r.units_pos.le)).symm
    · rw [consume_cons hpos, List.map_cons, List.sum_cons, ih (sub_nonneg.mpr (min_le_right _ _)),
        htotal]
      exact min_add_min_sub hrest left

end Walk

/-! ### Adding up -/

theorem sumKept_exact (figures : List ℚ) : sumKept id figures = figures.sum := by
  rw [List.sum_eq_foldl]
  rfl

/-- Picks that add up are not moved. -/
theorem addingUpTo_of_sumKept {keep : ℚ → ℚ} (hzero : keep 0 = 0) {picks : List (TradeId × ℚ)} {sold : ℚ}
    (h : sumKept keep (picks.map Prod.snd) = sold) : addingUpTo keep picks sold = picks := by
  have hresidue : keep (sold - sumKept keep (picks.map Prod.snd)) = 0 := by
    rw [h, sub_self, hzero]
  unfold addingUpTo settleLast
  split
  · rfl
  · exact if_pos (.inl hresidue)

theorem addingUpTo_of_sum {picks : List (TradeId × ℚ)} {sold : ℚ}
    (h : (picks.map Prod.snd).sum = sold) : addingUpTo id picks sold = picks :=
  addingUpTo_of_sumKept rfl ((sumKept_exact _).trans h)

/-- A walk over enough parcels is left as it is. -/
theorem addingUpTo_consume {sold : ℚ} {parcels : List CandidateParcel}
    (h : sold ≤ amount parcels units) :
    addingUpTo id (consume id sold parcels) sold = consume id sold parcels := by
  rcases le_or_gt 0 sold with hsold | hsold
  · exact addingUpTo_of_sum ((sum_consume hsold).trans (min_eq_left h))
  · rw [consume_of_nonpos hsold.le]
    rfl

end ShareTracker.ParcelOptimiser
