import ShareTracker.PickedUnits

/-!
The max-discount strategy. Gains that get no discount go last, by acquisition
and not by gain: the share of the gain that is discounted is the largest exactly
when no unit of such a gain is sold while a smaller one after it keeps some.
-/
namespace ShareTracker.ParcelOptimiser
open CheapestFill CandidateParcel

section Share
variable (price : ℚ) (saleDate : NaiveDate)

/-- No allocation of as many units realises less of the one and as much of the
other. -/
def MaximisesShare (parcels : List CandidateParcel) (sold : ℚ) (taken : CandidateParcel → ℚ) : Prop :=
  ∀ taken', Allocates parcels sold taken' →
    ¬ (dilutingGain price saleDate parcels taken' < dilutingGain price saleDate parcels taken ∧
      discountedGain price saleDate parcels taken ≤ discountedGain price saleDate parcels taken')

/-- The gains that get no discount, in the order they are sold. -/
def dilutingParcels (parcels : List CandidateParcel) : List CandidateParcel :=
  StableSort.sortBy fifo (parcels.filter (dilutes price saleDate))

/-- The units left to take of them when everything else is sold. -/
def dilutingUnits (parcels : List CandidateParcel) (sold : ℚ) : ℚ :=
  sold - amount (parcels.filter fun p => !dilutes price saleDate p) units

end Share

/-! ### The order of the sale -/

section Order
variable {price : ℚ} {saleDate : NaiveDate} {parcels : List CandidateParcel}

theorem discountGroup_eq_two (p : CandidateParcel) :
    discountGroup id price saleDate p = 2 ↔ dilutes price saleDate p = true := by
  unfold discountGroup dilutes
  cases discountEligible p.acquisitionDate saleDate <;>
    rcases lt_or_ge 0 (gainPerUnit id price p) with h | h <;> simp [h, not_le.mpr, not_lt.mpr]

theorem discountGroup_le (price : ℚ) (saleDate : NaiveDate) (p : CandidateParcel) :
    discountGroup id price saleDate p ≤ 2 := by
  unfold discountGroup
  dsimp only
  split_ifs <;> omega

/-- Whatever does not dilute, then what does by acquisition. -/
theorem discount_order (price : ℚ) (saleDate : NaiveDate) (parcels : List CandidateParcel) :
    ∃ before, before.Perm (parcels.filter fun p => !dilutes price saleDate p) ∧
      StableSort.sortBy (fun p => toLex (discountGroup id price saleDate p, p.fifo)) parcels =
        before ++ dilutingParcels price saleDate parcels := by
  let key : CandidateParcel → ℕ ×ₗ (NaiveDate ×ₗ TradeId) :=
    fun p => toLex (discountGroup id price saleDate p, p.fifo)
  have hsplit := StableSort.takeWhile_dropWhile_eq_filter (p := fun p => !dilutes price saleDate p)
    (l := StableSort.sortBy key parcels) ((StableSort.sortBy_sorted key parcels).imp ?_)
  · have hlast : (StableSort.sortBy key parcels).filter (dilutes price saleDate) =
        dilutingParcels price saleDate parcels := by
      rw [StableSort.filter_sortBy]
      refine StableSort.sortBy_congr fun p hp q hq => ?_
      have hgroup := (discountGroup_eq_two p).mpr (List.mem_filter.mp hp).2
      have hgroup' := (discountGroup_eq_two q).mpr (List.mem_filter.mp hq).2
      simp only [key, hgroup, hgroup', Prod.Lex.toLex_le_toLex, lt_irrefl, true_and, false_or]
    refine ⟨(StableSort.sortBy key parcels).filter fun p => !dilutes price saleDate p,
      (StableSort.sortBy_perm key parcels).filter _, ?_⟩
    rw [← hlast, ← hsplit.1]
    refine (List.takeWhile_append_dropWhile (p := fun p => !dilutes price saleDate p)).symm.trans ?_
    rw [hsplit.2]
    simp only [Bool.not_not]
    rfl
  · -- a parcel before one that does not dilute does not either
    intro p q hpq hq
    have hq : dilutes price saleDate q ≠ true := by simpa using hq
    cases hp : dilutes price saleDate p with
    | false => rfl
    | true =>
      have hgroup := (discountGroup_eq_two p).mpr hp
      have hne : discountGroup id price saleDate q ≠ 2 := mt (discountGroup_eq_two q).mp hq
      have hle := discountGroup_le price saleDate q
      have hfirst : discountGroup id price saleDate p ≤ discountGroup id price saleDate q :=
        Prod.Lex.monotone_fst _ _ hpq
      omega

end Order

/-! ### What is taken -/

section Taken
variable {price : ℚ} {saleDate : NaiveDate} {parcels : List CandidateParcel} {units' : Decimal}

theorem dilutingParcels_perm (price : ℚ) (saleDate : NaiveDate) (parcels : List CandidateParcel) :
    (dilutingParcels price saleDate parcels).Perm (parcels.filter (dilutes price saleDate)) :=
  StableSort.sortBy_perm _ _

theorem mem_dilutingParcels {p : CandidateParcel} :
    p ∈ dilutingParcels price saleDate parcels ↔ p ∈ parcels ∧ dilutes price saleDate p = true := by
  rw [(dilutingParcels_perm price saleDate parcels).mem_iff, List.mem_filter]

theorem dilutingGain_eq (taken : CandidateParcel → ℚ) :
    dilutingGain price saleDate parcels taken =
      cost (gainPerUnit id price) (dilutingParcels price saleDate parcels) taken := by
  rw [cost_perm (dilutingParcels_perm price saleDate parcels), dilutingGain, sum_map_ite]
  simp only [Bool.decide_eq_true, cost]

theorem gain_nonneg_of_dilutes : ∀ p ∈ dilutingParcels price saleDate parcels,
    0 ≤ gainPerUnit id price p := by
  intro p hp
  have hdilutes := (mem_dilutingParcels.mp hp).2
  unfold dilutes at hdilutes
  exact (of_decide_eq_true ((Bool.and_eq_true _ _).mp hdilutes).1).le

/-- The units the strategy takes of each parcel. -/
def discountTaken (parcels : List CandidateParcel) (sold : Decimal) (price : ℚ)
    (saleDate : NaiveDate) (p : CandidateParcel) : ℚ :=
  takenOf (allocateParcels id parcels sold price saleDate .maxDiscount) p.tradeId

variable {sold : Decimal}

/-- The walk of the strategy fills its order, where the parcels hold the sale. -/
theorem discountTaken_fills (price : ℚ) (saleDate : NaiveDate) (hids : (parcels.map tradeId).Nodup)
    (henough : sold.value ≤ amount parcels units) :
    FillsInOrder units sold.value
      (StableSort.sortBy (fun p => toLex (discountGroup id price saleDate p, p.fifo)) parcels)
      (discountTaken parcels sold price saleDate) := by
  have hperm := StableSort.sortBy_perm
    (fun p : CandidateParcel => toLex (discountGroup id price saleDate p, p.fifo)) parcels
  have hids' := (hperm.map tradeId).nodup_iff.mpr hids
  have hfills := consume_fills hids' sold.value
  rw [← addingUpTo_consume (henough.trans (amount_perm hperm units).ge)] at hfills
  exact hfills

/-- What the walk leaves for the diluting gains it fills in their order. -/
theorem discountTaken_fills_diluting (price : ℚ) (saleDate : NaiveDate)
    (hids : (parcels.map tradeId).Nodup)
    (henough : sold.value ≤ amount parcels units) :
    FillsInOrder units (dilutingUnits price saleDate parcels sold.value)
      (dilutingParcels price saleDate parcels) (discountTaken parcels sold price saleDate) := by
  obtain ⟨before, hbefore, horder⟩ := discount_order price saleDate parcels
  have hfills := discountTaken_fills price saleDate hids henough
  rw [horder] at hfills
  have hlast := hfills.of_append before
  rwa [amount_perm hbefore] at hlast

theorem discountTaken_allocates (price : ℚ) (saleDate : NaiveDate)
    (hids : (parcels.map tradeId).Nodup)
    (henough : sold.value ≤ amount parcels units) (hsold : 0 ≤ sold.value) :
    Allocates parcels sold.value (discountTaken parcels sold price saleDate) := by
  have hfills := discountTaken_fills price saleDate hids henough
  have hperm := StableSort.sortBy_perm
    (fun p : CandidateParcel => toLex (discountGroup id price saleDate p, p.fifo)) parcels
  have hwithin := hfills.within fun p _ => p.units_pos.le
  refine ⟨⟨fun p hp => hwithin.nonneg p (hperm.mem_iff.mpr hp),
    fun p hp => hwithin.le_room p (hperm.mem_iff.mpr hp)⟩, ?_⟩
  rw [← amount_perm hperm, hfills.amount_eq fun p _ => p.units_pos.le, amount_perm hperm,
    min_eq_left henough, max_eq_right hsold]

end Taken

/-! ### The share -/

section Share
variable {parcels : List CandidateParcel}

/-- Where the parcels hold the sale, the share is the largest exactly when the
diluting gains taken cannot be improved. -/
theorem maximisesShare_iff_unimprovable (hids : (parcels.map tradeId).Nodup) {sold : Decimal}
    (price : ℚ) (saleDate : NaiveDate) (henough : sold.value ≤ amount parcels units) :
    MaximisesShare price saleDate parcels sold.value (discountTaken parcels sold price saleDate) ↔
      Unimprovable units (gainPerUnit id price) (dilutingParcels price saleDate parcels)
        (discountTaken parcels sold price saleDate) := by
  have hfills := discountTaken_fills_diluting price saleDate hids henough
  have hwithin := hfills.within fun p _ => p.units_pos.le
  have hamount := hfills.amount_eq fun p _ => p.units_pos.le
  constructor
  · intro hmax
    by_contra hnot
    have hnodup : (dilutingParcels price saleDate parcels).Nodup :=
      (dilutingParcels_perm price saleDate parcels).nodup_iff.mpr ((hids.of_map _).filter _)
    classical
    obtain ⟨cheaper, hwithin', hsame, hless⟩ := exists_cheaper hnodup hwithin hnot
    -- a parcel that can be improved was reached, so the sale is of something
    have hsold : 0 ≤ sold.value := by
      by_contra hneg
      refine hnot fun q hq p _ hpos _ => ?_
      have hnone : discountTaken parcels sold price saleDate q = 0 := by
        rw [discountTaken, allocateParcels, addingUpTo_consume, consume_of_nonpos (not_le.mp hneg).le]
        · rfl
        · exact henough.trans (amount_perm (StableSort.sortBy_perm _ parcels) units).ge
      exact absurd hpos (not_lt.mpr hnone.le)
    have hall := discountTaken_allocates price saleDate hids henough hsold
    let moved : CandidateParcel → ℚ := fun p =>
      if dilutes price saleDate p = true then cheaper p else discountTaken parcels sold price saleDate p
    have hmoved : ∀ p, dilutes price saleDate p = true → moved p = cheaper p := fun p hp => if_pos hp
    have hkept : ∀ p, dilutes price saleDate p = false →
        moved p = discountTaken parcels sold price saleDate p := fun p hp =>
      if_neg (by rw [hp]; exact Bool.false_ne_true)
    have hdiluting : ∀ p ∈ dilutingParcels price saleDate parcels, moved p = cheaper p :=
      fun p hp => hmoved p (mem_dilutingParcels.mp hp).2
    refine hmax moved ⟨⟨fun p hp => ?_, fun p hp => ?_⟩, ?_⟩ ⟨?_, ?_⟩
    · cases hdil : dilutes price saleDate p with
      | true =>
        rw [hmoved p hdil]
        exact hwithin'.nonneg p (mem_dilutingParcels.mpr ⟨hp, hdil⟩)
      | false =>
        rw [hkept p hdil]
        exact hall.within.nonneg p hp
    · cases hdil : dilutes price saleDate p with
      | true =>
        rw [hmoved p hdil]
        exact hwithin'.le_room p (mem_dilutingParcels.mpr ⟨hp, hdil⟩)
      | false =>
        rw [hkept p hdil]
        exact hall.within.le_room p hp
    · have hundiluting : amount (parcels.filter fun p => !dilutes price saleDate p) moved =
          amount (parcels.filter fun p => !dilutes price saleDate p)
            (discountTaken parcels sold price saleDate) := by
        refine congrArg List.sum (List.map_congr_left fun p hp => hkept p ?_)
        simpa using (List.mem_filter.mp hp).2
      have hdil : amount (parcels.filter (dilutes price saleDate)) moved =
          amount (parcels.filter (dilutes price saleDate))
            (discountTaken parcels sold price saleDate) := by
        rw [← amount_perm (dilutingParcels_perm price saleDate parcels),
          ← amount_perm (dilutingParcels_perm price saleDate parcels), ← hsame]
        exact congrArg List.sum (List.map_congr_left hdiluting)
      rw [amount_split parcels (dilutes price saleDate), hundiluting, hdil, ← amount_split]
      exact hall.total
    · rw [dilutingGain_eq, dilutingGain_eq]
      refine lt_of_eq_of_lt ?_ hless
      exact congrArg List.sum (List.map_congr_left fun p hp => by rw [hdiluting p hp])
    · refine le_of_eq (congrArg List.sum (List.map_congr_left fun p _ => ?_))
      split
      · rename_i hdiscount
        rw [hkept p (by simp [dilutes, hdiscount.2])]
      · rfl
  · rintro hun taken' hall ⟨hless, -⟩
    rw [dilutingGain_eq, dilutingGain_eq] at hless
    refine absurd hless (not_lt.mpr (cost_le_of_unimprovable gain_nonneg_of_dilutes hun hwithin
      ⟨fun p hp => hall.within.nonneg p (mem_dilutingParcels.mp hp).1,
        fun p hp => hall.within.le_room p (mem_dilutingParcels.mp hp).1⟩ ?_))
    -- everything that does not dilute is sold first
    have hsplit := amount_split parcels (dilutes price saleDate) taken'
    rw [hall.total, ← amount_perm (dilutingParcels_perm price saleDate parcels) taken'] at hsplit
    have hfirst : amount (parcels.filter fun p => !dilutes price saleDate p) taken' ≤
        amount (parcels.filter fun p => !dilutes price saleDate p) units :=
      List.sum_le_sum fun p hp => hall.within.le_room p (List.mem_of_mem_filter hp)
    rw [hamount]
    refine max_le (amount_nonneg_of fun p hp => hall.within.nonneg p (mem_dilutingParcels.mp hp).1) ?_
    refine (min_le_left _ _).trans ?_
    rw [dilutingUnits]
    linarith

/-- The discounted share is the largest exactly when, of the gains that get no
discount, none is sold by acquisition ahead of a smaller one that keeps units. -/
theorem maxDiscount_maximises_iff (parcels : List CandidateParcel)
    (hids : (parcels.map tradeId).Nodup) (sold : Decimal) (price : ℚ) (saleDate : NaiveDate) :
    MaximisesShare price saleDate parcels sold.value (discountTaken parcels sold price saleDate) ↔
      CheapestFirst units (gainPerUnit id price)
        (dilutingUnits price saleDate parcels sold.value) (dilutingParcels price saleDate parcels) := by
  rcases le_or_gt sold.value (amount parcels units) with henough | hshort
  · rw [maximisesShare_iff_unimprovable hids price saleDate henough]
    exact (discountTaken_fills_diluting price saleDate hids henough).unimprovable_iff fun p _ => p.units_pos
  · -- more than the parcels hold: nothing allocates it
    constructor
    · intro _ pre q mid p post hsplit _
      refine .inr ?_
      have hdiluting := amount_perm (dilutingParcels_perm price saleDate parcels) units
      have hparts := amount_split parcels (dilutes price saleDate) units
      have hpost : 0 ≤ amount post units := amount_nonneg_of fun r _ => r.units_pos.le
      have hlast : amount (p :: post) units = p.units + amount post units := List.sum_cons
      have hsum : amount (dilutingParcels price saleDate parcels) units =
          amount (pre ++ q :: mid) units + (p.units + amount post units) := by
        rw [← hlast, ← amount_append, hsplit]
        simp
      rw [dilutingUnits]
      linarith
    · intro _ taken' hall
      have hle := hall.within.amount_le
      rw [hall.total] at hle
      exact absurd hle (not_le.mpr hshort)

end Share

/-- A gain of five dollars on the older parcel and of one on the newer, neither
held for twelve months. -/
def olderAndDearer : List CandidateParcel :=
  [⟨1, ymd 2024 1 10, oneUnit, 5, oneUnit_pos⟩,
    ⟨2, ymd 2024 2 10, oneUnit, 9, oneUnit_pos⟩]

theorem maxDiscount_maximises_iff_olderAndDearer :
    MaximisesShare 10 (ymd 2024 6 1) olderAndDearer oneUnit.value
        (discountTaken olderAndDearer oneUnit 10 (ymd 2024 6 1)) ↔
      CheapestFirst units (gainPerUnit id 10) (dilutingUnits 10 (ymd 2024 6 1) olderAndDearer
        oneUnit.value) (dilutingParcels 10 (ymd 2024 6 1) olderAndDearer) :=
  maxDiscount_maximises_iff olderAndDearer (by decide) oneUnit 10 (ymd 2024 6 1)

/-- The older parcel is sold, and the newer realises less of what gets no discount. -/
theorem maxDiscount_takes_the_dearer :
    ¬ ∀ (parcels : List CandidateParcel) (sold : Decimal) (price : ℚ) (saleDate : NaiveDate),
      MaximisesShare price saleDate parcels sold.value (discountTaken parcels sold price saleDate) := by
  intro h
  have hmax := h olderAndDearer oneUnit 10 (ymd 2024 6 1)
  have htaken : dilutingGain 10 (ymd 2024 6 1) olderAndDearer
      (discountTaken olderAndDearer oneUnit 10 (ymd 2024 6 1)) = 5 ∧
      discountedGain 10 (ymd 2024 6 1) olderAndDearer
        (discountTaken olderAndDearer oneUnit 10 (ymd 2024 6 1)) = 0 := by decide +kernel
  refine hmax (fun p => if p.tradeId = 2 then 1 else 0) ⟨⟨?_, ?_⟩, ?_⟩ ⟨?_, ?_⟩
  · intro p _
    split <;> norm_num
  · simp [olderAndDearer, units, oneUnit_value]
  · simp [olderAndDearer, amount, oneUnit_value]
  · rw [htaken.1]
    decide +kernel
  · rw [htaken.2]
    decide +kernel

end ShareTracker.ParcelOptimiser
