import Mathlib
import ShareTracker.Decimal
import ShareTracker.Lib.CarriedBalance

/-! Loss netting over the financial years: the year walk of the net capital
gain report, from the gross figures of each year and the entered opening loss. -/
namespace ShareTracker

/-- Gross gains and losses accumulated for one tax year before netting. The
last four figures are informational parts of the first two. -/
structure GrossBuckets where
  discountEligible : ℚ := 0
  other : ℚ := 0
  losses : ℚ := 0
  e10 : ℚ := 0
  g1 : ℚ := 0
  c2 : ℚ := 0
  ammaDiscountGrossedUp : ℚ := 0
  deriving DecidableEq, Repr

/-- The buckets of every year with activity, one entry for a year. -/
abbrev YearBuckets := AList (fun _ : ℤ => GrossBuckets)

def taxpayerBasis : String := "individual resident: 50% CGT discount; 50% LIC deduction"

structure NetCapitalGainYear where
  taxYear : ℤ
  discountEligibleGains : ℚ
  otherGains : ℚ
  capitalLosses : ℚ
  capitalLossBroughtForward : ℚ
  netDiscountEligibleGain : ℚ
  netOtherGain : ℚ
  cgtDiscount : ℚ
  netCapitalGain : ℚ
  capitalLossCarriedForward : ℚ
  cgtEventE10Gain : ℚ
  cgtEventG1Gain : ℚ
  cgtEventC2Gain : ℚ
  taxpayerBasis : String
  deriving DecidableEq, Repr

/-- One row: losses meet the non-discountable gains first, then the
discount-eligible ones, and the discount on what is left is rounded once. -/
def netYear (taxYear : ℤ) (b : GrossBuckets) (broughtForward : ℚ) : NetCapitalGainYear :=
  let discountEligibleGains := toCents b.discountEligible
  let otherGains := toCents b.other
  let capitalLosses := toCents b.losses
  let availableLosses := capitalLosses + broughtForward
  let lossToOther := min otherGains availableLosses
  let netOther := otherGains - lossToOther
  let remainingLoss := availableLosses - lossToOther
  let lossToDiscount := min discountEligibleGains remainingLoss
  let netDiscount := discountEligibleGains - lossToDiscount
  let carriedForward := remainingLoss - lossToDiscount
  let cgtDiscount := toCents (netDiscount / 2)
  { taxYear
    discountEligibleGains
    otherGains
    capitalLosses
    capitalLossBroughtForward := broughtForward
    netDiscountEligibleGain := netDiscount
    netOtherGain := netOther
    cgtDiscount
    netCapitalGain := netOther + (netDiscount - cgtDiscount)
    capitalLossCarriedForward := carriedForward
    cgtEventE10Gain := toCents b.e10
    cgtEventG1Gain := toCents b.g1
    cgtEventC2Gain := toCents b.c2
    taxpayerBasis }

/-- The losses a row applied, read from its printed columns. -/
def NetCapitalGainYear.lossesApplied (y : NetCapitalGainYear) : ℚ :=
  (y.otherGains - y.netOtherGain) + (y.discountEligibleGains - y.netDiscountEligibleGain)

/-- Every money column of the row is a whole number of cents. -/
def NetCapitalGainYear.money (y : NetCapitalGainYear) : List ℚ :=
  [y.discountEligibleGains, y.otherGains, y.capitalLosses, y.capitalLossBroughtForward,
    y.netDiscountEligibleGain, y.netOtherGain, y.cgtDiscount, y.netCapitalGain,
    y.capitalLossCarriedForward, y.cgtEventE10Gain, y.cgtEventG1Gain, y.cgtEventC2Gain]

/-- A split of a row's available losses: `toOther` of them against the
non-discountable gains and `toDiscount` against the discount-eligible ones. -/
structure NetCapitalGainYear.Split (y : NetCapitalGainYear) (toOther toDiscount : ℚ) : Prop where
  other_nonneg : 0 ≤ toOther
  other_le : toOther ≤ y.otherGains
  discount_nonneg : 0 ≤ toDiscount
  discount_le : toDiscount ≤ y.discountEligibleGains
  available : toOther + toDiscount ≤ y.capitalLosses + y.capitalLossBroughtForward

/-- The net capital gain a split would give, with the discount rounded as the row rounds it. -/
def NetCapitalGainYear.netUnder (y : NetCapitalGainYear) (toOther toDiscount : ℚ) : ℚ :=
  (y.otherGains - toOther) +
    ((y.discountEligibleGains - toDiscount) - toCents ((y.discountEligibleGains - toDiscount) / 2))

section Row
variable (taxYear : ℤ) (b : GrossBuckets) (bf : ℚ)

theorem netYear_conserves :
    (netYear taxYear b bf).capitalLossBroughtForward + (netYear taxYear b bf).capitalLosses =
      (netYear taxYear b bf).lossesApplied + (netYear taxYear b bf).capitalLossCarriedForward := by
  simp only [netYear, NetCapitalGainYear.lossesApplied]
  ring

theorem netYear_money_on (hbf : Grid.On cent bf) :
    ∀ x ∈ (netYear taxYear b bf).money, Grid.On cent x := by
  have hd := toCents_on b.discountEligible
  have ho := toCents_on b.other
  have hl := toCents_on b.losses
  have havail := hl.add hbf
  have hlo := ho.min havail
  have hrest := havail.sub hlo
  have hld := hd.min hrest
  have hcgt := toCents_on ((toCents b.discountEligible -
    min (toCents b.discountEligible) (toCents b.losses + bf -
      min (toCents b.other) (toCents b.losses + bf))) / 2)
  intro x hx
  simp only [NetCapitalGainYear.money, netYear, List.mem_cons, List.not_mem_nil, or_false] at hx
  rcases hx with rfl | rfl | rfl | rfl | rfl | rfl | rfl | rfl | rfl | rfl | rfl | rfl
  · exact hd
  · exact ho
  · exact hl
  · exact hbf
  · exact hd.sub hld
  · exact ho.sub hlo
  · exact hcgt
  · exact (ho.sub hlo).add ((hd.sub hld).sub hcgt)
  · exact hrest.sub hld
  · exact toCents_on _
  · exact toCents_on _
  · exact toCents_on _

end Row

/-- What the discount leaves of `x`. -/
def assessable (x : ℚ) : ℚ := x - toCents (x / 2)

/-- On the cent the rounded half is never the smaller half. -/
theorem half_le_toCents {x : ℚ} (hx : Grid.On cent x) (h : 0 ≤ x) : x / 2 ≤ toCents (x / 2) := by
  have hlt : x / 2 - cent / 2 < toCents (x / 2) :=
    Grid.lt_roundAway cent_pos (div_nonneg h zero_le_two)
  have hon := (toCents_on (x / 2)).add (toCents_on (x / 2))
  by_contra hcon
  have := hon.step_le cent_pos hx (by linarith)
  linarith

/-- A smaller remainder at the cent is never assessed above a larger one. -/
theorem assessable_le {x y : ℚ} (hx : Grid.On cent x) (h0 : 0 ≤ x) (hxy : x ≤ y) :
    assessable x ≤ assessable y := by
  unfold assessable
  have hc := half_le_toCents hx h0
  have hy : toCents (y / 2) ≤ y / 2 + cent / 2 :=
    Grid.roundAway_le cent_pos (div_nonneg (h0.trans hxy) zero_le_two)
  rcases le_or_gt (toCents (y / 2)) (toCents (x / 2)) with hle | hlt
  · linarith
  · have hstep := (toCents_on (x / 2)).step_le cent_pos (toCents_on (y / 2)) hlt
    linarith

/-- Losses met against non-discountable gains first are assessed least. -/
theorem netYear_optimal (taxYear : ℤ) (b : GrossBuckets) {bf : ℚ} (hbf : Grid.On cent bf)
    {toOther toDiscount : ℚ} (hs : (netYear taxYear b bf).Split toOther toDiscount) :
    (netYear taxYear b bf).netCapitalGain ≤
      (netYear taxYear b bf).netUnder toOther toDiscount := by
  have hd := toCents_on b.discountEligible
  have havail := (toCents_on b.losses).add hbf
  have hrest := havail.sub (toCents_on b.other)
  obtain ⟨hx0, hxo, hz0, hzd, hxz⟩ := hs
  simp only [netYear] at hxo hzd hxz
  simp only [netYear, NetCapitalGainYear.netUnder]
  generalize toCents b.discountEligible = d at *
  generalize toCents b.other = o at *
  generalize toCents b.losses + bf = a at *
  rcases le_or_gt a o with hao | hoa
  · -- the losses stop short of the other gains, so the discount keeps its whole base
    have hmin : min d (a - a) = 0 := by rw [sub_self]; exact min_eq_right (hz0.trans hzd)
    have hmono : toCents ((d - toDiscount) / 2) ≤ toCents (d / 2) := toCents_mono (by linarith)
    rw [min_eq_right hao, hmin, sub_zero]
    linarith
  · rw [min_eq_left hoa.le]
    have hr : Grid.On cent (d - min d (a - o)) := hd.sub (hd.min hrest)
    have hr0 : 0 ≤ d - min d (a - o) := sub_nonneg.mpr (min_le_left _ _)
    rcases le_or_gt (d - min d (a - o)) (d - toDiscount) with hle | hlt
    · have := assessable_le hr hr0 hle
      unfold assessable at this
      linarith
    · have hmin : min d (a - o) = a - o := by
        refine min_eq_right ?_
        by_contra hcon
        rw [min_eq_left (not_le.mp hcon).le] at hlt
        linarith
      rw [hmin] at hlt ⊢
      have hmono : toCents ((d - toDiscount) / 2) ≤ toCents ((d - (a - o)) / 2) :=
        toCents_mono (by linarith)
      linarith

/-- On non-negative figures the split the row makes is itself a split of its losses. -/
theorem netYear_split (taxYear : ℤ) (b : GrossBuckets) {bf : ℚ} (hbf : 0 ≤ bf)
    (hd : 0 ≤ b.discountEligible) (ho : 0 ≤ b.other) (hl : 0 ≤ b.losses) :
    (netYear taxYear b bf).Split
      ((netYear taxYear b bf).otherGains - (netYear taxYear b bf).netOtherGain)
      ((netYear taxYear b bf).discountEligibleGains -
        (netYear taxYear b bf).netDiscountEligibleGain) := by
  have hd' := toCents_nonneg hd
  have ho' := toCents_nonneg ho
  have ha : 0 ≤ toCents b.losses + bf := add_nonneg (toCents_nonneg hl) hbf
  have hrest : 0 ≤ toCents b.losses + bf - min (toCents b.other) (toCents b.losses + bf) :=
    sub_nonneg.mpr (min_le_right _ _)
  constructor <;> simp only [netYear, sub_sub_cancel]
  · exact le_min ho' ha
  · exact min_le_left _ _
  · exact le_min hd' hrest
  · exact min_le_left _ _
  · have := min_le_right (toCents b.discountEligible)
      (toCents b.losses + bf - min (toCents b.other) (toCents b.losses + bf))
    linarith

theorem netYear_carried_nonneg (taxYear : ℤ) (b : GrossBuckets) (bf : ℚ) :
    0 ≤ (netYear taxYear b bf).capitalLossCarriedForward := by
  simp only [netYear]
  exact sub_nonneg.mpr (min_le_right _ _)

/-- The year walk. A year without a bucket is a row only while a balance is carried. -/
def netYearsFrom (buckets : YearBuckets) (broughtForward : ℚ) : List ℤ → List NetCapitalGainYear
  | [] => []
  | taxYear :: years =>
    match buckets.lookup taxYear with
    | some b =>
      let year := netYear taxYear b broughtForward
      year :: netYearsFrom (buckets.erase taxYear) year.capitalLossCarriedForward years
    | none =>
      if broughtForward ≠ 0 then
        let year := netYear taxYear {} broughtForward
        year :: netYearsFrom buckets year.capitalLossCarriedForward years
      else netYearsFrom buckets broughtForward years

/-- The first year of the series: the earliest with activity, `through` when there is none. -/
def firstYear (buckets : YearBuckets) (through : ℤ) : ℤ := buckets.keys.min?.getD through

def lastYear (buckets : YearBuckets) (through : ℤ) : ℤ :=
  max (buckets.keys.max?.getD through) through

/-- The inclusive range `first..=last`. -/
def yearRange (first last : ℤ) : List ℤ :=
  (List.range (last + 1 - first).toNat).map fun k : ℕ => first + k

/-- The years walked, ascending and once each. -/
def seriesYears (buckets : YearBuckets) (through : ℤ) : List ℤ :=
  ((buckets.keys ++ yearRange (firstYear buckets through)
    (lastYear buckets through)).insertionSort (· ≤ ·)).dedup

def netYears (buckets : YearBuckets) (broughtForward : ℚ) (through : ℤ) :
    List NetCapitalGainYear :=
  netYearsFrom buckets (toCents broughtForward) (seriesYears buckets through)

/-- A year's gross figures, all zero for a quiet year. -/
def bucketAt (buckets : YearBuckets) (taxYear : ℤ) : GrossBuckets :=
  (buckets.lookup taxYear).getD {}

theorem bucketAt_erase {buckets : YearBuckets} {y z : ℤ} (h : y ≠ z) :
    bucketAt (buckets.erase z) y = bucketAt buckets y := by
  rw [bucketAt, bucketAt, AList.lookup_erase_ne h]

/-- One step of the walk: a row for the year, or a quiet year with no balance. -/
theorem netYearsFrom_cons (buckets : YearBuckets) (bf : ℚ) (y : ℤ) (ys : List ℤ) :
    netYearsFrom buckets bf (y :: ys) =
      netYear y (bucketAt buckets y) bf ::
        netYearsFrom (buckets.erase y)
          (netYear y (bucketAt buckets y) bf).capitalLossCarriedForward ys ∨
    (y ∉ buckets ∧ bf = 0 ∧ netYearsFrom buckets bf (y :: ys) = netYearsFrom buckets bf ys) := by
  cases hb : buckets.lookup y with
  | some b => exact .inl (by simp only [netYearsFrom, bucketAt, hb, Option.getD_some])
  | none =>
    have hy : y ∉ buckets := AList.lookup_eq_none.mp hb
    by_cases hbf : bf = 0
    · refine .inr ⟨hy, hbf, ?_⟩
      simp only [netYearsFrom, hb, hbf, ne_eq, not_true_eq_false, if_false]
    · refine .inl ?_
      have he : buckets.erase y = buckets := by
        apply AList.ext
        exact List.kerase_of_notMem_keys hy
      simp only [netYearsFrom, bucketAt, hb, he, hbf, ne_eq, not_false_eq_true, if_true,
        Option.getD_none]

theorem netYearsFrom_chained (buckets : YearBuckets) (bf : ℚ) (years : List ℤ) :
    CarriedBalance.Chained (·.capitalLossBroughtForward) (·.capitalLossCarriedForward) bf
      (netYearsFrom buckets bf years) := by
  induction years generalizing buckets bf with
  | nil => trivial
  | cons y ys ih =>
    rcases netYearsFrom_cons buckets bf y ys with h | ⟨-, -, h⟩
    · rw [h]
      exact ⟨rfl, ih _ _⟩
    · rw [h]
      exact ih _ _

theorem netYearsFrom_sublist (buckets : YearBuckets) (bf : ℚ) (years : List ℤ) :
    ((netYearsFrom buckets bf years).map (·.taxYear)).Sublist years := by
  induction years generalizing buckets bf with
  | nil => exact List.Sublist.refl []
  | cons y ys ih =>
    rcases netYearsFrom_cons buckets bf y ys with h | ⟨-, -, h⟩
    · rw [h]
      exact (ih _ _).cons_cons y
    · rw [h]
      exact (ih _ _).cons y

/-- Whatever every row hands on to the next holds of the balance each row starts from. -/
theorem netYearsFrom_invariant (P : ℚ → Prop) {buckets : YearBuckets} {bf : ℚ} {years : List ℤ}
    (hnodup : years.Nodup)
    (hstep : ∀ y bf, P bf → P (netYear y (bucketAt buckets y) bf).capitalLossCarriedForward)
    (hbf : P bf) : ∀ r ∈ netYearsFrom buckets bf years,
      ∃ start, P start ∧ r = netYear r.taxYear (bucketAt buckets r.taxYear) start := by
  suffices h : ∀ {bs : YearBuckets}, (∀ y ∈ years, bucketAt bs y = bucketAt buckets y) →
      ∀ r ∈ netYearsFrom bs bf years,
        ∃ start, P start ∧ r = netYear r.taxYear (bucketAt buckets r.taxYear) start from
    h fun _ _ => rfl
  intro bs hbs r hr
  induction years generalizing bs bf with
  | nil => cases hr
  | cons y ys ih =>
    obtain ⟨hy, hys⟩ := List.nodup_cons.mp hnodup
    have hbs' : ∀ z ∈ ys, bucketAt bs z = bucketAt buckets z :=
      fun z hz => hbs z (List.mem_cons_of_mem y hz)
    rcases netYearsFrom_cons bs bf y ys with h | ⟨-, -, h⟩
    · rw [h, hbs y (by simp)] at hr
      rcases List.mem_cons.mp hr with rfl | hr
      · exact ⟨bf, hbf, rfl⟩
      · refine ih hys (hstep y bf hbf) (fun z hz => ?_) hr
        rw [bucketAt_erase (by rintro rfl; exact hy hz)]
        exact hbs' z hz
    · rw [h] at hr
      exact ih hys hbf hbs' hr

theorem into_of_le {seed : ℚ} {rows : List NetCapitalGainYear} {y : ℤ}
    (h : ∀ r ∈ rows, y ≤ r.taxYear) :
    CarriedBalance.into (·.capitalLossCarriedForward) (·.taxYear < y) seed rows = seed := by
  cases rows with
  | nil => rfl
  | cons r rs =>
    have : ¬ r.taxYear < y := not_lt.mpr (h r (by simp))
    simp only [CarriedBalance.into, this, decide_false, Bool.false_eq_true, if_false]

/-- A year of the walk with a bucket, or with a balance carried into it, has a row. -/
theorem netYearsFrom_covers {buckets : YearBuckets} {bf : ℚ} {years : List ℤ}
    (hasc : years.Pairwise (· < ·)) {y : ℤ} (hy : y ∈ years)
    (hact : y ∈ buckets ∨
      CarriedBalance.into (·.capitalLossCarriedForward) (·.taxYear < y) bf
        (netYearsFrom buckets bf years) ≠ 0) :
    ∃ r ∈ netYearsFrom buckets bf years, r.taxYear = y := by
  induction years generalizing buckets bf with
  | nil => cases hy
  | cons z zs ih =>
    obtain ⟨hz, hzs⟩ := List.pairwise_cons.mp hasc
    rcases netYearsFrom_cons buckets bf z zs with h | ⟨hnot, hbf, h⟩
    · rw [h] at hact ⊢
      rcases List.mem_cons.mp hy with rfl | hy
      · exact ⟨_, List.mem_cons_self, rfl⟩
      · have hlt := hz y hy
        have hbefore : (netYear z (bucketAt buckets z) bf).taxYear < y := hlt
        simp only [CarriedBalance.into, hbefore, decide_true, if_true] at hact
        obtain ⟨r, hr, he⟩ := ih hzs hy (hact.imp_left fun hm =>
          AList.mem_erase.mpr ⟨hlt.ne', hm⟩)
        exact ⟨r, List.mem_cons_of_mem _ hr, he⟩
    · rw [h] at hact ⊢
      rcases List.mem_cons.mp hy with rfl | hy
      · -- no bucket and no balance: the year is quiet and nothing is carried into it
        have hle : ∀ r ∈ netYearsFrom buckets bf zs, y ≤ r.taxYear := by
          intro r hr
          have hm := (netYearsFrom_sublist buckets bf zs).subset (List.mem_map_of_mem hr)
          exact (hz _ hm).le
        rw [into_of_le hle] at hact
        exact absurd hbf (hact.resolve_left hnot)
      · exact ih hzs hy hact

theorem sum_losses_erase {buckets : YearBuckets} {y : ℤ} (hy : y ∈ buckets) :
    (buckets.entries.map fun e => toCents e.2.losses).sum =
      toCents (bucketAt buckets y).losses +
        ((buckets.erase y).entries.map fun e => toCents e.2.losses).sum := by
  obtain ⟨b, l₁, l₂, hl₁, he, hk⟩ := List.exists_of_kerase hy
  have hb : bucketAt buckets y = b := by
    have hmem : (⟨y, b⟩ : Sigma fun _ : ℤ => GrossBuckets) ∈ buckets.entries := by
      rw [he]; simp
    have : buckets.lookup y = some b := List.mem_dlookup buckets.nodupKeys hmem
    rw [bucketAt, this, Option.getD_some]
  have herase : (buckets.erase y).entries = l₁ ++ l₂ := hk
  rw [hb, herase, he]
  simp only [List.map_append, List.map_cons, List.sum_append, List.sum_cons]
  ring

/-- The rows carry every bucket's losses, to the cent, and no others. -/
theorem netYearsFrom_losses {buckets : YearBuckets} (bf : ℚ) {years : List ℤ}
    (hnodup : years.Nodup) (hkeys : ∀ y ∈ buckets, y ∈ years) :
    ((netYearsFrom buckets bf years).map (·.capitalLosses)).sum =
      (buckets.entries.map fun e => toCents e.2.losses).sum := by
  induction years generalizing buckets bf with
  | nil =>
    have : buckets.entries = [] := by
      refine List.eq_nil_iff_forall_not_mem.mpr fun e he => ?_
      cases hkeys e.1 (List.mem_keys_of_mem he)
    simp [this, netYearsFrom]
  | cons y ys ih =>
    obtain ⟨hy, hys⟩ := List.nodup_cons.mp hnodup
    have hrest : ∀ z ∈ buckets, z ≠ y → z ∈ ys := fun z hz hne =>
      (List.mem_cons.mp (hkeys z hz)).resolve_left hne
    rcases netYearsFrom_cons buckets bf y ys with h | ⟨hnot, -, h⟩
    · rw [h, List.map_cons, List.sum_cons,
        ih _ hys fun z hz => hrest z (AList.mem_erase.mp hz).2 (AList.mem_erase.mp hz).1]
      by_cases hb : y ∈ buckets
      · rw [sum_losses_erase hb]
        rfl
      · have he : buckets.erase y = buckets := AList.ext (List.kerase_of_notMem_keys hb)
        have hzero : (netYear y (bucketAt buckets y) bf).capitalLosses = 0 := by
          rw [bucketAt, AList.lookup_eq_none.mpr hb]
          exact toCents_of_on (Grid.On.zero cent)
        rw [he, hzero, zero_add]
    · rw [h]
      exact ih _ hys fun z hz => hrest z hz (by rintro rfl; exact hnot hz)

theorem mem_yearRange {first last y : ℤ} : y ∈ yearRange first last ↔ first ≤ y ∧ y ≤ last := by
  simp only [yearRange, List.mem_map, List.mem_range]
  constructor
  · rintro ⟨k, hk, rfl⟩
    omega
  · rintro ⟨h1, h2⟩
    exact ⟨(y - first).toNat, by omega, by omega⟩

theorem firstYear_le {buckets : YearBuckets} {through y : ℤ} (hy : y ∈ buckets) :
    firstYear buckets through ≤ y := by
  have hne : buckets.keys ≠ [] := List.ne_nil_of_mem hy
  obtain ⟨m, hm⟩ := Option.ne_none_iff_exists'.mp (fun h => hne (List.min?_eq_none_iff.mp h))
  rw [firstYear, hm]
  exact (List.min?_eq_some_iff.mp hm).2 y hy

theorem le_lastYear {buckets : YearBuckets} {through y : ℤ} (hy : y ∈ buckets) :
    y ≤ lastYear buckets through := by
  have hne : buckets.keys ≠ [] := List.ne_nil_of_mem hy
  obtain ⟨m, hm⟩ := Option.ne_none_iff_exists'.mp (fun h => hne (List.max?_eq_none_iff.mp h))
  rw [lastYear, hm]
  exact ((List.max?_eq_some_iff.mp hm).2 y hy).trans (le_max_left _ _)

theorem mem_seriesYears {buckets : YearBuckets} {through y : ℤ} :
    y ∈ seriesYears buckets through ↔
      firstYear buckets through ≤ y ∧ y ≤ lastYear buckets through := by
  simp only [seriesYears, List.mem_dedup, List.mem_insertionSort, List.mem_append, mem_yearRange]
  constructor
  · rintro (h | h)
    · exact ⟨firstYear_le h, le_lastYear h⟩
    · exact h
  · exact Or.inr

/-- Sorted years without repeats ascend strictly. -/
theorem ascending_of_sort (l : List ℤ) : (l.insertionSort (· ≤ ·)).dedup.Pairwise (· < ·) := by
  have hle : (l.insertionSort (· ≤ ·)).Pairwise (· ≤ ·) := List.pairwise_insertionSort _ l
  have hboth := (hle.sublist (List.dedup_sublist _)).and (List.nodup_dedup _)
  exact hboth.imp fun h => lt_of_le_of_ne h.1 h.2

theorem seriesYears_ascending (buckets : YearBuckets) (through : ℤ) :
    (seriesYears buckets through).Pairwise (· < ·) := by
  unfold seriesYears
  exact ascending_of_sort _

/-- What the callers hand the walk: no opening loss and no gross figure is negative. -/
structure NonnegFigures (buckets : YearBuckets) (broughtForward : ℚ) : Prop where
  opening : 0 ≤ broughtForward
  discountEligible : ∀ y, 0 ≤ (bucketAt buckets y).discountEligible
  other : ∀ y, 0 ≤ (bucketAt buckets y).other
  losses : ∀ y, 0 ≤ (bucketAt buckets y).losses

/-- The split of its losses a row made. -/
def NetCapitalGainYear.toOther (y : NetCapitalGainYear) : ℚ := y.otherGains - y.netOtherGain

def NetCapitalGainYear.toDiscount (y : NetCapitalGainYear) : ℚ :=
  y.discountEligibleGains - y.netDiscountEligibleGain

theorem netYears_row {buckets : YearBuckets} {opening : ℚ} {through : ℤ} {r : NetCapitalGainYear}
    (hr : r ∈ netYears buckets opening through) :
    ∃ start, Grid.On cent start ∧ r = netYear r.taxYear (bucketAt buckets r.taxYear) start := by
  have hnodup : (seriesYears buckets through).Nodup :=
    (seriesYears_ascending buckets through).imp ne_of_lt
  refine netYearsFrom_invariant (Grid.On cent) hnodup (fun y bf hbf => ?_)
    (toCents_on opening) r hr
  exact netYear_money_on y (bucketAt buckets y) bf hbf _ (by simp [NetCapitalGainYear.money])

theorem netYears_split {buckets : YearBuckets} {opening : ℚ} {through : ℤ}
    (h : NonnegFigures buckets opening) {r : NetCapitalGainYear}
    (hr : r ∈ netYears buckets opening through) : r.Split r.toOther r.toDiscount := by
  have hnodup : (seriesYears buckets through).Nodup :=
    (seriesYears_ascending buckets through).imp ne_of_lt
  obtain ⟨start, hstart, he⟩ := netYearsFrom_invariant (0 ≤ ·) hnodup
    (fun y bf _ => netYear_carried_nonneg y _ bf) (toCents_nonneg h.opening) r hr
  rw [he]
  exact netYear_split r.taxYear _ hstart (h.discountEligible _) (h.other _) (h.losses _)

/-- The year rows conserve losses: nothing lost between years, no year skipped,
every row at the cent and netted as low as its losses allow. -/
theorem netYears_conserve_losses (buckets : YearBuckets) (opening : ℚ) (through : ℤ) :
    let rows := netYears buckets opening through
    toCents opening + (buckets.entries.map fun e => toCents e.2.losses).sum =
        (rows.map (·.lossesApplied)).sum +
          CarriedBalance.final (·.capitalLossCarriedForward) (toCents opening) rows ∧
    CarriedBalance.Chained (·.capitalLossBroughtForward) (·.capitalLossCarriedForward)
      (toCents opening) rows ∧
    rows.Pairwise (·.taxYear < ·.taxYear) ∧
    (∀ y, firstYear buckets through ≤ y → y ≤ lastYear buckets through →
      (y ∈ buckets ∨ CarriedBalance.into (·.capitalLossCarriedForward) (·.taxYear < y)
        (toCents opening) rows ≠ 0) → ∃ r ∈ rows, r.taxYear = y) ∧
    ∀ r ∈ rows,
      (∃ start, r = netYear r.taxYear (bucketAt buckets r.taxYear) start) ∧
      (∀ x ∈ r.money, Grid.On cent x) ∧
      r.netCapitalGain = r.netOtherGain + r.netDiscountEligibleGain - r.cgtDiscount ∧
      r.netCapitalGain = r.netUnder r.toOther r.toDiscount ∧
      (∀ toOther toDiscount, r.Split toOther toDiscount →
        r.netCapitalGain ≤ r.netUnder toOther toDiscount) ∧
      (NonnegFigures buckets opening → r.Split r.toOther r.toDiscount) := by
  intro rows
  have hasc := seriesYears_ascending buckets through
  have hnodup : (seriesYears buckets through).Nodup := hasc.imp ne_of_lt
  have hchain := netYearsFrom_chained buckets (toCents opening) (seriesYears buckets through)
  refine ⟨?_, hchain, ?_, ?_, ?_⟩
  · have hkeys : ∀ y ∈ buckets, y ∈ seriesYears buckets through :=
      fun y hy => mem_seriesYears.mpr ⟨firstYear_le hy, le_lastYear hy⟩
    rw [← netYearsFrom_losses (toCents opening) hnodup hkeys]
    refine hchain.conserves _ _ (·.capitalLosses) (·.lossesApplied) fun r hr => ?_
    obtain ⟨start, -, he⟩ := netYears_row hr
    rw [he]
    exact netYear_conserves _ _ _
  · exact List.pairwise_map.mp (hasc.sublist (netYearsFrom_sublist _ _ _))
  · intro y hf hl hact
    exact netYearsFrom_covers hasc (mem_seriesYears.mpr ⟨hf, hl⟩) hact
  · intro r hr
    obtain ⟨start, hstart, he⟩ := netYears_row hr
    refine ⟨⟨start, he⟩, ?_, ?_, ?_, ?_, fun h => netYears_split h hr⟩
    · rw [he]
      exact netYear_money_on _ _ start hstart
    · rw [he]
      simp only [netYear]
      ring
    · rw [he]
      simp only [netYear, NetCapitalGainYear.netUnder, NetCapitalGainYear.toOther,
        NetCapitalGainYear.toDiscount, sub_sub_cancel]
    · rw [he]
      exact fun _ _ => netYear_optimal _ _ hstart

end ShareTracker
