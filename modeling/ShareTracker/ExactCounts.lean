import ShareTracker.RangeGuard
import ShareTracker.DecimalFigures

/-!
When the arithmetic of counts is exact. A cross product past 28 digits is
rounded without a word; only one past the range sends an operation back to the
rounded figures.
-/
namespace ShareTracker.AcquiredUnits
open RangeGuard (Failure)

/-- `Ord for AcquiredUnits`. -/
def cmp {ε : Type} [Panics ε] (D : DecimalRounding) (u v : AcquiredUnits) :
    Attempt ε Ordering := do
  match ← overCommonDenominator D u v with
  | some (a, b, _) => return compare a b
  | none => return compare (← get D u) (← get D v)

/-- The denominator two counts are put over. -/
def commonDen (u v : AcquiredUnits) : ℚ :=
  if u.den = v.den then u.den
  else if u.den.den = 1 ∧ v.den.den = 1 then u.den / gcd u.den v.den * v.den
  else u.den * v.den

/-- The numerator of a count over another denominator. -/
def crossed (u : AcquiredUnits) (common : ℚ) : ℚ := u.num * (common / u.den)

/-- The denominator is a positive figure. -/
structure Stated (u : AcquiredUnits) : Prop where
  den_pos : 0 < u.den
  den_holds : holds u.den = true

/-- No cross product needs more digits than a figure has. -/
def CrossesExactly (u v : AcquiredUnits) : Prop :=
  u.den = v.den ∨ (holds (commonDen u v) = true ∧
    holds (u.crossed (commonDen u v)) = true ∧ holds (v.crossed (commonDen u v)) = true)

/-- A numerator is a figure, and so is the count where it is whole. -/
def Kept (num den : ℚ) : Prop :=
  holds num = true ∧ ((num / den).den = 1 → holds (num / den) = true)

/-- The cross products, their sum and their difference are figures. -/
structure FitsExactly (u v : AcquiredUnits) : Prop where
  crosses : CrossesExactly u v
  sum : Kept (u.crossed (commonDen u v) + v.crossed (commonDen u v)) (commonDen u v)
  difference : Kept (u.crossed (commonDen u v) - v.crossed (commonDen u v)) (commonDen u v)

/-- The operations answer the exact rationals, nothing rounded on the way. -/
structure Exact (D : DecimalRounding) (u v : AcquiredUnits) : Prop where
  sum : ∃ w, (add D u v : Attempt Failure _).Yields w ∧ w.value = u.value + v.value
  difference : ∃ w, (sub D u v : Attempt Failure _).Yields w ∧ w.value = u.value - v.value
  order : (cmp D u v : Attempt Failure _).Yields (compare u.value v.value)

/-- No operation passes the range, on the way or at its end. -/
def NoOverflow (D : DecimalRounding) (u v : AcquiredUnits) : Prop :=
  ∃ a b common,
    (overCommonDenominator D u v : Attempt Failure _).answer = .ok (some (a, b, common)) ∧
    ∀ num ∈ [a + b, a - b], D.inRange num = true ∧
      ∃ w, (fraction D (D.round num) common : Attempt Failure _).answer = .ok w

/-! ### Denominators -/

theorem gcd_intCast (a b : ℤ) : gcd (a : ℚ) b = (Int.gcd a b : ℕ) := by
  simp [gcd]

/-- A whole denominator over the greatest common divisor is one still. -/
theorem holds_div_gcd {a b : ℚ} (ha : a.den = 1) (hb : b.den = 1) (hholds : holds b = true) :
    holds (b / gcd a b) = true := by
  obtain ⟨m, rfl⟩ : ∃ m : ℤ, a = m := ⟨a.num, (Rat.coe_int_num_of_den_eq_one ha).symm⟩
  obtain ⟨n, rfl⟩ : ∃ n : ℤ, b = n := ⟨b.num, (Rat.coe_int_num_of_den_eq_one hb).symm⟩
  obtain ⟨k, hk⟩ : (Int.gcd m n : ℤ) ∣ n := Int.gcd_dvd_right ..
  rw [gcd_intCast]
  by_cases hzero : Int.gcd m n = 0
  · have hnought : holds ((0 : ℤ) : ℚ) = true := holds_intCast.mpr (by decide)
    simpa [hzero] using hnought
  · have hquot : (n : ℚ) / (Int.gcd m n : ℕ) = k := by
      rw [div_eq_iff (by exact_mod_cast hzero)]
      have hcast : (n : ℚ) = (Int.gcd m n : ℤ) * k := by exact_mod_cast hk
      rw [hcast]
      push_cast
      ring
    rw [hquot, holds_intCast]
    refine lt_of_le_of_lt ?_ (holds_intCast.mp hholds)
    rw [hk, Int.natAbs_mul]
    exact Nat.le_mul_of_pos_left _ (by simpa using Nat.pos_of_ne_zero hzero)

theorem gcd_comm (a b : ℚ) : gcd a b = gcd b a := by
  unfold gcd
  rw [Int.gcd_comm, mul_comm (a.den : ℚ)]

section Crossing
variable {u v : AcquiredUnits}

theorem commonDen_pos (hu : Stated u) (hv : Stated v) : 0 < commonDen u v := by
  unfold commonDen
  split_ifs
  · exact hu.den_pos
  · exact mul_pos (div_pos hu.den_pos (gcd_pos hu.den_pos v.den)) hv.den_pos
  · exact mul_pos hu.den_pos hv.den_pos

/-- What each numerator is multiplied by is a figure. -/
theorem holds_factors (hu : Stated u) (hv : Stated v) (hne : u.den ≠ v.den) :
    holds (commonDen u v / u.den) = true ∧ holds (commonDen u v / v.den) = true := by
  have hu' := hu.den_pos.ne'
  have hv' := hv.den_pos.ne'
  unfold commonDen
  rw [if_neg hne]
  split_ifs with hwhole
  · constructor
    · have hquot : u.den / gcd u.den v.den * v.den / u.den = v.den / gcd u.den v.den := by
        field_simp
      rw [hquot]
      exact holds_div_gcd hwhole.1 hwhole.2 hv.den_holds
    · rw [mul_div_cancel_right₀ _ hv', gcd_comm]
      exact holds_div_gcd hwhole.2 hwhole.1 hu.den_holds
  · constructor
    · rw [mul_div_cancel_left₀ _ hu']
      exact hv.den_holds
    · rw [mul_div_cancel_right₀ _ hv']
      exact hu.den_holds

theorem crossed_value (hu : 0 < u.den) {common : ℚ} (hc : 0 < common) :
    u.crossed common / common = u.value := by
  unfold crossed value
  field_simp

end Crossing

/-! ### What is answered with nothing rounded -/

section Answers
variable {D : DecimalRounding} {ε : Type} [Panics ε] {u v : AcquiredUnits}

omit [Panics ε] in
theorem lcm_eq (hne : u.den ≠ v.den) :
    (lcm D u.den v.den : Attempt ε _) = D.checked (commonDen u v) := by
  unfold lcm commonDen
  rw [if_neg hne]
  split_ifs <;> rfl

theorem overCommonDenominator_yields_iff (hu : Stated u) (hv : Stated v)
    {o : Option (ℚ × ℚ × ℚ)} :
    (overCommonDenominator D u v : Attempt ε _).Yields o ↔
      CrossesExactly u v ∧
        o = some (u.crossed (commonDen u v), v.crossed (commonDen u v), commonDen u v) := by
  unfold overCommonDenominator
  split
  · rename_i heq
    have hcommon : commonDen u v = u.den := if_pos heq
    have hone : u.den / u.den = 1 := div_self hu.den_pos.ne'
    have hcu : u.crossed u.den = u.num := by rw [crossed, hone, mul_one]
    have hcv : v.crossed u.den = v.num := by rw [crossed, ← heq, hone, mul_one]
    rw [hcommon, hcu, hcv, yields_pure]
    constructor
    · rintro rfl
      exact ⟨Or.inl heq, rfl⟩
    · rintro ⟨-, rfl⟩
      rfl
  · rename_i hne
    obtain ⟨hfu, hfv⟩ := holds_factors hu hv hne
    rw [lcm_eq hne]
    constructor
    · intro h
      obtain ⟨_, hc, h⟩ := yields_bind.mp h
      obtain ⟨rfl, hcommon⟩ := DecimalRounding.of_yields_checked hc
      obtain ⟨_, hcu, h⟩ := yields_bind.mp h
      obtain ⟨rfl, -⟩ := DecimalRounding.of_yields_op hcu
      obtain ⟨_, ha, h⟩ := yields_bind.mp h
      obtain ⟨rfl, hucross⟩ := DecimalRounding.of_yields_checked ha
      obtain ⟨_, hcv, h⟩ := yields_bind.mp h
      obtain ⟨rfl, -⟩ := DecimalRounding.of_yields_op hcv
      obtain ⟨_, hb, h⟩ := yields_bind.mp h
      obtain ⟨rfl, hvcross⟩ := DecimalRounding.of_yields_checked hb
      exact ⟨Or.inr ⟨hcommon, hucross, hvcross⟩, (yields_pure.mp h).symm⟩
    · rintro ⟨hcross, rfl⟩
      obtain ⟨hcommon, ha, hb⟩ := hcross.resolve_left hne
      apply yields_bind.mpr
      refine ⟨_, DecimalRounding.yields_checked hcommon, ?_⟩
      apply yields_bind.mpr
      refine ⟨_, DecimalRounding.yields_op hfu, ?_⟩
      apply yields_bind.mpr
      refine ⟨_, DecimalRounding.yields_checked ha, ?_⟩
      apply yields_bind.mpr
      refine ⟨_, DecimalRounding.yields_op hfv, ?_⟩
      apply yields_bind.mpr
      exact ⟨_, DecimalRounding.yields_checked hb, yields_pure.mpr rfl⟩

theorem fraction_yields_iff {num den : ℚ} (hnum : holds num = true) :
    (∃ w, (fraction D num den : Attempt ε _).Yields w) ↔ Kept num den := by
  unfold fraction Kept
  split_ifs with hone hwhole
  · constructor
    · intro _
      refine ⟨hnum, fun _ => ?_⟩
      rw [hone, div_one]
      exact hnum
    · intro _
      exact ⟨_, yields_pure.mpr rfl⟩
  · constructor
    · rintro ⟨w, h⟩
      obtain ⟨q, hq, -⟩ := yields_bind.mp h
      exact ⟨hnum, fun _ => (DecimalRounding.of_yields_op hq).2⟩
    · intro h
      refine ⟨new (num / den), yields_bind.mpr ⟨num / den, ?_, yields_pure.mpr rfl⟩⟩
      exact DecimalRounding.yields_op (h.2 hwhole)
  · constructor
    · intro _
      exact ⟨hnum, fun h => absurd h hwhole⟩
    · intro _
      exact ⟨_, yields_pure.mpr rfl⟩

theorem combine_yields_iff (hu : Stated u) (hv : Stated v) {op : ℚ → ℚ → ℚ} :
    (∃ w, (combine D op u v : Attempt ε _).Yields w) ↔
      CrossesExactly u v ∧
        Kept (op (u.crossed (commonDen u v)) (v.crossed (commonDen u v))) (commonDen u v) := by
  unfold combine
  constructor
  · rintro ⟨w, h⟩
    obtain ⟨_, ho, h⟩ := yields_bind.mp h
    obtain ⟨hcross, rfl⟩ := (overCommonDenominator_yields_iff hu hv).mp ho
    obtain ⟨_, hn, h⟩ := yields_bind.mp h
    obtain ⟨rfl, hnum⟩ := DecimalRounding.of_yields_checked hn
    exact ⟨hcross, (fraction_yields_iff hnum).mp ⟨w, h⟩⟩
  · rintro ⟨hcross, hkept⟩
    obtain ⟨w, hw⟩ := (fraction_yields_iff (D := D) (ε := ε) hkept.1).mpr hkept
    refine ⟨w, yields_bind.mpr ⟨_, (overCommonDenominator_yields_iff hu hv).mpr
      ⟨hcross, rfl⟩, ?_⟩⟩
    exact yields_bind.mpr ⟨_, DecimalRounding.yields_checked hkept.1, hw⟩

theorem compare_div (a b : ℚ) {c : ℚ} (hc : 0 < c) : compare (a / c) (b / c) = compare a b := by
  have hmono : StrictMono fun x : ℚ => x / c := fun x y h => div_lt_div_of_pos_right h hc
  rw [← cmp_eq_compare, ← cmp_eq_compare]
  exact hmono.cmp_map_eq a b

theorem cmp_yields_iff (hu : Stated u) (hv : Stated v) :
    (cmp D u v : Attempt ε _).Yields (compare u.value v.value) ↔ CrossesExactly u v := by
  have hcommon := commonDen_pos hu hv
  have horder := compare_div (u.crossed (commonDen u v)) (v.crossed (commonDen u v)) hcommon
  rw [crossed_value hu.den_pos hcommon, crossed_value hv.den_pos hcommon] at horder
  unfold cmp
  constructor
  · intro h
    obtain ⟨_, ho, -⟩ := yields_bind.mp h
    exact ((overCommonDenominator_yields_iff hu hv).mp ho).1
  · intro hcross
    refine yields_bind.mpr ⟨_, (overCommonDenominator_yields_iff hu hv).mpr
      ⟨hcross, rfl⟩, ?_⟩
    exact yields_pure.mpr horder.symm

end Answers

/-- The operations answer the exact rationals with nothing rounded exactly where the
cross products, their sum and their difference fit a figure's digits. -/
theorem exact_iff_fitsExactly (D : DecimalRounding) (u v : AcquiredUnits) (hu : Stated u)
    (hv : Stated v) : Exact D u v ↔ FitsExactly u v := by
  constructor
  · rintro ⟨⟨s, hs, -⟩, ⟨d, hd, -⟩, hc⟩
    obtain ⟨hcross, hsum⟩ := (combine_yields_iff hu hv).mp ⟨s, hs⟩
    obtain ⟨-, hdifference⟩ := (combine_yields_iff hu hv).mp ⟨d, hd⟩
    exact ⟨hcross, hsum, hdifference⟩
  · intro h
    obtain ⟨s, hs⟩ := (combine_yields_iff (D := D) (ε := Failure) hu hv).mpr ⟨h.crosses, h.sum⟩
    obtain ⟨d, hd⟩ :=
      (combine_yields_iff (D := D) (ε := Failure) hu hv).mpr ⟨h.crosses, h.difference⟩
    exact ⟨⟨s, hs, (add_yields hu.den_pos hv.den_pos hs).1⟩,
      ⟨d, hd, (sub_yields hu.den_pos hv.den_pos hd).1⟩, (cmp_yields_iff hu hv).mpr h.crosses⟩

/-! ### Counts read back from 28 digits -/

/-- 658.28571428571428571428571429 / 3. -/
def readBack : AcquiredUnits := ⟨65828571428571428571428571429 / 10 ^ 26, 3⟩

/-- 1536 / 7, a little less. -/
def sold : AcquiredUnits := ⟨1536, 7⟩

theorem stated_whole {n : ℤ} {num : ℚ} (hpos : 0 < n) (h : n.natAbs < 2 ^ 96) :
    Stated ⟨num, n⟩ where
  den_pos := Int.cast_pos.mpr hpos
  den_holds := holds_intCast.mpr h

theorem exact_iff_fitsExactly_sold :
    Exact halfEvenRounding sold sold ↔ FitsExactly sold sold :=
  exact_iff_fitsExactly halfEvenRounding sold sold (stated_whole (n := 7) (by decide) (by decide))
    (stated_whole (n := 7) (by decide) (by decide))

theorem readBack_sold :
    (overCommonDenominator halfEvenRounding readBack sold : Attempt Failure _).answer =
        .ok (some (4608, 4608, 21)) ∧
      (halfEvenRounding.inRange (4608 + 4608) = true ∧
        (fraction halfEvenRounding (halfEvenRounding.round (4608 + 4608)) 21 :
          Attempt Failure _).answer = .ok ⟨3072, 7⟩) ∧
      (halfEvenRounding.inRange (4608 - 4608) = true ∧
        (fraction halfEvenRounding (halfEvenRounding.round (4608 - 4608)) 21 :
          Attempt Failure _).answer = .ok zero) ∧
      (sub halfEvenRounding readBack sold : Attempt Failure _).answer = .ok zero := by
  decide +kernel

/-- The product 4608.00000000000000000000000003 is rounded to 4608: the counts
compare equal, and the difference comes out at nought. -/
theorem cross_product_rounds :
    ¬ ∀ u v : AcquiredUnits, Stated u → Stated v → NoOverflow halfEvenRounding u v →
      (∀ w, (sub halfEvenRounding u v : Attempt Failure _).answer = .ok w →
        w.value = u.value - v.value) ∧
      (cmp halfEvenRounding u v : Attempt Failure _).answer = .ok (compare u.value v.value) := by
  intro h
  obtain ⟨hcross, ⟨hsumrange, hsum⟩, ⟨hdifferencerange, hdifference⟩, hzero⟩ := readBack_sold
  have hoverflow : NoOverflow halfEvenRounding readBack sold := by
    refine ⟨4608, 4608, 21, hcross, ?_⟩
    intro num hnum
    rcases List.mem_cons.mp hnum with rfl | hnum
    · exact ⟨hsumrange, _, hsum⟩
    · obtain rfl := List.mem_singleton.mp hnum
      exact ⟨hdifferencerange, _, hdifference⟩
  obtain ⟨hsub, -⟩ := h readBack sold (stated_whole (n := 3) (by decide) (by decide))
    (stated_whole (n := 7) (by decide) (by decide)) hoverflow
  have hvalue := hsub zero hzero
  norm_num [readBack, sold, value, zero, new] at hvalue

end ShareTracker.AcquiredUnits
