import ShareTracker.DecimalFigures
import ShareTracker.Drp

/-!
The registry's default reinvestment in the decimals it is computed in: whole
shares for the cash there is, the count floored from a rounded quotient.
-/
namespace ShareTracker.Drp

/-- Spend the cash on whole shares: the count, and what is left over. -/
def registryDefault (D : DecimalRounding) (available price : ℚ) : Attempt Refusal (ℚ × ℚ) := do
  let ratio ← D.op (available / price)
  let quantity : ℚ := ⌊ratio⌋
  let cost ← D.op (quantity * price)
  let leftover ← D.op (available - cost)
  pure (quantity, leftover)

/-- A whole number of shares, less than one share's price left, and no cash lost. -/
def BuysWhole (D : DecimalRounding) (available price : Decimal) : Prop :=
  ∃ (n : ℕ) (leftover : ℚ),
    (registryDefault D available.value price.value).answer = .ok ((n : ℚ), leftover) ∧
      0 ≤ leftover ∧ leftover < price.value ∧ n * price.value + leftover = available.value

section Leftover
variable {available price : Decimal} {n : ℕ}

theorem cost_scaled (price : Decimal) (n : ℕ) :
    n * price.value = ((n * price.mantissa : ℤ) : ℚ) / 10 ^ price.scale := by
  rw [Decimal.value]
  push_cast
  ring

/-- What is left of a figure below another's next multiple is a figure. -/
theorem holds_leftover (hprice : 0 < price.value) (hle : n * price.value ≤ available.value)
    (hlt : available.value - n * price.value < price.value) :
    holds (available.value - n * price.value) = true := by
  have hpos := Decimal.mantissa_pos hprice
  have hpricelt := price.mantissa_lt
  have hcash := available.mantissa_lt
  rw [cost_scaled] at hle hlt ⊢
  rw [Decimal.value] at hle
  rw [Decimal.value, Decimal.value] at hlt
  rw [Decimal.value]
  rcases le_total available.scale price.scale with hscale | hscale
  · obtain ⟨k, hk⟩ := Nat.exists_eq_add_of_le hscale
    rw [rescaled available.mantissa available.scale k, ← hk] at hle hlt ⊢
    rw [scaled_le] at hle
    rw [scaled_sub] at hlt ⊢
    rw [scaled_lt] at hlt
    apply holds_of_scaled rfl price.scale_le
    omega
  · obtain ⟨k, hk⟩ := Nat.exists_eq_add_of_le hscale
    rw [rescaled (n * price.mantissa) price.scale k, ← hk] at hle hlt ⊢
    rw [scaled_le] at hle
    rw [scaled_sub]
    apply holds_of_scaled rfl available.scale_le
    have hnonneg : 0 ≤ (n : ℤ) * price.mantissa * 10 ^ k := by
      positivity
    omega

/-- A cost past the mantissa is rounded no further down than to the scale of the cash. -/
theorem rounded_cost_ge (D : FigureRounding) {X : ℤ} {k : ℕ} (hk : price.scale = available.scale + k + 1)
    (hle : (X : ℚ) / 10 ^ price.scale ≤ available.value) (hX : 0 ≤ X) :
    ((X - 10 ^ 28 : ℤ) : ℚ) / 10 ^ price.scale ≤ D.round ((X : ℚ) / 10 ^ price.scale) := by
  have hcash := available.mantissa_lt
  have hpricescale := price.scale_le
  have hten : (0 : ℤ) < 10 ^ (k + 1) := by positivity
  have hsmall : (10 : ℤ) ^ (k + 1) ≤ 10 ^ 28 := pow_le_pow_right₀ (by norm_num) (by omega)
  rw [Decimal.value, rescaled available.mantissa available.scale (k + 1), ← add_assoc, ← hk,
    scaled_le] at hle
  have hdiv : X / 10 ^ (k + 1) ≤ available.mantissa :=
    Int.ediv_le_of_le_mul hten hle
  have hdivnonneg : 0 ≤ X / 10 ^ (k + 1) := Int.ediv_nonneg hX hten.le
  have hcut : ((X / 10 ^ (k + 1) * 10 ^ (k + 1) : ℤ) : ℚ) / 10 ^ price.scale ≤
      D.round ((X : ℚ) / 10 ^ price.scale) := by
    apply D.le_round
    · apply holds_of_scaled (m := X / 10 ^ (k + 1)) (s := available.scale)
      · rw [rescaled (X / 10 ^ (k + 1)) available.scale (k + 1), ← add_assoc, ← hk]
      · exact available.scale_le
      · omega
    · exact scaled_le.mpr (Int.ediv_mul_le X hten.ne')
  refine le_trans (scaled_le.mpr ?_) hcut
  have hmod := Int.emod_lt_of_pos X hten
  have hsplit := Int.ediv_mul_add_emod X (10 ^ (k + 1))
  omega

/-- Where the cost needs more than a mantissa, what the rounded cost leaves is
not rounded back to what the cost itself leaves. -/
theorem round_leftover_ne (D : FigureRounding) (hprice : 0 < price.value)
    (hle : n * price.value ≤ available.value)
    (hlt : available.value - n * price.value < price.value)
    (hcost : ¬ holds (n * price.value) = true) :
    D.round (available.value - D.round (n * price.value)) ≠ available.value - n * price.value := by
  have hpos := Decimal.mantissa_pos hprice
  have hpricelt := price.mantissa_lt
  have hcash := available.mantissa_lt
  have hpricescale := price.scale_le
  have hscalele := available.scale_le
  have havailable : holds available.value = true := holds_iff.mpr ⟨available, rfl⟩
  have hround := D.holds_round _ (D.inRange_le _ _ (by positivity) hle (D.inRange_holds havailable))
  have hbelow := D.round_le havailable hle
  -- the cost at the price's scale is an integer past the mantissa
  rw [cost_scaled] at hle hlt hcost hround hbelow ⊢
  have hbig : 2 ^ 96 ≤ (n : ℤ) * price.mantissa := by
    by_contra hsmall
    have hnonneg : 0 ≤ (n : ℤ) * price.mantissa := by positivity
    exact hcost (holds_of_scaled rfl hpricescale (by omega))
  generalize hX : (n : ℤ) * price.mantissa = X at *
  have hkept : ∀ q, holds q = true → q ≠ (X : ℚ) / 10 ^ price.scale := by
    rintro q hq rfl
    exact hcost hq
  have hscale : available.scale < price.scale := by
    by_contra hnot
    obtain ⟨k, hk⟩ := Nat.exists_eq_add_of_le (not_lt.mp hnot)
    rw [rescaled X price.scale k, ← hk, Decimal.value, scaled_le] at hle
    have hten : (1 : ℤ) ≤ 10 ^ k := one_le_pow₀ (by norm_num)
    have hmul : X ≤ X * 10 ^ k := le_mul_of_one_le_right (by omega) hten
    omega
  obtain ⟨k, hk⟩ := Nat.exists_eq_add_of_lt hscale
  have hvalue : available.value = ((available.mantissa * 10 ^ (k + 1) : ℤ) : ℚ) / 10 ^ price.scale := by
    rw [Decimal.value, rescaled available.mantissa available.scale (k + 1), ← add_assoc, ← hk]
  have hwhole : ((2 ^ 96 - 1 : ℤ) : ℚ) / 10 ^ price.scale ≤ D.round ((X : ℚ) / 10 ^ price.scale) :=
    D.le_round (holds_of_scaled rfl hpricescale (by decide)) (scaled_le.mpr (by omega))
  have hcut := rounded_cost_ge D hk hle (by omega)
  have hmoved := hkept _ hround
  obtain ⟨m, t, hm, -, hmlt⟩ := Decimal.eq_of_holds hround
  rw [hvalue] at hle hlt hbelow ⊢
  rw [scaled_sub] at hlt ⊢
  rw [scaled_le] at hle
  rw [Decimal.value, scaled_lt] at hlt
  rw [hm] at hwhole hcut hbelow hmoved ⊢
  rcases lt_trichotomy t price.scale with ht | ht | ht
  · -- a coarser figure: its difference from the cash is one too
    obtain ⟨j, hj⟩ := Nat.exists_eq_add_of_lt ht
    have hmj : (m : ℚ) / 10 ^ t = ((m * 10 ^ (j + 1) : ℤ) : ℚ) / 10 ^ price.scale := by
      rw [rescaled m t (j + 1), ← add_assoc, ← hj]
    rw [hmj] at hcut hbelow hmoved ⊢
    rw [scaled_le] at hcut hbelow
    rw [scaled_sub]
    have hfigure : holds (((available.mantissa * 10 ^ (k + 1) - m * 10 ^ (j + 1) : ℤ) : ℚ) /
        10 ^ price.scale) = true := by
      have hfold : available.mantissa * 10 ^ (k + 1) - m * 10 ^ (j + 1) =
          (available.mantissa * 10 ^ k - m * 10 ^ j) * 10 ^ 1 := by ring
      rw [hfold, hk, ← rescaled]
      apply holds_of_scaled rfl (by omega)
      have hcash' : available.mantissa * 10 ^ (k + 1) = available.mantissa * 10 ^ k * 10 := by ring
      have hcost' : m * 10 ^ (j + 1) = m * 10 ^ j * 10 := by ring
      omega
    rw [D.round_holds hfigure]
    intro heq
    apply hmoved
    rw [div_left_inj' (by positivity)] at heq ⊢
    have hint := Int.cast_injective heq
    exact_mod_cast (by omega : m * 10 ^ (j + 1) = X)
  · -- the largest mantissa at the price's own scale
    rw [ht] at hwhole hcut hbelow hmoved ⊢
    rw [scaled_le] at hwhole hbelow
    rw [scaled_sub]
    by_cases hfits : (available.mantissa * 10 ^ (k + 1) - m).natAbs < 2 ^ 96
    · rw [D.round_holds (holds_of_scaled rfl hpricescale hfits)]
      intro heq
      rw [div_left_inj' (by positivity)] at heq
      have hint := Int.cast_injective heq
      omega
    · have hmax : ((2 ^ 96 - 1 : ℤ) : ℚ) / 10 ^ price.scale ≤
          D.round (((available.mantissa * 10 ^ (k + 1) - m : ℤ) : ℚ) / 10 ^ price.scale) :=
        D.le_round (holds_of_scaled rfl hpricescale (by decide)) (scaled_le.mpr (by omega))
      intro heq
      rw [heq, scaled_le] at hmax
      omega
  · -- a finer figure would not reach the mantissa
    obtain ⟨j, hj⟩ := Nat.exists_eq_add_of_lt ht
    rw [rescaled (2 ^ 96 - 1) price.scale (j + 1), ← add_assoc, ← hj, scaled_le] at hwhole
    have hten : (10 : ℤ) ^ 1 ≤ 10 ^ (j + 1) := pow_le_pow_right₀ (by norm_num) (by omega)
    have hmul : (2 ^ 96 - 1 : ℤ) * 10 ^ 1 ≤ (2 ^ 96 - 1) * 10 ^ (j + 1) :=
      mul_le_mul_of_nonneg_left hten (by norm_num)
    omega

end Leftover

/-! ### The count -/

section Count
variable {available price : Decimal}

/-- The quotient's whole part, and a share more, either side of the cash. -/
theorem floor_eq_of_leftover {c p leftover : ℚ} {n : ℕ} (hp : 0 < p) (hnonneg : 0 ≤ leftover)
    (hlt : leftover < p) (hsum : n * p + leftover = c) : ⌊c / p⌋ = n := by
  rw [Int.floor_eq_iff, le_div_iff₀ hp, div_lt_iff₀ hp]
  push_cast
  constructor <;> linarith

theorem floor_leftover {c p : ℚ} (hp : 0 < p) :
    ⌊c / p⌋ * p ≤ c ∧ c - ⌊c / p⌋ * p < p := by
  have hle := (le_div_iff₀ hp).mp (Int.floor_le (c / p))
  have hlt := (div_lt_iff₀ hp).mp (Int.lt_floor_add_one (c / p))
  constructor
  · exact hle
  · linarith

/-- The registry default keeps its word exactly where the quotient is in range
and is not rounded up to the next whole number, and the shares' cost is a
figure a decimal holds. -/
theorem buysWhole_iff (D : FigureRounding) (available price : Decimal)
    (hcash : 0 ≤ available.value) (hprice : 0 < price.value) :
    BuysWhole D.toDecimalRounding available price ↔
      D.inRange (available.value / price.value) = true ∧
        D.round (available.value / price.value) < ⌊available.value / price.value⌋ + 1 ∧
        holds (⌊available.value / price.value⌋ * price.value) = true := by
  constructor
  · rintro ⟨n, leftover, hanswer, hnonneg, hlt, hsum⟩
    have hfloor := floor_eq_of_leftover hprice hnonneg hlt hsum
    obtain ⟨ratio, hratio, hanswer⟩ := answer_bind.mp hanswer
    obtain ⟨cost, hcost, hanswer⟩ := answer_bind.mp hanswer
    obtain ⟨rest, hrest, hanswer⟩ := answer_bind.mp hanswer
    have hpair := answer_pure.mp hanswer
    obtain ⟨hcount, rfl⟩ := Prod.mk.inj hpair
    have hwhole : ⌊ratio⌋ = (n : ℤ) := by exact_mod_cast hcount
    have hle : (n : ℚ) * price.value ≤ available.value := by linarith
    have hleft : available.value - n * price.value < price.value := by linarith
    rw [hfloor, Int.cast_natCast]
    refine ⟨DecimalRounding.inRange_of_answer hratio, ?_, ?_⟩
    · have hnext := Int.lt_floor_add_one ratio
      rw [hwhole, DecimalRounding.answer_op hratio] at hnext
      exact_mod_cast hnext
    · by_contra hcoarse
      rw [hcount] at hcost
      rw [DecimalRounding.answer_op hcost] at hrest
      apply round_leftover_ne D hprice hle hleft hcoarse
      rw [← DecimalRounding.answer_op hrest]
      linarith
  · rintro ⟨hrange, hround, hcost⟩
    obtain ⟨hle, hlt⟩ := floor_leftover (c := available.value) hprice
    have hquotient : 0 ≤ available.value / price.value := div_nonneg hcash hprice.le
    obtain ⟨n, hn⟩ := Int.eq_ofNat_of_zero_le (Int.floor_nonneg.mpr hquotient)
    rw [hn, Int.cast_natCast] at hle hlt hcost
    rw [hn] at hround
    have hbelow : (n : ℚ) ≤ available.value / price.value := by
      have hfloor := Int.floor_le (available.value / price.value)
      rw [hn] at hfloor
      exact_mod_cast hfloor
    have hfigure : holds (n : ℚ) = true := by
      have hsmall := hbelow.trans_lt (D.lt_of_inRange _ hrange)
      have hnat : n < 2 ^ 96 := by exact_mod_cast hsmall
      apply holds_of_scaled (m := n) (s := 0)
      · simp
      · omega
      · omega
    have hwhole : ⌊D.round (available.value / price.value)⌋ = (n : ℤ) := by
      rw [Int.floor_eq_iff]
      exact ⟨by exact_mod_cast D.le_round hfigure hbelow, by exact_mod_cast hround⟩
    have hleft := holds_leftover hprice hle hlt
    refine ⟨n, available.value - n * price.value, ?_, sub_nonneg.mpr hle, hlt, by ring⟩
    have hratio : (D.op (available.value / price.value) : Attempt Refusal ℚ).answer =
        .ok (D.round (available.value / price.value)) := by
      rw [DecimalRounding.op, if_pos hrange]
    apply answer_bind.mpr
    refine ⟨_, hratio, ?_⟩
    rw [hwhole, Int.cast_natCast]
    exact answer_bind.mpr ⟨_, (DecimalRounding.yields_op hcost).1,
      answer_bind.mpr ⟨_, (DecimalRounding.yields_op hleft).1, rfl⟩⟩

/-- Ninety dollars of shares at seven. -/
theorem buysWhole_ninety :
    BuysWhole halfEvenRounding (.new 9000 2) (.new 7 0) :=
  (buysWhole_iff halfEvenFigures (.new 9000 2) (.new 7 0) (by decide +kernel) (by decide +kernel)).mpr
    (by decide +kernel)

/-- A hair under three dollars at three a share: the quotient rounds up to one
share, and what is left over is less than nothing. -/
theorem buysWhole_negative_leftover :
    ¬ BuysWhole halfEvenRounding (.new 29999999999999999999999999999 28) (.new 3 0) := by
  rintro ⟨n, leftover, hanswer, hnonneg, -, -⟩
  have hruns : (registryDefault halfEvenRounding (Decimal.new 29999999999999999999999999999 28).value
      (Decimal.new 3 0).value).answer = .ok (1, -1 / 10 ^ 28) := by
    decide +kernel
  rw [hruns] at hanswer
  obtain ⟨-, rfl⟩ := Prod.mk.inj (Except.ok.inj hanswer)
  exact absurd hnonneg (by norm_num)

end Count

end ShareTracker.Drp
