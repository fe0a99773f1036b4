import ShareTracker.DecimalArithmetic

/-!
What else is relied on of the decimal library: what it answers is a figure it
can store, and what is smaller than a figure in its range is in it too.
-/
namespace ShareTracker

structure FigureRounding extends DecimalRounding where
  holds_round : ∀ q, inRange q = true → holds (round q) = true
  inRange_le : ∀ q r, 0 ≤ q → q ≤ r → inRange r = true → inRange q = true
  lt_of_inRange : ∀ q, inRange q = true → q < 2 ^ 96

/-- Sign and magnitude apart: a result and its opposite are rounded alike. -/
structure SignedRounding extends FigureRounding where
  inRange_neg : ∀ q, inRange (-q) = inRange q
  round_neg : ∀ q, round (-q) = -round q

theorem holds_of_scaled {q : ℚ} {m : ℤ} {s : ℕ} (hq : q = m / 10 ^ s) (hs : s ≤ 28)
    (hm : m.natAbs < 2 ^ 96) : holds q = true :=
  holds_iff.mpr ⟨⟨m, s, hm, hs⟩, hq.symm⟩

theorem holds_intCast {n : ℤ} : holds (n : ℚ) = true ↔ n.natAbs < 2 ^ 96 := by
  constructor
  · intro h
    obtain ⟨d, hd⟩ := holds_iff.mp h
    have hten : (10 : ℚ) ^ d.scale ≠ 0 := by positivity
    have hmantissa : d.mantissa = n * 10 ^ d.scale := by
      have hcast : (d.mantissa : ℚ) = n * 10 ^ d.scale := (div_eq_iff hten).mp hd
      exact_mod_cast hcast
    refine lt_of_le_of_lt ?_ d.mantissa_lt
    rw [hmantissa, Int.natAbs_mul]
    exact Nat.le_mul_of_pos_right _ (Int.natAbs_pos.mpr (by positivity))
  · intro h
    exact holds_of_scaled (m := n) (s := 0) (by simp) (by omega) h

theorem Decimal.eq_of_holds {q : ℚ} (h : holds q = true) :
    ∃ (m : ℤ) (s : ℕ), q = m / 10 ^ s ∧ s ≤ 28 ∧ m.natAbs < 2 ^ 96 := by
  obtain ⟨d, rfl⟩ := holds_iff.mp h
  exact ⟨d.mantissa, d.scale, rfl, d.scale_le, d.mantissa_lt⟩

theorem scaled_le {a b : ℤ} {s : ℕ} : (a : ℚ) / 10 ^ s ≤ b / 10 ^ s ↔ a ≤ b := by
  have hten : (0 : ℚ) < 10 ^ s := by positivity
  rw [div_le_div_iff_of_pos_right hten, Int.cast_le]

theorem scaled_lt {a b : ℤ} {s : ℕ} : (a : ℚ) / 10 ^ s < b / 10 ^ s ↔ a < b := by
  have hten : (0 : ℚ) < 10 ^ s := by positivity
  rw [div_lt_div_iff_of_pos_right hten, Int.cast_lt]

theorem scaled_sub (a b : ℤ) (s : ℕ) : (a : ℚ) / 10 ^ s - b / 10 ^ s = ((a - b : ℤ) : ℚ) / 10 ^ s := by
  push_cast
  ring

/-- A figure written with more decimal places. -/
theorem rescaled (m : ℤ) (s k : ℕ) : (m : ℚ) / 10 ^ s = ((m * 10 ^ k : ℤ) : ℚ) / 10 ^ (s + k) := by
  have hten : (10 : ℚ) ^ k ≠ 0 := by positivity
  push_cast
  rw [pow_add, mul_div_mul_right _ _ hten]

namespace Decimal

theorem new_value {m : ℤ} {s : ℕ} (hm : m.natAbs < 2 ^ 96) (hs : s ≤ 28) :
    (new m s).value = m / 10 ^ s := by
  rw [new, dif_pos ⟨hm, hs⟩, value]

theorem mantissa_pos {d : Decimal} (h : 0 < d.value) : 0 < d.mantissa := by
  have hten : (0 : ℚ) < 10 ^ d.scale := by positivity
  rw [value, div_pos_iff_of_pos_right hten] at h
  exact_mod_cast h

end Decimal

theorem DecimalRounding.inRange_of_answer {ε : Type} [Panics ε] {D : DecimalRounding} {q r : ℚ}
    (h : (D.op q : Attempt ε ℚ).answer = .ok r) : D.inRange q = true := by
  unfold DecimalRounding.op at h
  split at h
  · assumption
  · cases h

namespace FigureRounding

/-- A figure at or below an exact result stays at or below what it is rounded to. -/
theorem le_round (D : FigureRounding) {q r : ℚ} (h : holds q = true) (hle : q ≤ r) :
    q ≤ D.round r := D.round_holds h ▸ D.round_mono hle

theorem round_le (D : FigureRounding) {q r : ℚ} (h : holds r = true) (hle : q ≤ r) :
    D.round q ≤ r := by
  have hmono := D.round_mono hle
  rwa [D.round_holds h] at hmono

theorem inRange_holds (D : FigureRounding) {q : ℚ} (h : holds q = true) : D.inRange q = true := by
  obtain ⟨d, rfl⟩ := holds_iff.mp h
  exact D.inRange_value d

end FigureRounding

theorem holds_neg {q : ℚ} (h : holds q = true) : holds (-q) = true := by
  obtain ⟨d, rfl⟩ := holds_iff.mp h
  refine holds_iff.mpr ⟨⟨-d.mantissa, d.scale, ?_, d.scale_le⟩, ?_⟩
  · rw [Int.natAbs_neg]
    exact d.mantissa_lt
  · simp only [Decimal.value, Int.cast_neg, neg_div]

namespace SignedRounding

variable (D : SignedRounding) {q r : ℚ}

theorem inRange_abs (q : ℚ) : D.inRange |q| = D.inRange q := by
  rcases abs_choice q with h | h
  · rw [h]
  · rw [h, D.inRange_neg]

theorem abs_round_le (h : holds r = true) (hle : |q| ≤ r) : |D.round q| ≤ r := by
  obtain ⟨hlow, hhigh⟩ := abs_le.mp hle
  exact abs_le.mpr ⟨D.le_round (holds_neg h) hlow, D.round_le h hhigh⟩

theorem le_abs_round (h : holds r = true) (hle : r ≤ |q|) : r ≤ |D.round q| := by
  rcases le_abs.mp hle with hpos | hneg
  · exact (D.le_round h hpos).trans (le_abs_self _)
  · have hround := D.round_le (holds_neg h) (le_neg_of_le_neg hneg)
    exact (le_neg_of_le_neg hround).trans (neg_le_abs _)

end SignedRounding

theorem holds_toFinest {q : ℚ} (h : ScaledRounding.fits (2 ^ 96) 0 q = true) :
    holds (ScaledRounding.toFinest (2 ^ 96) 28 q) = true := by
  have hfits : ScaledRounding.fits (2 ^ 96) (ScaledRounding.finest (2 ^ 96) q 28) q = true := by
    rcases Nat.eq_zero_or_pos (ScaledRounding.finest (2 ^ 96) q 28) with hzero | hpos
    · rw [hzero]
      exact h
    · exact ScaledRounding.fits_finest hpos
  exact holds_of_scaled rfl (ScaledRounding.finest_le q 28) (of_decide_eq_true hfits)

theorem fits_zero_le {q r : ℚ} (hq : 0 ≤ q) (hle : q ≤ r)
    (hr : ScaledRounding.fits (2 ^ 96) 0 r = true) : ScaledRounding.fits (2 ^ 96) 0 q = true := by
  have hmant : (ScaledRounding.halfEven (r * 10 ^ 0)).natAbs < 2 ^ 96 := of_decide_eq_true hr
  have hnonneg := ScaledRounding.halfEven_nonneg hq
  have hmono := ScaledRounding.halfEven_mono hle
  rw [pow_zero, mul_one] at hmant
  rw [ScaledRounding.fits, pow_zero, mul_one]
  apply decide_eq_true
  omega

theorem lt_of_fits_zero {q : ℚ} (h : ScaledRounding.fits (2 ^ 96) 0 q = true) :
    q < 2 ^ 96 := by
  have hmant : (ScaledRounding.halfEven (q * 10 ^ 0)).natAbs < 2 ^ 96 := of_decide_eq_true h
  rw [pow_zero, mul_one] at hmant
  by_contra hnot
  have hbound : ((2 ^ 96 : ℤ) : ℚ) ≤ q := by
    push_cast
    exact not_lt.mp hnot
  have hmono := ScaledRounding.halfEven_mono hbound
  rw [ScaledRounding.halfEven_intCast] at hmono
  omega

/-- The library's own rounding answers figures it can store. -/
def halfEvenFigures : FigureRounding where
  toDecimalRounding := halfEvenRounding
  holds_round := fun _ h => holds_toFinest h
  inRange_le := fun _ _ hq hle hr => fits_zero_le hq hle hr
  lt_of_inRange := fun _ h => lt_of_fits_zero h

def halfEvenSigned : SignedRounding where
  toFigureRounding := halfEvenFigures
  inRange_neg := ScaledRounding.fits_neg 0
  round_neg := ScaledRounding.toFinest_neg 28

end ShareTracker
