import Mathlib

/-! Exact unit counts as a numerator over a positive denominator. -/
namespace ShareTracker

structure Fraction where
  num : ℚ
  den : ℚ
  den_pos : 0 < den
  deriving DecidableEq

namespace Fraction

/-- The count the fraction stands for. -/
def value (f : Fraction) : ℚ := f.num / f.den

/-- A terminating count over one. -/
def whole (count : ℚ) : Fraction := ⟨count, 1, one_pos⟩

@[simp] theorem whole_value (count : ℚ) : (whole count).value = count := div_one count

/-- The least common multiple where both are whole numbers, else the plain product. -/
def lcm (a b : ℚ) : ℚ :=
  if a.den = 1 ∧ b.den = 1 then a / (Int.gcd a.num b.num : ℕ) * b else a * b

theorem lcm_pos {a b : ℚ} (ha : 0 < a) (hb : 0 < b) : 0 < lcm a b := by
  unfold lcm
  split
  · have hg : 0 < Int.gcd a.num b.num :=
      Int.gcd_pos_of_ne_zero_left _ (Rat.num_pos.mpr ha).ne'
    have hq : (0 : ℚ) < (Int.gcd a.num b.num : ℕ) := by exact_mod_cast hg
    positivity
  · positivity

def commonDenominator (fractions : List Fraction) : ℚ :=
  fractions.foldl (fun common f => lcm common f.den) 1

theorem commonDenominator_pos (fractions : List Fraction) : 0 < commonDenominator fractions := by
  have h : ∀ (fs : List Fraction) (c : ℚ), 0 < c →
      0 < fs.foldl (fun common f => lcm common f.den) c := by
    intro fs
    induction fs with
    | nil => exact fun c hc => hc
    | cons f fs ih => exact fun c hc => ih _ (lcm_pos hc f.den_pos)
  exact h fractions 1 one_pos

/-- Each count's numerator over the common denominator, and that denominator. -/
def overCommonDenominator (fractions : List Fraction) : List ℚ × ℚ :=
  let common := commonDenominator fractions
  (fractions.map fun f => f.num * (common / f.den), common)

theorem num_over (f : Fraction) {common : ℚ} :
    f.num * (common / f.den) = f.value * common := by
  have := f.den_pos.ne'
  unfold value
  field_simp

theorem overCommonDenominator_eq (fractions : List Fraction) :
    overCommonDenominator fractions =
      (fractions.map fun f => f.value * commonDenominator fractions,
        commonDenominator fractions) := by
  simp only [overCommonDenominator, num_over]

end Fraction

end ShareTracker
