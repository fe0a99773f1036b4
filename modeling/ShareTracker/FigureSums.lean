import ShareTracker.DecimalFigures

/-!
Sums and products of figures as the decimal library keeps them: an answer's
value is the exact result rounded, and how many places it is kept at is the
library's own choice.
-/
namespace ShareTracker

/-- The operators `+` and `*`; none where they panic. -/
structure FigureArithmetic extends FigureRounding where
  add : Decimal → Decimal → Option Decimal
  mul : Decimal → Decimal → Option Decimal
  add_value : ∀ a b c, add a b = some c → c.value = round (a.value + b.value)
  mul_value : ∀ a b c, mul a b = some c → c.value = round (a.value * b.value)

namespace FigureArithmetic

/-- Figures added up from zero. -/
def sum (A : FigureArithmetic) (figures : List Decimal) : Option Decimal :=
  figures.foldlM A.add Decimal.zero

variable {A : FigureArithmetic} {a b c : Decimal}

theorem add_value_nonneg (h : A.add a b = some c) (ha : 0 ≤ a.value) (hb : 0 ≤ b.value) :
    0 ≤ c.value := by
  rw [A.add_value a b c h]
  apply DecimalRounding.round_nonneg
  exact add_nonneg ha hb

theorem mul_value_nonneg (h : A.mul a b = some c) (ha : 0 ≤ a.value) (hb : 0 ≤ b.value) :
    0 ≤ c.value := by
  rw [A.mul_value a b c h]
  apply DecimalRounding.round_nonneg
  exact mul_nonneg ha hb

theorem foldlM_nonneg {figures : List Decimal} {acc total : Decimal}
    (h : figures.foldlM A.add acc = some total) (hacc : 0 ≤ acc.value)
    (hfigures : ∀ d ∈ figures, 0 ≤ d.value) : 0 ≤ total.value := by
  induction figures generalizing acc with
  | nil =>
    obtain rfl := Option.some.inj h
    exact hacc
  | cons d figures ih =>
    rw [List.foldlM_cons] at h
    obtain ⟨acc', hadd, hrest⟩ := Option.bind_eq_some_iff.mp h
    apply ih hrest
    · exact add_value_nonneg hadd hacc (hfigures d List.mem_cons_self)
    · intro d' hd'
      exact hfigures d' (List.mem_cons_of_mem _ hd')

theorem sum_nonneg {figures : List Decimal} {total : Decimal} (h : A.sum figures = some total)
    (hfigures : ∀ d ∈ figures, 0 ≤ d.value) : 0 ≤ total.value := by
  apply foldlM_nonneg h
  · exact Decimal.zero_value.ge
  · exact hfigures

end FigureArithmetic

namespace Decimal

/-- Whether a figure has used all 28 significant digits. -/
def fullPrecision (d : Decimal) : Bool := 10 ^ 27 ≤ d.mantissa.natAbs

/-- One unit in the last place of a figure written to 28 significant digits. -/
def lastPlace (d : Decimal) : ℚ := 10 ^ Nat.log 10 d.mantissa.natAbs / 10 ^ (d.scale + 27)

theorem lastPlace_pos (d : Decimal) : 0 < d.lastPlace := by
  rw [lastPlace]
  positivity

/-- A figure is at least 28 digits' worth of its last place. -/
theorem lastPlace_mul_le {d : Decimal} (h : 0 < d.value) : 10 ^ 27 * d.lastPlace ≤ d.value := by
  have hpos := mantissa_pos h
  have hlog : 10 ^ Nat.log 10 d.mantissa.natAbs ≤ d.mantissa.natAbs :=
    Nat.pow_log_le_self 10 (by omega)
  have hmant : (10 : ℚ) ^ Nat.log 10 d.mantissa.natAbs ≤ d.mantissa := by
    have hcast : ((10 ^ Nat.log 10 d.mantissa.natAbs : ℕ) : ℤ) ≤ d.mantissa := by
      omega
    exact_mod_cast hcast
  have hten : (0 : ℚ) < 10 ^ d.scale := by positivity
  rw [lastPlace, value, pow_add, mul_div_assoc', mul_comm (10 ^ 27 : ℚ),
    mul_div_mul_right _ _ (by positivity)]
  exact div_le_div_of_nonneg_right hmant hten.le

end Decimal

/-! ### The library's own figures -/

open ScaledRounding

/-- A result worked out at a scale: kept there, or at the finest scale below it
whose mantissa it fits. -/
def figureAt (scale : ℕ) (q : ℚ) : Option Decimal :=
  if fits (2 ^ 96) 0 q then
    some (Decimal.new (halfEven (q * 10 ^ finest (2 ^ 96) q (min scale 28)))
      (finest (2 ^ 96) q (min scale 28)))
  else none

/-- A result with no more places than its scale rounds there as anywhere finer. -/
theorem toFinest_min (m : ℤ) (s : ℕ) :
    toFinest (2 ^ 96) (min s 28) ((m : ℚ) / 10 ^ s) = toFinest (2 ^ 96) 28 (m / 10 ^ s) := by
  rcases le_total 28 s with hs | hs
  · rw [min_eq_right hs]
  · rw [min_eq_left hs]
    by_cases hm : m.natAbs < 2 ^ 96
    · rw [toFinest_of_multiple le_rfl hm, toFinest_of_multiple hs hm]
    · have hcoarse : ∀ k, finest (2 ^ 96) ((m : ℚ) / 10 ^ s) (s + k) =
          finest (2 ^ 96) ((m : ℚ) / 10 ^ s) s := by
        intro k
        induction k with
        | zero => rfl
        | succ k ih =>
          have hnot : fits (2 ^ 96) (s + k + 1) ((m : ℚ) / 10 ^ s) ≠ true := by
            have hrescaled := rescaled m s (k + 1)
            have hten : (10 : ℚ) ^ (s + (k + 1)) ≠ 0 := by positivity
            rw [fits, ← add_assoc] at *
            rw [hrescaled, div_mul_cancel₀ _ hten, halfEven_intCast]
            have hone : 0 < ((10 : ℤ) ^ (k + 1)).natAbs := by
              have : 0 < (10 : ℤ) ^ (k + 1) := by positivity
              omega
            have hgrows := Nat.le_mul_of_pos_right m.natAbs hone
            rw [← Int.natAbs_mul] at hgrows
            intro hfits
            have hlt := of_decide_eq_true hfits
            omega
          rw [← ih, ← add_assoc, finest, if_neg hnot]
      obtain ⟨k, hk⟩ := Nat.exists_eq_add_of_le hs
      rw [toFinest, toFinest, hk, hcoarse]

theorem figureAt_value {s : ℕ} {q : ℚ} {m : ℤ} {c : Decimal} (hq : q = m / 10 ^ s)
    (h : figureAt s q = some c) : c.value = toFinest (2 ^ 96) 28 q := by
  rw [figureAt] at h
  split at h
  · rename_i hzero
    have hfits : fits (2 ^ 96) (finest (2 ^ 96) q (min s 28)) q = true := by
      rcases Nat.eq_zero_or_pos (finest (2 ^ 96) q (min s 28)) with hnil | hpos
      · rw [hnil]
        exact hzero
      · exact fits_finest hpos
    have hscale : finest (2 ^ 96) q (min s 28) ≤ 28 := (finest_le q _).trans (min_le_right s 28)
    obtain rfl := Option.some.inj h
    rw [Decimal.new_value (of_decide_eq_true hfits) hscale]
    calc (halfEven (q * 10 ^ finest (2 ^ 96) q (min s 28)) : ℚ) / 10 ^ finest (2 ^ 96) q (min s 28)
        = toFinest (2 ^ 96) (min s 28) q := rfl
      _ = toFinest (2 ^ 96) 28 q := by rw [hq, toFinest_min]
  · cases h

theorem add_scaled (a b : Decimal) :
    ∃ m : ℤ, a.value + b.value = (m : ℚ) / 10 ^ max a.scale b.scale := by
  obtain ⟨j, hj⟩ := Nat.exists_eq_add_of_le (le_max_left a.scale b.scale)
  obtain ⟨k, hk⟩ := Nat.exists_eq_add_of_le (le_max_right a.scale b.scale)
  refine ⟨a.mantissa * 10 ^ j + b.mantissa * 10 ^ k, ?_⟩
  rw [Decimal.value, Decimal.value, rescaled a.mantissa a.scale j, rescaled b.mantissa b.scale k,
    ← hj, ← hk, ← add_div]
  push_cast
  rfl

theorem mul_scaled (a b : Decimal) :
    ∃ m : ℤ, a.value * b.value = (m : ℚ) / 10 ^ (a.scale + b.scale) := by
  refine ⟨a.mantissa * b.mantissa, ?_⟩
  rw [Decimal.value, Decimal.value, div_mul_div_comm, pow_add]
  push_cast
  rfl

/-- Sums at the finer of two scales and products at both together. -/
def halfEvenArithmetic : FigureArithmetic where
  toFigureRounding := halfEvenFigures
  add := fun a b => figureAt (max a.scale b.scale) (a.value + b.value)
  mul := fun a b => figureAt (a.scale + b.scale) (a.value * b.value)
  add_value := fun a b _ h => (add_scaled a b).elim fun _ hm => figureAt_value hm h
  mul_value := fun a b _ h => (mul_scaled a b).elim fun _ hm => figureAt_value hm h

end ShareTracker
