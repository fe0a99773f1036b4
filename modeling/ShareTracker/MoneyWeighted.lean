import Mathlib
import ShareTracker.Calendar
import ShareTracker.DecimalArithmetic
import ShareTracker.Lib.Bisection
import ShareTracker.Lib.Grid

/-!
The money-weighted return: the yearly rate at which dated flows are worth
nothing today, solved by bisection on powers rounded at 28 places.
-/
namespace ShareTracker.MoneyWeighted

/-- A dated cash flow, outflows negative. -/
abbrev Flow := NaiveDate × ℚ

/-- What is relied on of the decimal library: figures of the solver's size are
kept to 27 places and a power is rounded at 28, to zero where it underflows. -/
structure RateArithmetic extends DecimalRounding where
  inRange_of_le : ∀ q, |q| ≤ 10 ^ 28 → inRange q = true
  round_near : ∀ q, |q| ≤ 22 → |round q - q| ≤ 1 / 10 ^ 27
  /-- `checked_powd`, or `checked_exp` of the logarithm's multiple. -/
  power : ℚ → ℚ → ℚ
  power_near : ∀ base exp : ℚ, 0 < base → (base : ℝ) ^ (exp : ℝ) ≤ 1 →
    |(power base exp : ℝ) - (base : ℝ) ^ (exp : ℝ)| ≤ 1 / (2 * 10 ^ 28)
  power_places : ∀ base exp, Grid.On (1 / 10 ^ 28) (power base exp)

/-- −99.99% a year. -/
def lowestRate : ℚ := -9999 / 10000

/-- +1,000% a year. -/
def highestRate : ℚ := 10

def halvings : ℕ := 40

/-- The width of the bracket the bisection ends with. -/
def finalWidth : ℚ := (highestRate - lowestRate) / 2 ^ halvings

namespace RateArithmetic
variable (A : RateArithmetic)

/-- The `checked_` operations. -/
def checkedOp (result : ℚ) : Option ℚ := if A.inRange result then some (A.round result) else none

/-- One more flow in the running total. -/
def addFlow (total amount factor : ℚ) : Option ℚ := do
  A.checkedOp (total + (← A.checkedOp (amount * factor)))

/-- The flows in years from the first. -/
def timed (start : NaiveDate) (flows : List Flow) : List (ℚ × ℚ) :=
  flows.map fun f => (A.round ((f.1.dayNumber - start.dayNumber : ℤ) / 365), f.2)

/-- The value at a rate, compounded to the last flow below parity and discounted
to the first from there up, so that no factor is above one. -/
def npv (timed : List (ℚ × ℚ)) (rate : ℚ) : Option ℚ :=
  let tMax := (timed.map Prod.fst).foldl max 0
  let base := A.round (1 + rate)
  timed.foldlM (fun total f =>
    let exp := if base < 1 then A.round (tMax - f.1) else -f.1
    A.addFlow total f.2 (A.power base exp)) 0

def midpoint (lo hi : ℚ) : ℚ := A.round (A.round (lo + hi) / 2)

/-- The sign a value is read with. -/
def readSign (timed : List (ℚ × ℚ)) (rate : ℚ) : Option SignType :=
  (A.npv timed rate).map SignType.sign

/-- The bisection from the values at the two ends. -/
def bisect (timed : List (ℚ × ℚ)) (npvLo npvHi : ℚ) : Option ℚ :=
  if npvLo = 0 then some lowestRate
  else if npvHi = 0 then some highestRate
  else if decide (0 < npvLo) = decide (0 < npvHi) then none
  else Bisection.search A.midpoint (A.readSign timed) (SignType.sign npvLo) halvings lowestRate
    highestRate

/-- Flows of both signs, over more than one day. -/
def TwoSided (flows : List Flow) : Prop :=
  (flows.map Prod.fst).min? ≠ (flows.map Prod.fst).max? ∧ (∃ f ∈ flows, f.2 < 0) ∧
    ∃ f ∈ flows, 0 < f.2

instance decidableTwoSided (flows : List Flow) : Decidable (TwoSided flows) :=
  inferInstanceAs (Decidable (_ ∧ _ ∧ _))

def moneyWeightedAnnualReturn (flows : List Flow) : Option ℚ := do
  let start ← (flows.map Prod.fst).min?
  if ¬ TwoSided flows then none
  else
    let timed := A.timed start flows
    let npvLo ← A.npv timed lowestRate
    let npvHi ← A.npv timed highestRate
    A.bisect timed npvLo npvHi

end RateArithmetic

/-! ### The value of the flows -/

/-- The day the flows start. -/
def firstDay (flows : List Flow) : ℤ := ((flows.map Prod.fst).min?).elim 0 NaiveDate.dayNumber

namespace RateArithmetic
variable (A : RateArithmetic)

end RateArithmetic

section Ends
variable {flows : List Flow}

end Ends

namespace RateArithmetic
variable {A : RateArithmetic} {flows : List Flow}

end RateArithmetic

/-! ### The library's own arithmetic -/

/-- The nearest number of 28 places to a power. -/
noncomputable def nearestPower (base exp : ℚ) : ℚ :=
  (round ((base : ℝ) ^ (exp : ℝ) * 10 ^ 28) : ℤ) * (1 / 10 ^ 28)

theorem nearestPower_near (base exp : ℚ) :
    |(nearestPower base exp : ℝ) - (base : ℝ) ^ (exp : ℝ)| ≤ 1 / (2 * 10 ^ 28) := by
  have h := abs_sub_round ((base : ℝ) ^ (exp : ℝ) * 10 ^ 28)
  rw [abs_sub_comm] at h
  have h' := abs_le.mp h
  unfold nearestPower
  push_cast
  rw [abs_le]
  constructor <;> linarith [h'.1, h'.2]

theorem fits_of_le {q : ℚ} {s : ℕ} (h : |q * 10 ^ s| ≤ 3 * 10 ^ 28) :
    ScaledRounding.fits (2 ^ 96) s q = true := by
  obtain ⟨hlow, hhigh⟩ := abs_le.mp h
  obtain ⟨hn₁, hn₂⟩ := ScaledRounding.halfEven_near (q * 10 ^ s)
  have hlt : |(ScaledRounding.halfEven (q * 10 ^ s) : ℚ)| < 2 ^ 96 := by
    rw [abs_lt]
    constructor <;> linarith
  have hcast : ((ScaledRounding.halfEven (q * 10 ^ s)).natAbs : ℚ) < (2 ^ 96 : ℕ) := by
    rw [Nat.cast_natAbs, Int.cast_abs]
    exact_mod_cast hlt
  unfold ScaledRounding.fits
  rw [decide_eq_true_eq]
  exact_mod_cast hcast

theorem inRange_of_small (q : ℚ) (h : |q| ≤ 10 ^ 28) : ScaledRounding.fits (2 ^ 96) 0 q = true := by
  apply fits_of_le
  rw [pow_zero, mul_one]
  linarith

theorem toFinest_near (q : ℚ) (h : |q| ≤ 22) :
    |ScaledRounding.toFinest (2 ^ 96) 28 q - q| ≤ 1 / 10 ^ 27 := by
  have hfits : ScaledRounding.fits (2 ^ 96) 27 q = true := by
    apply fits_of_le
    have hpos : (0 : ℚ) ≤ 10 ^ 27 := by positivity
    rw [abs_mul, abs_of_nonneg hpos]
    calc |q| * 10 ^ 27 ≤ 22 * 10 ^ 27 := mul_le_mul_of_nonneg_right h hpos
      _ ≤ 3 * 10 ^ 28 := by norm_num
  have hscale := ScaledRounding.le_finest hfits (show 27 ≤ 28 by norm_num)
  unfold ScaledRounding.toFinest ScaledRounding.atScale
  generalize ScaledRounding.finest (2 ^ 96) q 28 = s at hscale
  obtain ⟨hn₁, hn₂⟩ := ScaledRounding.halfEven_near (q * 10 ^ s)
  have hpow : (10 : ℚ) ^ 27 ≤ 10 ^ s := pow_le_pow_right₀ (by norm_num) hscale
  have hpos : (0 : ℚ) < 10 ^ s := by positivity
  have hdiff : ScaledRounding.halfEven (q * 10 ^ s) / 10 ^ s - q =
      (ScaledRounding.halfEven (q * 10 ^ s) - q * 10 ^ s) / 10 ^ s := by
    rw [sub_div, mul_div_cancel_right₀ q hpos.ne']
  rw [hdiff, abs_div, abs_of_pos hpos]
  calc |(ScaledRounding.halfEven (q * 10 ^ s) : ℚ) - q * 10 ^ s| / 10 ^ s
      ≤ 1 / 10 ^ s := by
        apply div_le_div_of_nonneg_right _ hpos.le
        rw [abs_le]
        constructor <;> linarith
    _ ≤ 1 / 10 ^ 27 := one_div_le_one_div_of_le (by positivity) hpow

noncomputable def nearestArithmetic : RateArithmetic where
  toDecimalRounding := halfEvenRounding
  inRange_of_le := inRange_of_small
  round_near := toFinest_near
  power := nearestPower
  power_near := fun base exp _ _ => nearestPower_near base exp
  power_places := fun _ _ => ⟨_, rfl⟩

namespace RateArithmetic
variable {A : RateArithmetic}

end RateArithmetic

namespace RateArithmetic
variable {A : RateArithmetic}

end RateArithmetic

namespace RateArithmetic
variable {A : RateArithmetic}

end RateArithmetic

end ShareTracker.MoneyWeighted
