import ShareTracker.Lib.Grid

/-! Presentation rounding of money. Decimal values are read as exact rationals;
the negative zero that the source normalises away does not exist here. -/
namespace ShareTracker

/-- The cent. -/
def cent : ℚ := 1 / 100

theorem cent_pos : 0 < cent := by norm_num [cent]

/-- Round half away from zero to the cent. -/
def toCents (value : ℚ) : ℚ := Grid.roundAway cent value

theorem toCents_on (x : ℚ) : Grid.On cent (toCents x) := Grid.roundAway_on cent x

theorem toCents_mono {x y : ℚ} (h : x ≤ y) : toCents x ≤ toCents y :=
  Grid.roundAway_mono cent_pos h

theorem toCents_nonneg {x : ℚ} (h : 0 ≤ x) : 0 ≤ toCents x := Grid.roundAway_nonneg cent_pos h

theorem toCents_of_on {x : ℚ} (h : Grid.On cent x) : toCents x = x :=
  Grid.roundAway_of_on cent_pos h

theorem toCents_near (x : ℚ) : |toCents x - x| ≤ cent / 2 := by
  have hpos : ∀ y : ℚ, 0 ≤ y → |toCents y - y| ≤ cent / 2 := by
    intro y hy
    have hle := Grid.roundAway_le cent_pos hy
    have hlt := Grid.lt_roundAway cent_pos hy
    rw [abs_le, toCents]
    constructor <;> linarith
  rcases le_total 0 x with hx | hx
  · exact hpos x hx
  · have hneg : toCents x = -toCents (-x) := by
      rw [toCents, toCents, Grid.roundAway_neg cent_pos, neg_neg]
    have hnear := hpos (-x) (neg_nonneg.mpr hx)
    rw [hneg, abs_sub_comm, ← abs_neg]
    rwa [show -(x - -toCents (-x)) = -(toCents (-x) - -x) by ring, abs_neg]

end ShareTracker
