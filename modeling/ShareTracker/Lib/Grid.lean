import Mathlib

/-!
# Rounding to the multiples of a step

A grid is the set of integer multiples of one positive step. The file has the
two roundings fixed-point ledgers use, down and to the nearest multiple with
halves away from zero, and the closure of a grid under exact arithmetic.
-/
namespace Grid

variable {α : Type*} [Field α]

/-- The multiples of a step. -/
def On (step x : α) : Prop := ∃ k : ℤ, x = k * step

theorem On.zero (step : α) : On step 0 := ⟨0, by simp⟩

theorem On.multiple (step : α) (k : ℤ) : On step (k * step) := ⟨k, rfl⟩

theorem On.add {step x y : α} (hx : On step x) (hy : On step y) : On step (x + y) := by
  obtain ⟨k, rfl⟩ := hx
  obtain ⟨m, rfl⟩ := hy
  exact ⟨k + m, by push_cast; ring⟩

theorem On.neg {step x : α} (hx : On step x) : On step (-x) := by
  obtain ⟨k, rfl⟩ := hx
  exact ⟨-k, by push_cast; ring⟩

theorem On.sub {step x y : α} (hx : On step x) (hy : On step y) : On step (x - y) := by
  rw [sub_eq_add_neg]
  exact hx.add hy.neg

theorem On.sum {step : α} {xs : List α} (h : ∀ x ∈ xs, On step x) : On step xs.sum := by
  induction xs with
  | nil => exact On.zero step
  | cons x xs ih =>
    rw [List.sum_cons]
    exact (h x (by simp)).add (ih fun y hy => h y (List.mem_cons_of_mem x hy))

variable [LinearOrder α]

theorem On.min {step x y : α} (hx : On step x) (hy : On step y) : On step (min x y) := by
  rcases min_choice x y with h | h
  · rw [h]; exact hx
  · rw [h]; exact hy

theorem On.max {step x y : α} (hx : On step x) (hy : On step y) : On step (max x y) := by
  rcases max_choice x y with h | h
  · rw [h]; exact hx
  · rw [h]; exact hy

variable [FloorRing α]

/-- The greatest grid value not above `x`. -/
def floorOn (step x : α) : α := ⌊x / step⌋ * step

/-- The least grid value not below `x`. -/
def ceilOn (step x : α) : α := ⌈x / step⌉ * step

/-- The grid value next to `x` on the side of zero. -/
def truncOn (step x : α) : α := if 0 ≤ x then floorOn step x else ceilOn step x

/-- The nearest grid value, halves away from zero. -/
def roundAway (step x : α) : α :=
  if 0 ≤ x then ⌊x / step + 1 / 2⌋ * step else -(⌊-x / step + 1 / 2⌋ * step)

theorem floorOn_on (step x : α) : On step (floorOn step x) := ⟨_, rfl⟩

theorem ceilOn_on (step x : α) : On step (ceilOn step x) := ⟨_, rfl⟩

theorem truncOn_on (step x : α) : On step (truncOn step x) := by
  unfold truncOn
  split
  · exact floorOn_on step x
  · exact ceilOn_on step x

theorem roundAway_on (step x : α) : On step (roundAway step x) := by
  unfold roundAway
  split
  · exact ⟨_, rfl⟩
  · exact On.neg ⟨_, rfl⟩

variable [IsStrictOrderedRing α]

/-- Two grid values less than a step apart are equal. -/
theorem On.eq_of_near {step x y : α} (hs : 0 < step) (hx : On step x) (hy : On step y)
    (hxy : x < y + step) (hyx : y < x + step) : x = y := by
  obtain ⟨k, rfl⟩ := hx
  obtain ⟨m, rfl⟩ := hy
  have hkm : (k : α) < m + 1 := by nlinarith
  have hmk : (m : α) < k + 1 := by nlinarith
  have h1 : k < m + 1 := by exact_mod_cast hkm
  have h2 : m < k + 1 := by exact_mod_cast hmk
  have he : k = m := by omega
  rw [he]

/-- A grid value strictly above another is at least one step above it. -/
theorem On.step_le {step x y : α} (hs : 0 < step) (hx : On step x) (hy : On step y)
    (hxy : x < y) : x + step ≤ y := by
  obtain ⟨k, rfl⟩ := hx
  obtain ⟨m, rfl⟩ := hy
  have hkm : k < m := by
    have : (k : α) < m := lt_of_mul_lt_mul_right hxy hs.le
    exact_mod_cast this
  have hm : (k : α) + 1 ≤ m := by exact_mod_cast hkm
  nlinarith

theorem floorOn_le {step : α} (hs : 0 < step) (x : α) : floorOn step x ≤ x :=
  (le_div_iff₀ hs).mp (Int.floor_le (x / step))

theorem lt_floorOn_add {step : α} (hs : 0 < step) (x : α) : x < floorOn step x + step := by
  have h := (div_lt_iff₀ hs).mp (Int.lt_floor_add_one (x / step))
  simpa only [floorOn, add_mul, one_mul] using h

theorem le_ceilOn {step : α} (hs : 0 < step) (x : α) : x ≤ ceilOn step x :=
  (div_le_iff₀ hs).mp (Int.le_ceil (x / step))

theorem ceilOn_lt_add {step : α} (hs : 0 < step) (x : α) : ceilOn step x < x + step := by
  have h : (⌈x / step⌉ : α) < x / step + 1 := Int.ceil_lt_add_one (x / step)
  have hm := mul_lt_mul_of_pos_right h hs
  rwa [add_mul, one_mul, div_mul_cancel₀ _ hs.ne'] at hm

theorem floorOn_of_on {step x : α} (hs : 0 < step) (hx : On step x) : floorOn step x = x :=
  (floorOn_on step x).eq_of_near hs hx
    (lt_of_le_of_lt (floorOn_le hs x) (lt_add_of_pos_right x hs)) (lt_floorOn_add hs x)

theorem on_iff_floorOn_eq {step x : α} (hs : 0 < step) : On step x ↔ floorOn step x = x :=
  ⟨floorOn_of_on hs, fun h => h ▸ floorOn_on step x⟩

theorem ceilOn_of_on {step x : α} (hs : 0 < step) (hx : On step x) : ceilOn step x = x :=
  (ceilOn_on step x).eq_of_near hs hx (ceilOn_lt_add hs x)
    (lt_of_le_of_lt (le_ceilOn hs x) (lt_add_of_pos_right _ hs))

/-- Off the grid the ceiling is the next step up from the floor. -/
theorem ceilOn_of_not_on {step x : α} (hs : 0 < step) (hx : ¬ On step x) :
    ceilOn step x = floorOn step x + step := by
  have hne : floorOn step x ≠ x := fun h => hx ((on_iff_floorOn_eq hs).mpr h)
  have hlt : floorOn step x < x := lt_of_le_of_ne (floorOn_le hs x) hne
  refine (ceilOn_on step x).eq_of_near hs ((floorOn_on step x).add ⟨1, by simp⟩) ?_ ?_
  · have h1 := ceilOn_lt_add hs x
    have h2 := lt_floorOn_add hs x
    linarith
  · have := (floorOn_on step x).step_le hs (ceilOn_on step x)
      (lt_of_lt_of_le hlt (le_ceilOn hs x))
    linarith

theorem floorOn_nonneg {step x : α} (hs : 0 < step) (hx : 0 ≤ x) : 0 ≤ floorOn step x := by
  have h : 0 ≤ ⌊x / step⌋ := Int.floor_nonneg.mpr (div_nonneg hx hs.le)
  exact mul_nonneg (by exact_mod_cast h) hs.le

theorem floorOn_mono {step x y : α} (hs : 0 < step) (h : x ≤ y) :
    floorOn step x ≤ floorOn step y := by
  have hf : ⌊x / step⌋ ≤ ⌊y / step⌋ := Int.floor_mono (div_le_div_of_nonneg_right h hs.le)
  exact mul_le_mul_of_nonneg_right (by exact_mod_cast hf) hs.le

/-- The floor is the largest grid value not above its argument. -/
theorem le_floorOn {step x g : α} (hs : 0 < step) (hg : On step g) (h : g ≤ x) :
    g ≤ floorOn step x := by
  rw [← floorOn_of_on hs hg]
  exact floorOn_mono hs h

/-- The ceiling is the least grid value not below its argument. -/
theorem ceilOn_le {step x g : α} (hs : 0 < step) (hg : On step g) (h : x ≤ g) :
    ceilOn step x ≤ g := by
  by_contra hcon
  have h1 := hg.step_le hs (ceilOn_on step x) (not_le.mp hcon)
  have h2 := ceilOn_lt_add hs x
  linarith

theorem floorOn_le_ceilOn {step : α} (hs : 0 < step) (x : α) : floorOn step x ≤ ceilOn step x :=
  (floorOn_le hs x).trans (le_ceilOn hs x)

theorem roundAway_eq_floorOn {step x : α} (hs : 0 < step) (h : 0 ≤ x) :
    roundAway step x = floorOn step (x + step / 2) := by
  have he : x / step + 1 / 2 = (x + step / 2) / step := by
    have := hs.ne'
    field_simp
  rw [roundAway, if_pos h, floorOn, he]

theorem roundAway_neg {step x : α} (hs : 0 < step) : roundAway step (-x) = -roundAway step x := by
  rcases lt_trichotomy x 0 with h | rfl | h
  · rw [roundAway, roundAway, if_pos (by linarith), if_neg (by linarith), neg_neg]
  · have h0 : roundAway step (0 : α) = 0 := by
      rw [roundAway_eq_floorOn hs le_rfl, zero_add]
      refine (floorOn_on _ _).eq_of_near hs (On.zero step) ?_ ?_
      · have := floorOn_le hs (step / 2); linarith
      · have := lt_floorOn_add hs (step / 2); linarith
    rw [neg_zero, h0, neg_zero]
  · rw [roundAway, roundAway, if_neg (by linarith), if_pos h.le, neg_neg]

theorem roundAway_mono {step x y : α} (hs : 0 < step) (h : x ≤ y) :
    roundAway step x ≤ roundAway step y := by
  have hpos : ∀ {u : α}, 0 ≤ u → 0 ≤ roundAway step u := by
    intro u hu
    rw [roundAway_eq_floorOn hs hu]
    exact floorOn_nonneg hs (by linarith)
  have hup : ∀ {u v : α}, 0 ≤ u → u ≤ v → roundAway step u ≤ roundAway step v := by
    intro u v hu huv
    rw [roundAway_eq_floorOn hs hu, roundAway_eq_floorOn hs (hu.trans huv)]
    exact floorOn_mono hs (by linarith)
  rcases le_total 0 x with hx | hx
  · exact hup hx h
  · have hx' : roundAway step x = -roundAway step (-x) := by rw [roundAway_neg hs, neg_neg]
    rcases le_total 0 y with hy | hy
    · have h1 := hpos hy
      have h2 := hpos (show 0 ≤ -x by linarith)
      linarith
    · have hy' : roundAway step y = -roundAway step (-y) := by rw [roundAway_neg hs, neg_neg]
      have := hup (show 0 ≤ -y by linarith) (show -y ≤ -x by linarith)
      linarith

theorem roundAway_nonneg {step x : α} (hs : 0 < step) (h : 0 ≤ x) : 0 ≤ roundAway step x := by
  rw [roundAway_eq_floorOn hs h]
  exact floorOn_nonneg hs (by linarith)

theorem roundAway_le {step x : α} (hs : 0 < step) (h : 0 ≤ x) :
    roundAway step x ≤ x + step / 2 := by
  rw [roundAway_eq_floorOn hs h]
  exact floorOn_le hs _

theorem lt_roundAway {step x : α} (hs : 0 < step) (h : 0 ≤ x) :
    x - step / 2 < roundAway step x := by
  rw [roundAway_eq_floorOn hs h]
  have := lt_floorOn_add hs (x + step / 2)
  linarith

theorem roundAway_of_on {step x : α} (hs : 0 < step) (hx : On step x) : roundAway step x = x := by
  rcases le_total 0 x with h | h
  · refine (roundAway_on step x).eq_of_near hs hx ?_ ?_
    · have := roundAway_le hs h; linarith
    · have := lt_roundAway hs h; linarith
  · have hn := neg_nonneg.mpr h
    have he : roundAway step x = -roundAway step (-x) := by rw [roundAway_neg hs, neg_neg]
    refine (roundAway_on step x).eq_of_near hs hx ?_ ?_
    · have := lt_roundAway hs hn; linarith
    · have := roundAway_le hs hn; linarith

end Grid
