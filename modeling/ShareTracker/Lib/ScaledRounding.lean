import Mathlib

/-!
# Half-even rounding to a bounded mantissa

A decimal number of bounded precision is an integer mantissa below a bound over
a power of ten. An exact result is rounded, halves to the even neighbour, at
the finest scale its mantissa still fits at.
-/
namespace ScaledRounding

/-- The nearest integer, a half going to the even one. -/
def halfEven (x : ℚ) : ℤ :=
  if Int.fract x < 1 / 2 then ⌊x⌋
  else if 1 / 2 < Int.fract x then ⌊x⌋ + 1
  else if ⌊x⌋ % 2 = 0 then ⌊x⌋ else ⌊x⌋ + 1

theorem floor_le_halfEven (x : ℚ) : ⌊x⌋ ≤ halfEven x := by
  unfold halfEven
  split_ifs <;> omega

theorem halfEven_le_floor_add_one (x : ℚ) : halfEven x ≤ ⌊x⌋ + 1 := by
  unfold halfEven
  split_ifs <;> omega

theorem halfEven_mono {x y : ℚ} (h : x ≤ y) : halfEven x ≤ halfEven y := by
  rcases (Int.floor_le_floor h).lt_or_eq with hlt | heq
  · calc halfEven x ≤ ⌊x⌋ + 1 := halfEven_le_floor_add_one x
      _ ≤ ⌊y⌋ := hlt
      _ ≤ halfEven y := floor_le_halfEven y
  · have hfract : Int.fract x ≤ Int.fract y := by
      rw [Int.fract, Int.fract, heq]
      linarith
    unfold halfEven
    rw [heq]
    split_ifs
    all_goals first
      | omega
      | linarith

theorem halfEven_intCast (n : ℤ) : halfEven n = n := by
  unfold halfEven
  rw [Int.fract_intCast, Int.floor_intCast]
  norm_num

/-- The rounded integer is within a half of the number, and even at a half. -/
theorem halfEven_eq {x : ℚ} {n : ℤ} (hlo : x - 1 / 2 ≤ n) (hhi : (n : ℚ) ≤ x + 1 / 2)
    (htie : x = n - 1 / 2 ∨ x = n + 1 / 2 → n % 2 = 0) : halfEven x = n := by
  have hfl := Int.floor_le x
  have hlt := Int.lt_floor_add_one x
  have hfr : Int.fract x = x - ⌊x⌋ := rfl
  have hn : n = ⌊x⌋ ∨ n = ⌊x⌋ + 1 := by
    have h1 : (⌊x⌋ : ℚ) < n + 1 := by linarith
    have h2 : (n : ℚ) < ⌊x⌋ + 2 := by linarith
    have h1' : ⌊x⌋ < n + 1 := by exact_mod_cast h1
    have h2' : n < ⌊x⌋ + 2 := by exact_mod_cast h2
    omega
  unfold halfEven
  rw [hfr]
  rcases hn with hn | hn
  · have hnq : (n : ℚ) = ⌊x⌋ := by exact_mod_cast hn
    split_ifs with h1 h2 h3
    · exact hn.symm
    · linarith
    · exact hn.symm
    · have heven := htie (Or.inr (by linarith))
      omega
  · have hnq : (n : ℚ) = ⌊x⌋ + 1 := by exact_mod_cast hn
    split_ifs with h1 h2 h3
    · linarith
    · exact hn.symm
    · have heven := htie (Or.inl (by linarith))
      omega
    · exact hn.symm

theorem halfEven_near (x : ℚ) : x - 1 / 2 ≤ halfEven x ∧ (halfEven x : ℚ) ≤ x + 1 / 2 := by
  have hfl := Int.floor_le x
  have hlt := Int.lt_floor_add_one x
  have hfr : Int.fract x = x - ⌊x⌋ := rfl
  unfold halfEven
  rw [hfr]
  split_ifs
  all_goals
    push_cast
    constructor <;> linarith

theorem halfEven_tie {x : ℚ} (h : x = halfEven x - 1 / 2 ∨ x = halfEven x + 1 / 2) :
    halfEven x % 2 = 0 := by
  have hfl := Int.floor_le x
  have hlt := Int.lt_floor_add_one x
  have hfr : Int.fract x = x - ⌊x⌋ := rfl
  revert h
  unfold halfEven
  rw [hfr]
  split_ifs with h1 h2 h3
  · rintro (h | h) <;> linarith
  · push_cast
    rintro (h | h) <;> linarith
  · intro _
    exact h3
  · intro _
    omega

theorem halfEven_neg (x : ℚ) : halfEven (-x) = -halfEven x := by
  obtain ⟨hlo, hhi⟩ := halfEven_near x
  refine halfEven_eq ?_ ?_ ?_
  · push_cast
    linarith
  · push_cast
    linarith
  · push_cast
    intro h
    have htie := halfEven_tie (x := x) (by rcases h with h | h <;> [right; left] <;> linarith)
    omega

theorem halfEven_nonneg {x : ℚ} (h : 0 ≤ x) : 0 ≤ halfEven x :=
  (Int.floor_nonneg.mpr h).trans (floor_le_halfEven x)

/-- The nearest number of `s` decimal places. -/
def atScale (s : ℕ) (x : ℚ) : ℚ := halfEven (x * 10 ^ s) / 10 ^ s

theorem atScale_mono (s : ℕ) {x y : ℚ} (h : x ≤ y) : atScale s x ≤ atScale s y := by
  have hs : (0 : ℚ) < 10 ^ s := by positivity
  have hmant : halfEven (x * 10 ^ s) ≤ halfEven (y * 10 ^ s) :=
    halfEven_mono (mul_le_mul_of_nonneg_right h hs.le)
  have hcast : (halfEven (x * 10 ^ s) : ℚ) ≤ halfEven (y * 10 ^ s) := by exact_mod_cast hmant
  exact div_le_div_of_nonneg_right hcast hs.le

theorem atScale_neg (s : ℕ) (x : ℚ) : atScale s (-x) = -atScale s x := by
  rw [atScale, neg_mul, halfEven_neg, Int.cast_neg, neg_div, atScale]

theorem atScale_nonneg (s : ℕ) {x : ℚ} (h : 0 ≤ x) : 0 ≤ atScale s x := by
  have hmant : (0 : ℚ) ≤ halfEven (x * 10 ^ s) := by
    exact_mod_cast halfEven_nonneg (mul_nonneg h (by positivity))
  exact div_nonneg hmant (by positivity)

theorem atScale_of_multiple {s t : ℕ} (h : s ≤ t) (m : ℤ) :
    atScale t ((m : ℚ) / 10 ^ s) = m / 10 ^ s := by
  have hs : (10 : ℚ) ^ s ≠ 0 := by positivity
  have hmant : (m : ℚ) / 10 ^ s * 10 ^ t = ((m * 10 ^ (t - s) : ℤ) : ℚ) := by
    rw [← Nat.sub_add_cancel h, pow_add]
    push_cast
    field_simp
    simp
  have ht : (10 : ℚ) ^ t ≠ 0 := by positivity
  rw [atScale, hmant, halfEven_intCast, ← hmant]
  exact mul_div_cancel_right₀ _ ht

variable (bound : ℕ)

def fits (s : ℕ) (x : ℚ) : Bool := (halfEven (x * 10 ^ s)).natAbs < bound

/-- The finest scale up to a limit that the number fits at. -/
def finest (x : ℚ) : ℕ → ℕ
  | 0 => 0
  | s + 1 => if fits bound (s + 1) x then s + 1 else finest x s

/-- Rounded to a mantissa below the bound at the finest scale up to `limit`. -/
def toFinest (limit : ℕ) (x : ℚ) : ℚ := atScale (finest bound x limit) x

variable {bound}

theorem finest_le (x : ℚ) (limit : ℕ) : finest bound x limit ≤ limit := by
  induction limit with
  | zero => exact le_rfl
  | succ s ih =>
    unfold finest
    split
    · exact le_rfl
    · exact ih.trans (Nat.le_succ s)

theorem le_finest {x : ℚ} {s limit : ℕ} (hfits : fits bound s x = true) (h : s ≤ limit) :
    s ≤ finest bound x limit := by
  induction limit with
  | zero => exact h
  | succ n ih =>
    unfold finest
    split
    · exact h
    · rename_i hn
      have hne : s ≠ n + 1 := by
        rintro rfl
        exact hn hfits
      exact ih (by omega)

theorem fits_finest {x : ℚ} {limit : ℕ} (h : 0 < finest bound x limit) :
    fits bound (finest bound x limit) x = true := by
  induction limit with
  | zero => exact absurd h (lt_irrefl 0)
  | succ n ih =>
    unfold finest at h ⊢
    split
    · assumption
    · rename_i hn
      rw [if_neg hn] at h
      exact ih h

/-- A number of bounded mantissa is kept. -/
theorem toFinest_of_multiple {s limit : ℕ} (hs : s ≤ limit) {m : ℤ} (hm : m.natAbs < bound) :
    toFinest bound limit ((m : ℚ) / 10 ^ s) = m / 10 ^ s := by
  have hten : (10 : ℚ) ^ s ≠ 0 := by positivity
  have hfits : fits bound s ((m : ℚ) / 10 ^ s) = true := by
    unfold fits
    rw [div_mul_cancel₀ _ hten, halfEven_intCast]
    exact decide_eq_true hm
  exact atScale_of_multiple (le_finest hfits hs) m

/-- Dropping decimal places never outgrows the bound. -/
theorem fits_zero_of_multiple {m : ℤ} (hm : m.natAbs < bound) (s : ℕ) :
    fits bound 0 ((m : ℚ) / 10 ^ s) = true := by
  have hten : (1 : ℚ) ≤ 10 ^ s := one_le_pow₀ (by norm_num)
  have habs : |(m : ℚ) / 10 ^ s| ≤ |(m : ℚ)| := by
    rw [abs_div, abs_of_pos (zero_lt_one.trans_le hten)]
    exact div_le_self (abs_nonneg _) hten
  have hup : halfEven ((m : ℚ) / 10 ^ s) ≤ |m| := by
    have h := halfEven_mono ((le_abs_self _).trans habs)
    rwa [← Int.cast_abs, halfEven_intCast] at h
  have hdown : -|m| ≤ halfEven ((m : ℚ) / 10 ^ s) := by
    have h := halfEven_mono ((neg_le_neg habs).trans (neg_abs_le _))
    rwa [← Int.cast_abs, halfEven_neg, halfEven_intCast] at h
  unfold fits
  rw [pow_zero, mul_one]
  refine decide_eq_true ?_
  rw [Int.abs_eq_natAbs] at hup hdown
  omega

theorem fits_neg (s : ℕ) (x : ℚ) : fits bound s (-x) = fits bound s x := by
  unfold fits
  rw [neg_mul, halfEven_neg, Int.natAbs_neg]

theorem toFinest_neg (limit : ℕ) (x : ℚ) :
    toFinest bound limit (-x) = -toFinest bound limit x := by
  have hfinest : finest bound (-x) limit = finest bound x limit := by
    induction limit with
    | zero => rfl
    | succ n ih =>
      unfold finest
      rw [fits_neg, ih]
  rw [toFinest, hfinest, atScale_neg, toFinest]

theorem finest_anti {x y : ℚ} (hx : 0 ≤ x) (h : x ≤ y) (limit : ℕ) :
    finest bound y limit ≤ finest bound x limit := by
  rcases Nat.eq_zero_or_pos (finest bound y limit) with h0 | hpos
  · omega
  · refine le_finest ?_ (finest_le y limit)
    have hfits := of_decide_eq_true (fits_finest hpos)
    have hten : (0 : ℚ) ≤ 10 ^ finest bound y limit := by positivity
    have hlo : 0 ≤ halfEven (x * 10 ^ finest bound y limit) :=
      halfEven_nonneg (mul_nonneg hx hten)
    have hle : halfEven (x * 10 ^ finest bound y limit) ≤ halfEven (y * 10 ^ finest bound y limit) :=
      halfEven_mono (mul_le_mul_of_nonneg_right h hten)
    refine decide_eq_true ?_
    omega

/-- What the coarser scale keeps of a mantissa that just outgrows the finer one. -/
def Coarsens (bound : ℕ) : Prop := (bound : ℤ) - 1 ≤ 10 * halfEven (((bound : ℚ) - 1 / 2) / 10)

instance (bound : ℕ) : Decidable (Coarsens bound) := inferInstanceAs (Decidable (_ ≤ _))

/-- A number that does not fit one scale finer is not rounded below the numbers that do. -/
theorem le_atScale_of_not_fits (hb : Coarsens bound) {y : ℚ} (hy : 0 ≤ y) {s : ℕ}
    (h : fits bound (s + 1) y = false) : ((bound : ℚ) - 1) / 10 ^ (s + 1) ≤ atScale s y := by
  have hten : (0 : ℚ) ≤ 10 ^ (s + 1) := by positivity
  have hbig := of_decide_eq_false h
  have hlo : 0 ≤ halfEven (y * 10 ^ (s + 1)) := halfEven_nonneg (mul_nonneg hy hten)
  have hbound : (bound : ℤ) ≤ halfEven (y * 10 ^ (s + 1)) := by omega
  have hcast : (bound : ℚ) ≤ halfEven (y * 10 ^ (s + 1)) := by exact_mod_cast hbound
  have hnear := (halfEven_near (y * 10 ^ (s + 1))).2
  have hstep : ((bound : ℚ) - 1 / 2) / 10 ≤ y * 10 ^ s := by
    rw [pow_succ] at hnear hcast
    linarith
  have hround : (halfEven (((bound : ℚ) - 1 / 2) / 10) : ℚ) ≤ halfEven (y * 10 ^ s) := by
    exact_mod_cast halfEven_mono hstep
  have hkeep : ((bound : ℚ) - 1) ≤ 10 * halfEven (((bound : ℚ) - 1 / 2) / 10) := by
    exact_mod_cast hb
  have hs : (0 : ℚ) < 10 ^ s := by positivity
  rw [atScale, pow_succ, div_le_div_iff₀ (by positivity) hs]
  nlinarith

theorem atScale_le_of_fits {x : ℚ} {s : ℕ} (h : fits bound s x = true) :
    atScale s x ≤ ((bound : ℚ) - 1) / 10 ^ s := by
  have hlt := of_decide_eq_true h
  have hle : halfEven (x * 10 ^ s) ≤ (bound : ℤ) - 1 := by omega
  have hcast : (halfEven (x * 10 ^ s) : ℚ) ≤ (bound : ℚ) - 1 := by exact_mod_cast hle
  exact div_le_div_of_nonneg_right hcast (by positivity)

theorem toFinest_mono_nonneg (hb : Coarsens bound) (hpos : 0 < bound) (limit : ℕ) {x y : ℚ}
    (hx : 0 ≤ x) (h : x ≤ y) : toFinest bound limit x ≤ toFinest bound limit y := by
  unfold toFinest
  have hanti : finest bound y limit ≤ finest bound x limit := finest_anti hx h limit
  rcases hanti.lt_or_eq with hlt | heq
  · have hfits : fits bound (finest bound x limit) x = true := fits_finest (by omega)
    have hnot : fits bound (finest bound y limit + 1) y = false := by
      by_contra hc
      have hle : finest bound x limit ≤ limit := finest_le x limit
      have hmore : finest bound y limit + 1 ≤ finest bound y limit :=
        le_finest (by simpa using hc) (by omega)
      omega
    have hscale : (10 : ℚ) ^ (finest bound y limit + 1) ≤ 10 ^ finest bound x limit :=
      pow_le_pow_right₀ (by norm_num) hlt
    have hb0 : (0 : ℚ) ≤ (bound : ℚ) - 1 := by
      have : (1 : ℚ) ≤ bound := by exact_mod_cast hpos
      linarith
    calc atScale (finest bound x limit) x
        ≤ ((bound : ℚ) - 1) / 10 ^ finest bound x limit := atScale_le_of_fits hfits
      _ ≤ ((bound : ℚ) - 1) / 10 ^ (finest bound y limit + 1) :=
          div_le_div_of_nonneg_left hb0 (by positivity) hscale
      _ ≤ atScale (finest bound y limit) y := le_atScale_of_not_fits hb (hx.trans h) hnot
  · rw [heq]
    exact atScale_mono _ h

theorem toFinest_mono (hb : Coarsens bound) (hpos : 0 < bound) (limit : ℕ) :
    Monotone (toFinest bound limit) := by
  intro x y h
  rcases le_total 0 x with hx | hx
  · exact toFinest_mono_nonneg hb hpos limit hx h
  · rcases le_total 0 y with hy | hy
    · have hneg : 0 ≤ toFinest bound limit (-x) := atScale_nonneg _ (neg_nonneg.mpr hx)
      rw [toFinest_neg] at hneg
      exact (neg_nonneg.mp hneg).trans (atScale_nonneg _ hy)
    · have hrev := toFinest_mono_nonneg hb hpos limit (neg_nonneg.mpr hy) (neg_le_neg h)
      rw [toFinest_neg, toFinest_neg] at hrev
      exact neg_le_neg_iff.mp hrev

end ScaledRounding
