import ShareTracker.MulDiv

/-!
A whole split in two. The share is brought to the places the whole can be carried
at, so that the two parts add back to it; they are parts of it where no rounding on
the way can carry the share half a step above the whole.
-/
namespace ShareTracker.Apportionment
open RangeGuard (Failure)
open MulDiv (Caps Under le_round_of_under)
open ScaledRounding

/-- The decimal digits of a figure's mantissa. -/
def digits (d : Decimal) : ℕ := Nat.log 10 d.mantissa.natAbs + 1

/-- The places a figure can be carried at: never fewer than its own. -/
def places (whole : Decimal) : ℕ := max (28 - (digits whole - whole.scale)) whole.scale

structure Apportioned where
  share : ℚ
  rest : ℚ

def apportion (D : DecimalRounding) (whole num den : Decimal) : Attempt Failure Apportioned := do
  let share := atScale (places whole) (← MulDiv.mulDiv D [whole, num] den)
  return ⟨share, ← D.op (whole.value - share)⟩

/-! ### The steps of a whole -/

/-- The whole, in steps of its places. -/
def steps (whole : Decimal) : ℤ := whole.mantissa * 10 ^ (places whole - whole.scale)

theorem scale_le_places (whole : Decimal) : whole.scale ≤ places whole := le_max_right _ _

theorem places_le (whole : Decimal) : places whole ≤ 28 := max_le (Nat.sub_le _ _) whole.scale_le

theorem value_steps (whole : Decimal) : whole.value = steps whole / 10 ^ places whole := by
  rw [Decimal.value, rescaled _ _ (places whole - whole.scale),
    Nat.add_sub_cancel' (scale_le_places whole), steps]

/-- At its places the whole is still a figure. -/
theorem steps_lt (whole : Decimal) : (steps whole).natAbs < 2 ^ 96 := by
  rw [steps, Int.natAbs_mul, Int.natAbs_pow]
  rcases (scale_le_places whole).eq_or_lt with hsame | hlt
  · rw [← hsame, Nat.sub_self, pow_zero, mul_one]
    exact whole.mantissa_lt
  · have hplaces : places whole = 28 - (digits whole - whole.scale) := by
      unfold places at hlt ⊢
      omega
    have hpow : whole.mantissa.natAbs < 10 ^ digits whole := Nat.lt_pow_succ_log_self (by norm_num) _
    have hdigits : digits whole + (places whole - whole.scale) ≤ 28 := by
      omega
    calc whole.mantissa.natAbs * 10 ^ (places whole - whole.scale)
        < 10 ^ digits whole * 10 ^ (places whole - whole.scale) :=
          Nat.mul_lt_mul_of_pos_right hpow (by positivity)
      _ = 10 ^ (digits whole + (places whole - whole.scale)) := (pow_add _ _ _).symm
      _ ≤ 10 ^ 28 := Nat.pow_le_pow_right (by norm_num) hdigits
      _ < 2 ^ 96 := by norm_num

/-- Any number of steps up to the whole's is a figure. -/
theorem holds_steps {whole : Decimal} {m : ℤ} (h0 : 0 ≤ m) (hle : m ≤ steps whole) :
    holds ((m : ℚ) / 10 ^ places whole) = true := by
  have hlt := steps_lt whole
  exact holds_of_scaled rfl (places_le whole) (by omega)

/-- The nearest step is no further than the whole. -/
theorem halfEven_le_iff {x : ℚ} {n : ℤ} :
    halfEven x ≤ n ↔ x < n + 1 / 2 ∨ (x = n + 1 / 2 ∧ n % 2 = 0) := by
  obtain ⟨hlo, hhi⟩ := halfEven_near x
  constructor
  · intro h
    have hn : (halfEven x : ℚ) ≤ n := by exact_mod_cast h
    rcases lt_or_ge x (n + 1 / 2) with hlt | hge
    · exact .inl hlt
    · have hx : x = n + 1 / 2 := le_antisymm (by linarith) hge
      have heq : halfEven x = n := le_antisymm h (by
        have hle : (n : ℚ) ≤ halfEven x := by linarith
        exact_mod_cast hle)
      exact .inr ⟨hx, heq ▸ halfEven_tie (.inr (by rw [heq]; exact hx))⟩
  · rintro (hlt | ⟨rfl, heven⟩)
    · have hn : (halfEven x : ℚ) < n + 1 := by linarith
      have hn' : halfEven x < n + 1 := by exact_mod_cast hn
      omega
    · exact (halfEven_eq (by linarith) (by linarith) fun _ => heven).le

/-! ### The figure the share is worked out to -/

section Share
variable (D : FigureRounding)

/-- The stored product over the denominator, or the stored quotient multiplied
where the product is out of range: what is rounded last. -/
def working (whole num den : Decimal) : ℚ :=
  if D.inRange (whole.value * num.value) = true then D.round (whole.value * num.value) / den.value
  else D.round (whole.value / den.value) * num.value

/-- It is in range, and rounds to less than half a step above the whole, or to
just half a step above an even one. -/
def ComesBack (whole num den : Decimal) : Prop :=
  D.inRange (working D whole num den) = true ∧
    (D.round (working D whole num den) * 10 ^ places whole < steps whole + 1 / 2 ∨
      (D.round (working D whole num den) * 10 ^ places whole = steps whole + 1 / 2 ∧
        steps whole % 2 = 0))

/-- No figure above the product and the quotient is over half a step above the whole.
The product is the whole's with the numerator, over the denominator; where it is
out of range, the numerator's with the whole over the denominator. -/
def FiguresComeBack (inRange : ℚ → Bool) (whole num den : Decimal) : Prop :=
  ∃ figure share, halfEven (share * 10 ^ places whole) ≤ steps whole ∧
    (if inRange (whole.value * num.value) = true then
      Caps inRange (whole.value * num.value) figure ∧ Caps inRange (figure / den.value) share
    else Caps inRange (whole.value / den.value) figure ∧ Caps inRange (figure * num.value) share)

/-- Figures below them already are. -/
def FiguresOvershoot (inRange : ℚ → Bool) (whole num den : Decimal) : Prop :=
  ∃ figure share, steps whole < halfEven (share * 10 ^ places whole) ∧
    (if inRange (whole.value * num.value) = true then
      Under (whole.value * num.value) figure ∧ Under (figure / den.value) share
    else Under (whole.value / den.value) figure ∧ Under (figure * num.value) share)

/-- The two parts are parts of the whole and add back to it. -/
def AddsBack (whole num den : Decimal) : Prop :=
  ∃ parts, (apportion D.toDecimalRounding whole num den).answer = .ok parts ∧
    (D.op (parts.share + parts.rest) : Attempt Failure ℚ).answer = .ok whole.value ∧
    0 ≤ parts.share ∧ parts.share ≤ whole.value ∧ 0 ≤ parts.rest ∧ parts.rest ≤ whole.value

variable {D} {whole num den : Decimal}

theorem mulDiv_answer (hwhole : 0 ≤ whole.value) (hnum : 0 ≤ num.value) (hle : num.value ≤ den.value)
    (hden : den.value ≠ 0) (r : ℚ) :
    (MulDiv.mulDiv D.toDecimalRounding [whole, num] den).answer = .ok r ↔
      D.inRange (working D whole num den) = true ∧ r = D.round (working D whole num den) := by
  have hpos : 0 < den.value := lt_of_le_of_ne (hnum.trans hle) (Ne.symm hden)
  rw [MulDiv.mulDiv_pair, working]
  cases hrange : D.inRange (whole.value * num.value) with
  | true =>
    rw [if_pos rfl]
    constructor
    · rintro ⟨product, hproduct, h⟩
      rw [DecimalRounding.checked, if_pos hrange] at hproduct
      obtain rfl := Except.ok.inj hproduct
      exact (MulDiv.divide_answer hden).mp h
    · intro h
      refine ⟨some (D.round (whole.value * num.value)), ?_, (MulDiv.divide_answer hden).mpr h⟩
      rw [DecimalRounding.checked, if_pos hrange]
  | false =>
    rw [if_neg Bool.false_ne_true]
    have hnot : ¬ D.inRange (whole.value * num.value) = true := by
      rw [hrange]
      exact Bool.false_ne_true
    -- a product out of range is of a numerator above one
    have hone : 1 ≤ num.value := by
      by_contra hlt
      refine hnot (D.inRange_le _ _ (mul_nonneg hwhole hnum) ?_ (D.inRange_value whole))
      exact mul_le_of_le_one_right hwhole (not_le.mp hlt).le
    have hquotient : D.inRange (whole.value / den.value) = true :=
      D.inRange_le _ _ (div_nonneg hwhole hpos.le) (div_le_self hwhole (hone.trans hle))
        (D.inRange_value whole)
    constructor
    · rintro ⟨product, hproduct, h⟩
      rw [DecimalRounding.checked, if_neg hnot] at hproduct
      obtain rfl := Except.ok.inj hproduct
      obtain ⟨quotient, hq, h⟩ := h
      obtain ⟨-, rfl⟩ := (MulDiv.divide_answer hden).mp hq
      exact MulDiv.op_answer.mp h
    · intro h
      refine ⟨none, ?_, D.round (whole.value / den.value),
        (MulDiv.divide_answer hden).mpr ⟨hquotient, rfl⟩, MulDiv.op_answer.mpr h⟩
      rw [DecimalRounding.checked, if_neg hnot]

theorem working_nonneg (hwhole : 0 ≤ whole.value) (hnum : 0 ≤ num.value) (hle : num.value ≤ den.value) :
    0 ≤ working D whole num den := by
  rw [working]
  split
  · exact div_nonneg (D.round_nonneg (mul_nonneg hwhole hnum)) (hnum.trans hle)
  · exact mul_nonneg (D.round_nonneg (div_nonneg hwhole (hnum.trans hle))) hnum

/-- The share and the rest add back to the whole exactly where the share comes
back to it. -/
theorem addsBack_iff_comesBack (D : FigureRounding) (whole num den : Decimal)
    (hwhole : 0 ≤ whole.value) (hnum : 0 ≤ num.value) (hle : num.value ≤ den.value)
    (hden : den.value ≠ 0) : AddsBack D whole num den ↔ ComesBack D whole num den := by
  have hten : (0 : ℚ) < 10 ^ places whole := by positivity
  have hanswer := mulDiv_answer (D := D) hwhole hnum hle hden
  rw [ComesBack, ← halfEven_le_iff]
  constructor
  · rintro ⟨parts, hparts, -, -, hshare, -⟩
    obtain ⟨s, hs, hparts⟩ := answer_bind.mp hparts
    obtain ⟨hrange, rfl⟩ := (hanswer s).mp hs
    obtain ⟨rest, -, hparts⟩ := answer_bind.mp hparts
    obtain rfl := answer_pure.mp hparts
    refine ⟨hrange, ?_⟩
    rw [value_steps whole, atScale, div_le_div_iff_of_pos_right hten] at hshare
    exact_mod_cast hshare
  · rintro ⟨hrange, hsteps⟩
    let n := halfEven (D.round (working D whole num den) * 10 ^ places whole)
    have hn : 0 ≤ n := halfEven_nonneg
      (mul_nonneg (D.round_nonneg (working_nonneg hwhole hnum hle)) hten.le)
    have hrest : whole.value - (n : ℚ) / 10 ^ places whole =
        ((steps whole - n : ℤ) : ℚ) / 10 ^ places whole := by
      rw [value_steps whole, scaled_sub]
    have hholds : holds (whole.value - (n : ℚ) / 10 ^ places whole) = true := by
      rw [hrest]
      exact holds_steps (by omega) (by omega)
    have hrest0 : 0 ≤ whole.value - (n : ℚ) / 10 ^ places whole := by
      rw [hrest]
      exact div_nonneg (by exact_mod_cast (by omega : 0 ≤ steps whole - n)) hten.le
    have hshare0 : (0 : ℚ) ≤ (n : ℚ) / 10 ^ places whole := div_nonneg (by exact_mod_cast hn) hten.le
    refine ⟨⟨(n : ℚ) / 10 ^ places whole, whole.value - (n : ℚ) / 10 ^ places whole⟩, ?_, ?_, hshare0,
      by linarith, hrest0, by linarith⟩
    · refine answer_bind.mpr ⟨_, (hanswer _).mpr ⟨hrange, rfl⟩, ?_⟩
      exact answer_bind.mpr ⟨_, (DecimalRounding.yields_op hholds).1, rfl⟩
    · rw [add_sub_cancel]
      exact (DecimalRounding.yields_op (holds_iff.mpr ⟨whole, rfl⟩)).1

end Share

section Figures
variable {D : SignedRounding} {whole num den : Decimal}

theorem comesBack_of_figures (hwhole : 0 ≤ whole.value) (hnum : 0 ≤ num.value)
    (hle : num.value ≤ den.value) (hpos : 0 < den.value) (h : FiguresComeBack D.inRange whole num den) :
    ComesBack D.toFigureRounding whole num den := by
  obtain ⟨figure, share, hshare, hfigures⟩ := h
  have hcaps : ∃ result, working D.toFigureRounding whole num den ≤ result ∧
      Caps D.inRange result share := by
    rw [working]
    split at hfigures
    · rename_i hrange
      rw [if_pos hrange]
      exact ⟨_, div_le_div_of_nonneg_right
        (hfigures.1.round_nonneg (mul_nonneg hwhole hnum) le_rfl).2 hpos.le, hfigures.2⟩
    · rename_i hrange
      rw [if_neg hrange]
      exact ⟨_, mul_le_mul_of_nonneg_right
        (hfigures.1.round_nonneg (div_nonneg hwhole hpos.le) le_rfl).2 hnum, hfigures.2⟩
  obtain ⟨result, hworking, hcaps⟩ := hcaps
  obtain ⟨hrange, hround⟩ := hcaps.round_nonneg (working_nonneg hwhole hnum hle) hworking
  have hten : (0 : ℚ) ≤ 10 ^ places whole := by positivity
  exact ⟨hrange, halfEven_le_iff.mp
    ((halfEven_mono (mul_le_mul_of_nonneg_right hround hten)).trans hshare)⟩

theorem not_comesBack_of_figures (hnum : 0 ≤ num.value) (hpos : 0 < den.value)
    (h : FiguresOvershoot D.inRange whole num den) :
    ¬ ComesBack D.toFigureRounding whole num den := by
  obtain ⟨figure, share, hshare, hfigures⟩ := h
  have hunder : share ≤ D.round (working D.toFigureRounding whole num den) := by
    rw [working]
    split at hfigures
    · rename_i hrange
      rw [if_pos hrange]
      exact le_round_of_under hfigures.2
        (div_le_div_of_nonneg_right (le_round_of_under hfigures.1 le_rfl) hpos.le)
    · rename_i hrange
      rw [if_neg hrange]
      exact le_round_of_under hfigures.2
        (mul_le_mul_of_nonneg_right (le_round_of_under hfigures.1 le_rfl) hnum)
  have hten : (0 : ℚ) ≤ 10 ^ places whole := by positivity
  rintro ⟨-, hcomes⟩
  have hmono := halfEven_mono (mul_le_mul_of_nonneg_right hunder hten)
  exact absurd (halfEven_le_iff.mpr hcomes) (not_le.mpr (hshare.trans_le hmono))

end Figures

/-- The two parts add back to the whole where the figures above the share come back to
it, and do not where figures below the share are past it. -/
theorem apportion_addsBack_of_figures (D : SignedRounding) (whole num den : Decimal)
    (hwhole : 0 ≤ whole.value) (hnum : 0 ≤ num.value) (hle : num.value ≤ den.value)
    (hden : den.value ≠ 0) :
    (FiguresComeBack D.inRange whole num den → AddsBack D.toFigureRounding whole num den) ∧
      (FiguresOvershoot D.inRange whole num den → ¬ AddsBack D.toFigureRounding whole num den) := by
  have hpos : 0 < den.value := lt_of_le_of_ne (hnum.trans hle) (Ne.symm hden)
  rw [addsBack_iff_comesBack D.toFigureRounding whole num den hwhole hnum hle hden]
  exact ⟨comesBack_of_figures hwhole hnum hle hpos, not_comesBack_of_figures hnum hpos⟩

/-! ### A whole of fifteen -/

theorem fifteen_mantissa_lt : (15 : ℤ).natAbs < 2 ^ 96 := by decide

theorem largest_mantissa_lt : (2 ^ 96 - 1 : ℤ).natAbs < 2 ^ 96 := by decide

def fifteen : Decimal := ⟨15, 0, fifteen_mantissa_lt, Decimal.no_scale_le⟩

def largest : Decimal := ⟨2 ^ 96 - 1, 0, largest_mantissa_lt, Decimal.no_scale_le⟩

theorem fifteen_value : fifteen.value = 15 := by simp [fifteen, Decimal.value]

theorem fifteen_places : places fifteen = 26 := by
  have hlog : Nat.log 10 15 = 1 := by norm_num
  simp [places, digits, fifteen, hlog]

theorem apportion_addsBack_of_figures_fifteen :
    (FiguresComeBack halfEvenSigned.inRange fifteen fifteen fifteen →
        AddsBack halfEvenFigures fifteen fifteen fifteen) ∧
      (FiguresOvershoot halfEvenSigned.inRange fifteen fifteen fifteen →
        ¬ AddsBack halfEvenFigures fifteen fifteen fifteen) := by
  have h : (0 : ℚ) ≤ fifteen.value := by norm_num [fifteen_value]
  exact apportion_addsBack_of_figures halfEvenSigned fifteen fifteen fifteen h h le_rfl
    (by norm_num [fifteen_value])

/-- A whole over a denominator past 28 places is rounded up by a twentieth. -/
theorem share_exceeds_the_whole :
    ¬ ∀ whole num den : Decimal, 0 ≤ whole.value → 0 ≤ num.value → num.value ≤ den.value →
      den.value ≠ 0 → AddsBack halfEvenFigures whole num den := by
  intro h
  have hlargest : (0 : ℚ) < largest.value := by norm_num [largest, Decimal.value]
  obtain ⟨parts, hparts, -, -, hshare, -⟩ := h fifteen largest largest (by norm_num [fifteen_value])
    hlargest.le le_rfl hlargest.ne'
  obtain ⟨s, hs, hparts⟩ := answer_bind.mp hparts
  obtain ⟨rest, -, hparts⟩ := answer_bind.mp hparts
  obtain rfl := answer_pure.mp hparts
  have heval : (MulDiv.mulDiv halfEvenFigures.toDecimalRounding [fifteen, largest] largest).answer =
      .ok (15845632502852867518708790067 / 10 ^ 27) := by decide +kernel
  obtain rfl := Except.ok.inj (hs.symm.trans heval)
  rw [fifteen_value, fifteen_places] at hshare
  have habove : (15 : ℚ) < atScale 26 (15845632502852867518708790067 / 10 ^ 27) := by decide +kernel
  exact absurd hshare (not_le.mpr habove)

end ShareTracker.Apportionment
