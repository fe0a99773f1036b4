import ShareTracker.Lib.Attempt
import ShareTracker.Lib.ScaledRounding

/-!
Decimal arithmetic with its rounding: what the walks over unit counts are
computed in. Money is read as exact rationals elsewhere; here an operation
answers a rounded figure, and says whether it rounded.
-/
namespace ShareTracker
export Attempt (yields_pure yields_bind yields_refuseIf answer_pure answer_bind answer_bind_of)

/-- A stored figure: 96 bits of mantissa over a power of ten. -/
structure Decimal where
  mantissa : ℤ
  scale : ℕ
  mantissa_lt : mantissa.natAbs < 2 ^ 96
  scale_le : scale ≤ 28
  deriving DecidableEq

namespace Decimal

def value (d : Decimal) : ℚ := d.mantissa / 10 ^ d.scale

theorem one_mantissa_lt : (1 : ℤ).natAbs < 2 ^ 96 := by decide

theorem no_scale_le : 0 ≤ 28 := by decide

def zero : Decimal := ⟨0, 0, by norm_num, by norm_num⟩

/-- `Decimal::new`; figures past the limits are read as zero. -/
def new (mantissa : ℤ) (scale : ℕ) : Decimal :=
  if h : mantissa.natAbs < 2 ^ 96 ∧ scale ≤ 28 then ⟨mantissa, scale, h.1, h.2⟩ else zero

@[simp] theorem zero_value : zero.value = 0 := by simp [value, zero]

end Decimal

/-- Whether `q` is a figure a `Decimal` states exactly. -/
def holds (q : ℚ) : Bool :=
  (List.range 29).any fun scale =>
    (q * 10 ^ scale).den = 1 && (q * 10 ^ scale).num.natAbs < 2 ^ 96

theorem holds_iff {q : ℚ} : holds q = true ↔ ∃ d : Decimal, d.value = q := by
  unfold holds
  simp only [List.any_eq_true, List.mem_range, Bool.and_eq_true, decide_eq_true_eq]
  constructor
  · rintro ⟨scale, hscale, hden, hnum⟩
    have hten : (10 : ℚ) ^ scale ≠ 0 := by positivity
    refine ⟨⟨(q * 10 ^ scale).num, scale, hnum, by omega⟩, ?_⟩
    rw [Decimal.value, Rat.coe_int_num_of_den_eq_one hden]
    exact mul_div_cancel_right₀ q hten
  · rintro ⟨d, rfl⟩
    have hten : (10 : ℚ) ^ d.scale ≠ 0 := by positivity
    have hmantissa : d.value * 10 ^ d.scale = d.mantissa := div_mul_cancel₀ _ hten
    refine ⟨d.scale, by have := d.scale_le; omega, ?_, ?_⟩
    · rw [hmantissa, Rat.den_intCast]
    · rw [hmantissa, Rat.num_intCast]
      exact d.mantissa_lt

/-- An arithmetic failure the source panics on. -/
class Panics (ε : Type) where
  overflow : ε

/-- What is relied on of the decimal library: an exact result past 96 bits is
rounded, never out of order, and a result a `Decimal` states is kept. -/
structure DecimalRounding where
  round : ℚ → ℚ
  inRange : ℚ → Bool
  round_mono : Monotone round
  round_value : ∀ d : Decimal, round d.value = d.value
  inRange_value : ∀ d : Decimal, inRange d.value = true

namespace DecimalRounding

variable {ε : Type} [Panics ε] (D : DecimalRounding)

/-- The operators `+ - * /`, given the exact result. -/
def op (result : ℚ) : Attempt ε ℚ :=
  if D.inRange result then ⟨.ok (D.round result), holds result⟩ else .refuse Panics.overflow

/-- The `checked_` operations; out of range counts as rounding, since every
caller then falls back to rounded figures. -/
def checked (result : ℚ) : Attempt ε (Option ℚ) :=
  if D.inRange result then ⟨.ok (some (D.round result)), holds result⟩ else ⟨.ok none, false⟩

/-- A figure read out for a reader, where rounding is what is asked for. -/
def printed (result : ℚ) : Attempt ε ℚ :=
  if D.inRange result then ⟨.ok (D.round result), true⟩ else .refuse Panics.overflow

/-- `a * b / divisor`, dividing first where the product is past the range. -/
def mulDiv (a b divisor : ℚ) : Attempt ε ℚ := do
  match ← D.checked (a * b) with
  | some product => D.op (product / divisor)
  | none => D.op ((← D.op (a / divisor)) * b)

/-- `Decimal`'s `Sum`. -/
def sum (qs : List ℚ) : Attempt ε ℚ := qs.foldlM (fun acc q => D.op (acc + q)) 0

theorem round_holds {q : ℚ} (h : holds q = true) : D.round q = q := by
  obtain ⟨d, rfl⟩ := holds_iff.mp h
  exact D.round_value d

theorem round_zero : D.round 0 = 0 := D.round_holds (holds_iff.mpr ⟨.zero, Decimal.zero_value⟩)

variable {D}

theorem of_yields_op {q r : ℚ} (h : (D.op q : Attempt ε ℚ).Yields r) : r = q ∧ holds q = true := by
  unfold op at h
  split at h
  · obtain ⟨hr, hq⟩ := h
    cases hr
    exact ⟨D.round_holds hq, hq⟩
  · exact absurd h Attempt.not_yields_refuse

theorem yields_op {q : ℚ} (h : holds q = true) : (D.op q : Attempt ε ℚ).Yields q := by
  obtain ⟨d, rfl⟩ := holds_iff.mp h
  unfold op
  rw [if_pos (D.inRange_value d), D.round_value]
  exact ⟨rfl, h⟩

theorem of_yields_printed {q r : ℚ} (h : (D.printed q : Attempt ε ℚ).Yields r) :
    r = D.round q := by
  unfold printed at h
  split at h
  · cases h.1
    rfl
  · exact absurd h Attempt.not_yields_refuse

omit [Panics ε] in
theorem of_yields_checked {q : ℚ} {o : Option ℚ} (h : (D.checked q : Attempt ε _).Yields o) :
    o = some q ∧ holds q = true := by
  unfold checked at h
  split at h
  · obtain ⟨ho, hq⟩ := h
    cases ho
    exact ⟨by rw [D.round_holds hq], hq⟩
  · exact absurd h.2 Bool.false_ne_true

omit [Panics ε] in
theorem yields_checked {q : ℚ} (h : holds q = true) :
    (D.checked q : Attempt ε _).Yields (some q) := by
  obtain ⟨d, rfl⟩ := holds_iff.mp h
  unfold checked
  rw [if_pos (D.inRange_value d), D.round_value]
  exact ⟨rfl, h⟩

theorem of_yields_foldlM {qs : List ℚ} {acc total : ℚ}
    (h : (qs.foldlM (fun acc q => D.op (acc + q)) acc : Attempt ε ℚ).Yields total) :
    total = acc + qs.sum := by
  induction qs generalizing acc with
  | nil =>
    rw [List.foldlM_nil] at h
    simp [yields_pure.mp h]
  | cons q qs ih =>
    rw [List.foldlM_cons, yields_bind] at h
    obtain ⟨r, hr, hrest⟩ := h
    obtain ⟨rfl, -⟩ := of_yields_op hr
    rw [ih hrest, List.sum_cons, add_assoc]

theorem round_nonneg {q : ℚ} (h : 0 ≤ q) : 0 ≤ D.round q := D.round_zero ▸ D.round_mono h

theorem answer_op {q r : ℚ} (h : (D.op q : Attempt ε ℚ).answer = .ok r) : r = D.round q := by
  unfold op at h
  split at h
  · exact (Except.ok.inj h).symm
  · cases h

omit [Panics ε] in
theorem answer_checked {q : ℚ} {o : Option ℚ} (h : (D.checked q : Attempt ε _).answer = .ok o) :
    ∀ r ∈ o, r = D.round q := by
  unfold checked at h
  split at h
  · obtain rfl := Except.ok.inj h
    exact fun r hr => (Option.some.inj hr).symm
  · obtain rfl := Except.ok.inj h
    exact fun r hr => nomatch hr

theorem answer_printed {q r : ℚ} (h : (D.printed q : Attempt ε ℚ).answer = .ok r) :
    r = D.round q := by
  unfold printed at h
  split at h
  · exact (Except.ok.inj h).symm
  · cases h

theorem mulDiv_nonneg {a b divisor r : ℚ} (ha : 0 ≤ a) (hb : 0 ≤ b) (hd : 0 ≤ divisor)
    (h : (D.mulDiv a b divisor : Attempt ε ℚ).answer = .ok r) : 0 ≤ r := by
  unfold mulDiv at h
  obtain ⟨o, ho, h⟩ := answer_bind.mp h
  cases o with
  | some product =>
    obtain rfl := answer_checked ho product rfl
    rw [answer_op h]
    exact round_nonneg (div_nonneg (round_nonneg (mul_nonneg ha hb)) hd)
  | none =>
    obtain ⟨share, hshare, h⟩ := answer_bind.mp h
    rw [answer_op h, answer_op hshare]
    exact round_nonneg (mul_nonneg (round_nonneg (div_nonneg ha hd)) hb)

/-- A sum that rounds nowhere is the sum. -/
theorem of_yields_sum {qs : List ℚ} {total : ℚ} (h : (D.sum qs : Attempt ε ℚ).Yields total) :
    total = qs.sum := by
  rw [of_yields_foldlM h, zero_add]

end DecimalRounding

/-- The library's own rounding: half-even, at the finest scale the mantissa fits. -/
def halfEvenRounding : DecimalRounding where
  round := ScaledRounding.toFinest (2 ^ 96) 28
  inRange := ScaledRounding.fits (2 ^ 96) 0
  round_mono := ScaledRounding.toFinest_mono (by decide +kernel) (by norm_num) 28
  round_value := fun d => ScaledRounding.toFinest_of_multiple d.scale_le d.mantissa_lt
  inRange_value := fun d => ScaledRounding.fits_zero_of_multiple d.mantissa_lt d.scale

end ShareTracker
