import ShareTracker.Adjustments
import ShareTracker.DecimalArithmetic

/-!
Unit counts in a parcel's as-acquired basis, as the decimal arithmetic keeps
them, and the conversions to and from the basis at another date.
-/
namespace ShareTracker

/-- `num / den` over their greatest common divisor, where that shrinks both. -/
def reduced (num den : ℚ) : ℚ × ℚ :=
  if 1 < gcd num den then (num / gcd num den, den / gcd num den) else (num, den)

theorem reduced_value (num den : ℚ) : (reduced num den).1 / (reduced num den).2 = num / den := by
  unfold reduced
  split
  · rename_i h
    exact div_div_div_cancel_right₀ (one_pos.trans h).ne' num den
  · rfl

theorem reduced_pos {num den : ℚ} (h : 0 < den) : 0 < (reduced num den).2 := by
  unfold reduced
  split
  · rename_i hg
    exact div_pos h (one_pos.trans hg)
  · exact h

theorem reduced_eq (r : SplitRatio) :
    reduced r.new r.old = ((lowestTerms r).new, (lowestTerms r).old) := by
  unfold reduced lowestTerms
  split <;> rfl

theorem gcd_pos {a : ℚ} (ha : 0 < a) (b : ℚ) : 0 < gcd a b := by
  have hnum : a.num * b.den ≠ 0 :=
    mul_ne_zero (Rat.num_pos.mpr ha).ne' (by exact_mod_cast b.den_pos.ne')
  have hgcd : 0 < Int.gcd (a.num * b.den) (b.num * a.den) := Int.gcd_pos_of_ne_zero_left _ hnum
  have hden : (0 : ℚ) < a.den * b.den := by
    exact_mod_cast mul_pos a.den_pos b.den_pos
  exact div_pos (by exact_mod_cast hgcd) hden

/-- A count in a parcel's own basis, held as a fraction. -/
structure AcquiredUnits where
  num : ℚ
  den : ℚ
  deriving DecidableEq

/-- A sale's allocation, in the unit basis of its own date. -/
structure UnitsAt where
  quantity : Decimal
  basis : NaiveDate
  deriving DecidableEq

namespace AcquiredUnits

def value (u : AcquiredUnits) : ℚ := u.num / u.den

def new (quantity : ℚ) : AcquiredUnits := ⟨quantity, 1⟩

def zero : AcquiredUnits := new 0

@[simp] theorem new_value (q : ℚ) : (new q).value = q := div_one q

@[simp] theorem zero_value : zero.value = 0 := new_value 0

variable {ε : Type} [Panics ε] (D : DecimalRounding)

def fraction (num den : ℚ) : Attempt ε AcquiredUnits :=
  if den = 1 then pure (new num)
  -- a whole multiple of the denominator divides exactly
  else if (num / den).den = 1 then do return new (← D.op (num / den))
  else pure ⟨(reduced num den).1, (reduced num den).2⟩

/-- The count as one figure, in arithmetic. -/
def get (u : AcquiredUnits) : Attempt ε ℚ := if u.den = 1 then pure u.num else D.op u.value

def lcm (a b : ℚ) : Attempt ε (Option ℚ) :=
  if a.den = 1 ∧ b.den = 1 then D.checked (a / gcd a b * b) else D.checked (a * b)

def overCommonDenominator (u v : AcquiredUnits) : Attempt ε (Option (ℚ × ℚ × ℚ)) := do
  if u.den = v.den then return some (u.num, v.num, u.den)
  let some common ← lcm D u.den v.den | return none
  let some a ← D.checked (u.num * (← D.op (common / u.den))) | return none
  let some b ← D.checked (v.num * (← D.op (common / v.den))) | return none
  return some (a, b, common)

/-- An operation over one common denominator, or over the rounded figures
where that is past the range. -/
def combine (op : ℚ → ℚ → ℚ) (u v : AcquiredUnits) : Attempt ε AcquiredUnits := do
  let some (a, b, den) ← overCommonDenominator D u v
    | return new (← D.op (op (← get D u) (← get D v)))
  let some num ← D.checked (op a b)
    | return new (← D.op (op (← get D u) (← get D v)))
  fraction D num den

def add (u v : AcquiredUnits) : Attempt ε AcquiredUnits := combine D (· + ·) u v

def sub (u v : AcquiredUnits) : Attempt ε AcquiredUnits := combine D (· - ·) u v

def lt (u v : AcquiredUnits) : Attempt ε Bool := do
  match ← overCommonDenominator D u v with
  | some (a, b, _) => return decide (a < b)
  | none => return decide ((← get D u) < (← get D v))

def sum (us : List AcquiredUnits) : Attempt ε AcquiredUnits := us.foldlM (add D) zero

/-- The exact product of the count and a ratio, each numerator first reduced
against the other denominator. -/
def timesRatio (u : AcquiredUnits) (new old : ℚ) : Attempt ε (Option (ℚ × ℚ)) := do
  let some num ← D.checked ((reduced u.num old).1 * (reduced new u.den).1) | return none
  let some den ← D.checked ((reduced new u.den).2 * (reduced u.num old).2) | return none
  return some (num, den)

section Exact
variable {D}

theorem fraction_yields {num den : ℚ} {w : AcquiredUnits} (hden : 0 < den)
    (h : (fraction D num den : Attempt ε _).Yields w) : w.value = num / den ∧ 0 < w.den := by
  unfold fraction at h
  split at h
  · rename_i h1
    rw [← yields_pure.mp h, h1]
    exact ⟨rfl, one_pos⟩
  · split at h
    · obtain ⟨q, hq, hw⟩ := yields_bind.mp h
      rw [← yields_pure.mp hw, (DecimalRounding.of_yields_op hq).1]
      exact ⟨new_value _, one_pos⟩
    · rw [← yields_pure.mp h]
      exact ⟨reduced_value num den, reduced_pos hden⟩

omit [Panics ε] in
theorem lcm_yields {a b : ℚ} {o : Option ℚ} (ha : 0 < a) (hb : 0 < b)
    (h : (lcm D a b : Attempt ε _).Yields o) : ∃ common, o = some common ∧ 0 < common := by
  unfold lcm at h
  split at h
  · exact ⟨_, (DecimalRounding.of_yields_checked h).1,
      mul_pos (div_pos ha (gcd_pos ha b)) hb⟩
  · exact ⟨_, (DecimalRounding.of_yields_checked h).1, mul_pos ha hb⟩

theorem overCommonDenominator_yields {u v : AcquiredUnits} {o : Option (ℚ × ℚ × ℚ)}
    (hu : 0 < u.den) (hv : 0 < v.den) (h : (overCommonDenominator D u v : Attempt ε _).Yields o) :
    ∃ a b den, o = some (a, b, den) ∧ 0 < den ∧ a / den = u.value ∧ b / den = v.value := by
  unfold overCommonDenominator at h
  split at h
  · rename_i heq
    refine ⟨u.num, v.num, u.den, (yields_pure.mp h).symm, hu, rfl, ?_⟩
    rw [heq, value]
  · obtain ⟨_, hc, h⟩ := yields_bind.mp h
    obtain ⟨common, rfl, hpos⟩ := lcm_yields hu hv hc
    obtain ⟨cu, hcu, h⟩ := yields_bind.mp h
    obtain ⟨_, ha, h⟩ := yields_bind.mp h
    obtain ⟨rfl, -⟩ := DecimalRounding.of_yields_checked ha
    obtain ⟨cv, hcv, h⟩ := yields_bind.mp h
    obtain ⟨_, hb, h⟩ := yields_bind.mp h
    obtain ⟨rfl, -⟩ := DecimalRounding.of_yields_checked hb
    have hcu' := (DecimalRounding.of_yields_op hcu).1
    have hcv' := (DecimalRounding.of_yields_op hcv).1
    refine ⟨_, _, common, (yields_pure.mp h).symm, hpos, ?_, ?_⟩
    · rw [hcu', value]
      field_simp
    · rw [hcv', value]
      field_simp

theorem combine_yields {op : ℚ → ℚ → ℚ} (hop : ∀ a b den, op a b / den = op (a / den) (b / den))
    {u v w : AcquiredUnits} (hu : 0 < u.den) (hv : 0 < v.den)
    (h : (combine D op u v : Attempt ε _).Yields w) :
    w.value = op u.value v.value ∧ 0 < w.den := by
  unfold combine at h
  obtain ⟨_, ho, h⟩ := yields_bind.mp h
  obtain ⟨a, b, den, rfl, hden, ha, hb⟩ := overCommonDenominator_yields hu hv ho
  obtain ⟨_, hn, h⟩ := yields_bind.mp h
  obtain ⟨rfl, -⟩ := DecimalRounding.of_yields_checked hn
  obtain ⟨hw, hpos⟩ := fraction_yields hden h
  exact ⟨by rw [hw, hop, ha, hb], hpos⟩

theorem add_yields {u v w : AcquiredUnits} (hu : 0 < u.den) (hv : 0 < v.den)
    (h : (add D u v : Attempt ε _).Yields w) : w.value = u.value + v.value ∧ 0 < w.den :=
  combine_yields (fun a b den => add_div a b den) hu hv h

theorem sub_yields {u v w : AcquiredUnits} (hu : 0 < u.den) (hv : 0 < v.den)
    (h : (sub D u v : Attempt ε _).Yields w) : w.value = u.value - v.value ∧ 0 < w.den :=
  combine_yields (fun a b den => sub_div a b den) hu hv h

theorem lt_yields {u v : AcquiredUnits} {b : Bool} (hu : 0 < u.den) (hv : 0 < v.den)
    (h : (lt D u v : Attempt ε _).Yields b) : b = decide (u.value < v.value) := by
  unfold lt at h
  obtain ⟨_, ho, h⟩ := yields_bind.mp h
  obtain ⟨x, y, den, rfl, hden, hx, hy⟩ := overCommonDenominator_yields hu hv ho
  rw [← yields_pure.mp h, ← hx, ← hy]
  exact decide_eq_decide.mpr (div_lt_div_iff_of_pos_right hden).symm

theorem foldlM_add_yields {us : List AcquiredUnits} (hus : ∀ u ∈ us, 0 < u.den)
    {acc total : AcquiredUnits} (hacc : 0 < acc.den)
    (h : (us.foldlM (add D) acc : Attempt ε _).Yields total) :
    total.value = acc.value + (us.map value).sum ∧ 0 < total.den := by
  induction us generalizing acc with
  | nil =>
    rw [List.foldlM_nil] at h
    rw [← yields_pure.mp h]
    exact ⟨by simp, hacc⟩
  | cons u us ih =>
    rw [List.foldlM_cons] at h
    obtain ⟨next, hnext, h⟩ := yields_bind.mp h
    obtain ⟨hval, hpos⟩ := add_yields hacc (hus u List.mem_cons_self) hnext
    obtain ⟨htotal, hden⟩ := ih (fun v hv => hus v (List.mem_cons_of_mem u hv)) hpos h
    refine ⟨?_, hden⟩
    rw [htotal, hval, List.map_cons, List.sum_cons, add_assoc]

theorem sum_yields {us : List AcquiredUnits} (hus : ∀ u ∈ us, 0 < u.den) {total : AcquiredUnits}
    (h : (sum D us : Attempt ε _).Yields total) :
    total.value = (us.map value).sum ∧ 0 < total.den := by
  obtain ⟨hval, hpos⟩ := foldlM_add_yields hus one_pos h
  exact ⟨by rw [hval, zero_value, zero_add], hpos⟩

omit [Panics ε] in
theorem timesRatio_yields {u : AcquiredUnits} {new old : ℚ} {o : Option (ℚ × ℚ)}
    (h : (timesRatio D u new old : Attempt ε _).Yields o) :
    ∃ num den, o = some (num, den) ∧ num / den = u.value * (new / old) := by
  unfold timesRatio at h
  obtain ⟨_, hn, h⟩ := yields_bind.mp h
  obtain ⟨rfl, -⟩ := DecimalRounding.of_yields_checked hn
  obtain ⟨_, hd, h⟩ := yields_bind.mp h
  obtain ⟨rfl, -⟩ := DecimalRounding.of_yields_checked hd
  refine ⟨_, _, (yields_pure.mp h).symm, ?_⟩
  calc (reduced u.num old).1 * (reduced new u.den).1 /
        ((reduced new u.den).2 * (reduced u.num old).2)
      = (reduced u.num old).1 / (reduced u.num old).2 *
          ((reduced new u.den).1 / (reduced new u.den).2) := by
        rw [mul_comm (reduced new u.den).2, mul_div_mul_comm]
    _ = u.num / old * (new / u.den) := by rw [reduced_value, reduced_value]
    _ = u.value * (new / old) := by
        rw [value, div_mul_div_comm, div_mul_div_comm, mul_comm old]

end Exact

end AcquiredUnits

/-! ### Conversions between bases -/

section Conversion
variable {ε : Type} [Panics ε] (D : DecimalRounding)

namespace DecimalRounding

/-- One event multiplied into a ratio's terms. -/
def timesEvent (r : ℚ × ℚ) (s : SplitEvent) : Attempt ε (ℚ × ℚ) := do
  return reduced (← D.op (r.1 * s.newUnits)) (← D.op (r.2 * s.oldUnits))

/-- The terms of the cumulative ratio of the events dated in `(since, upTo]`. -/
def splitTerms (splits : List SplitEvent) (since : NaiveDate) (upTo : Option NaiveDate) :
    Attempt ε (ℚ × ℚ) :=
  splits.foldlM (fun r s => if inWindow since upTo s.date then D.timesEvent r s else pure r) (1, 1)

/-- The terms of the ratio between the bases at two dates. -/
def rebaseTerms (splits : List SplitEvent) (f t : NaiveDate) : Attempt ε (ℚ × ℚ) :=
  if f ≤ t then D.splitTerms splits f (some t)
  else do return (← D.splitTerms splits t (some f)).swap

/-- A parcel's count re-based to the basis at `upTo`: the figure printed for it. -/
def splitAdjustedQuantity (u : AcquiredUnits) (splits : List SplitEvent)
    (acquired upTo : NaiveDate) : Attempt ε ℚ := do
  let (new, old) ← D.rebaseTerms splits acquired upTo
  -- a count that is whole is a figure already, which printing keeps
  if new = old then D.printed u.value
  else match ← AcquiredUnits.timesRatio D u new old with
    | some (num, den) => D.printed (num / den)
    | none => D.mulDiv (← AcquiredUnits.get D u) new old

/-- The smallest mantissa of a figure carrying 28 digits. -/
def fullPrecision : ℕ := 10 ^ 27

/-- The first candidate that re-bases to exactly the quantity stated. -/
def shortestRestating (sale : UnitsAt) (splits : List SplitEvent) (acquired : NaiveDate) :
    List ℚ → Attempt ε (Option ℚ)
  | [] => pure none
  | candidate :: rest => do
      let printed ← D.splitAdjustedQuantity (.new candidate) splits acquired sale.basis
      if printed = sale.quantity.value then return some candidate
      else shortestRestating sale splits acquired rest

/-- `round_dp` of an approximation to each number of places up to the largest
scale; past its own scale it is itself. -/
def candidates (approx : ℚ) : List ℚ :=
  (List.range 29).map fun dp => ScaledRounding.atScale dp approx

/-- A sale's quantity in the as-acquired units of a parcel bought at `acquired`. -/
def asAcquiredQuantity (sale : UnitsAt) (splits : List SplitEvent) (acquired : NaiveDate) :
    Attempt ε AcquiredUnits := do
  let (new, old) ← D.rebaseTerms splits sale.basis acquired
  if new = old then return .new sale.quantity.value
  else match ← D.checked (sale.quantity.value * new) with
    | none => return .new (← D.mulDiv sale.quantity.value new old)
    | some num => do
        let exact ← AcquiredUnits.fraction D num old
        -- only a figure at full precision can be a rounding
        if sale.quantity.mantissa.natAbs < fullPrecision then return exact
        else do
          let approx ← D.printed exact.value
          match ← D.shortestRestating sale splits acquired (candidates approx) with
          | some candidate => return .new candidate
          | none => return exact

end DecimalRounding

end Conversion

/-! ### What the conversions come to where nothing rounds -/

/-- The factor from a parcel's own basis to the basis at a date. -/
def basisFactor (splits : List SplitEvent) (acquired date : NaiveDate) : ℚ :=
  (rebaseRatio splits (some acquired) (some date)).factor

theorem basisFactor_pos (splits : List SplitEvent) (acquired date : NaiveDate) :
    0 < basisFactor splits acquired date := SplitRatio.factor_pos _

theorem basisFactor_of_le (splits : List SplitEvent) {acquired date : NaiveDate}
    (h : acquired ≤ date) :
    basisFactor splits acquired date = (splitRatio splits acquired (some date)).factor := by
  rw [basisFactor, rebaseRatio, if_pos h]

/-- The as-acquired units a stated quantity reads back as. -/
def restated (D : DecimalRounding) (quantity : Decimal) (factor : ℚ) : ℚ :=
  if factor = 1 then quantity.value
  else if quantity.mantissa.natAbs < DecimalRounding.fullPrecision then quantity.value / factor
  else ((DecimalRounding.candidates (D.round (quantity.value / factor))).find? fun candidate =>
    decide (D.round (candidate * factor) = quantity.value)).getD (quantity.value / factor)

theorem round_restated (D : DecimalRounding) (quantity : Decimal) {factor : ℚ} (hf : 0 < factor) :
    D.round (restated D quantity factor * factor) = quantity.value := by
  have hexact : D.round (quantity.value / factor * factor) = quantity.value := by
    rw [div_mul_cancel₀ _ hf.ne', D.round_value]
  unfold restated
  split
  · rename_i h1
    rw [h1, mul_one, D.round_value]
  · split
    · exact hexact
    · cases hfind : (DecimalRounding.candidates (D.round (quantity.value / factor))).find?
          fun candidate => decide (D.round (candidate * factor) = quantity.value) with
      | none => exact hexact
      | some candidate =>
        have hround := List.find?_some hfind
        exact of_decide_eq_true hround

theorem restated_pos (D : DecimalRounding) {quantity : Decimal} {factor : ℚ} (hf : 0 < factor)
    (hq : 0 < quantity.value) : 0 < restated D quantity factor := by
  by_contra hneg
  have hle : restated D quantity factor * factor ≤ 0 :=
    mul_nonpos_of_nonpos_of_nonneg (not_lt.mp hneg) hf.le
  have hround := D.round_mono hle
  rw [round_restated D quantity hf, D.round_zero] at hround
  exact absurd hq (not_lt.mpr hround)

section Exact
variable {ε : Type} [Panics ε] {D : DecimalRounding}

theorem timesEvent_yields {acc : SplitRatio} {s : SplitEvent} {r : ℚ × ℚ}
    (h : (D.timesEvent (acc.new, acc.old) s : Attempt ε _).Yields r) :
    r = ((acc.times s).new, (acc.times s).old) := by
  unfold DecimalRounding.timesEvent at h
  obtain ⟨n, hn, h⟩ := yields_bind.mp h
  obtain ⟨o, ho, h⟩ := yields_bind.mp h
  rw [← yields_pure.mp h, (DecimalRounding.of_yields_op hn).1,
    (DecimalRounding.of_yields_op ho).1]
  exact reduced_eq ⟨acc.new * s.newUnits, acc.old * s.oldUnits, _, _⟩

theorem foldlM_timesEvent_yields {splits : List SplitEvent} {since : NaiveDate}
    {upTo : Option NaiveDate} {acc : SplitRatio} {r : ℚ × ℚ}
    (h : (splits.foldlM (fun r s => if inWindow since upTo s.date then D.timesEvent r s else pure r)
      (acc.new, acc.old) : Attempt ε _).Yields r) :
    r = ((splits.foldl (fun r s => if inWindow since upTo s.date then r.times s else r) acc).new,
      (splits.foldl (fun r s => if inWindow since upTo s.date then r.times s else r) acc).old) := by
  induction splits generalizing acc with
  | nil => exact (yields_pure.mp h).symm
  | cons s splits ih =>
    rw [List.foldlM_cons] at h
    obtain ⟨next, hnext, h⟩ := yields_bind.mp h
    rw [List.foldl_cons]
    split at hnext
    · rename_i hin
      rw [timesEvent_yields hnext] at h
      rw [if_pos hin]
      exact ih h
    · rename_i hout
      rw [← yields_pure.mp hnext] at h
      rw [if_neg hout]
      exact ih h

theorem splitTerms_yields {splits : List SplitEvent} {since : NaiveDate} {upTo : Option NaiveDate}
    {r : ℚ × ℚ} (h : (D.splitTerms splits since upTo : Attempt ε _).Yields r) :
    r = ((splitRatio splits since upTo).new, (splitRatio splits since upTo).old) := by
  have hfold := @foldlM_timesEvent_yields ε _ D splits since upTo SplitRatio.identity r
  exact hfold h

theorem rebaseTerms_yields {splits : List SplitEvent} {f t : NaiveDate} {r : ℚ × ℚ}
    (h : (D.rebaseTerms splits f t : Attempt ε _).Yields r) :
    r = ((rebaseRatio splits (some f) (some t)).new, (rebaseRatio splits (some f) (some t)).old) := by
  unfold DecimalRounding.rebaseTerms at h
  rw [rebaseRatio]
  split at h
  · rename_i hle
    rw [if_pos hle]
    exact splitTerms_yields h
  · rename_i hgt
    obtain ⟨terms, hterms, h⟩ := yields_bind.mp h
    rw [if_neg hgt, ← yields_pure.mp h, splitTerms_yields hterms]
    rfl

theorem splitAdjustedQuantity_yields {u : AcquiredUnits} {splits : List SplitEvent}
    {acquired upTo : NaiveDate} {figure : ℚ}
    (h : (D.splitAdjustedQuantity u splits acquired upTo : Attempt ε _).Yields figure) :
    figure = D.round (u.value * basisFactor splits acquired upTo) := by
  unfold DecimalRounding.splitAdjustedQuantity at h
  obtain ⟨terms, hterms, h⟩ := yields_bind.mp h
  obtain rfl := rebaseTerms_yields hterms
  simp only at h
  split at h
  · rename_i hsame
    rw [DecimalRounding.of_yields_printed h, basisFactor, (SplitRatio.new_eq_old _).mp hsame, mul_one]
  · obtain ⟨_, ho, h⟩ := yields_bind.mp h
    obtain ⟨num, den, rfl, hvalue⟩ := AcquiredUnits.timesRatio_yields ho
    rw [DecimalRounding.of_yields_printed h, hvalue]
    rfl

theorem shortestRestating_yields {sale : UnitsAt} {splits : List SplitEvent} {acquired : NaiveDate}
    {cs : List ℚ} {o : Option ℚ}
    (h : (D.shortestRestating sale splits acquired cs : Attempt ε _).Yields o) :
    o = cs.find? fun candidate => decide
      (D.round (candidate * basisFactor splits acquired sale.basis) = sale.quantity.value) := by
  induction cs with
  | nil => exact (yields_pure.mp h).symm
  | cons candidate cs ih =>
    unfold DecimalRounding.shortestRestating at h
    obtain ⟨figure, hfigure, h⟩ := yields_bind.mp h
    rw [splitAdjustedQuantity_yields hfigure, AcquiredUnits.new_value] at h
    split at h
    · rename_i hsame
      rw [List.find?_cons, decide_eq_true hsame]
      exact (yields_pure.mp h).symm
    · rename_i hdiff
      rw [List.find?_cons, decide_eq_false hdiff]
      exact ih h

theorem asAcquiredQuantity_yields {sale : UnitsAt} {splits : List SplitEvent}
    {acquired : NaiveDate} {u : AcquiredUnits}
    (h : (D.asAcquiredQuantity sale splits acquired : Attempt ε _).Yields u) :
    u.value = restated D sale.quantity (basisFactor splits acquired sale.basis) ∧ 0 < u.den := by
  unfold DecimalRounding.asAcquiredQuantity at h
  obtain ⟨terms, hterms, h⟩ := yields_bind.mp h
  obtain rfl := rebaseTerms_yields hterms
  have hback := rebaseRatio_symm splits sale.basis acquired
  have hdivide : sale.quantity.value * (rebaseRatio splits (some sale.basis) (some acquired)).factor =
      sale.quantity.value / basisFactor splits acquired sale.basis := by
    rw [hback, div_eq_mul_inv]
    rfl
  simp only at h
  unfold restated
  split at h
  · rename_i hsame
    have hone : basisFactor splits acquired sale.basis = 1 :=
      inv_eq_one.mp (hback.symm.trans ((SplitRatio.new_eq_old _).mp hsame))
    rw [if_pos hone, ← yields_pure.mp h]
    exact ⟨AcquiredUnits.new_value _, one_pos⟩
  · rename_i hdiff
    have hne : basisFactor splits acquired sale.basis ≠ 1 := by
      intro hone
      exact hdiff ((SplitRatio.new_eq_old _).mpr (hback.trans (inv_eq_one.mpr hone)))
    rw [if_neg hne]
    obtain ⟨_, hnum, h⟩ := yields_bind.mp h
    obtain ⟨rfl, -⟩ := DecimalRounding.of_yields_checked hnum
    obtain ⟨exact, hexact, h⟩ := yields_bind.mp h
    obtain ⟨hvalue, hden⟩ := AcquiredUnits.fraction_yields (SplitRatio.old_pos _) hexact
    rw [mul_div_assoc] at hvalue
    have hvalue' := hvalue.trans hdivide
    split at h
    · rename_i hshort
      rw [if_pos hshort, ← yields_pure.mp h]
      exact ⟨hvalue', hden⟩
    · rename_i hfull
      rw [if_neg hfull]
      obtain ⟨approx, happrox, h⟩ := yields_bind.mp h
      obtain ⟨found, hfound, h⟩ := yields_bind.mp h
      have hfound' := shortestRestating_yields hfound
      rw [DecimalRounding.of_yields_printed happrox, hvalue'] at hfound'
      rw [← hfound']
      cases found with
      | some candidate =>
        rw [← yields_pure.mp h]
        exact ⟨AcquiredUnits.new_value _, one_pos⟩
      | none =>
        rw [← yields_pure.mp h]
        exact ⟨hvalue', hden⟩

end Exact

/-! ### Counts read with rounding -/

section Rounded
variable {ε : Type} [Panics ε] {D : DecimalRounding}

theorem AcquiredUnits.fraction_answer {num den : ℚ} {w : AcquiredUnits} (hnum : 0 ≤ num)
    (hden : 0 < den) (h : (AcquiredUnits.fraction D num den : Attempt ε _).answer = .ok w) :
    0 ≤ w.value ∧ 0 < w.den := by
  unfold AcquiredUnits.fraction at h
  split at h
  · obtain rfl := answer_pure.mp h
    exact ⟨(AcquiredUnits.new_value num).symm ▸ hnum, one_pos⟩
  · split at h
    · obtain ⟨q, hq, h⟩ := answer_bind.mp h
      obtain rfl := answer_pure.mp h
      rw [AcquiredUnits.new_value, DecimalRounding.answer_op hq]
      exact ⟨DecimalRounding.round_nonneg (div_nonneg hnum hden.le), one_pos⟩
    · obtain rfl := answer_pure.mp h
      refine ⟨?_, reduced_pos hden⟩
      rw [AcquiredUnits.value, reduced_value]
      exact div_nonneg hnum hden.le

theorem shortestRestating_mem {sale : UnitsAt} {splits : List SplitEvent} {acquired : NaiveDate}
    {cs : List ℚ} {o : Option ℚ}
    (h : (D.shortestRestating sale splits acquired cs : Attempt ε _).answer = .ok o) :
    ∀ c ∈ o, c ∈ cs := by
  induction cs with
  | nil =>
    obtain rfl := answer_pure.mp h
    exact fun c hc => nomatch hc
  | cons candidate cs ih =>
    unfold DecimalRounding.shortestRestating at h
    obtain ⟨figure, -, h⟩ := answer_bind.mp h
    split at h
    · obtain rfl := answer_pure.mp h
      intro c hc
      rw [← Option.some.inj hc]
      exact List.mem_cons_self
    · exact fun c hc => List.mem_cons_of_mem candidate (ih h c hc)

/-- Where the ratio is exact, a sale reads back as a count, rounded or not. -/
theorem asAcquiredQuantity_answer {sale : UnitsAt} {splits : List SplitEvent}
    {acquired : NaiveDate} {u : AcquiredUnits} (hq : 0 ≤ sale.quantity.value)
    (hterms : (D.rebaseTerms splits sale.basis acquired : Attempt ε _).exact = true)
    (h : (D.asAcquiredQuantity sale splits acquired : Attempt ε _).answer = .ok u) :
    0 ≤ u.value ∧ 0 < u.den := by
  unfold DecimalRounding.asAcquiredQuantity at h
  obtain ⟨terms, hanswer, h⟩ := answer_bind.mp h
  obtain rfl := rebaseTerms_yields ⟨hanswer, hterms⟩
  have hnew := SplitRatio.new_pos (rebaseRatio splits (some sale.basis) (some acquired))
  have hold := SplitRatio.old_pos (rebaseRatio splits (some sale.basis) (some acquired))
  simp only at h
  split at h
  · obtain rfl := answer_pure.mp h
    exact ⟨(AcquiredUnits.new_value _).symm ▸ hq, one_pos⟩
  · obtain ⟨o, ho, h⟩ := answer_bind.mp h
    cases o with
    | none =>
      obtain ⟨q, hmul, h⟩ := answer_bind.mp h
      obtain rfl := answer_pure.mp h
      rw [AcquiredUnits.new_value]
      exact ⟨DecimalRounding.mulDiv_nonneg hq hnew.le hold.le hmul, one_pos⟩
    | some num =>
      obtain rfl := DecimalRounding.answer_checked ho num rfl
      obtain ⟨exact, hexact, h⟩ := answer_bind.mp h
      have hcount := AcquiredUnits.fraction_answer
        (DecimalRounding.round_nonneg (mul_nonneg hq hnew.le)) hold hexact
      split at h
      · exact answer_pure.mp h ▸ hcount
      · obtain ⟨approx, happrox, h⟩ := answer_bind.mp h
        obtain ⟨found, hfound, h⟩ := answer_bind.mp h
        cases found with
        | none => exact answer_pure.mp h ▸ hcount
        | some candidate =>
          obtain rfl := answer_pure.mp h
          obtain ⟨dp, -, rfl⟩ := List.mem_map.mp (shortestRestating_mem hfound candidate rfl)
          rw [AcquiredUnits.new_value, DecimalRounding.answer_printed happrox]
          exact ⟨ScaledRounding.atScale_nonneg dp (DecimalRounding.round_nonneg hcount.1),
            one_pos⟩

end Rounded

end ShareTracker
