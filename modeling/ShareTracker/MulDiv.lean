import ShareTracker.RangeGuard
import ShareTracker.DecimalFigures

/-!
Pro-rating: the product of any factors over a divisor, multiplied from the left
and divided last, or at the first product that leaves the range. It answers where
the products on the way stay in range, which is not wherever the answer would.
-/
namespace ShareTracker.MulDiv
open RangeGuard (Failure UnrepresentableQuantity)

variable (D : DecimalRounding)

/-- `/`, which panics on a divisor of nought too. -/
def divide (a divisor : ℚ) : Attempt Failure ℚ :=
  if divisor = 0 then .refuse Panics.overflow else D.op (a / divisor)

/-- `checked_div`. -/
def checkedDivide (a divisor : ℚ) : Attempt Failure (Option ℚ) :=
  if divisor = 0 then pure none else D.checked (a / divisor)

/-- One factor: the product so far, and whether it is divided already. -/
def multiply (divisor : Decimal) (state : ℚ × Bool) (f : Decimal) : Attempt Failure (ℚ × Bool) := do
  match ← D.checked (state.1 * f.value) with
  | some product => return (product, state.2)
  | none =>
    if state.2 then return (← D.op (state.1 * f.value), true)
    else return (← D.op ((← divide D state.1 divisor.value) * f.value), true)

def mulDiv (factors : List Decimal) (divisor : Decimal) : Attempt Failure ℚ :=
  match factors with
  | [] => divide D 1 divisor.value
  | first :: rest => do
      let state ← rest.foldlM (multiply D divisor) (first.value, false)
      if state.2 then pure state.1 else divide D state.1 divisor.value

def scaledQuantity (units new old : Decimal) : Attempt Failure (Option ℚ) := do
  match ← D.checked (units.value * new.value) with
  | some product => checkedDivide D product old.value
  | none =>
    match ← checkedDivide D units.value old.value with
    | some divided => D.checked (divided * new.value)
    | none => pure none

def checkedRebasedQuantity (units new old : String × Decimal) :
    Attempt Failure (Except UnrepresentableQuantity ℚ) := do
  match ← scaledQuantity D units.2 new.2 old.2 with
  | some quantity => pure (.ok quantity)
  | none => pure (.error ⟨(units.1, units.2.value), (new.1, new.2.value), (old.1, old.2.value)⟩)

/-! ### The products on the way -/

/-- Every product from the left is in range, each rounded as the library rounds. -/
def ProductsInRange (acc : ℚ) : List Decimal → Prop
  | [] => True
  | f :: rest => D.inRange (acc * f.value) = true ∧ ProductsInRange (D.round (acc * f.value)) rest

def product (acc : ℚ) (factors : List Decimal) : ℚ :=
  factors.foldl (fun acc f => D.round (acc * f.value)) acc

/-- The products from the left are in range and so is the last over the divisor;
or the last before the first out of range is, and then its quotient's products
with the factors left. -/
def InRangeOnTheWay (divisor : Decimal) : List Decimal → Prop
  | [] => True
  | first :: rest =>
    (ProductsInRange D first.value rest ∧
      D.inRange (product D first.value rest / divisor.value) = true) ∨
    ∃ before f after, rest = before ++ f :: after ∧ ProductsInRange D first.value before ∧
      D.inRange (product D first.value before * f.value) = false ∧
      D.inRange (product D first.value before / divisor.value) = true ∧
      ProductsInRange D (D.round (product D first.value before / divisor.value)) (f :: after)

/-! ### The exact products

A product in range is rounded to a figure no larger than the figures above it,
and none is larger than the largest. So figures around the exact products say
which of them leave the range, whichever way each is rounded. -/

def largest : ℚ := 2 ^ 96 - 1

section Figures
variable (inRange : ℚ → Bool)

/-- A result in range, and a figure that what it is rounded to does not pass. -/
def Caps (result figure : ℚ) : Prop :=
  inRange result = true ∧ holds figure = true ∧ min result largest ≤ figure

/-- A figure below a result, which what it is rounded to reaches. -/
def Under (result figure : ℚ) : Prop := 0 ≤ figure ∧ holds figure = true ∧ figure ≤ result

/-- Figures above the products from the left, the last of them `last`. -/
def Capped : ℚ → List Decimal → ℚ → Prop
  | above, [], last => above = last
  | above, f :: rest, last => ∃ next, Caps inRange (above * |f.value|) next ∧ Capped next rest last

/-- Figures below them. -/
def Reaches : ℚ → List Decimal → ℚ → Prop
  | below, [], last => below = last
  | below, f :: rest, last => ∃ next, Under (below * |f.value|) next ∧ Reaches next rest last

/-- A product that is out of range even from a figure below the ones before it. -/
def Exceeds (below : ℚ) (factors : List Decimal) : Prop :=
  ∃ before f after last, factors = before ++ f :: after ∧ Reaches below before last ∧
    inRange (last * |f.value|) = false

/-- No product leaves the range, nor the last over the divisor; or those before the
first that does are in range, and their quotient and its products with the rest are. -/
def FiguresInRange (divisor : Decimal) : List Decimal → Prop
  | [] => True
  | first :: rest =>
    (∃ last, Capped inRange |first.value| rest last ∧
      inRange (last / |divisor.value|) = true) ∨
    ∃ before f after above below quotient last, rest = before ++ f :: after ∧
      Capped inRange |first.value| before above ∧ Reaches |first.value| before below ∧
      inRange (below * |f.value|) = false ∧
      Caps inRange (above / |divisor.value|) quotient ∧
      Capped inRange quotient (f :: after) last

/-- A product leaves the range, and so does the quotient before it or one of the
quotient's products with the rest. -/
def FiguresExceed (divisor : Decimal) : List Decimal → Prop
  | [] => False
  | first :: rest =>
    ∃ before f after above below, rest = before ++ f :: after ∧
      Capped inRange |first.value| before above ∧ Reaches |first.value| before below ∧
      inRange (below * |f.value|) = false ∧
      (inRange (below / |divisor.value|) = false ∨
        ∃ quotient, Under (below / |divisor.value|) quotient ∧ Exceeds inRange quotient (f :: after))

end Figures

/-! ### The walk -/

section Walk
variable {D} {divisor : Decimal}

theorem op_answer {q r : ℚ} :
    (D.op q : Attempt Failure ℚ).answer = .ok r ↔ D.inRange q = true ∧ r = D.round q := by
  constructor
  · intro h
    exact ⟨DecimalRounding.inRange_of_answer h, DecimalRounding.answer_op h⟩
  · rintro ⟨hrange, rfl⟩
    rw [DecimalRounding.op, if_pos hrange]

theorem divide_answer {a b r : ℚ} (hb : b ≠ 0) :
    (divide D a b).answer = .ok r ↔ D.inRange (a / b) = true ∧ r = D.round (a / b) := by
  rw [divide, if_neg hb]
  exact op_answer

theorem multiply_of_inRange {acc : ℚ} {divided : Bool} {f : Decimal}
    (h : D.inRange (acc * f.value) = true) :
    (multiply D divisor (acc, divided) f).answer = .ok (D.round (acc * f.value), divided) := by
  refine answer_bind.mpr ⟨some (D.round (acc * f.value)), ?_, rfl⟩
  rw [DecimalRounding.checked, if_pos h]

theorem multiply_of_not_inRange {acc : ℚ} {divided : Bool} {f : Decimal}
    (h : D.inRange (acc * f.value) = false) :
    (multiply D divisor (acc, divided) f).answer =
      (if divided = true then do return (← D.op (acc * f.value), true)
        else do return (← D.op ((← divide D acc divisor.value) * f.value), true) :
        Attempt Failure (ℚ × Bool)).answer := by
  refine answer_bind_of (a := none) ?_
  rw [DecimalRounding.checked, if_neg (by rw [h]; exact Bool.false_ne_true)]

/-- Once divided, every product left has to be in range. -/
theorem multiply_divided {acc : ℚ} {factors : List Decimal} {state : ℚ × Bool} :
    (factors.foldlM (multiply D divisor) (acc, true)).answer = .ok state ↔
      ProductsInRange D acc factors ∧ state = (product D acc factors, true) := by
  induction factors generalizing acc with
  | nil =>
    rw [List.foldlM_nil, answer_pure]
    exact ⟨fun h => ⟨trivial, h.symm⟩, fun h => h.2.symm⟩
  | cons f factors ih =>
    rw [List.foldlM_cons]
    cases hrange : D.inRange (acc * f.value) with
    | true =>
      rw [answer_bind_of (multiply_of_inRange hrange), ih, ProductsInRange, hrange]
      simp only [true_and]
      rfl
    | false =>
      rw [ProductsInRange, hrange]
      constructor
      · intro h
        obtain ⟨mid, hmid, -⟩ := answer_bind.mp h
        rw [multiply_of_not_inRange hrange, if_pos rfl] at hmid
        obtain ⟨r, hr, -⟩ := answer_bind.mp hmid
        exact absurd (op_answer.mp hr).1 (by rw [hrange]; exact Bool.false_ne_true)
      · rintro ⟨⟨hnot, -⟩, -⟩
        exact absurd hnot Bool.false_ne_true

/-- The first product out of range, divided there. -/
theorem multiply_dividing (hd : divisor.value ≠ 0) {acc : ℚ} {f : Decimal} {factors : List Decimal}
    {state : ℚ × Bool} (hrange : D.inRange (acc * f.value) = false) :
    ((f :: factors).foldlM (multiply D divisor) (acc, false)).answer = .ok state ↔
      D.inRange (acc / divisor.value) = true ∧
        ProductsInRange D (D.round (acc / divisor.value)) (f :: factors) ∧
        state = (product D (D.round (acc / divisor.value)) (f :: factors), true) := by
  rw [List.foldlM_cons, answer_bind]
  constructor
  · rintro ⟨mid, hmid, hrest⟩
    rw [multiply_of_not_inRange hrange, if_neg Bool.false_ne_true] at hmid
    obtain ⟨q, hq, hmid⟩ := answer_bind.mp hmid
    obtain ⟨r, hr, hmid⟩ := answer_bind.mp hmid
    obtain ⟨hquotient, rfl⟩ := (divide_answer hd).mp hq
    obtain ⟨hproduct, rfl⟩ := op_answer.mp hr
    obtain rfl := answer_pure.mp hmid
    obtain ⟨hfactors, rfl⟩ := multiply_divided.mp hrest
    exact ⟨hquotient, ⟨hproduct, hfactors⟩, rfl⟩
  · rintro ⟨hquotient, ⟨hproduct, hfactors⟩, rfl⟩
    refine ⟨(D.round (D.round (acc / divisor.value) * f.value), true), ?_,
      multiply_divided.mpr ⟨hfactors, rfl⟩⟩
    rw [multiply_of_not_inRange hrange, if_neg Bool.false_ne_true]
    refine answer_bind.mpr ⟨_, (divide_answer hd).mpr ⟨hquotient, rfl⟩, ?_⟩
    exact answer_bind.mpr ⟨_, op_answer.mpr ⟨hproduct, rfl⟩, rfl⟩

/-- The walk over the factors left, none divided yet. -/
theorem multiply_undivided (hd : divisor.value ≠ 0) {acc : ℚ} {factors : List Decimal}
    {state : ℚ × Bool} :
    (factors.foldlM (multiply D divisor) (acc, false)).answer = .ok state ↔
      (ProductsInRange D acc factors ∧ state = (product D acc factors, false)) ∨
      ∃ before f after, factors = before ++ f :: after ∧ ProductsInRange D acc before ∧
        D.inRange (product D acc before * f.value) = false ∧
        D.inRange (product D acc before / divisor.value) = true ∧
        ProductsInRange D (D.round (product D acc before / divisor.value)) (f :: after) ∧
        state = (product D (D.round (product D acc before / divisor.value)) (f :: after), true) := by
  induction factors generalizing acc with
  | nil =>
    rw [List.foldlM_nil, answer_pure]
    constructor
    · exact fun h => .inl ⟨trivial, h.symm⟩
    · rintro (⟨-, h⟩ | ⟨before, f, after, hsplit, -⟩)
      · exact h.symm
      · simp at hsplit
  | cons g factors ih =>
    cases hrange : D.inRange (acc * g.value) with
    | true =>
      rw [List.foldlM_cons, answer_bind_of (multiply_of_inRange hrange), ih]
      refine or_congr ?_ ?_
      · simp only [ProductsInRange, hrange, true_and]
        rfl
      · constructor
        · rintro ⟨before, f, after, rfl, hbefore, hrest⟩
          exact ⟨g :: before, f, after, rfl, ⟨hrange, hbefore⟩, hrest⟩
        · rintro ⟨before, f, after, hsplit, hbefore, hout, hrest⟩
          cases before with
          | nil =>
            obtain ⟨rfl, rfl⟩ := List.cons.inj hsplit
            exact absurd (hout.symm.trans hrange) Bool.false_ne_true
          | cons b before =>
            obtain ⟨rfl, rfl⟩ := List.cons.inj hsplit
            exact ⟨before, f, after, rfl, hbefore.2, hout, hrest⟩
    | false =>
      rw [multiply_dividing hd hrange]
      constructor
      · rintro ⟨hquotient, hfactors, rfl⟩
        exact .inr ⟨[], g, factors, rfl, trivial, hrange, hquotient, hfactors, rfl⟩
      · rintro (⟨⟨hin, -⟩, -⟩ | ⟨before, f, after, hsplit, hbefore, hout, hrest⟩)
        · exact absurd (hrange.symm.trans hin) Bool.false_ne_true
        · cases before with
          | nil =>
            obtain ⟨rfl, rfl⟩ := List.cons.inj hsplit
            exact hrest
          | cons b before =>
            obtain ⟨rfl, rfl⟩ := List.cons.inj hsplit
            exact absurd (hrange.symm.trans hbefore.1) Bool.false_ne_true

/-- Where the multiplication answers. -/
theorem mulDiv_answers (hd : divisor.value ≠ 0) {first : Decimal} {rest : List Decimal} :
    (∃ r, (mulDiv D (first :: rest) divisor).answer = .ok r) ↔
      InRangeOnTheWay D divisor (first :: rest) := by
  constructor
  · rintro ⟨r, h⟩
    obtain ⟨state, hstate, h⟩ := answer_bind.mp h
    rcases (multiply_undivided hd).mp hstate with
      ⟨hin, rfl⟩ | ⟨before, f, after, hsplit, hbefore, hout, hquotient, hafter, rfl⟩
    · rw [if_neg Bool.false_ne_true] at h
      exact .inl ⟨hin, ((divide_answer hd).mp h).1⟩
    · exact .inr ⟨before, f, after, hsplit, hbefore, hout, hquotient, hafter⟩
  · rintro (⟨hin, hquotient⟩ | ⟨before, f, after, hsplit, hbefore, hout, hquotient, hafter⟩)
    · refine ⟨D.round (product D first.value rest / divisor.value), answer_bind.mpr
        ⟨_, (multiply_undivided hd).mpr (.inl ⟨hin, rfl⟩), ?_⟩⟩
      rw [if_neg Bool.false_ne_true]
      exact (divide_answer hd).mpr ⟨hquotient, rfl⟩
    · refine ⟨product D (D.round (product D first.value before / divisor.value)) (f :: after),
        answer_bind.mpr ⟨_, (multiply_undivided hd).mpr (.inr
          ⟨before, f, after, hsplit, hbefore, hout, hquotient, hafter, rfl⟩), ?_⟩⟩
      rw [if_pos rfl]
      rfl

end Walk

/-! ### Two factors -/

section Pair
variable {D}

theorem checked_iff {x q : ℚ} : (D.checked x : Attempt Failure _).answer = .ok (some q) ↔
    (D.op x : Attempt Failure ℚ).answer = .ok q := by
  rw [op_answer, DecimalRounding.checked]
  split
  · rename_i hrange
    simp [hrange, eq_comm]
  · rename_i hrange
    simp [hrange]

theorem checkedDivide_iff {a b q : ℚ} :
    (checkedDivide D a b).answer = .ok (some q) ↔ (divide D a b).answer = .ok q := by
  by_cases hb : b = 0
  · rw [checkedDivide, divide, if_pos hb, if_pos hb]
    exact ⟨fun h => (by cases h), fun h => (by cases h)⟩
  · rw [checkedDivide, divide, if_neg hb, if_neg hb]
    exact checked_iff

theorem mulDiv_pair (units new old : Decimal) (q : ℚ) :
    (mulDiv D [units, new] old).answer = .ok q ↔
      ∃ product, (D.checked (units.value * new.value) : Attempt Failure _).answer = .ok product ∧
        match product with
        | some product => (divide D product old.value).answer = .ok q
        | none => ∃ quotient, (divide D units.value old.value).answer = .ok quotient ∧
            (D.op (quotient * new.value) : Attempt Failure ℚ).answer = .ok q := by
  change (([new].foldlM (multiply D old) (units.value, false) >>= _) : Attempt Failure ℚ).answer = _ ↔ _
  rw [List.foldlM_cons, bind_assoc, multiply, bind_assoc, answer_bind]
  refine exists_congr fun product => and_congr_right fun _ => ?_
  cases product with
  | some product =>
    simp only [List.foldlM_nil, pure_bind]
    rw [if_neg Bool.false_ne_true]
  | none =>
    simp only [List.foldlM_nil, pure_bind]
    rw [if_neg Bool.false_ne_true, bind_assoc, answer_bind]
    refine exists_congr fun quotient => and_congr_right fun _ => ?_
    rw [bind_assoc]
    simp only [pure_bind, if_true, bind_pure]

theorem scaledQuantity_iff (units new old : Decimal) (q : ℚ) :
    (scaledQuantity D units new old).answer = .ok (some q) ↔
      (mulDiv D [units, new] old).answer = .ok q := by
  rw [mulDiv_pair, scaledQuantity, answer_bind]
  refine exists_congr fun product => and_congr_right fun _ => ?_
  cases product with
  | some product => exact checkedDivide_iff
  | none =>
    rw [answer_bind]
    constructor
    · rintro ⟨divided, hdivided, h⟩
      cases divided with
      | some divided => exact ⟨divided, checkedDivide_iff.mp hdivided, checked_iff.mp h⟩
      | none => exact absurd (Except.ok.inj h) (Option.some_ne_none q).symm
    · rintro ⟨divided, hdivided, h⟩
      exact ⟨some divided, checkedDivide_iff.mpr hdivided, checked_iff.mpr h⟩

/-- The two agree on two factors, and answer on the same. -/
theorem checkedRebasedQuantity_iff (units new old : String × Decimal) (q : ℚ) :
    (checkedRebasedQuantity D units new old).answer = .ok (.ok q) ↔
      (mulDiv D [units.2, new.2] old.2).answer = .ok q := by
  rw [← scaledQuantity_iff, checkedRebasedQuantity, answer_bind]
  constructor
  · rintro ⟨scaled, hscaled, h⟩
    cases scaled with
    | some quantity => exact Except.ok.inj (Except.ok.inj h) ▸ hscaled
    | none => exact absurd (Except.ok.inj h) (fun h => (by cases h))
  · exact fun h => ⟨some q, h, rfl⟩

end Pair

/-! ### Figures around the exact products -/

theorem abs_le_largest {q : ℚ} (h : holds q = true) : |q| ≤ largest := by
  obtain ⟨d, rfl⟩ := holds_iff.mp h
  have hten : (1 : ℚ) ≤ 10 ^ d.scale := one_le_pow₀ (by norm_num)
  have hmantissa : |(d.mantissa : ℚ)| ≤ largest := by
    have hle := Nat.le_sub_one_of_lt d.mantissa_lt
    rw [← Int.cast_abs, Int.abs_eq_natAbs, Int.cast_natCast]
    calc (d.mantissa.natAbs : ℚ) ≤ (2 ^ 96 - 1 : ℕ) := by exact_mod_cast hle
      _ = largest := by norm_num [largest]
  rw [Decimal.value, abs_div, abs_of_pos (by positivity : (0 : ℚ) < 10 ^ d.scale)]
  exact (div_le_self (abs_nonneg _) hten).trans hmantissa

section Around
variable {D : SignedRounding} {divisor : Decimal}

theorem Caps.round {result figure q : ℚ} (h : Caps D.inRange result figure) (hle : |q| ≤ result) :
    D.inRange q = true ∧ |D.round q| ≤ figure := by
  obtain ⟨hin, hfigure, hmin⟩ := h
  have hrange : D.inRange q = true := by
    rw [← D.inRange_abs]
    exact D.inRange_le _ _ (abs_nonneg q) hle hin
  refine ⟨hrange, ?_⟩
  rcases min_choice result largest with hresult | hlargest
  · rw [hresult] at hmin
    exact D.abs_round_le hfigure (hle.trans hmin)
  · rw [hlargest] at hmin
    exact (abs_le_largest (D.holds_round q hrange)).trans hmin

theorem Caps.round_nonneg {result figure q : ℚ} (h : Caps D.inRange result figure) (hq : 0 ≤ q)
    (hle : q ≤ result) : D.inRange q = true ∧ D.round q ≤ figure := by
  obtain ⟨hrange, hround⟩ := h.round ((abs_of_nonneg hq).trans_le hle)
  exact ⟨hrange, (le_abs_self _).trans hround⟩

theorem le_round_of_under {result figure q : ℚ} (h : Under result figure) (hle : result ≤ q) :
    figure ≤ D.round q := D.le_round h.2.1 (h.2.2.trans hle)

theorem not_inRange_above {below q : ℚ} (hnonneg : 0 ≤ below) (h : D.inRange below = false)
    (hle : below ≤ |q|) : D.inRange q = false := by
  by_contra hin
  rw [← D.inRange_abs, Bool.not_eq_false] at hin
  exact absurd (D.inRange_le _ _ hnonneg hle hin) (by rw [h]; exact Bool.false_ne_true)

theorem products_of_capped {above acc last : ℚ} {factors : List Decimal}
    (h : Capped D.inRange above factors last) (hle : |acc| ≤ above) :
    ProductsInRange D.toDecimalRounding acc factors ∧
      |product D.toDecimalRounding acc factors| ≤ last := by
  induction factors generalizing above acc with
  | nil => exact ⟨trivial, hle.trans h.le⟩
  | cons f factors ih =>
    obtain ⟨next, hcaps, hrest⟩ := h
    have hstep : |acc * f.value| ≤ above * |f.value| :=
      (abs_mul acc f.value).trans_le (mul_le_mul_of_nonneg_right hle (abs_nonneg _))
    obtain ⟨hin, hnext⟩ := hcaps.round hstep
    obtain ⟨hproducts, hlast⟩ := ih hrest hnext
    exact ⟨⟨hin, hproducts⟩, hlast⟩

theorem product_of_reaches {below acc last : ℚ} {factors : List Decimal}
    (h : Reaches below factors last) (hnonneg : 0 ≤ below) (hle : below ≤ |acc|) :
    0 ≤ last ∧ last ≤ |product D.toDecimalRounding acc factors| := by
  induction factors generalizing below acc with
  | nil => exact ⟨h ▸ hnonneg, h ▸ hle⟩
  | cons f factors ih =>
    obtain ⟨next, ⟨hnext, hholds, hbelow⟩, hrest⟩ := h
    have hstep : below * |f.value| ≤ |acc * f.value| := by
      rw [abs_mul]
      exact mul_le_mul_of_nonneg_right hle (abs_nonneg _)
    exact ih hrest hnext (D.le_abs_round hholds (hbelow.trans hstep))

theorem productsInRange_append {acc : ℚ} {before after : List Decimal} :
    ProductsInRange D.toDecimalRounding acc (before ++ after) ↔
      ProductsInRange D.toDecimalRounding acc before ∧
        ProductsInRange D.toDecimalRounding (product D.toDecimalRounding acc before) after := by
  induction before generalizing acc with
  | nil => exact ⟨fun h => ⟨trivial, h⟩, fun h => h.2⟩
  | cons f before ih =>
    simp only [List.cons_append, ProductsInRange, ih, and_assoc]
    rfl

theorem Exceeds.not_products {below acc : ℚ} {factors : List Decimal}
    (h : Exceeds D.inRange below factors) (hnonneg : 0 ≤ below) (hle : below ≤ |acc|) :
    ¬ ProductsInRange D.toDecimalRounding acc factors := by
  obtain ⟨before, f, after, last, rfl, hreaches, hout⟩ := h
  intro hproducts
  obtain ⟨hlast, hproduct⟩ := product_of_reaches (D := D) hreaches hnonneg hle
  have hfalse : D.inRange (product D.toDecimalRounding acc before * f.value) = false := by
    refine not_inRange_above (mul_nonneg hlast (abs_nonneg _)) hout ?_
    rw [abs_mul]
    exact mul_le_mul_of_nonneg_right hproduct (abs_nonneg _)
  exact absurd ((productsInRange_append.mp hproducts).2.1)
    (by rw [hfalse]; exact Bool.false_ne_true)

/-- Only one product is the first to leave the range. -/
theorem split_unique {acc : ℚ} {before before' after after' : List Decimal} {f f' : Decimal}
    (hsplit : before ++ f :: after = before' ++ f' :: after')
    (hbefore : ProductsInRange D.toDecimalRounding acc before)
    (hout : D.inRange (product D.toDecimalRounding acc before * f.value) = false)
    (hbefore' : ProductsInRange D.toDecimalRounding acc before')
    (hout' : D.inRange (product D.toDecimalRounding acc before' * f'.value) = false) :
    before = before' ∧ f = f' ∧ after = after' := by
  induction before generalizing acc before' with
  | nil =>
    cases before' with
    | nil => exact ⟨rfl, List.cons.inj hsplit⟩
    | cons g before' =>
      obtain ⟨rfl, -⟩ := List.cons.inj hsplit
      exact absurd (hout.symm.trans hbefore'.1) Bool.false_ne_true
  | cons g before ih =>
    cases before' with
    | nil =>
      obtain ⟨rfl, -⟩ := List.cons.inj hsplit
      exact absurd (hout'.symm.trans hbefore.1) Bool.false_ne_true
    | cons g' before' =>
      obtain ⟨rfl, htail⟩ := List.cons.inj hsplit
      obtain ⟨rfl, hrest⟩ := ih htail hbefore.2 hout hbefore'.2 hout'
      exact ⟨rfl, hrest⟩

/-- The figures around the products before `f` show it the first that leaves the range. -/
theorem first_out {acc above below : ℚ} {before : List Decimal} {f : Decimal}
    (habove : Capped D.inRange |acc| before above) (hbelow : Reaches |acc| before below)
    (hout : D.inRange (below * |f.value|) = false) :
    (ProductsInRange D.toDecimalRounding acc before ∧
        D.inRange (product D.toDecimalRounding acc before * f.value) = false) ∧
      |product D.toDecimalRounding acc before| ≤ above ∧
      0 ≤ below ∧ below ≤ |product D.toDecimalRounding acc before| := by
  obtain ⟨hproducts, hproduct⟩ := products_of_capped habove le_rfl
  obtain ⟨hnonneg, hreached⟩ := product_of_reaches (D := D) hbelow (abs_nonneg _) le_rfl
  refine ⟨⟨hproducts, not_inRange_above (mul_nonneg hnonneg (abs_nonneg _)) hout ?_⟩,
    hproduct, hnonneg, hreached⟩
  rw [abs_mul]
  exact mul_le_mul_of_nonneg_right hreached (abs_nonneg _)

theorem inRangeOnTheWay_of_figures {factors : List Decimal}
    (h : FiguresInRange D.inRange divisor factors) :
    InRangeOnTheWay D.toDecimalRounding divisor factors := by
  cases factors with
  | nil => exact trivial
  | cons first rest =>
    rcases h with ⟨last, hcapped, hquotient⟩ |
      ⟨before, f, after, above, below, quotient, last, rfl, habove, hbelow, hout, hcaps, hrest⟩
    · obtain ⟨hproducts, hproduct⟩ := products_of_capped hcapped le_rfl
      refine .inl ⟨hproducts, ?_⟩
      rw [← D.inRange_abs, abs_div]
      exact D.inRange_le _ _ (by positivity)
        (div_le_div_of_nonneg_right hproduct (abs_nonneg _)) hquotient
    · obtain ⟨⟨hproducts, hfalse⟩, hproduct, -⟩ := first_out habove hbelow hout
      have hstep : |product D.toDecimalRounding first.value before / divisor.value| ≤
          above / |divisor.value| :=
        (abs_div _ _).trans_le (div_le_div_of_nonneg_right hproduct (abs_nonneg _))
      obtain ⟨hin, hfigure⟩ := hcaps.round hstep
      exact .inr ⟨before, f, after, rfl, hproducts, hfalse, hin,
        (products_of_capped hrest hfigure).1⟩

theorem not_inRangeOnTheWay_of_figures {factors : List Decimal}
    (h : FiguresExceed D.inRange divisor factors) :
    ¬ InRangeOnTheWay D.toDecimalRounding divisor factors := by
  cases factors with
  | nil => exact h.elim
  | cons first rest =>
    obtain ⟨before, f, after, above, below, rfl, habove, hbelow, hout, hexceed⟩ := h
    obtain ⟨⟨hproducts, hfalse⟩, -, hnonneg, hreached⟩ := first_out habove hbelow hout
    rintro (⟨hall, -⟩ | ⟨before', f', after', hsplit, hbefore', hout', hquotient, hrest⟩)
    · exact absurd (productsInRange_append.mp hall).2.1
        (by rw [hfalse]; exact Bool.false_ne_true)
    · obtain ⟨rfl, rfl, rfl⟩ := split_unique hsplit hproducts hfalse hbefore' hout'
      have hstep : below / |divisor.value| ≤
          |product D.toDecimalRounding first.value before / divisor.value| := by
        rw [abs_div]
        exact div_le_div_of_nonneg_right hreached (abs_nonneg _)
      rcases hexceed with hquotient' | ⟨quotient, ⟨hpos, hholds, hle⟩, hexceeds⟩
      · have hnot := not_inRange_above (by positivity) hquotient' hstep
        exact absurd hquotient (by rw [hnot]; exact Bool.false_ne_true)
      · exact hexceeds.not_products hpos (D.le_abs_round hholds (hle.trans hstep)) hrest

end Around

/-! ### Where the answer is a figure -/

/-- The multiplication answers, and on two factors as the checked one does. -/
structure Answers (factors : List Decimal) (divisor : Decimal) : Prop where
  answers : holds ((factors.map Decimal.value).prod / divisor.value) = true →
    ∃ r, (mulDiv D factors divisor).answer = .ok r
  checked : ∀ (units new old : String × Decimal), factors = [units.2, new.2] → divisor = old.2 →
    ∀ q, (checkedRebasedQuantity D units new old).answer = .ok (.ok q) ↔
      (mulDiv D factors divisor).answer = .ok q

theorem pair_agrees (D : DecimalRounding) {factors : List Decimal} {divisor : Decimal}
    (units new old : String × Decimal) (hfactors : factors = [units.2, new.2])
    (hdivisor : divisor = old.2) (q : ℚ) :
    (checkedRebasedQuantity D units new old).answer = .ok (.ok q) ↔
      (mulDiv D factors divisor).answer = .ok q := by
  subst hfactors hdivisor
  exact checkedRebasedQuantity_iff units new old q

/-- It does wherever the figures around the exact products show the products in range,
and does not where they show a second one out of range. -/
theorem mulDiv_answers_of_figures (D : SignedRounding) (factors : List Decimal) (divisor : Decimal)
    (hd : divisor.value ≠ 0) :
    ((holds ((factors.map Decimal.value).prod / divisor.value) = true →
        FiguresInRange D.inRange divisor factors) →
      Answers D.toDecimalRounding factors divisor) ∧
    (holds ((factors.map Decimal.value).prod / divisor.value) = true →
      FiguresExceed D.inRange divisor factors →
        ¬ Answers D.toDecimalRounding factors divisor) := by
  constructor
  · refine fun h => ⟨fun hholds => ?_, pair_agrees D.toDecimalRounding⟩
    cases factors with
    | nil =>
      rw [List.map_nil, List.prod_nil] at hholds
      exact ⟨_, (divide_answer hd).mpr ⟨D.inRange_holds hholds, rfl⟩⟩
    | cons first rest => exact (mulDiv_answers hd).mpr (inRangeOnTheWay_of_figures (h hholds))
  · intro hholds hexceed h
    cases factors with
    | nil => exact hexceed
    | cons first rest =>
      exact not_inRangeOnTheWay_of_figures hexceed ((mulDiv_answers hd).mp (h.answers hholds))

def hundred : Decimal := ⟨100, 0, by decide, Decimal.no_scale_le⟩

theorem mulDiv_answers_of_figures_hundred :
    ((holds (([hundred, hundred].map Decimal.value).prod / hundred.value) = true →
        FiguresInRange halfEvenSigned.inRange hundred [hundred, hundred]) →
      Answers halfEvenRounding [hundred, hundred] hundred) ∧
    (holds (([hundred, hundred].map Decimal.value).prod / hundred.value) = true →
      FiguresExceed halfEvenSigned.inRange hundred [hundred, hundred] →
        ¬ Answers halfEvenRounding [hundred, hundred] hundred) :=
  mulDiv_answers_of_figures halfEvenSigned [hundred, hundred] hundred
    (by simp [hundred, Decimal.value])

def large : Decimal := ⟨10 ^ 20, 0, by decide, Decimal.no_scale_le⟩

def small : Decimal := ⟨1, 20, Decimal.one_mantissa_lt, by decide⟩

def one : Decimal := ⟨1, 0, Decimal.one_mantissa_lt, Decimal.no_scale_le⟩

/-- `1e20 × 1e20 × 1e-20 / 1`, which is `1e20`. -/
theorem mulDiv_panics_within_range :
    ¬ ∀ (factors : List Decimal) (divisor : Decimal), divisor.value ≠ 0 →
      Answers halfEvenRounding factors divisor := by
  intro h
  obtain ⟨r, hr⟩ := (h [large, large, small] one (by simp [one, Decimal.value])).answers
    (holds_iff.mpr ⟨large, by norm_num [large, small, one, Decimal.value]⟩)
  have hrefused : (mulDiv halfEvenRounding [large, large, small] one).answer =
      .error Panics.overflow := by decide +kernel
  cases hr.symm.trans hrefused

end ShareTracker.MulDiv
