import ShareTracker.Apportionment

/-!
A sale's total handed out allocation by allocation: each share is what the units
so far are entitled to less what is handed out already, every entitlement rounded
onto one grid. The shares add up to the total in any order, and none is of the
other sign, where no rounding on the way can carry an entitlement past a later one.
-/
namespace ShareTracker.CumulativeShares
open RangeGuard (Failure)
open MulDiv (Caps Under le_round_of_under)
open ScaledRounding

/-! ### The grid -/

/-- A mantissa and scale without trailing zeros. -/
def normalize (mantissa : ℤ) : ℕ → ℤ × ℕ
  | 0 => (mantissa, 0)
  | scale + 1 =>
    if mantissa % 10 = 0 then normalize (mantissa / 10) scale else (mantissa, scale + 1)

/-- The digits before the point. -/
def integerDigits (total : Decimal) : ℕ := (Nat.digits 10 ⌊|total.value|⌋₊).length

def shareGridScale (total : Decimal) : ℕ :=
  min (max (27 - integerDigits total) (normalize total.mantissa total.scale).2) 28

/-! ### The walk -/

structure Apportioned where
  share : ℚ
  entitled : ℚ

section Walk
variable (D : DecimalRounding) (total unitsTotal : Decimal)

/-- What the units so far are entitled to: the last to sell, the whole total. -/
def entitlement (unitsSoFar : ℚ) : Attempt Failure ℚ :=
  if unitsSoFar = unitsTotal.value then pure total.value
  else do return atScale (shareGridScale total) (← D.mulDiv total.value unitsSoFar unitsTotal.value)

def cumulativeShare (unitsSoFar entitledBefore : ℚ) : Attempt Failure Apportioned := do
  let entitled ← entitlement D total unitsTotal unitsSoFar
  return ⟨← D.op (entitled - entitledBefore), entitled⟩

/-- The shares of a sale's allocations, in the order they are walked. -/
def shares (unitsSoFar entitled : ℚ) : List Decimal → Attempt Failure (List ℚ)
  | [] => pure []
  | units :: rest => do
      let unitsSoFar ← D.op (unitsSoFar + units.value)
      let step ← cumulativeShare D total unitsTotal unitsSoFar entitled
      return step.share :: (← shares unitsSoFar step.entitled rest)

/-- In any order the shares add up to the total, and a total that is not negative
has no negative share. -/
def AddUp (units : List Decimal) : Prop :=
  ∃ handed, (shares D total unitsTotal 0 0 units).answer = .ok handed ∧
    (∀ summed : List ℚ, summed.Perm handed →
      (D.sum summed : Attempt Failure ℚ).answer = .ok total.value) ∧
    (0 ≤ total.value → ∀ share ∈ handed, 0 ≤ share)

/-- The entitlements move towards the total. -/
def Advance (unitsSoFar entitled : ℚ) : List Decimal → Prop
  | [] => True
  | units :: rest => ∃ next,
      (entitlement D total unitsTotal (D.round (unitsSoFar + units.value))).answer = .ok next ∧
        (if 0 ≤ total.value then entitled ≤ next else next ≤ entitled) ∧
        Advance (D.round (unitsSoFar + units.value)) next rest

end Walk

/-! ### The steps of a total -/

theorem normalize_spec (m : ℤ) (s : ℕ) :
    (m : ℚ) / 10 ^ s = (normalize m s).1 / 10 ^ (normalize m s).2 ∧
      (normalize m s).1.natAbs ≤ m.natAbs ∧ (normalize m s).2 ≤ s := by
  induction s generalizing m with
  | zero => exact ⟨rfl, le_rfl, le_rfl⟩
  | succ s ih =>
    rw [normalize]
    split
    · rename_i hzero
      obtain ⟨hvalue, habs, hscale⟩ := ih (m / 10)
      refine ⟨?_, by omega, by omega⟩
      have hm : ((m / 10 : ℤ) : ℚ) * 10 = m := by
        exact_mod_cast (by omega : m / 10 * 10 = m)
      rw [← hvalue, ← hm, pow_succ, mul_div_mul_right _ _ (by norm_num)]
    · exact ⟨rfl, le_rfl, le_rfl⟩

theorem abs_value_lt_digits (total : Decimal) : |total.value| < 10 ^ integerDigits total := by
  have hfloor := Nat.lt_base_pow_length_digits (b := 10) (m := ⌊|total.value|⌋₊) (by norm_num)
  have hlt := Nat.lt_floor_add_one |total.value|
  have hcast : (⌊|total.value|⌋₊ : ℚ) + 1 ≤ 10 ^ integerDigits total := by
    rw [integerDigits]
    exact_mod_cast hfloor
  linarith

/-- The total lies on its grid, and in range there. -/
theorem exists_steps (total : Decimal) : ∃ n : ℤ, total.value = n / 10 ^ shareGridScale total ∧
    n.natAbs < 2 ^ 96 := by
  obtain ⟨hvalue, habs, hscale⟩ := normalize_spec total.mantissa total.scale
  have hten : (0 : ℚ) < 10 ^ shareGridScale total := by positivity
  have hle : (normalize total.mantissa total.scale).2 ≤ shareGridScale total :=
    le_min (le_max_right _ _) (hscale.trans total.scale_le)
  obtain ⟨places, hplaces⟩ := Nat.exists_eq_add_of_le hle
  refine ⟨(normalize total.mantissa total.scale).1 * 10 ^ places, ?_, ?_⟩
  · rw [Decimal.value, hvalue, hplaces]
    exact rescaled _ _ _
  · rcases Nat.eq_zero_or_pos places with rfl | hpos
    · rw [pow_zero, mul_one]
      exact habs.trans_lt total.mantissa_lt
    · -- past the total's own places, 27 digits are left
      have hgrid : shareGridScale total + integerDigits total ≤ 27 := by
        unfold shareGridScale at hplaces ⊢
        omega
      have hsmall : |total.value| * 10 ^ shareGridScale total < 10 ^ 27 := by
        calc |total.value| * 10 ^ shareGridScale total
            < 10 ^ integerDigits total * 10 ^ shareGridScale total :=
              mul_lt_mul_of_pos_right (abs_value_lt_digits total) hten
          _ = 10 ^ (shareGridScale total + integerDigits total) := by rw [add_comm, pow_add]
          _ ≤ 10 ^ 27 := pow_le_pow_right₀ (by norm_num) hgrid
      have hsteps : total.value * 10 ^ shareGridScale total =
          ((normalize total.mantissa total.scale).1 * 10 ^ places : ℤ) := by
        rw [Decimal.value, hvalue, hplaces, rescaled _ _ places, div_mul_cancel₀]
        positivity
      rw [← abs_of_pos hten, ← abs_mul, hsteps, ← Int.cast_abs] at hsmall
      have hint : |(normalize total.mantissa total.scale).1 * 10 ^ places| < 10 ^ 27 := by
        exact_mod_cast hsmall
      rw [Int.abs_eq_natAbs] at hint
      omega

/-! ### Sums on the grid -/

section Sums
variable {D : DecimalRounding} {scale : ℕ}

/-- Steps that come to no more than the range add up exactly. -/
theorem foldlM_steps (hscale : scale ≤ 28) (steps : List ℤ) (acc : ℤ)
    (hsum : acc.natAbs + (steps.map Int.natAbs).sum < 2 ^ 96) :
    ((steps.map fun n : ℤ => (n : ℚ) / 10 ^ scale).foldlM (fun acc q => D.op (acc + q))
      ((acc : ℚ) / 10 ^ scale) : Attempt Failure ℚ).answer =
        .ok (((acc + steps.sum : ℤ) : ℚ) / 10 ^ scale) := by
  induction steps generalizing acc with
  | nil =>
    rw [List.map_nil, List.foldlM_nil, List.sum_nil, add_zero]
    rfl
  | cons n steps ih =>
    rw [List.map_cons, List.sum_cons] at hsum
    have hadd : (acc : ℚ) / 10 ^ scale + n / 10 ^ scale = ((acc + n : ℤ) : ℚ) / 10 ^ scale := by
      push_cast
      ring
    have hholds : holds (((acc + n : ℤ) : ℚ) / 10 ^ scale) = true :=
      holds_of_scaled rfl hscale (by omega)
    rw [List.map_cons, List.foldlM_cons, hadd,
      answer_bind_of (DecimalRounding.yields_op hholds).1, ih _ (by omega), List.sum_cons,
      add_assoc]

theorem sum_steps (hscale : scale ≤ 28) {steps : List ℤ} (hsum : (steps.map Int.natAbs).sum < 2 ^ 96)
    {summed : List ℚ} (hperm : summed.Perm (steps.map fun n : ℤ => (n : ℚ) / 10 ^ scale)) :
    (D.sum summed : Attempt Failure ℚ).answer = .ok ((steps.sum : ℚ) / 10 ^ scale) := by
  obtain ⟨steps', rfl, hsteps⟩ :
      Relation.Comp (fun l l' => l = l'.map fun n : ℤ => (n : ℚ) / 10 ^ scale) List.Perm summed steps := by
    rw [List.eq_map_comp_perm]
    exact hperm
  have hfold := foldlM_steps (D := D) hscale steps' 0
    (by rw [(hsteps.map Int.natAbs).sum_eq]; simpa using hsum)
  rw [zero_add, hsteps.sum_eq, Int.cast_zero, zero_div] at hfold
  exact hfold

end Sums

/-! ### The shares of a walk -/

section Shares
variable {D : DecimalRounding} {total unitsTotal : Decimal}

theorem grid_le (total : Decimal) : shareGridScale total ≤ 28 := min_le_right _ _

theorem entitlement_total : (entitlement D total unitsTotal unitsTotal.value).answer = .ok total.value := by
  rw [entitlement, if_pos rfl]
  rfl

theorem entitlement_steps {unitsSoFar e : ℚ}
    (h : (entitlement D total unitsTotal unitsSoFar).answer = .ok e) :
    ∃ n : ℤ, e = n / 10 ^ shareGridScale total := by
  rw [entitlement] at h
  split at h
  · obtain rfl := answer_pure.mp h
    obtain ⟨n, hn, -⟩ := exists_steps total
    exact ⟨n, hn⟩
  · obtain ⟨s, -, h⟩ := answer_bind.mp h
    obtain rfl := answer_pure.mp h
    exact ⟨_, rfl⟩

/-- One for a total that is not negative, and minus one. -/
def sign (total : Decimal) : ℤ := if 0 ≤ total.value then 1 else -1

theorem sign_eq (total : Decimal) : sign total = 1 ∨ sign total = -1 := by
  unfold sign
  split
  · exact .inl rfl
  · exact .inr rfl

theorem towards_iff {a b : ℤ} {scale : ℕ} :
    (if 0 ≤ total.value then (a : ℚ) / 10 ^ scale ≤ b / 10 ^ scale
      else (b : ℚ) / 10 ^ scale ≤ a / 10 ^ scale) ↔ 0 ≤ sign total * (b - a) := by
  rw [scaled_le, scaled_le, sign]
  split <;> omega

theorem natAbs_sum {sgn : ℤ} (hsgn : sgn = 1 ∨ sgn = -1) {steps : List ℤ}
    (h : ∀ n ∈ steps, 0 ≤ sgn * n) : ((steps.map Int.natAbs).sum : ℤ) = sgn * steps.sum := by
  induction steps with
  | nil => simp
  | cons n steps ih =>
    have hn := h n List.mem_cons_self
    have hrest := ih fun m hm => h m (List.mem_cons_of_mem n hm)
    rw [List.map_cons, List.sum_cons, List.sum_cons, Nat.cast_add, hrest, mul_add]
    rcases hsgn with rfl | rfl <;> omega

theorem sum_side {sgn : ℤ} (hsgn : sgn = 1 ∨ sgn = -1) {steps : List ℤ}
    (h : ∀ n ∈ steps, 0 ≤ sgn * n) : 0 ≤ sgn * steps.sum := by
  rw [← natAbs_sum hsgn h]
  exact Int.natCast_nonneg _

/-- Entitlements that move towards the total hand it out in steps of its sign. -/
theorem shares_of_advance {whole : ℤ} (hwhole : total.value = whole / 10 ^ shareGridScale total)
    (hlt : whole.natAbs < 2 ^ 96) {units : List Decimal} {unitsSoFar : ℚ} {given : ℤ}
    (hside : 0 ≤ sign total * given) (hlast : unitsSoFar = unitsTotal.value → given = whole)
    (hunits : (units.foldlM (fun acc u => D.op (acc + u.value)) unitsSoFar : Attempt Failure ℚ).answer =
      .ok unitsTotal.value)
    (h : Advance D total unitsTotal unitsSoFar (given / 10 ^ shareGridScale total) units) :
    ∃ steps : List ℤ,
      (shares D total unitsTotal unitsSoFar (given / 10 ^ shareGridScale total) units).answer =
        .ok (steps.map fun n : ℤ => (n : ℚ) / 10 ^ shareGridScale total) ∧
      steps.sum = whole - given ∧ ∀ n ∈ steps, 0 ≤ sign total * n := by
  induction units generalizing unitsSoFar given with
  | nil =>
    have hfinal := hlast (answer_pure.mp hunits)
    exact ⟨[], rfl, by rw [hfinal]; simp, fun n hn => absurd hn List.not_mem_nil⟩
  | cons u units ih =>
    rw [List.foldlM_cons] at hunits
    obtain ⟨soFar, hsoFar, hunits⟩ := answer_bind.mp hunits
    obtain rfl := (MulDiv.op_answer.mp hsoFar).2
    obtain ⟨next, hnext, htowards, hrest⟩ := h
    obtain ⟨b, rfl⟩ := entitlement_steps hnext
    have hstep := towards_iff.mp htowards
    have hb : 0 ≤ sign total * b := by
      rcases sign_eq total with hs | hs <;> rw [hs] at hside hstep ⊢ <;> omega
    have hlast' : D.round (unitsSoFar + u.value) = unitsTotal.value → b = whole := by
      intro heq
      rw [heq, entitlement_total] at hnext
      have hvalue := Except.ok.inj hnext
      rw [hwhole] at hvalue
      have hten : (10 : ℚ) ^ shareGridScale total ≠ 0 := by positivity
      exact_mod_cast ((div_left_inj' hten).mp hvalue).symm
    obtain ⟨steps, hshares, hsum, hsides⟩ := ih hb hlast' hunits hrest
    have hbound := sum_side (sign_eq total) hsides
    rw [hsum] at hbound
    have hholds : holds ((b : ℚ) / 10 ^ shareGridScale total -
        given / 10 ^ shareGridScale total) = true := by
      rw [scaled_sub]
      refine holds_of_scaled rfl (grid_le total) ?_
      rcases sign_eq total with hs | hs <;> rw [hs] at hside hstep hbound <;> omega
    refine ⟨(b - given) :: steps, ?_, ?_, ?_⟩
    · have hshare : (cumulativeShare D total unitsTotal (D.round (unitsSoFar + u.value))
          (given / 10 ^ shareGridScale total)).answer =
          .ok ⟨(b : ℚ) / 10 ^ shareGridScale total - given / 10 ^ shareGridScale total,
            b / 10 ^ shareGridScale total⟩ :=
        answer_bind.mpr ⟨_, hnext,
          answer_bind.mpr ⟨_, (DecimalRounding.yields_op hholds).1, rfl⟩⟩
      refine answer_bind.mpr ⟨_, hsoFar, answer_bind.mpr ⟨_, hshare,
        answer_bind.mpr ⟨_, hshares, ?_⟩⟩⟩
      rw [List.map_cons, ← scaled_sub]
      rfl
    · rw [List.sum_cons, hsum]
      omega
    · intro n hn
      rcases List.mem_cons.mp hn with rfl | hn
      · exact hstep
      · exact hsides n hn

/-- A share that is not negative is of an entitlement that did not step back. -/
theorem le_of_round_nonneg {a b : ℤ} {scale : ℕ} (hscale : scale ≤ 28)
    (h : 0 ≤ D.round ((b : ℚ) / 10 ^ scale - a / 10 ^ scale)) : a ≤ b := by
  by_contra hlt
  have hstep : holds (((-1 : ℤ) : ℚ) / 10 ^ scale) = true := holds_of_scaled rfl hscale (by norm_num)
  have hle : (b : ℚ) / 10 ^ scale - a / 10 ^ scale ≤ ((-1 : ℤ) : ℚ) / 10 ^ scale := by
    rw [scaled_sub, scaled_le]
    omega
  have hround := D.round_mono hle
  rw [D.round_holds hstep] at hround
  have hneg : ((-1 : ℤ) : ℚ) / 10 ^ scale < 0 := div_neg_of_neg_of_pos (by norm_num) (by positivity)
  linarith

theorem advance_of_shares (htotal : 0 ≤ total.value) {units : List Decimal} {unitsSoFar : ℚ} {given : ℤ}
    {handed : List ℚ}
    (h : (shares D total unitsTotal unitsSoFar (given / 10 ^ shareGridScale total) units).answer =
      .ok handed) (hshares : ∀ share ∈ handed, 0 ≤ share) :
    Advance D total unitsTotal unitsSoFar (given / 10 ^ shareGridScale total) units := by
  induction units generalizing unitsSoFar given handed with
  | nil => trivial
  | cons u units ih =>
    obtain ⟨soFar, hsoFar, h⟩ := answer_bind.mp h
    obtain rfl := (MulDiv.op_answer.mp hsoFar).2
    obtain ⟨step, hstep, h⟩ := answer_bind.mp h
    obtain ⟨next, hnext, hstep⟩ := answer_bind.mp hstep
    obtain ⟨share, hshare, hstep⟩ := answer_bind.mp hstep
    obtain rfl := answer_pure.mp hstep
    obtain ⟨rest, hrest, h⟩ := answer_bind.mp h
    obtain rfl := answer_pure.mp h
    obtain ⟨b, rfl⟩ := entitlement_steps hnext
    have hnonneg : 0 ≤ share := hshares share List.mem_cons_self
    rw [(MulDiv.op_answer.mp hshare).2] at hnonneg
    have hle := le_of_round_nonneg (grid_le total) hnonneg
    refine ⟨_, hnext, ?_, ih hrest fun q hq => hshares q (List.mem_cons_of_mem _ hq)⟩
    rw [if_pos htotal, scaled_le]
    exact hle

/-- The shares add up where the entitlements move towards the total. -/
theorem addUp_of_advance {units : List Decimal} (hpos : 0 < unitsTotal.value)
    (hsum : (D.sum (units.map Decimal.value) : Attempt Failure ℚ).answer = .ok unitsTotal.value)
    (h : Advance D total unitsTotal 0 0 units) : AddUp D total unitsTotal units := by
  have hzero : ((0 : ℤ) : ℚ) / 10 ^ shareGridScale total = 0 := by simp
  rw [DecimalRounding.sum, List.foldlM_map] at hsum
  obtain ⟨whole, hwhole, hlt⟩ := exists_steps total
  have hstart : Advance D total unitsTotal 0 (((0 : ℤ) : ℚ) / 10 ^ shareGridScale total) units := by
    rw [hzero]
    exact h
  obtain ⟨steps, hshares, hsteps, hsides⟩ := shares_of_advance hwhole hlt (by simp)
    (fun h => absurd h.symm hpos.ne') hsum hstart
  have habs := natAbs_sum (sign_eq total) hsides
  rw [hsteps, sub_zero] at habs
  rw [hzero] at hshares
  refine ⟨_, hshares, fun summed hperm => ?_, fun htotal share hshare => ?_⟩
  · rw [sum_steps (grid_le total) ?_ hperm, hsteps, sub_zero, hwhole]
    rcases sign_eq total with hs | hs <;> rw [hs] at habs <;> omega
  · obtain ⟨n, hn, rfl⟩ := List.mem_map.mp hshare
    have hside := hsides n hn
    rw [sign, if_pos htotal, one_mul] at hside
    exact div_nonneg (by exact_mod_cast hside) (by positivity)

theorem advance_of_addUp {units : List Decimal} (htotal : 0 ≤ total.value)
    (h : AddUp D total unitsTotal units) : Advance D total unitsTotal 0 0 units := by
  have hzero : ((0 : ℤ) : ℚ) / 10 ^ shareGridScale total = 0 := by simp
  obtain ⟨handed, hshares, -, hnonneg⟩ := h
  rw [← hzero] at hshares ⊢
  exact advance_of_shares htotal hshares (hnonneg htotal)

end Shares

/-! ### The entitlements' sizes -/

/-- The units so far at each allocation. -/
def runningUnits (D : DecimalRounding) (unitsSoFar : ℚ) : List Decimal → List ℚ
  | [] => []
  | units :: rest =>
    D.round (unitsSoFar + units.value) :: runningUnits D (D.round (unitsSoFar + units.value)) rest

section Size
variable {D : SignedRounding} {total unitsTotal : Decimal}

/-- What the size of the total makes of the units so far, before its last rounding. -/
def working (D : DecimalRounding) (total unitsTotal : Decimal) (unitsSoFar : ℚ) : ℚ :=
  if D.inRange (|total.value| * unitsSoFar) = true then
    D.round (|total.value| * unitsSoFar) / unitsTotal.value
  else D.round (|total.value| / unitsTotal.value) * unitsSoFar

def size (D : DecimalRounding) (total unitsTotal : Decimal) (unitsSoFar : ℚ) : ℚ :=
  atScale (shareGridScale total) (D.round (working D total unitsTotal unitsSoFar))

theorem value_sign (total : Decimal) : total.value = sign total * |total.value| := by
  unfold sign
  split
  · rename_i h
    rw [abs_of_nonneg h, Int.cast_one, one_mul]
  · rename_i h
    rw [abs_of_neg (not_le.mp h), Int.cast_neg, Int.cast_one, neg_mul_neg, one_mul]

theorem inRange_sign (x : ℚ) : D.inRange (sign total * x) = D.inRange x := by
  rcases sign_eq total with h | h
  · rw [h, Int.cast_one, one_mul]
  · rw [h, Int.cast_neg, Int.cast_one, neg_one_mul, D.inRange_neg]

theorem round_sign (x : ℚ) : D.round (sign total * x) = sign total * D.round x := by
  rcases sign_eq total with h | h
  · rw [h, Int.cast_one, one_mul, one_mul]
  · rw [h, Int.cast_neg, Int.cast_one, neg_one_mul, neg_one_mul, D.round_neg]

theorem atScale_sign (scale : ℕ) (x : ℚ) :
    atScale scale (sign total * x) = sign total * atScale scale x := by
  rcases sign_eq total with h | h
  · rw [h, Int.cast_one, one_mul, one_mul]
  · rw [h, Int.cast_neg, Int.cast_one, neg_one_mul, neg_one_mul, atScale_neg]

theorem op_sign {x r : ℚ} : (D.op (sign total * x) : Attempt Failure ℚ).answer = .ok r ↔
    D.inRange x = true ∧ r = sign total * D.round x := by
  rw [MulDiv.op_answer, inRange_sign, round_sign]

/-- Units short of the sale's are entitled to the size, on the total's side. -/
theorem entitlement_iff {unitsSoFar e : ℚ} (hne : unitsSoFar ≠ unitsTotal.value) :
    (entitlement D.toDecimalRounding total unitsTotal unitsSoFar).answer = .ok e ↔
      ((D.inRange (|total.value| * unitsSoFar) = false →
          D.inRange (|total.value| / unitsTotal.value) = true) ∧
        D.inRange (working D.toDecimalRounding total unitsTotal unitsSoFar) = true) ∧
      e = sign total * size D.toDecimalRounding total unitsTotal unitsSoFar := by
  have hproduct : total.value * unitsSoFar = sign total * (|total.value| * unitsSoFar) := by
    rw [← mul_assoc, ← value_sign]
  have hquotient : total.value / unitsTotal.value =
      sign total * (|total.value| / unitsTotal.value) := by
    rw [← mul_div_assoc, ← value_sign]
  have hrounded : ∀ r, (D.mulDiv total.value unitsSoFar unitsTotal.value :
      Attempt Failure ℚ).answer = .ok r ↔
        ((D.inRange (|total.value| * unitsSoFar) = false →
            D.inRange (|total.value| / unitsTotal.value) = true) ∧
          D.inRange (working D.toDecimalRounding total unitsTotal unitsSoFar) = true) ∧
        r = sign total * D.round (working D.toDecimalRounding total unitsTotal unitsSoFar) := by
    intro r
    rw [DecimalRounding.mulDiv, hproduct, hquotient, working, DecimalRounding.checked, inRange_sign]
    cases hrange : D.inRange (|total.value| * unitsSoFar) with
    | true =>
      rw [if_pos rfl, if_pos rfl, round_sign,
        answer_bind_of (a := some (sign total * D.round (|total.value| * unitsSoFar))) rfl]
      change (D.op _ : Attempt Failure ℚ).answer = .ok r ↔ _
      rw [mul_div_assoc, op_sign]
      simp
    | false =>
      rw [if_neg Bool.false_ne_true, if_neg Bool.false_ne_true,
        answer_bind_of (a := none) rfl, answer_bind]
      constructor
      · rintro ⟨q, hq, hr⟩
        obtain ⟨hin, rfl⟩ := op_sign.mp hq
        rw [mul_assoc] at hr
        obtain ⟨hworking, rfl⟩ := op_sign.mp hr
        exact ⟨⟨fun _ => hin, hworking⟩, rfl⟩
      · rintro ⟨⟨hin, hworking⟩, rfl⟩
        refine ⟨_, op_sign.mpr ⟨hin rfl, rfl⟩, ?_⟩
        rw [mul_assoc]
        exact op_sign.mpr ⟨hworking, rfl⟩
  rw [entitlement, if_neg hne, answer_bind]
  constructor
  · rintro ⟨r, hr, he⟩
    obtain ⟨hin, rfl⟩ := (hrounded r).mp hr
    obtain rfl := answer_pure.mp he
    exact ⟨hin, atScale_sign _ _⟩
  · rintro ⟨hin, rfl⟩
    exact ⟨_, (hrounded _).mpr ⟨hin, rfl⟩, congrArg Except.ok (atScale_sign _ _)⟩

theorem towards_of_le (total : Decimal) {a b : ℚ} (h : a ≤ b) : if 0 ≤ total.value then
    (sign total : ℚ) * a ≤ sign total * b else (sign total : ℚ) * b ≤ sign total * a := by
  unfold sign
  split <;> simpa using h

end Size

/-! ### Figures around the entitlements -/

section Figures
variable (inRange : ℚ → Bool) (total unitsTotal : Decimal)

/-- Figures above the product and the quotient of the units so far, the last `share`. -/
def ShareCapped (unitsSoFar share : ℚ) : Prop :=
  ∃ figure, if inRange (|total.value| * unitsSoFar) = true then
      Caps inRange (|total.value| * unitsSoFar) figure ∧
        Caps inRange (figure / unitsTotal.value) share
    else Caps inRange (|total.value| / unitsTotal.value) figure ∧
      Caps inRange (figure * unitsSoFar) share

/-- Figures below them. -/
def ShareReached (unitsSoFar share : ℚ) : Prop :=
  ∃ figure, if inRange (|total.value| * unitsSoFar) = true then
      Under (|total.value| * unitsSoFar) figure ∧ Under (figure / unitsTotal.value) share
    else Under (|total.value| / unitsTotal.value) figure ∧ Under (figure * unitsSoFar) share

/-- On the grid, no share of units short of the sale's is past the total, and a figure lies
between those multiplied first and those divided first, their product out of range. -/
def FigureBetween (running : List ℚ) : Prop :=
  ∃ between, ∀ unitsSoFar ∈ running, unitsSoFar ≠ unitsTotal.value →
    (∃ share, ShareCapped inRange total unitsTotal unitsSoFar share ∧
        atScale (shareGridScale total) share ≤ |total.value|) ∧
      if inRange (|total.value| * unitsSoFar) = true then
        ShareCapped inRange total unitsTotal unitsSoFar between
      else ShareReached inRange total unitsTotal unitsSoFar between

/-- The share of some units short of the sale's is past the total. -/
def FigureBeyond (running : List ℚ) : Prop :=
  ∃ unitsSoFar ∈ running, unitsSoFar ≠ unitsTotal.value ∧
    ∃ share, ShareReached inRange total unitsTotal unitsSoFar share ∧
      |total.value| < atScale (shareGridScale total) share

end Figures

section Between
variable {D : SignedRounding} {total unitsTotal : Decimal} {unitsSoFar share : ℚ}

theorem ShareCapped.round (hpos : 0 < unitsTotal.value) (hnonneg : 0 ≤ unitsSoFar)
    (h : ShareCapped D.inRange total unitsTotal unitsSoFar share) :
    ((D.inRange (|total.value| * unitsSoFar) = false →
          D.inRange (|total.value| / unitsTotal.value) = true) ∧
        D.inRange (working D.toDecimalRounding total unitsTotal unitsSoFar) = true) ∧
      D.round (working D.toDecimalRounding total unitsTotal unitsSoFar) ≤ share := by
  obtain ⟨figure, h⟩ := h
  rw [working]
  split at h
  · rename_i hrange
    have hproduct : 0 ≤ |total.value| * unitsSoFar := mul_nonneg (abs_nonneg _) hnonneg
    have hfigure := (h.1.round_nonneg hproduct le_rfl).2
    obtain ⟨hin, hshare⟩ := h.2.round_nonneg (div_nonneg (D.round_nonneg hproduct) hpos.le)
      (div_le_div_of_nonneg_right hfigure hpos.le)
    rw [if_pos hrange]
    exact ⟨⟨fun hnot => absurd (hrange.symm.trans hnot) (by decide), hin⟩, hshare⟩
  · rename_i hrange
    have hquotient : 0 ≤ |total.value| / unitsTotal.value := div_nonneg (abs_nonneg _) hpos.le
    obtain ⟨hin, hfigure⟩ := h.1.round_nonneg hquotient le_rfl
    obtain ⟨hworking, hshare⟩ := h.2.round_nonneg (mul_nonneg (D.round_nonneg hquotient) hnonneg)
      (mul_le_mul_of_nonneg_right hfigure hnonneg)
    rw [if_neg hrange]
    exact ⟨⟨fun _ => hin, hworking⟩, hshare⟩

theorem ShareReached.round (hpos : 0 < unitsTotal.value) (hnonneg : 0 ≤ unitsSoFar)
    (h : ShareReached D.inRange total unitsTotal unitsSoFar share) :
    share ≤ D.round (working D.toDecimalRounding total unitsTotal unitsSoFar) := by
  obtain ⟨figure, h⟩ := h
  rw [working]
  split at h
  · rename_i hrange
    rw [if_pos hrange]
    exact le_round_of_under h.2
      (div_le_div_of_nonneg_right (le_round_of_under h.1 le_rfl) hpos.le)
  · rename_i hrange
    rw [if_neg hrange]
    exact le_round_of_under h.2
      (mul_le_mul_of_nonneg_right (le_round_of_under h.1 le_rfl) hnonneg)

/-- Multiplied first or divided first alike, more units round to no less. -/
theorem working_mono (hpos : 0 < unitsTotal.value) {s s' : ℚ} (h : s ≤ s')
    (halike : D.inRange (|total.value| * s) = D.inRange (|total.value| * s')) :
    working D.toDecimalRounding total unitsTotal s ≤
      working D.toDecimalRounding total unitsTotal s' := by
  unfold working
  rw [halike]
  split
  · exact div_le_div_of_nonneg_right
      (D.round_mono (mul_le_mul_of_nonneg_left h (abs_nonneg _))) hpos.le
  · exact mul_le_mul_of_nonneg_left h (D.round_nonneg (div_nonneg (abs_nonneg _) hpos.le))

theorem size_mono {running : List ℚ} (hpos : 0 < unitsTotal.value)
    (h : FigureBetween D.inRange total unitsTotal running) {s s' : ℚ} (hs : s ∈ running)
    (hs' : s' ∈ running) (hne : s ≠ unitsTotal.value) (hne' : s' ≠ unitsTotal.value) (hs0 : 0 ≤ s)
    (hle : s ≤ s') : size D.toDecimalRounding total unitsTotal s ≤
      size D.toDecimalRounding total unitsTotal s' := by
  obtain ⟨between, h⟩ := h
  apply atScale_mono
  by_cases halike : D.inRange (|total.value| * s) = D.inRange (|total.value| * s')
  · exact D.round_mono (working_mono hpos hle halike)
  · have hproducts : D.inRange (|total.value| * s') = true → D.inRange (|total.value| * s) = true :=
      D.inRange_le _ _ (mul_nonneg (abs_nonneg _) hs0) (mul_le_mul_of_nonneg_left hle (abs_nonneg _))
    have hin' : ¬ D.inRange (|total.value| * s') = true := fun hin' =>
      halike ((hproducts hin').trans hin'.symm)
    have hin : D.inRange (|total.value| * s) = true := by
      by_contra hin
      exact halike ((Bool.not_eq_true _ ▸ hin).trans (Bool.not_eq_true _ ▸ hin').symm)
    have hbelow := (h s hs hne).2
    have habove := (h s' hs' hne').2
    rw [if_pos hin] at hbelow
    rw [if_neg hin'] at habove
    exact (hbelow.round hpos hs0).2.trans (habove.round hpos (hs0.trans hle))

theorem size_le (hpos : 0 < unitsTotal.value) (hnonneg : 0 ≤ unitsSoFar)
    (hcapped : ShareCapped D.inRange total unitsTotal unitsSoFar share)
    (hshare : atScale (shareGridScale total) share ≤ |total.value|) :
    size D.toDecimalRounding total unitsTotal unitsSoFar ≤ |total.value| :=
  (atScale_mono _ (hcapped.round hpos hnonneg).2).trans hshare

/-- Units added up in order never fall, and end at no less than they pass. -/
theorem running_between {units : List Decimal} {soFar final : ℚ} (hunits : ∀ u ∈ units, 0 < u.value)
    (hsoFar : holds soFar = true)
    (h : (units.foldlM (fun acc u => D.op (acc + u.value)) soFar : Attempt Failure ℚ).answer =
      .ok final) :
    soFar ≤ final ∧
      ∀ s ∈ runningUnits D.toDecimalRounding soFar units, soFar ≤ s ∧ s ≤ final := by
  induction units generalizing soFar with
  | nil => exact ⟨(answer_pure.mp h).le, fun s hs => absurd hs List.not_mem_nil⟩
  | cons u units ih =>
    rw [List.foldlM_cons] at h
    obtain ⟨next, hnext, h⟩ := answer_bind.mp h
    obtain ⟨hrange, rfl⟩ := MulDiv.op_answer.mp hnext
    have hstep : soFar ≤ D.round (soFar + u.value) :=
      D.le_round hsoFar (le_add_of_nonneg_right (hunits u List.mem_cons_self).le)
    obtain ⟨hfinal, hrunning⟩ := ih (fun v hv => hunits v (List.mem_cons_of_mem u hv))
      (D.holds_round _ hrange) h
    refine ⟨hstep.trans hfinal, fun s hs => ?_⟩
    rcases List.mem_cons.mp hs with rfl | hs
    · exact ⟨hstep, hfinal⟩
    · exact ⟨hstep.trans (hrunning s hs).1, (hrunning s hs).2⟩

/-- From units whose entitlement is `entitled` the walk moves on towards the total. -/
theorem advance_from (hpos : 0 < unitsTotal.value) {units : List Decimal} {soFar entitled : ℚ}
    (hunits : ∀ u ∈ units, 0 < u.value) (hsoFar : holds soFar = true) (hnonneg : 0 ≤ soFar)
    (hfold : (units.foldlM (fun acc u => D.op (acc + u.value)) soFar : Attempt Failure ℚ).answer =
      .ok unitsTotal.value)
    (hbetween : FigureBetween D.inRange total unitsTotal
      (runningUnits D.toDecimalRounding soFar units))
    (hentitled : entitled ≤ |total.value|)
    (hlast : soFar = unitsTotal.value → entitled = |total.value|)
    (hrises : ∀ s ∈ runningUnits D.toDecimalRounding soFar units, s ≠ unitsTotal.value →
      entitled ≤ size D.toDecimalRounding total unitsTotal s) :
    Advance D.toDecimalRounding total unitsTotal soFar (sign total * entitled) units := by
  induction units generalizing soFar entitled with
  | nil => trivial
  | cons u units ih =>
    have hrest := fun v hv => hunits v (List.mem_cons_of_mem u hv)
    have hrunning := running_between hunits hsoFar hfold
    rw [List.foldlM_cons] at hfold
    obtain ⟨next, hnext, hfold⟩ := answer_bind.mp hfold
    obtain ⟨hin, rfl⟩ := MulDiv.op_answer.mp hnext
    have hholds := D.holds_round _ hin
    have hstep := (hrunning.2 _ List.mem_cons_self).1
    have hlater := (running_between hrest hholds hfold).2
    have hbetween' : FigureBetween D.inRange total unitsTotal
        (runningUnits D.toDecimalRounding (D.round (soFar + u.value)) units) := by
      obtain ⟨between, h⟩ := hbetween
      exact ⟨between, fun s hs => h s (List.mem_cons_of_mem _ hs)⟩
    by_cases hwhole : D.round (soFar + u.value) = unitsTotal.value
    · refine ⟨total.value, ?_, ?_, ?_⟩
      · rw [hwhole]
        exact entitlement_total
      · have htowards := towards_of_le total hentitled
        rwa [← value_sign] at htowards
      · rw [value_sign total]
        refine ih hrest hholds (hnonneg.trans hstep) hfold hbetween' le_rfl (fun _ => rfl) ?_
        -- no units are left short of the sale's
        intro s hs hne
        exact absurd (le_antisymm (hlater s hs).2 (hwhole ▸ (hlater s hs).1)) hne
    · obtain ⟨between, hfigures⟩ := hbetween
      obtain ⟨⟨share, hcapped, hshare⟩, -⟩ := hfigures _ List.mem_cons_self hwhole
      have hnonneg' := hnonneg.trans hstep
      refine ⟨_, (entitlement_iff hwhole).mpr ⟨(hcapped.round hpos hnonneg').1, rfl⟩,
        towards_of_le _ (hrises _ List.mem_cons_self hwhole),
        ih hrest hholds hnonneg' hfold hbetween' (size_le hpos hnonneg' hcapped hshare)
          (fun h => absurd h hwhole) ?_⟩
      intro s hs hne
      exact size_mono hpos ⟨between, hfigures⟩ List.mem_cons_self (List.mem_cons_of_mem _ hs)
        hwhole hne hnonneg' (hlater s hs).1

theorem size_nonneg (hpos : 0 < unitsTotal.value) (hnonneg : 0 ≤ unitsSoFar) :
    0 ≤ size D.toDecimalRounding total unitsTotal unitsSoFar := by
  apply atScale_nonneg
  apply D.round_nonneg
  unfold working
  split
  · exact div_nonneg (D.round_nonneg (mul_nonneg (abs_nonneg _) hnonneg)) hpos.le
  · exact mul_nonneg (D.round_nonneg (div_nonneg (abs_nonneg _) hpos.le)) hnonneg

theorem holds_nought : holds 0 = true := holds_iff.mpr ⟨.zero, Decimal.zero_value⟩

theorem advance_of_figureBetween {units : List Decimal} (hpos : 0 < unitsTotal.value)
    (hunits : ∀ u ∈ units, 0 < u.value)
    (hsum : (D.sum (units.map Decimal.value) : Attempt Failure ℚ).answer = .ok unitsTotal.value)
    (h : FigureBetween D.inRange total unitsTotal (runningUnits D.toDecimalRounding 0 units)) :
    Advance D.toDecimalRounding total unitsTotal 0 0 units := by
  rw [DecimalRounding.sum, List.foldlM_map] at hsum
  have hrunning := (running_between hunits holds_nought hsum).2
  have hadvance := advance_from hpos hunits holds_nought le_rfl hsum h (abs_nonneg _)
    (fun h => absurd h hpos.ne) (fun s hs _ => size_nonneg hpos (hrunning s hs).1)
  rwa [mul_zero] at hadvance

/-- Entitlements that rise to the total are never past it. -/
theorem le_of_advance (htotal : 0 ≤ total.value) {units : List Decimal} {soFar entitled : ℚ}
    (hfold : (units.foldlM (fun acc u => D.op (acc + u.value)) soFar : Attempt Failure ℚ).answer =
      .ok unitsTotal.value)
    (hlast : soFar = unitsTotal.value → entitled = total.value)
    (h : Advance D.toDecimalRounding total unitsTotal soFar entitled units) :
    entitled ≤ total.value ∧ ∀ s ∈ runningUnits D.toDecimalRounding soFar units, ∃ e ≤ total.value,
      (entitlement D.toDecimalRounding total unitsTotal s).answer = .ok e := by
  induction units generalizing soFar entitled with
  | nil =>
    exact ⟨(hlast (answer_pure.mp hfold)).le, fun s hs => absurd hs List.not_mem_nil⟩
  | cons u units ih =>
    rw [List.foldlM_cons] at hfold
    obtain ⟨next, hnext, hfold⟩ := answer_bind.mp hfold
    obtain rfl := (MulDiv.op_answer.mp hnext).2
    obtain ⟨e, he, htowards, hrest⟩ := h
    rw [if_pos htotal] at htowards
    have hlast' : D.round (soFar + u.value) = unitsTotal.value → e = total.value := by
      intro heq
      rw [heq, entitlement_total] at he
      exact (Except.ok.inj he).symm
    obtain ⟨hle, hrunning⟩ := ih hfold hlast' hrest
    refine ⟨htowards.trans hle, fun s hs => ?_⟩
    rcases List.mem_cons.mp hs with rfl | hs
    · exact ⟨e, hle, he⟩
    · exact hrunning s hs

theorem not_addUp_of_beyond {units : List Decimal} (htotal : 0 ≤ total.value)
    (hpos : 0 < unitsTotal.value) (hunits : ∀ u ∈ units, 0 < u.value)
    (hsum : (D.sum (units.map Decimal.value) : Attempt Failure ℚ).answer = .ok unitsTotal.value)
    (h : FigureBeyond D.inRange total unitsTotal (runningUnits D.toDecimalRounding 0 units)) :
    ¬ AddUp D.toDecimalRounding total unitsTotal units := by
  obtain ⟨s, hs, hne, share, hreached, hbeyond⟩ := h
  intro hadd
  rw [DecimalRounding.sum, List.foldlM_map] at hsum
  have hnonneg := ((running_between hunits holds_nought hsum).2 s hs).1
  obtain ⟨e, hle, he⟩ := (le_of_advance htotal hsum (fun h => absurd h hpos.ne)
    (advance_of_addUp htotal hadd)).2 s hs
  obtain ⟨-, rfl⟩ := (entitlement_iff hne).mp he
  have hsize := atScale_mono (shareGridScale total) (hreached.round hpos hnonneg)
  rw [sign, if_pos htotal, Int.cast_one, one_mul, size] at hle
  rw [abs_of_nonneg htotal] at hbeyond
  exact absurd (hsize.trans hle) (not_le.mpr hbeyond)

end Between

/-- The shares add up where a figure lies between the entitlements, none past the
total, and a total that is not negative is not handed out so where one is. -/
theorem shares_addUp_of_figures (D : SignedRounding) (total unitsTotal : Decimal)
    (units : List Decimal) (hpos : 0 < unitsTotal.value) (hunits : ∀ u ∈ units, 0 < u.value)
    (hsum : (D.sum (units.map Decimal.value) : Attempt Failure ℚ).answer = .ok unitsTotal.value) :
    (FigureBetween D.inRange total unitsTotal (runningUnits D.toDecimalRounding 0 units) →
        AddUp D.toDecimalRounding total unitsTotal units) ∧
      (0 ≤ total.value →
        FigureBeyond D.inRange total unitsTotal (runningUnits D.toDecimalRounding 0 units) →
          ¬ AddUp D.toDecimalRounding total unitsTotal units) :=
  ⟨fun h => addUp_of_advance hpos hsum (advance_of_figureBetween hpos hunits hsum h),
    fun htotal h => not_addUp_of_beyond htotal hpos hunits hsum h⟩

/-! ### Two allocations -/

def dollars : Decimal := ⟨15, 0, Apportionment.fifteen_mantissa_lt, Decimal.no_scale_le⟩

def largest : Decimal := ⟨2 ^ 96 - 1, 0, Apportionment.largest_mantissa_lt, Decimal.no_scale_le⟩

def allButOne : Decimal := ⟨2 ^ 96 - 2, 0, by decide, Decimal.no_scale_le⟩

def oneUnit : Decimal := ⟨1, 0, Decimal.one_mantissa_lt, Decimal.no_scale_le⟩

theorem dollars_value : dollars.value = 15 := by simp [dollars, Decimal.value]

theorem sum_largest : (halfEvenRounding.sum ([allButOne, oneUnit].map Decimal.value) :
    Attempt Failure ℚ).answer = .ok largest.value := by
  decide +kernel

theorem dollars_grid : shareGridScale dollars = 25 := by
  have hfloor : ⌊|dollars.value|⌋₊ = 15 := by
    rw [dollars_value, abs_of_pos (by norm_num)]
    exact Nat.floor_ofNat 15
  rw [shareGridScale, integerDigits, hfloor]
  norm_num [dollars, normalize]

theorem allButOne_entitlement {next : ℚ}
    (h : (entitlement halfEvenRounding dollars largest (halfEvenRounding.round (0 + allButOne.value))).answer =
      .ok next) : dollars.value < next := by
  have hround : halfEvenRounding.round (0 + allButOne.value) = allButOne.value := by
    rw [zero_add]
    exact halfEvenRounding.round_value allButOne
  have hne : allButOne.value ≠ largest.value := by simp [allButOne, largest, Decimal.value]
  have hmul : (halfEvenRounding.mulDiv dollars.value allButOne.value largest.value :
      Attempt Failure ℚ).answer = .ok (15845632502852867518708790067 / 10 ^ 27) := by
    decide +kernel
  rw [hround, entitlement, if_neg hne] at h
  obtain ⟨s, hs, h⟩ := answer_bind.mp h
  obtain rfl := Except.ok.inj (hs.symm.trans hmul)
  obtain rfl := answer_pure.mp h
  rw [dollars_grid]
  decide +kernel

theorem shares_addUp_of_figures_largest :
    (FigureBetween halfEvenSigned.inRange dollars largest
          (runningUnits halfEvenRounding 0 [allButOne, oneUnit]) →
        AddUp halfEvenRounding dollars largest [allButOne, oneUnit]) ∧
      (0 ≤ dollars.value →
        FigureBeyond halfEvenSigned.inRange dollars largest
          (runningUnits halfEvenRounding 0 [allButOne, oneUnit]) →
            ¬ AddUp halfEvenRounding dollars largest [allButOne, oneUnit]) :=
  shares_addUp_of_figures halfEvenSigned dollars largest [allButOne, oneUnit]
    (by norm_num [largest, Decimal.value]) (by norm_num [allButOne, oneUnit, Decimal.value]) sum_largest

/-- The first allocation is given more than the total, and the last is charged. -/
theorem share_below_nought :
    ¬ ∀ (total unitsTotal : Decimal) (units : List Decimal), 0 < unitsTotal.value →
      (∀ u ∈ units, 0 < u.value) →
      (halfEvenRounding.sum (units.map Decimal.value) : Attempt Failure ℚ).answer =
        .ok unitsTotal.value → AddUp halfEvenRounding total unitsTotal units := by
  intro h
  have htotal : 0 ≤ dollars.value := by norm_num [dollars_value]
  have hadd := h dollars largest [allButOne, oneUnit] (by norm_num [largest, Decimal.value])
    (by norm_num [allButOne, oneUnit, Decimal.value]) sum_largest
  obtain ⟨next, hnext, -, last, hlast, hle, -⟩ := advance_of_addUp htotal hadd
  have hover := allButOne_entitlement hnext
  have hround : halfEvenRounding.round (halfEvenRounding.round (0 + allButOne.value) + oneUnit.value) =
      largest.value := by decide +kernel
  rw [hround, entitlement_total] at hlast
  obtain rfl := Except.ok.inj hlast
  rw [if_pos htotal] at hle
  exact absurd hle (not_le.mpr hover)

end ShareTracker.CumulativeShares
