import Mathlib
import ShareTracker.BrowserDecimals
import ShareTracker.Decimal
import ShareTracker.FigureSums

/-! The per-share cross-check of an income row, on the form and at the server.
The form multiplies integers of any length and rounds once; the server's product
is kept to the places a figure has before it is rounded to the cent. -/
namespace ShareTracker.PerShare
open DecimalText Web ScaledRounding

/-! ### The form -/

def divToCents (num den : ℤ) : List Char :=
  let cents := List.leftpad 3 '0' (bigIntText ((num * 200 + den).tdiv (den * 2)))
  cents.take (cents.length - 2) ++ '.' :: cents.drop (cents.length - 2)

def mulToCents (a b : List Char) : Option (List Char) := do
  let pa ← decParts a
  let pb ← decParts b
  return divToCents (pa.1 * pb.1) (10 ^ (pa.2 + pb.2))

/-- Units at `curDp` places as units at `dp` of them, halves away from zero. -/
def roundUnits (units : ℤ) (curDp dp : ℕ) : ℤ :=
  if curDp ≤ dp then units * 10 ^ (dp - curDp)
  else
    let div := 10 ^ (curDp - dp)
    if div ≤ units.tmod div * 2 then units.tdiv div + 1 else units.tdiv div

def roundDecimalStr (value : List Char) (dp : ℕ) : Option (List Char) := do
  let s := trim value
  let neg := s.head? == some '-'
  let s := if s.head? = some '+' ∨ neg then s.tail else s
  if !isUnsigned s then none
  let units := roundUnits (← bigInt (s.erase '.')) (DecimalText.dp s) dp
  let str := bigIntText units
  let padded := List.leftpad (dp + 1) '0' str
  let str :=
    if 0 < dp then padded.take (padded.length - dp) ++ '.' :: padded.drop (padded.length - dp)
    else str
  return sign (neg && units != 0) ++ str

/-! ### The server -/

/-- The step of the 28th place. -/
def lastPlace : ℚ := 1 / 10 ^ 28

/-- `FromStr`: a text of at most 28 significant digits is read to 28 places, halves
away from zero; one past the range is refused. -/
def readDecimal (s : List Char) : Option Decimal :=
  if isDecimal s then figureAt 28 (Grid.roundAway lastPlace (value s)) else none

inductive PerShareError
  | suppliedAlone
  | productMismatch (product : ℚ)
  deriving DecidableEq

/-- The product to the cent; none where the multiplication panics. -/
def perShareProduct (aps held : Decimal) : Option ℚ :=
  (halfEvenArithmetic.mul aps held).map fun product => toCents product.value

structure Income where
  amountPerSecurity : Option Decimal
  securitiesHeld : Option Decimal
  frankedAmount : Decimal
  unfrankedAmount : Decimal
  foreignSourceIncome : Decimal

def Income.grossCashIncome (income : Income) : Option Decimal := do
  let cash ← halfEvenArithmetic.add income.frankedAmount income.unfrankedAmount
  halfEvenArithmetic.add cash income.foreignSourceIncome

def checkPerShare (income : Income) : Option (Except PerShareError Unit) :=
  match income.amountPerSecurity, income.securitiesHeld with
  | none, none => some (.ok ())
  | some aps, some held => do
      let product ← perShareProduct aps held
      let gross ← income.grossCashIncome
      return if product ≠ gross.value then .error (.productMismatch product) else .ok ()
  | _, _ => some (.error .suppliedAlone)

/-- The row the form posts for an amount with its per-share figures: fully franked,
or the whole of it unfranked. -/
def posted (aps held amount : Decimal) (fullyFranked : Bool) : Income where
  amountPerSecurity := some aps
  securitiesHeld := some held
  frankedAmount := if fullyFranked then amount else .zero
  unfrankedAmount := if fullyFranked then .zero else amount
  foreignSourceIncome := .zero

/-! ### Agreement -/

/-- At most 28 significant digits, zeros at either end not counted. -/
def Significant (s : List Char) : Prop := ∃ (m : ℕ) (e : ℤ), m < 10 ^ 28 ∧ |value s| = m * 10 ^ e

/-- The form's figure is the server's product, and posted as the amount it passes. -/
def ProductAgrees (a b : List Char) : Prop :=
  ∃ aps held product total amount, readDecimal a = some aps ∧ readDecimal b = some held ∧
    perShareProduct aps held = some product ∧ mulToCents a b = some total ∧
    value total = product ∧ readDecimal total = some amount ∧
    ∀ fullyFranked, checkPerShare (posted aps held amount fullyFranked) = some (.ok ())

/-- The browser's display of a figure to the cent is the server's. -/
def CentsAgree (s : List Char) : Prop :=
  ∃ figure shown, readDecimal s = some figure ∧ roundDecimalStr s 2 = some shown ∧
    value shown = toCents figure.value

/-- The half cents, where rounding to the cent turns. -/
def halfCent (k : ℕ) : ℚ := (2 * k + 1) / 200

/-- What a figure keeps of an exact result. -/
def kept (q : ℚ) : ℚ := toFinest (2 ^ 96) 28 q

/-- A text's value to 28 places. -/
def asRead (s : List Char) : ℚ := Grid.roundAway lastPlace (value s)

/-- Some half cent parts the two amounts. -/
def Parted (q r : ℚ) : Prop := ∃ k, (q < halfCent k ∧ halfCent k ≤ r) ∨ (r < halfCent k ∧ halfCent k ≤ q)

section Cents

theorem halfCent_le_iff {x : ℚ} {k : ℕ} : halfCent k ≤ x ↔ (k : ℤ) < ⌊x / cent + 1 / 2⌋ := by
  rw [Int.lt_iff_add_one_le, Int.le_floor, halfCent, cent]
  push_cast
  constructor <;> intro h <;> linarith

theorem toCents_floor {x : ℚ} (hx : 0 ≤ x) : toCents x = ⌊x / cent + 1 / 2⌋ * cent := if_pos hx

theorem floor_nonneg {x : ℚ} (hx : 0 ≤ x) : 0 ≤ ⌊x / cent + 1 / 2⌋ := by
  apply Int.floor_nonneg.mpr
  have hdiv : 0 ≤ x / cent := div_nonneg hx cent_pos.le
  linarith

/-- Amounts round to one cent exactly where no half cent parts them. -/
theorem toCents_eq_iff {x y : ℚ} (hx : 0 ≤ x) (hy : 0 ≤ y) : toCents x = toCents y ↔ ¬ Parted x y := by
  rw [toCents_floor hx, toCents_floor hy, mul_left_inj' cent_pos.ne', Int.cast_inj]
  have hfx := floor_nonneg hx
  have hfy := floor_nonneg hy
  constructor
  · rintro heq ⟨k, h | h⟩
    · have hle := halfCent_le_iff.mp h.2
      rw [← heq] at hle
      exact absurd (halfCent_le_iff.mpr hle) (not_le.mpr h.1)
    · have hle := halfCent_le_iff.mp h.2
      rw [heq] at hle
      exact absurd (halfCent_le_iff.mpr hle) (not_le.mpr h.1)
  · intro hnot
    by_contra hne
    -- the half cent below the larger count parts the amounts
    rcases lt_or_gt_of_ne hne with hlt | hgt
    · obtain ⟨k, hk⟩ := Int.eq_ofNat_of_zero_le hfx
      refine hnot ⟨k, .inl ⟨not_le.mp fun hle => ?_, halfCent_le_iff.mpr (by omega)⟩⟩
      have hlt' := halfCent_le_iff.mp hle
      omega
    · obtain ⟨k, hk⟩ := Int.eq_ofNat_of_zero_le hfy
      refine hnot ⟨k, .inr ⟨not_le.mp fun hle => ?_, halfCent_le_iff.mpr (by omega)⟩⟩
      have hlt' := halfCent_le_iff.mp hle
      omega

theorem toCents_neg (x : ℚ) : toCents (-x) = -toCents x := Grid.roundAway_neg cent_pos

end Cents

section Written

/-- Digits with a point before the last `scale` of them. -/
def pointed (neg : Bool) (m scale : ℕ) : List Char :=
  sign neg ++ (wholeOf m scale ++ '.' :: placesOf m scale)

theorem spelt_pointed (neg : Bool) (m : ℕ) {scale : ℕ} (h : 0 < scale) :
    Spelt (pointed neg m scale) neg (wholeOf m scale) (placesOf m scale) := by
  have hplaces : placesOf m scale ≠ [] := by
    intro hnil
    have hlen := length_placesOf m scale
    rw [hnil, List.length_nil] at hlen
    omega
  refine ⟨?_, digits_placesOf m scale, ?_, ?_⟩
  · rw [wholeOf_eq]
    exact digits_toDigits _
  · rw [wholeOf_eq]
    exact Nat.toDigits_ne_nil
  · rw [pointed, point_cons hplaces]

theorem value_pointed (neg : Bool) (m : ℕ) {scale : ℕ} (h : 0 < scale) :
    value (pointed neg m scale) = (if neg then -1 else 1) * m / 10 ^ scale := by
  rw [(spelt_pointed neg m h).value_eq, wholeOf_append_placesOf, natOf_padded, length_placesOf]

theorem bigIntText_natCast (n : ℕ) : bigIntText (n : ℤ) = Nat.toDigits 10 n := by
  have hneg : decide ((n : ℤ) < 0) = false := decide_eq_false (by omega)
  rw [bigIntText, hneg, Int.natAbs_natCast]
  rfl

theorem floor_div_half (num den : ℕ) (h : 0 < den) :
    ⌊(num : ℚ) / den / cent + 1 / 2⌋ = ((num * 200 + den) / (den * 2) : ℕ) := by
  have hden : (den : ℚ) ≠ 0 := by exact_mod_cast h.ne'
  have hq : (num : ℚ) / den / cent + 1 / 2 = ((num * 200 + den : ℕ) : ℤ) / ((den * 2 : ℕ) : ℚ) := by
    rw [cent]
    push_cast
    field_simp
    ring
  rw [hq, Rat.floor_intCast_div_natCast, Int.natCast_div]

theorem divToCents_eq (num den : ℕ) :
    divToCents num den = pointed false ((num * 200 + den) / (den * 2)) 2 := by
  have hcast : ((num : ℤ) * 200 + den).tdiv (den * 2) = ((num * 200 + den) / (den * 2) : ℕ) := by
    rw [Int.tdiv_eq_ediv_of_nonneg (by positivity)]
    push_cast
    rfl
  rw [divToCents, hcast, bigIntText_natCast]
  rfl

theorem divToCents_value (num den : ℕ) (h : 0 < den) :
    value (divToCents num den) = toCents (num / den) := by
  have hnonneg : (0 : ℚ) ≤ num / den := by positivity
  rw [divToCents_eq, value_pointed false _ (by decide), toCents_floor hnonneg, floor_div_half num den h,
    Int.cast_natCast, if_neg Bool.false_ne_true, one_mul, cent]
  ring

/-- The form multiplies unsigned texts, and only those. -/
theorem mulToCents_some {a b total : List Char} (h : mulToCents a b = some total) (ha : isDecimal a = true)
    (hb : isDecimal b = true) :
    isUnsigned a = true ∧ isUnsigned b = true ∧ isDecimal total = true ∧
      value total = toCents (value a * value b) := by
  obtain ⟨pa, hpa, h⟩ := Option.bind_eq_some_iff.mp h
  obtain ⟨pb, hpb, h⟩ := Option.bind_eq_some_iff.mp h
  have htotal := Option.some.inj h
  have hunsigned : ∀ {s : List Char} {p : ℤ × ℕ}, isDecimal s = true → decParts s = some p →
      ∃ whole places, Spelt s false whole places ∧
        p = ((natOf (whole ++ places) : ℤ), places.length) := by
    intro s p hs hp
    obtain ⟨_, _, _, hspelt⟩ := isDecimal_iff.mp hs
    by_cases hu : isUnsigned s = true
    · obtain ⟨whole, places, hplain⟩ := isUnsigned_iff.mp hu
      refine ⟨whole, places, hplain, ?_⟩
      rw [decParts_of_unsigned hplain] at hp
      exact (Option.some.inj hp).symm
    · rw [decParts, trim_of_spelt hspelt, if_neg hu] at hp
      cases hp
  obtain ⟨wa, la, hsa, rfl⟩ := hunsigned ha hpa
  obtain ⟨wb, lb, hsb, rfl⟩ := hunsigned hb hpb
  refine ⟨isUnsigned_iff.mpr ⟨wa, la, hsa⟩, isUnsigned_iff.mpr ⟨wb, lb, hsb⟩, ?_, ?_⟩
  · have htext := divToCents_eq (natOf (wa ++ la) * natOf (wb ++ lb)) (10 ^ (la.length + lb.length))
    push_cast at htext
    rw [← htotal, htext]
    exact isDecimal_iff.mpr ⟨_, _, _, spelt_pointed false _ (by decide)⟩
  have hden : 0 < 10 ^ (la.length + lb.length) := by positivity
  have hvalue := divToCents_value (natOf (wa ++ la) * natOf (wb ++ lb)) _ hden
  rw [← htotal]
  push_cast at hvalue
  rw [hvalue, hsa.value_eq, hsb.value_eq, if_neg Bool.false_ne_true, one_mul, one_mul, div_mul_div_comm,
    pow_add]

theorem exists_mulToCents {a b : List Char} (ha : isUnsigned a = true) (hb : isUnsigned b = true) :
    ∃ total, mulToCents a b = some total := by
  obtain ⟨wa, la, hsa⟩ := isUnsigned_iff.mp ha
  obtain ⟨wb, lb, hsb⟩ := isUnsigned_iff.mp hb
  rw [mulToCents, decParts_of_unsigned hsa, decParts_of_unsigned hsb]
  exact ⟨_, rfl⟩

end Written

section Display

/-- Adding one where the remainder is half the divisor or more rounds halves up. -/
theorem half_up (u d : ℕ) (hd : 0 < d) :
    (if d ≤ u % d * 2 then u / d + 1 else u / d) = (u * 2 + d) / (d * 2) := by
  have hmod := Nat.mod_lt u hd
  have hsplit : u * 2 + d = d * 2 * (u / d) + (u % d * 2 + d) := by
    conv_lhs => rw [← Nat.div_add_mod u d]
    ring
  rw [hsplit, Nat.mul_add_div (by omega)]
  split
  · next h =>
      have hone : (u % d * 2 + d) / (d * 2) = 1 := Nat.div_eq_of_lt_le (by omega) (by omega)
      rw [hone]
  · next h =>
      have hnone : (u % d * 2 + d) / (d * 2) = 0 := Nat.div_eq_of_lt (by omega)
      rw [hnone, add_zero]

theorem floor_half_up (u d : ℕ) (hd : 0 < d) :
    ⌊(u : ℚ) / d + 1 / 2⌋ = ((u * 2 + d) / (d * 2) : ℕ) := by
  have hdq : (d : ℚ) ≠ 0 := by exact_mod_cast hd.ne'
  have hq : (u : ℚ) / d + 1 / 2 = ((u * 2 + d : ℕ) : ℤ) / ((d * 2 : ℕ) : ℚ) := by
    push_cast
    field_simp
  rw [hq, Rat.floor_intCast_div_natCast, Int.natCast_div]

theorem roundUnits_natCast (units curDp : ℕ) :
    roundUnits units curDp 2 = ⌊(units : ℚ) / 10 ^ curDp / cent + 1 / 2⌋ := by
  unfold roundUnits
  split
  · next hle =>
      have hq : (units : ℚ) / 10 ^ curDp / cent = ((units * 10 ^ (2 - curDp) : ℕ) : ℤ) := by
        have hten : (10 : ℚ) ^ curDp * 10 ^ (2 - curDp) = 100 := by
          rw [← pow_add, Nat.add_sub_cancel' hle]
          norm_num
        rw [cent]
        push_cast
        field_simp
        rw [mul_assoc, hten]
      rw [hq, Int.floor_intCast_add, show ⌊(1 / 2 : ℚ)⌋ = 0 by norm_num, add_zero]
      push_cast
      rfl
  · next hlt =>
      obtain ⟨extra, rfl⟩ := Nat.exists_eq_add_of_le (not_le.mp hlt).le
      have hq : (units : ℚ) / 10 ^ (2 + extra) / cent = units / ((10 ^ extra : ℕ) : ℚ) := by
        rw [cent, pow_add]
        push_cast
        field_simp
        norm_num
      have hpos : (0 : ℤ) ≤ units := by positivity
      have hdiv : (10 : ℤ) ^ extra = ((10 ^ extra : ℕ) : ℤ) := by push_cast; rfl
      rw [hq, floor_half_up units _ (by positivity), ← half_up units _ (by positivity),
        Nat.add_sub_cancel_left]
      dsimp only
      rw [hdiv, Int.tdiv_eq_ediv_of_nonneg hpos, Int.tmod_eq_emod_of_nonneg hpos]
      by_cases hhalf : 10 ^ extra ≤ units % 10 ^ extra * 2
      · rw [if_pos hhalf, if_pos (by exact_mod_cast hhalf)]
        push_cast
        rfl
      · rw [if_neg hhalf, if_neg (by exact_mod_cast hhalf)]
        push_cast
        rfl

theorem trim_plus_of_spelt {s whole places : List Char} {neg : Bool} (h : Spelt s neg whole places) :
    s.head? ≠ some '+' := by
  rw [h.text]
  cases neg with
  | true => simp [sign]
  | false =>
    cases hwhole : whole with
    | nil => exact absurd hwhole h.whole_ne_nil
    | cons c rest =>
      have hdigit := h.whole_digits c (hwhole ▸ List.mem_cons_self)
      simp only [sign, Bool.false_eq_true, if_false, List.nil_append, List.cons_append,
        List.head?_cons, ne_eq, Option.some.injEq]
      rintro rfl
      cases hdigit

/-- The browser shows any decimal to the cent, halves away from zero. -/
theorem roundDecimalStr_value {s : List Char} (h : isDecimal s = true) :
    ∃ shown, roundDecimalStr s 2 = some shown ∧ value shown = toCents (value s) := by
  obtain ⟨neg, whole, places, hs⟩ := isDecimal_iff.mp h
  have hplus := trim_plus_of_spelt hs
  have hhead := head_signed hs.whole_digits hs.whole_ne_nil neg places
  rw [← hs.text] at hhead
  have hneg : (s.head? == some '-') = neg := by
    cases neg with
    | true => exact beq_iff_eq.mpr (hhead.mpr rfl)
    | false => exact beq_eq_false_iff_ne.mpr (mt hhead.mp Bool.false_ne_true)
  have hbody : (if s.head? = some '+' ∨ neg = true then s.tail else s) = magnitude s := by
    rw [magnitude]
    refine if_congr ?_ rfl rfl
    rw [or_iff_right hplus, hhead]
  have hplain := hs.unsigned
  have hunsigned : isUnsigned (magnitude s) = true := isUnsigned_iff.mpr ⟨whole, places, hplain⟩
  have hunits : bigInt ((magnitude s).erase '.') = some ((natOf (whole ++ places) : ℕ) : ℤ) := by
    rw [hplain.erase_eq]
    have hread := bigInt_signed (hs.whole_digits.append hs.places_digits)
      (List.append_ne_nil_of_left_ne_nil hs.whole_ne_nil _) false
    simpa using hread
  set u := natOf (whole ++ places) with hu
  have hq : (0 : ℚ) ≤ (u : ℚ) / 10 ^ places.length := by positivity
  obtain ⟨m, hm⟩ := Int.eq_ofNat_of_zero_le (floor_nonneg hq)
  have hround : roundUnits (u : ℤ) (DecimalText.dp (magnitude s)) 2 = (m : ℤ) := by
    rw [hplain.dp_eq, roundUnits_natCast]
    exact hm
  have hshown : roundDecimalStr s 2 = some (pointed (neg && (m : ℤ) != 0) m 2) := by
    simp only [roundDecimalStr, trim_of_spelt hs, hneg, hbody, hunsigned, hunits, hround,
      Option.bind_eq_bind, Option.bind_some, bigIntText_natCast]
    rfl
  refine ⟨_, hshown, ?_⟩
  rw [value_pointed _ _ (by decide), hs.value_eq, mul_div_assoc, mul_div_assoc]
  have hcents : toCents ((u : ℚ) / 10 ^ places.length) = m / 10 ^ 2 := by
    rw [toCents_floor hq, hm, cent, Int.cast_natCast]
    ring
  cases neg with
  | false =>
    simp only [Bool.false_and, Bool.false_eq_true, if_false, one_mul]
    exact hcents.symm
  | true =>
    simp only [if_true, neg_one_mul, Bool.true_and]
    rw [toCents_neg, ← hu, hcents]
    by_cases hzero : (m : ℤ) = 0
    · have hm0 : (m : ℚ) = 0 := by exact_mod_cast hzero
      rw [hm0, zero_div, mul_zero, neg_zero]
    · rw [bne_iff_ne.mpr hzero, if_pos rfl, neg_one_mul]

end Display

section Reading

theorem lastPlace_pos : 0 < lastPlace := by norm_num [lastPlace]

theorem on_lastPlace (m : ℤ) {k : ℕ} (hk : k ≤ 28) : Grid.On lastPlace ((m : ℚ) / 10 ^ k) := by
  refine ⟨m * 10 ^ (28 - k), ?_⟩
  rw [rescaled m k (28 - k), Nat.add_sub_cancel' hk, lastPlace]
  ring

theorem natAbs_lt_of_abs {n : ℤ} {bound : ℕ} (h : |n| < bound) : n.natAbs < bound := by
  rw [Int.abs_eq_natAbs] at h
  exact_mod_cast h

theorem asRead_scaled (s : List Char) : ∃ n : ℤ, asRead s = n / 10 ^ 28 := by
  obtain ⟨n, hn⟩ := Grid.roundAway_on lastPlace (value s)
  refine ⟨n, ?_⟩
  rw [asRead, hn, lastPlace]
  ring

/-- A text of up to 28 places is read as it stands. -/
theorem asRead_of_places {s : List Char} {m : ℤ} {k : ℕ} (hk : k ≤ 28) (h : value s = m / 10 ^ k) :
    asRead s = m / 10 ^ k := by
  rw [asRead, h, Grid.roundAway_of_on lastPlace_pos (on_lastPlace m hk)]

theorem abs_asRead_le_one {s : List Char} (h : |value s| ≤ 1) : |asRead s| ≤ 1 := by
  have hon : Grid.On lastPlace 1 := by
    have hone := on_lastPlace 1 (Nat.zero_le 28)
    simpa using hone
  have hup := Grid.roundAway_mono lastPlace_pos (abs_le.mp h).2
  have hdown := Grid.roundAway_mono lastPlace_pos (abs_le.mp h).1
  rw [Grid.roundAway_of_on lastPlace_pos hon] at hup
  rw [Grid.roundAway_of_on lastPlace_pos hon.neg] at hdown
  exact abs_le.mpr ⟨hdown, hup⟩

/-- A text of 28 significant digits is a whole number, or smaller than any past the range. -/
theorem Significant.cases {s : List Char} (h : Significant s) :
    (∃ n : ℤ, value s = n) ∨ ((∃ m : ℤ, ∃ k ≤ 28, m.natAbs < 10 ^ 28 ∧ value s = m / 10 ^ k) ∨
      |value s| < 1) := by
  obtain ⟨m, e, hm, hvalue⟩ := h
  obtain ⟨sgn, hsgn, hsigned⟩ : ∃ sgn : ℤ, sgn.natAbs = 1 ∧ value s = sgn * |value s| := by
    rcases abs_choice (value s) with habs | habs
    · exact ⟨1, rfl, by rw [Int.cast_one, one_mul, habs]⟩
    · exact ⟨-1, rfl, by rw [habs]; push_cast; ring⟩
  rw [hvalue] at hsigned
  rcases Int.eq_nat_or_neg e with ⟨k, rfl | rfl⟩
  · refine .inl ⟨sgn * (m * 10 ^ k : ℕ), ?_⟩
    rw [hsigned, zpow_natCast]
    push_cast
    rfl
  · rcases Nat.lt_or_ge 28 k with hbig | hsmall
    · refine .inr (.inr ?_)
      rw [hvalue, zpow_neg, zpow_natCast, ← div_eq_mul_inv, div_lt_one (by positivity)]
      calc (m : ℚ) < 10 ^ 28 := by exact_mod_cast hm
        _ ≤ 10 ^ k := pow_le_pow_right₀ (by norm_num) hbig.le
    · refine .inr (.inl ⟨sgn * m, k, hsmall, ?_, ?_⟩)
      · rw [Int.natAbs_mul, hsgn, one_mul]
        exact hm
      · rw [hsigned, zpow_neg, zpow_natCast]
        push_cast
        ring

theorem holds_asRead {s : List Char} (hsig : Significant s) (hlt : |value s| < 2 ^ 96) :
    holds (asRead s) = true := by
  rcases hsig.cases with ⟨n, hn⟩ | ⟨m, k, hk, hm, hvalue⟩ | hone
  · have hread := asRead_of_places (m := n) (Nat.zero_le 28) (by rw [hn, pow_zero, div_one])
    rw [hn] at hlt
    exact holds_of_scaled hread (by decide) (natAbs_lt_of_abs (by exact_mod_cast hlt))
  · exact holds_of_scaled (asRead_of_places hk hvalue) hk (hm.trans (by norm_num))
  · obtain ⟨n, hn⟩ := asRead_scaled s
    have hbound := abs_asRead_le_one hone.le
    rw [hn, abs_div, abs_of_pos (by positivity : (0 : ℚ) < 10 ^ 28), div_le_one (by positivity)] at hbound
    have hint : |n| ≤ 10 ^ 28 := by exact_mod_cast hbound
    exact holds_of_scaled hn (by decide) (natAbs_lt_of_abs (hint.trans_lt (by norm_num)))

/-- A text within the range is read to 28 places. -/
theorem readDecimal_of_lt {s : List Char} (hs : isDecimal s = true) (hsig : Significant s)
    (hlt : |value s| < 2 ^ 96) : ∃ d, readDecimal s = some d ∧ d.value = asRead s := by
  have hholds := holds_asRead hsig hlt
  obtain ⟨n, hscaled⟩ := asRead_scaled s
  obtain ⟨e, he⟩ := holds_iff.mp hholds
  have hfits : fits (2 ^ 96) 0 (asRead s) = true := he ▸ halfEvenRounding.inRange_value e
  have hread : figureAt 28 (asRead s) ≠ none := by
    rw [figureAt, if_pos hfits]
    exact Option.some_ne_none _
  obtain ⟨d, hd⟩ := Option.ne_none_iff_exists'.mp hread
  refine ⟨d, ?_, ?_⟩
  · rw [readDecimal, if_pos hs]
    exact hd
  · rw [figureAt_value hscaled hd]
    exact halfEvenRounding.round_holds hholds

theorem lt_of_readDecimal {s : List Char} (hsig : Significant s) {d : Decimal}
    (h : readDecimal s = some d) : |value s| < 2 ^ 96 := by
  have hfits : fits (2 ^ 96) 0 (asRead s) = true := by
    rw [readDecimal] at h
    split at h
    · rw [figureAt] at h
      split at h
      · assumption
      · cases h
    · cases h
  rcases hsig.cases with ⟨n, hn⟩ | ⟨m, k, hk, hm, hvalue⟩ | hone
  · have hread := asRead_of_places (m := n) (Nat.zero_le 28) (by rw [hn, pow_zero, div_one])
    have hmant := of_decide_eq_true hfits
    rw [hread, pow_zero, mul_one, div_one, halfEven_intCast] at hmant
    have hint : |n| < 2 ^ 96 := by
      rw [Int.abs_eq_natAbs]
      exact_mod_cast hmant
    rw [hn]
    exact_mod_cast hint
  · rw [hvalue, abs_div, abs_of_pos (by positivity : (0 : ℚ) < 10 ^ k)]
    have hint : |m| < 2 ^ 96 := by
      rw [Int.abs_eq_natAbs]
      exact_mod_cast hm.trans (by norm_num)
    have habs : |(m : ℚ)| < 2 ^ 96 := by exact_mod_cast hint
    exact (div_le_self (abs_nonneg _) (one_le_pow₀ (by norm_num))).trans_lt habs
  · exact hone.trans (by norm_num)

theorem value_readDecimal {s : List Char} (hs : isDecimal s = true) (hsig : Significant s)
    {d : Decimal} (h : readDecimal s = some d) : d.value = asRead s := by
  obtain ⟨e, he, hvalue⟩ := readDecimal_of_lt hs hsig (lt_of_readDecimal hsig h)
  rw [he] at h
  obtain rfl := Option.some.inj h
  exact hvalue

end Reading

section Agreement

theorem on_lastPlace_halfCent (k : ℕ) : Grid.On lastPlace (halfCent k) := by
  have hscaled : halfCent k = ((2 * k + 1) * 5 : ℤ) / 10 ^ 3 := by
    rw [halfCent]
    push_cast
    ring
  rw [hscaled]
  exact on_lastPlace _ (by decide)

/-- Reading to 28 places brings an amount to a half cent from half a step below. -/
theorem halfCent_le_read {x : ℚ} (hx : 0 ≤ x) (k : ℕ) :
    halfCent k ≤ Grid.roundAway lastPlace x ↔ halfCent k ≤ x + lastPlace / 2 := by
  have hround : Grid.roundAway lastPlace x = Grid.floorOn lastPlace (x + lastPlace / 2) :=
    Grid.roundAway_eq_floorOn lastPlace_pos hx
  rw [hround]
  exact ⟨fun h => h.trans (Grid.floorOn_le lastPlace_pos _),
    Grid.le_floorOn lastPlace_pos (on_lastPlace_halfCent k)⟩

theorem parted_read_iff {x : ℚ} (hx : 0 ≤ x) :
    Parted x (Grid.roundAway lastPlace x) ↔
      ∃ k, x < halfCent k ∧ halfCent k ≤ x + lastPlace / 2 := by
  constructor
  · rintro ⟨k, h | h⟩
    · exact ⟨k, h.1, (halfCent_le_read hx k).mp h.2⟩
    · have hreach : halfCent k ≤ x + lastPlace / 2 :=
        h.2.trans (le_add_of_nonneg_right (div_nonneg lastPlace_pos.le (by norm_num)))
      exact absurd ((halfCent_le_read hx k).mpr hreach) (not_le.mpr h.1)
  · rintro ⟨k, hlt, hle⟩
    exact ⟨k, .inl ⟨hlt, (halfCent_le_read hx k).mpr hle⟩⟩

theorem toCents_read_iff (v : ℚ) :
    toCents v = toCents (Grid.roundAway lastPlace v) ↔
      ¬ ∃ k, |v| < halfCent k ∧ halfCent k ≤ |v| + lastPlace / 2 := by
  have hpos : ∀ x : ℚ, 0 ≤ x → (toCents x = toCents (Grid.roundAway lastPlace x) ↔
      ¬ ∃ k, x < halfCent k ∧ halfCent k ≤ x + lastPlace / 2) := fun x hx => by
    rw [toCents_eq_iff hx (Grid.roundAway_nonneg lastPlace_pos hx), parted_read_iff hx]
  rcases le_total 0 v with hv | hv
  · rw [abs_of_nonneg hv]
    exact hpos v hv
  · rw [abs_of_nonpos hv, ← hpos (-v) (neg_nonneg.mpr hv), Grid.roundAway_neg lastPlace_pos,
      toCents_neg, toCents_neg, neg_inj]

/-- The display is the server's cents unless the text, past 28 places, lies just
below a half cent. -/
theorem centsAgree_iff {s : List Char} (hs : isDecimal s = true) (hsig : Significant s) :
    CentsAgree s ↔ |value s| < 2 ^ 96 ∧
      ¬ ∃ k, |value s| < halfCent k ∧ halfCent k ≤ |value s| + lastPlace / 2 := by
  obtain ⟨shown, hshown, hvalue⟩ := roundDecimalStr_value hs
  rw [← toCents_read_iff]
  constructor
  · rintro ⟨figure, shown', hread, hround, hcents⟩
    rw [hshown] at hround
    obtain rfl := Option.some.inj hround
    refine ⟨lt_of_readDecimal hsig hread, ?_⟩
    rw [← hvalue, hcents, value_readDecimal hs hsig hread]
    rfl
  · rintro ⟨hlt, hcents⟩
    obtain ⟨d, hread, hd⟩ := readDecimal_of_lt hs hsig hlt
    exact ⟨d, shown, hread, hshown, by rw [hvalue, hcents, hd]; rfl⟩

/-- A product is in range up to half a unit below the limit. -/
theorem fits_zero_iff {x : ℚ} (hx : 0 ≤ x) : fits (2 ^ 96) 0 x = true ↔ x < 2 ^ 96 - 1 / 2 := by
  have hnonneg := halfEven_nonneg hx
  rw [fits, pow_zero, mul_one, decide_eq_true_eq]
  constructor
  · intro h
    by_contra hge
    have hmono := halfEven_mono (not_lt.mp hge)
    have htop : halfEven (2 ^ 96 - 1 / 2 : ℚ) = 2 ^ 96 := by
      refine halfEven_eq ?_ ?_ fun _ => by norm_num
      · push_cast
        norm_num
      · push_cast
        norm_num
    omega
  · intro h
    have hnear := (halfEven_near x).2
    have hlt : (halfEven x : ℚ) < (2 ^ 96 : ℤ) := by
      push_cast
      linarith
    have hint : halfEven x < 2 ^ 96 := by exact_mod_cast hlt
    omega

theorem mul_some_iff {x y : Decimal} (hx : 0 ≤ x.value) (hy : 0 ≤ y.value) :
    (∃ p, halfEvenArithmetic.mul x y = some p) ↔ x.value * y.value < 2 ^ 96 - 1 / 2 := by
  rw [← fits_zero_iff (mul_nonneg hx hy)]
  change (∃ p, figureAt _ _ = some p) ↔ _
  rw [figureAt]
  constructor
  · rintro ⟨p, hp⟩
    by_contra hnot
    rw [if_neg hnot] at hp
    cases hp
  · intro h
    rw [if_pos h]
    exact ⟨_, rfl⟩

/-- A figure to the cent is a figure. -/
theorem holds_toCents (d : Decimal) : holds (toCents d.value) = true := by
  by_cases hscale : d.scale ≤ 2
  · have hon : Grid.On cent d.value := by
      refine ⟨d.mantissa * 10 ^ (2 - d.scale), ?_⟩
      rw [Decimal.value, rescaled d.mantissa d.scale (2 - d.scale), Nat.add_sub_cancel' hscale, cent]
      norm_num
      ring
    rw [toCents_of_on hon]
    exact holds_iff.mpr ⟨d, rfl⟩
  · obtain ⟨n, hn⟩ := toCents_on d.value
    have hscaled : toCents d.value = n / 10 ^ 2 := by
      rw [hn, cent]
      ring
    have hnear := abs_le.mp (toCents_near d.value)
    have hten : (10 : ℚ) ^ 3 ≤ 10 ^ d.scale := pow_le_pow_right₀ (by norm_num) (by omega)
    have hmant : |(d.mantissa : ℚ)| < 2 ^ 96 := by
      have hint : |d.mantissa| < 2 ^ 96 := by
        rw [Int.abs_eq_natAbs]
        exact_mod_cast d.mantissa_lt
      exact_mod_cast hint
    have hsmall : |d.value| * 10 ^ 3 ≤ |(d.mantissa : ℚ)| := by
      rw [Decimal.value, abs_div, abs_of_pos (by positivity : (0 : ℚ) < 10 ^ d.scale),
        div_mul_eq_mul_div, div_le_iff₀ (by positivity)]
      exact mul_le_mul_of_nonneg_left hten (abs_nonneg _)
    have hbound : |(n : ℚ)| < 2 ^ 96 := by
      rw [hscaled, cent] at hnear
      have hd := abs_le.mp (le_refl |d.value|)
      rw [abs_lt]
      constructor <;> linarith [abs_nonneg d.value]
    exact holds_of_scaled hscaled (by decide) (natAbs_lt_of_abs (by exact_mod_cast hbound))

theorem readDecimal_of_holds {s : List Char} (hs : isDecimal s = true) (h : holds (value s) = true) :
    ∃ d, readDecimal s = some d ∧ d.value = value s := by
  obtain ⟨m, k, hvalue, hk, hm⟩ := Decimal.eq_of_holds h
  have hread := asRead_of_places hk hvalue
  have hscaled : asRead s = (m * 10 ^ (28 - k) : ℤ) / 10 ^ 28 := by
    rw [hread, rescaled m k (28 - k), Nat.add_sub_cancel' hk]
  obtain ⟨e, he⟩ := holds_iff.mp h
  have hfits : fits (2 ^ 96) 0 (asRead s) = true := by
    rw [hread, ← hvalue, ← he]
    exact halfEvenRounding.inRange_value e
  have hsome : figureAt 28 (asRead s) ≠ none := by
    rw [figureAt, if_pos hfits]
    exact Option.some_ne_none _
  obtain ⟨d, hd⟩ := Option.ne_none_iff_exists'.mp hsome
  refine ⟨d, ?_, ?_⟩
  · rw [readDecimal, if_pos hs]
    exact hd
  · rw [figureAt_value hscaled hd, hread, ← hvalue]
    exact halfEvenRounding.round_holds h

theorem add_zero_some (x y : Decimal) (h : x.value + y.value = x.value ∨ x.value + y.value = y.value) :
    ∃ z, halfEvenArithmetic.add x y = some z ∧ z.value = x.value + y.value := by
  have hholds : holds (x.value + y.value) = true :=
    h.elim (fun h => holds_iff.mpr ⟨x, h.symm⟩) fun h => holds_iff.mpr ⟨y, h.symm⟩
  have hfits : fits (2 ^ 96) 0 (x.value + y.value) = true :=
    halfEvenFigures.inRange_holds hholds
  have hsome : halfEvenArithmetic.add x y ≠ none := by
    change figureAt _ _ ≠ none
    rw [figureAt, if_pos hfits]
    exact Option.some_ne_none _
  obtain ⟨z, hz⟩ := Option.ne_none_iff_exists'.mp hsome
  exact ⟨z, hz, (halfEvenArithmetic.add_value x y z hz).trans (halfEvenRounding.round_holds hholds)⟩

/-- The posted row's gross is the amount. -/
theorem posted_gross (aps held amount : Decimal) (fullyFranked : Bool) :
    ∃ gross, (posted aps held amount fullyFranked).grossCashIncome = some gross ∧
      gross.value = amount.value := by
  have hcash : ∃ cash, halfEvenArithmetic.add (posted aps held amount fullyFranked).frankedAmount
      (posted aps held amount fullyFranked).unfrankedAmount = some cash ∧
        cash.value = amount.value := by
    cases fullyFranked with
    | true =>
      obtain ⟨z, hz, hvalue⟩ := add_zero_some amount .zero (.inl (by simp))
      exact ⟨z, hz, by rw [hvalue, Decimal.zero_value, add_zero]⟩
    | false =>
      obtain ⟨z, hz, hvalue⟩ := add_zero_some .zero amount (.inr (by simp))
      exact ⟨z, hz, by rw [hvalue, Decimal.zero_value, zero_add]⟩
  obtain ⟨cash, hadd, hcash⟩ := hcash
  obtain ⟨gross, hgross, hvalue⟩ := add_zero_some cash .zero (.inl (by simp))
  refine ⟨gross, ?_, by rw [hvalue, Decimal.zero_value, add_zero, hcash]⟩
  rw [Income.grossCashIncome, hadd]
  exact hgross

/-- A row whose amount is the product passes. -/
theorem checkPerShare_posted {aps held amount : Decimal} {product : ℚ}
    (hproduct : perShareProduct aps held = some product) (hamount : amount.value = product)
    (fullyFranked : Bool) : checkPerShare (posted aps held amount fullyFranked) = some (.ok ()) := by
  obtain ⟨gross, hgross, hvalue⟩ := posted_gross aps held amount fullyFranked
  have hcheck : checkPerShare (posted aps held amount fullyFranked) =
      (perShareProduct aps held).bind fun product =>
        (posted aps held amount fullyFranked).grossCashIncome.bind fun gross =>
          some (if product ≠ gross.value then Except.error (PerShareError.productMismatch product)
            else Except.ok ()) := rfl
  rw [hcheck, hproduct, hgross, Option.bind_some, Option.bind_some,
    if_neg (not_not.mpr (by rw [hvalue, hamount]))]

/-- The condition under which the form's figure is the server's: no signs, both texts
and the product in range, and no half cent between the exact product and what a
figure keeps of the product of the two as they are read. -/
structure Reconciles (a b : List Char) : Prop where
  unsigned_left : isUnsigned a = true
  unsigned_right : isUnsigned b = true
  left_lt : value a < 2 ^ 96
  right_lt : value b < 2 ^ 96
  product_lt : asRead a * asRead b < 2 ^ 96 - 1 / 2
  not_parted : ¬ Parted (value a * value b) (kept (asRead a * asRead b))

theorem value_nonneg {s : List Char} (h : isUnsigned s = true) : 0 ≤ value s := by
  obtain ⟨whole, places, hs⟩ := isUnsigned_iff.mp h
  rw [hs.value_eq, if_neg Bool.false_ne_true, one_mul]
  positivity

theorem asRead_nonneg {s : List Char} (h : isUnsigned s = true) : 0 ≤ asRead s :=
  Grid.roundAway_nonneg lastPlace_pos (value_nonneg h)

theorem kept_nonneg {q : ℚ} (h : 0 ≤ q) : 0 ≤ kept q := atScale_nonneg _ h

theorem productAgrees_iff {a b : List Char} (ha : isDecimal a = true) (hb : isDecimal b = true)
    (hsa : Significant a) (hsb : Significant b) : ProductAgrees a b ↔ Reconciles a b := by
  constructor
  · rintro ⟨aps, held, product, total, amount, hreada, hreadb, hproduct, htotal, hvalue, -, -⟩
    obtain ⟨hua, hub, -, hcents⟩ := mulToCents_some htotal ha hb
    obtain ⟨p, hmul, hp⟩ := Option.map_eq_some_iff.mp hproduct
    have hx := value_readDecimal ha hsa hreada
    have hy := value_readDecimal hb hsb hreadb
    have hx0 : 0 ≤ aps.value := hx ▸ asRead_nonneg hua
    have hy0 : 0 ≤ held.value := hy ▸ asRead_nonneg hub
    have hlta := lt_of_readDecimal hsa hreada
    have hltb := lt_of_readDecimal hsb hreadb
    rw [abs_of_nonneg (value_nonneg hua)] at hlta
    rw [abs_of_nonneg (value_nonneg hub)] at hltb
    have hkept : p.value = kept (asRead a * asRead b) := by
      rw [halfEvenArithmetic.mul_value aps held p hmul, hx, hy]
      rfl
    refine ⟨hua, hub, hlta, hltb, ?_, ?_⟩
    · rw [← hx, ← hy]
      exact (mul_some_iff hx0 hy0).mp ⟨p, hmul⟩
    · rw [← toCents_eq_iff (mul_nonneg (value_nonneg hua) (value_nonneg hub))
        (kept_nonneg (mul_nonneg (asRead_nonneg hua) (asRead_nonneg hub))), ← hcents, hvalue, ← hp, hkept]
  · intro h
    have hva := value_nonneg h.unsigned_left
    have hvb := value_nonneg h.unsigned_right
    obtain ⟨aps, hreada, hx⟩ := readDecimal_of_lt ha hsa (by rw [abs_of_nonneg hva]; exact h.left_lt)
    obtain ⟨held, hreadb, hy⟩ := readDecimal_of_lt hb hsb (by rw [abs_of_nonneg hvb]; exact h.right_lt)
    have hx0 : 0 ≤ aps.value := hx ▸ asRead_nonneg h.unsigned_left
    have hy0 : 0 ≤ held.value := hy ▸ asRead_nonneg h.unsigned_right
    obtain ⟨p, hmul⟩ := (mul_some_iff hx0 hy0).mpr (by rw [hx, hy]; exact h.product_lt)
    have hkept : p.value = kept (asRead a * asRead b) := by
      rw [halfEvenArithmetic.mul_value aps held p hmul, hx, hy]
      rfl
    have hproduct : perShareProduct aps held = some (toCents p.value) := by
      rw [perShareProduct, hmul]
      rfl
    obtain ⟨total, htotal⟩ := exists_mulToCents h.unsigned_left h.unsigned_right
    obtain ⟨-, -, hdecimal, hcents⟩ := mulToCents_some htotal ha hb
    have hvalue : value total = toCents p.value := by
      rw [hcents, hkept, toCents_eq_iff (mul_nonneg hva hvb)
        (kept_nonneg (mul_nonneg (asRead_nonneg h.unsigned_left) (asRead_nonneg h.unsigned_right)))]
      exact h.not_parted
    obtain ⟨amount, hread, hamount⟩ := readDecimal_of_holds hdecimal (hvalue ▸ holds_toCents p)
    exact ⟨aps, held, _, total, amount, hreada, hreadb, hproduct, htotal, hvalue, hread,
      checkPerShare_posted hproduct (hamount.trans hvalue)⟩

/-- A half cent in steps of three or more decimal places. -/
theorem halfCent_scaled {s : ℕ} (hs : 3 ≤ s) (k : ℕ) :
    halfCent k * 10 ^ s = (((2 * k + 1) * 5 * 10 ^ (s - 3) : ℤ) : ℚ) := by
  obtain ⟨n, rfl⟩ := Nat.exists_eq_add_of_le hs
  rw [halfCent, Nat.add_sub_cancel_left, pow_add]
  push_cast
  ring

/-- A figure with three or more places after the product is parted from it only where
the product lies below a half cent by half of its last place or less. -/
theorem near_of_parted {q : ℚ} (hs : 3 ≤ finest (2 ^ 96) q 28) (h : Parted q (kept q)) :
    ∃ k, q < halfCent k ∧ halfCent k ≤ q + 1 / (2 * 10 ^ finest (2 ^ 96) q 28) := by
  rw [kept, toFinest] at h
  generalize finest (2 ^ 96) q 28 = s at hs h
  have hten : (0 : ℚ) < 10 ^ s := by positivity
  have hnear := halfEven_near (q * 10 ^ s)
  have hup : atScale s q ≤ q + 1 / (2 * 10 ^ s) := by
    rw [atScale, div_le_iff₀ hten, add_mul]
    have hhalf : 1 / (2 * (10 : ℚ) ^ s) * 10 ^ s = 1 / 2 := by field_simp
    rw [hhalf]
    exact hnear.2
  obtain ⟨k, h | h⟩ := h
  · exact ⟨k, h.1, h.2.trans hup⟩
  · -- a half cent is itself a figure of so many places, so rounding does not pass below it
    have hmono := atScale_mono s h.2
    have hwhole : atScale s (halfCent k) = halfCent k := by
      rw [atScale, halfCent_scaled hs, halfEven_intCast, ← halfCent_scaled hs,
        mul_div_cancel_right₀ _ hten.ne']
    rw [hwhole] at hmono
    exact absurd hmono (not_le.mpr h.1)

/-- With four places or more a half cent is an even figure, which a product half a
place below it is rounded to. -/
theorem parted_iff_near {q : ℚ} (hs : 4 ≤ finest (2 ^ 96) q 28) :
    Parted q (kept q) ↔
      ∃ k, q < halfCent k ∧ halfCent k ≤ q + 1 / (2 * 10 ^ finest (2 ^ 96) q 28) := by
  refine ⟨near_of_parted (by omega), ?_⟩
  rintro ⟨k, hlt, hle⟩
  refine ⟨k, .inl ⟨hlt, ?_⟩⟩
  rw [kept, toFinest]
  generalize finest (2 ^ 96) q 28 = s at hs hle
  have hten : (0 : ℚ) < 10 ^ s := by positivity
  have hscaled := halfCent_scaled (s := s) (by omega) k
  have hround : halfEven (q * 10 ^ s) = (2 * k + 1) * 5 * 10 ^ (s - 3) := by
    refine halfEven_eq ?_ ?_ fun _ => ?_
    · rw [← hscaled]
      have hbelow := mul_lt_mul_of_pos_right hlt hten
      linarith
    · rw [← hscaled]
      have hscale := mul_le_mul_of_nonneg_right hle hten.le
      have hhalf : 1 / (2 * (10 : ℚ) ^ s) * 10 ^ s = 1 / 2 := by field_simp
      rw [add_mul, hhalf] at hscale
      exact hscale
    · obtain ⟨n, hn⟩ := Nat.exists_eq_add_of_le hs
      have hplaces : s - 3 = n + 1 := by omega
      rw [hplaces, pow_succ]
      exact Int.emod_eq_zero_of_dvd ⟨(2 * k + 1) * 5 * (10 ^ n * 5), by ring⟩
  rw [atScale, hround, ← hscaled, mul_div_cancel_right₀ _ hten.ne']

end Agreement

/-- **The form's arithmetic is the server's up to its rounding.** For texts of at most
28 significant digits the form's product is the one checked, and a cell's cents the
server's, exactly under the conditions stated. Of two texts read as they stand, whose
product keeps four places, the last of them is about the exact product alone. -/
theorem browser_agrees_iff (a b s : List Char) :
    (isDecimal a = true → isDecimal b = true → Significant a → Significant b →
      (ProductAgrees a b ↔ Reconciles a b)) ∧
    (isDecimal s = true → Significant s →
      (CentsAgree s ↔ |value s| < 2 ^ 96 ∧
        ¬ ∃ k, |value s| < halfCent k ∧ halfCent k ≤ |value s| + lastPlace / 2)) ∧
    (asRead a = value a → asRead b = value b → 4 ≤ finest (2 ^ 96) (value a * value b) 28 →
      (Parted (value a * value b) (kept (asRead a * asRead b)) ↔
        ∃ k, value a * value b < halfCent k ∧
          halfCent k ≤ value a * value b +
            1 / (2 * 10 ^ finest (2 ^ 96) (value a * value b) 28))) := by
  refine ⟨fun ha hb hsa hsb => productAgrees_iff ha hb hsa hsb,
    fun hs hsig => centsAgree_iff hs hsig, fun ha hb hplaces => ?_⟩
  rw [ha, hb]
  exact parted_iff_near hplaces

/-- Ten cents less one in the 28th place, of which a twentieth is half a cent but for
five in the 30th. -/
theorem form_refused_just_below_half_cent :
    isDecimal "0.0999999999999999999999999999".toList = true ∧ isDecimal "0.05".toList = true ∧
      Significant "0.0999999999999999999999999999".toList ∧ Significant "0.05".toList ∧
      ¬ ProductAgrees "0.0999999999999999999999999999".toList "0.05".toList := by
  have ha : isDecimal "0.0999999999999999999999999999".toList = true := by decide
  have hb : isDecimal "0.05".toList = true := by decide
  have hva : value "0.0999999999999999999999999999".toList = 999999999999999999999999999 / 10 ^ 28 := by
    decide +kernel
  have hvb : value "0.05".toList = 5 / 10 ^ 2 := by decide +kernel
  have hsa : Significant "0.0999999999999999999999999999".toList :=
    ⟨999999999999999999999999999, -28, by norm_num, by rw [hva]; norm_num⟩
  have hsb : Significant "0.05".toList := ⟨5, -2, by norm_num, by rw [hvb]; norm_num⟩
  refine ⟨ha, hb, hsa, hsb, fun h => ?_⟩
  have hkept : halfCent 0 ≤ kept (asRead "0.0999999999999999999999999999".toList *
      asRead "0.05".toList) := by decide +kernel
  refine ((productAgrees_iff ha hb hsa hsb).mp h).not_parted ⟨0, .inl ⟨?_, hkept⟩⟩
  rw [hva, hvb, halfCent]
  norm_num

end ShareTracker.PerShare
