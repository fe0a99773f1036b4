import Mathlib
import ShareTracker.Lib.DecimalText

/-! The browser's exact arithmetic on decimal strings, and the allocation
editor's running total. Texts are lists of characters; integers have any length. -/
namespace ShareTracker.Web
open DecimalText

/-! ### The language's own functions -/

/-- The white space that `trim` drops. -/
def isSpace (c : Char) : Bool :=
  [0x9, 0xA, 0xB, 0xC, 0xD, 0x20, 0xA0, 0x1680, 0x2028, 0x2029, 0x202F, 0x205F, 0x3000,
    0xFEFF].contains c.toNat || (0x2000 ≤ c.toNat && c.toNat ≤ 0x200A)

def trim (s : List Char) : List Char := (s.dropWhile isSpace).rdropWhile isSpace

/-- `BigInt` of digits with an optional minus sign. What it throws at is `none`; so
are the texts it reads that are no such number (blank ones, other bases). -/
def bigInt (s : List Char) : Option ℤ :=
  let digits := magnitude s
  if digits ≠ [] ∧ digits.all Char.isDigit then
    some ((if s.head? = some '-' then -1 else 1) * (natOf digits : ℤ))
  else none

def bigIntText (n : ℤ) : List Char := sign (n < 0) ++ Nat.toDigits 10 n.natAbs

/-- The zeros at the end of what follows the point. -/
def stripZeros (s : List Char) : List Char :=
  if '.' ∈ s then s.take (s.idxOf '.' + 1) ++ (s.drop (s.idxOf '.' + 1)).rdropWhile (· == '0')
  else s

/-- A point that ends the text. -/
def stripPoint (s : List Char) : List Char := if s.getLast? = some '.' then s.dropLast else s

/-! ### Addition and comparison -/

/-- The units of `s` at `scale` places. -/
def scaled (scale : ℕ) (s : List Char) : Option ℤ :=
  bigInt (s.erase '.' ++ List.replicate (scale - dp s) '0')

def addDecimalStrings (a b : List Char) : Option (List Char) := do
  let scale := max (dp a) (dp b)
  let sum := (← scaled scale a) + (← scaled scale b)
  if scale = 0 then return bigIntText sum
  let digits := List.leftpad (scale + 1) '0' (Nat.toDigits 10 sum.natAbs)
  let abs := stripPoint (stripZeros
    (digits.take (digits.length - scale) ++ '.' :: digits.drop (digits.length - scale)))
  return sign (sum < 0 && abs != ['0']) ++ abs

def looksNumeric (s : List Char) : Bool := isDecimal s

/-- The units and the places of an unsigned decimal. -/
def decParts (s : List Char) : Option (ℤ × ℕ) :=
  let s := trim s
  if isUnsigned s then (bigInt (s.erase '.')).map fun units => (units, dp s) else none

def signedDecParts (s : List Char) : Option (ℤ × ℕ) :=
  let s := trim s
  if s.head? = some '-' then (decParts s.tail).map fun mag => (-mag.1, mag.2) else decParts s

def decCompare (a b : List Char) : Option ℤ :=
  if !looksNumeric a || !looksNumeric b then none
  else do
    let pa ← signedDecParts a
    let pb ← signedDecParts b
    let scale := max pa.2 pb.2
    let ua := pa.1 * 10 ^ (scale - pa.2)
    let ub := pb.1 * 10 ^ (scale - pb.2)
    return if ua < ub then -1 else if ub < ua then 1 else 0

/-! ### The allocation running total -/

def negateDecimalString (s : List Char) : List Char :=
  if s.head? = some '-' then s.tail else '-' :: s

/-- The statuses 'none', 'pending', 'match', 'short' and 'over'. -/
inductive AllocationStatus
  | none | pending | agrees | short | exceeds
  deriving DecidableEq

/-- The running total, the rows it counts and the rows that are no quantity. -/
structure Allocated where
  total : List Char
  counted : ℕ
  invalid : ℕ

structure AllocationSummary where
  total : List Char
  counted : ℕ
  invalid : ℕ
  required : Option (List Char)
  status : AllocationStatus
  difference : List Char
  text : List Char

def allocate (st : Allocated) (q : List Char) : Option Allocated := do
  let s := trim q
  if s = [] then return st
  if !isDecimal s then return { st with invalid := st.invalid + 1 }
  return { st with total := ← addDecimalStrings st.total s, counted := st.counted + 1 }

def allocationStatus (hasReq : Bool) (st : Allocated) (signed : List Char) : AllocationStatus :=
  if !hasReq then .none
  else if st.counted = 0 ∧ st.invalid = 0 then .pending
  else if signed = ['0'] then .agrees
  else if signed.head? = some '-' then .exceeds else .short

def allocationText (st : Allocated) (req difference : List Char) : AllocationStatus → List Char
  | .none =>
    if st.counted = 0 then "Nothing allocated yet.".toList
    else "Allocated: ".toList ++ st.total ++ " across ".toList ++ Nat.toDigits 10 st.counted ++
      " parcel(s).".toList
  | .pending => "Allocated: 0 of ".toList ++ req ++ " so far.".toList
  | .agrees => "Allocated: ".toList ++ st.total ++ " of ".toList ++ req ++ " — matches.".toList
  | .short => "Allocated: ".toList ++ st.total ++ " of ".toList ++ req ++ " — ".toList ++
      difference ++ " short.".toList
  | .exceeds => "Allocated: ".toList ++ st.total ++ " of ".toList ++ req ++ " — ".toList ++
      difference ++ " over.".toList

/-- A null row or target is the empty text. -/
def allocationSummary (quantities : List (List Char)) (required : List Char) :
    Option AllocationSummary := do
  let st ← quantities.foldlM allocate ⟨['0'], 0, 0⟩
  let req := trim required
  let hasReq := isDecimal req
  let signed ← if hasReq then addDecimalStrings req (negateDecimalString st.total) else some ['0']
  let status := allocationStatus hasReq st signed
  let difference :=
    if status = .exceeds then signed.tail else if status = .short then signed else ['0']
  let warning := if 0 < st.invalid then
    ' ' :: Nat.toDigits 10 st.invalid ++ " row(s) not a valid quantity.".toList else []
  return {
    total := st.total, counted := st.counted, invalid := st.invalid
    required := if hasReq then some req else none
    status, difference
    text := allocationText st req difference status ++ warning }

section Reading
variable {s whole places : List Char} {neg : Bool}

theorem not_space_of_digit {c : Char} (h : c.isDigit = true) : isSpace c = false := by
  have hrange : 48 ≤ c.toNat ∧ c.toNat ≤ 57 := by
    have hc : 48 ≤ c.val ∧ c.val ≤ 57 := by simpa [Char.isDigit] using h
    exact ⟨hc.1, hc.2⟩
  obtain ⟨hlo, hhi⟩ := hrange
  unfold isSpace
  generalize c.toNat = n at hlo hhi
  interval_cases n <;> decide

theorem not_space_of_spelt (h : Spelt s neg whole places) {c : Char} (hc : c ∈ s) :
    isSpace c = false := by
  rw [h.text] at hc
  rcases List.mem_append.mp hc with hsign | hbody
  · cases neg with
    | true =>
      obtain rfl := List.mem_singleton.mp hsign
      rfl
    | false => exact absurd hsign List.not_mem_nil
  · rcases List.mem_append.mp hbody with hwhole | hpoint
    · exact not_space_of_digit (h.whole_digits c hwhole)
    · by_cases hplaces : places = []
      · rw [hplaces] at hpoint
        exact absurd hpoint List.not_mem_nil
      · rw [point_cons hplaces] at hpoint
        rcases List.mem_cons.mp hpoint with rfl | hpoint
        · rfl
        · exact not_space_of_digit (h.places_digits c hpoint)

theorem trim_eq_self (h : ∀ c ∈ s, isSpace c = false) : trim s = s := by
  have hfront : s.dropWhile isSpace = s := by
    cases s with
    | nil => rfl
    | cons c s => exact List.dropWhile_cons_of_neg (by simp [h c List.mem_cons_self])
  rw [trim, hfront]
  refine List.rdropWhile_eq_self_iff.mpr fun hne hlast => ?_
  rw [h _ (List.getLast_mem hne)] at hlast
  cases hlast

theorem trim_of_spelt (h : Spelt s neg whole places) : trim s = s :=
  trim_eq_self fun _ hc => not_space_of_spelt h hc

theorem ne_nil_of_spelt (h : Spelt s neg whole places) : s ≠ [] := by
  rw [h.text]
  exact List.append_ne_nil_of_right_ne_nil _ (List.append_ne_nil_of_left_ne_nil h.whole_ne_nil _)

theorem bigInt_signed (hdigits : Digits whole) (hne : whole ≠ []) (neg : Bool) :
    bigInt (sign neg ++ whole) = some ((if neg then -1 else 1) * (natOf whole : ℤ)) := by
  have hmag := magnitude_signed hdigits hne neg []
  have hhead := head_signed hdigits hne neg []
  rw [point_nil, List.append_nil] at hmag hhead
  have hall : whole.all Char.isDigit = true := List.all_eq_true.mpr hdigits
  rw [bigInt, hmag]
  simp only [hhead, hall, ne_eq, hne, not_false_eq_true, and_self, if_true]

/-- The units of a decimal over the power of ten of its places are its value. -/
theorem scaled_of_spelt (h : Spelt s neg whole places) {scale : ℕ} (hscale : dp s ≤ scale) :
    ∃ units : ℤ, scaled scale s = some units ∧ (units : ℚ) / 10 ^ scale = value s := by
  have hzeros : Digits (List.replicate (scale - dp s) '0') := by
    intro c hc
    rw [List.eq_of_mem_replicate hc]
    rfl
  have hdigits := (h.whole_digits.append h.places_digits).append hzeros
  have hne : whole ++ places ++ List.replicate (scale - dp s) '0' ≠ [] := by
    simp [h.whole_ne_nil]
  refine ⟨(if neg then -1 else 1) *
    (natOf (whole ++ places ++ List.replicate (scale - dp s) '0') : ℤ), ?_, ?_⟩
  · rw [scaled, h.erase_eq, List.append_assoc]
    exact bigInt_signed hdigits hne neg
  · have hten : (10 : ℚ) ^ (scale - dp s) ≠ 0 := by positivity
    have hpow : (10 : ℚ) ^ scale = 10 ^ places.length * 10 ^ (scale - dp s) := by
      rw [← pow_add, ← h.dp_eq, Nat.add_sub_cancel' hscale]
    rw [natOf_zeros, h.value_eq, hpow]
    push_cast
    rw [← mul_assoc, mul_div_mul_right _ _ hten]

end Reading

/-! ### The written sum -/

/-- An integer count of units of the last of `scale` places, written out. -/
def written (units : ℤ) (scale : ℕ) : List Char := spell (decide (units < 0)) units.natAbs scale

theorem written_value (units : ℤ) (scale : ℕ) : value (written units scale) = units / 10 ^ scale := by
  rw [written, spell_value, Nat.cast_natAbs]
  congr 1
  rcases lt_or_ge units 0 with hneg | hpos
  · rw [decide_eq_true hneg, abs_of_neg hneg, if_pos rfl, Int.cast_neg, neg_one_mul, neg_neg]
  · rw [decide_eq_false (not_lt.mpr hpos), abs_of_nonneg hpos, if_neg Bool.false_ne_true, one_mul]

/-- The spelling is a matter of the value alone. -/
theorem written_congr {units units' : ℤ} {scale scale' : ℕ}
    (h : (units : ℚ) / 10 ^ scale = units' / 10 ^ scale') :
    written units scale = written units' scale' := by
  wlog hle : scale ≤ scale' generalizing units units' scale scale'
  · exact (this h.symm (le_of_not_ge hle)).symm
  obtain ⟨extra, rfl⟩ := Nat.exists_eq_add_of_le hle
  have hten : (10 : ℚ) ^ scale ≠ 0 := by positivity
  have hunits : units' = units * 10 ^ extra := by
    rw [pow_add, div_eq_div_iff hten (by positivity)] at h
    have hcancel : (units' : ℚ) = units * 10 ^ extra := by
      apply mul_right_cancel₀ hten
      linarith
    exact_mod_cast hcancel
  have hsign : (decide (units' < 0)) = decide (units < 0) := by
    rw [hunits]
    refine decide_eq_decide.mpr ⟨fun h => ?_, fun h => mul_neg_of_neg_of_pos h (by positivity)⟩
    exact neg_of_mul_neg_left h (by positivity)
  have habs : units'.natAbs = units.natAbs * 10 ^ extra := by
    rw [hunits, Int.natAbs_mul, Int.natAbs_pow]
    rfl
  rw [written, written, hsign, habs, spell_mul_pow]

theorem written_canonical (units : ℤ) (scale : ℕ) :
    ∃ neg whole places, Canonical (written units scale) neg whole places :=
  spell_canonical _ _ _

/-- Stripping the zeros and then the point leaves the point with its last places. -/
theorem stripPoint_stripZeros {whole places : List Char} (hwhole : Digits whole)
    (hplaces : Digits places) :
    stripPoint (stripZeros (whole ++ '.' :: places)) = whole ++ point (dropZeros places) := by
  have hdot : '.' ∉ whole := hwhole.not_mem (by decide)
  have hidx : (whole ++ '.' :: places).idxOf '.' = whole.length := by
    rw [List.idxOf_append_of_notMem hdot, List.idxOf_cons_self, Nat.add_zero]
  have htake : (whole ++ '.' :: places).take (whole.length + 1) = whole ++ ['.'] := by
    simp [List.take_append]
  have hdrop : (whole ++ '.' :: places).drop (whole.length + 1) = places := by
    simp [List.drop_append]
  rw [stripZeros, if_pos (by simp), hidx, htake, hdrop]
  change stripPoint (whole ++ ['.'] ++ dropZeros places) = _
  by_cases hnil : dropZeros places = []
  · rw [hnil, point_nil, List.append_nil, List.append_nil, stripPoint,
      if_pos List.getLast?_concat, List.dropLast_concat]
  · have hlast : (whole ++ ['.'] ++ dropZeros places).getLast? ≠ some '.' := by
      rw [List.getLast?_append_of_ne_nil _ hnil]
      intro hdot
      exact (digits_dropZeros hplaces).not_mem (c := '.') (by decide) (List.mem_of_getLast? hdot)
    rw [stripPoint, if_neg hlast, point_cons hnil, List.append_assoc]
    rfl

theorem addDecimalStrings_eq {a b : List Char} {scale : ℕ} (hscale : scale = max (dp a) (dp b))
    {x y : ℤ} (hx : scaled scale a = some x) (hy : scaled scale b = some y) :
    addDecimalStrings a b = some (written (x + y) scale) := by
  subst hscale
  simp only [addDecimalStrings, hx, hy, Option.bind_eq_bind, Option.bind_some]
  by_cases hzero : max (dp a) (dp b) = 0
  · rw [if_pos hzero, hzero, written, spell]
    have hplaces : placesOf (x + y).natAbs 0 = [] :=
      List.length_eq_zero_iff.mp (length_placesOf _ _)
    rw [hplaces, wholeOf_eq, pow_zero, Nat.div_one]
    have hnil : point (dropZeros []) = [] := rfl
    rw [hnil, List.append_nil, bigIntText]
    by_cases hneg : x + y < 0
    · have hbody : Nat.toDigits 10 (x + y).natAbs ≠ ['0'] := by
        intro heq
        have hval := congrArg (fun l => Nat.ofDigitChars 10 l 0) heq
        simp only [Nat.ofDigitChars_ten_toDigits] at hval
        have hnat : Nat.ofDigitChars 10 ['0'] 0 = 0 := rfl
        omega
      rw [decide_eq_true hneg, bne_iff_ne.mpr hbody]
      rfl
    · simp [hneg]
  · rw [if_neg hzero]
    have hstrip := stripPoint_stripZeros
      (wholeOf_eq (x + y).natAbs (max (dp a) (dp b)) ▸ digits_toDigits _)
      (digits_placesOf (x + y).natAbs (max (dp a) (dp b)))
    change some (sign (decide (x + y < 0) && stripPoint (stripZeros
      (wholeOf _ _ ++ '.' :: placesOf _ _)) != ['0']) ++ stripPoint (stripZeros
      (wholeOf _ _ ++ '.' :: placesOf _ _))) = _
    rw [hstrip]
    rfl

/-- The sum of two decimals is written out from its value. -/
theorem addDecimalStrings_written {a b : List Char} (ha : isDecimal a = true)
    (hb : isDecimal b = true) :
    ∃ units scale, addDecimalStrings a b = some (written units scale) ∧
      (units : ℚ) / 10 ^ scale = value a + value b := by
  obtain ⟨_, _, _, ha⟩ := isDecimal_iff.mp ha
  obtain ⟨_, _, _, hb⟩ := isDecimal_iff.mp hb
  obtain ⟨x, hx, hxv⟩ := scaled_of_spelt ha (le_max_left (dp a) (dp b))
  obtain ⟨y, hy, hyv⟩ := scaled_of_spelt hb (le_max_right (dp a) (dp b))
  refine ⟨x + y, _, addDecimalStrings_eq rfl hx hy, ?_⟩
  rw [Int.cast_add, add_div, hxv, hyv]

theorem isDecimal_written (units : ℤ) (scale : ℕ) : isDecimal (written units scale) = true := by
  obtain ⟨neg, whole, places, h⟩ := written_canonical units scale
  exact isDecimal_iff.mpr ⟨neg, whole, places, h.toSpelt⟩

/-! ### What is read of a written number -/

theorem written_zero (scale : ℕ) : written 0 scale = ['0'] := by
  have hnil : ((0 : ℤ) : ℚ) / 10 ^ scale = (0 : ℤ) / 10 ^ 0 := by simp
  exact written_congr hnil

theorem written_eq_zero {units : ℤ} {scale : ℕ} : written units scale = ['0'] ↔ units = 0 := by
  constructor
  · intro h
    have hvalue := written_value units scale
    have hnil : value ['0'] = 0 := by decide +kernel
    rw [h, hnil, eq_comm, div_eq_zero_iff] at hvalue
    rcases hvalue with hzero | hten
    · exact_mod_cast hzero
    · exact absurd hten (by positivity)
  · rintro rfl
    exact written_zero scale

/-- A minus sign is written exactly where the number is negative. -/
theorem written_head {units : ℤ} {scale : ℕ} : (written units scale).head? = some '-' ↔ units < 0 := by
  obtain ⟨neg, whole, places, h⟩ := written_canonical units scale
  have hhead := head_signed h.whole_digits h.whole_ne_nil neg places
  rw [← h.text] at hhead
  have hvalue := written_value units scale
  have hten : (0 : ℚ) < 10 ^ scale := by positivity
  have hplaces : (0 : ℚ) < 10 ^ places.length := by positivity
  rw [hhead]
  constructor
  · rintro rfl
    -- a sign is written before digits that are not nil alone
    have hle : value (written units scale) ≤ 0 := by
      rw [h.value_eq, if_pos rfl, neg_one_mul, neg_div]
      exact neg_nonpos.mpr (by positivity)
    have hne : units ≠ 0 := by
      rintro rfl
      have htext := h.text
      rw [written_zero] at htext
      cases (List.cons.inj htext).1
    rw [hvalue, div_le_iff₀ hten, zero_mul] at hle
    have hint : units ≤ 0 := by exact_mod_cast hle
    omega
  · intro hneg
    by_contra hfalse
    have hlt : (units : ℚ) / 10 ^ scale < 0 :=
      div_neg_of_neg_of_pos (by exact_mod_cast hneg) hten
    rw [← hvalue, h.value_eq, if_neg hfalse, one_mul] at hlt
    exact absurd hlt (not_lt.mpr (by positivity))

theorem spelt_negate {s whole places : List Char} {neg : Bool} (h : Spelt s neg whole places) :
    Spelt (negateDecimalString s) (!neg) whole places := by
  refine ⟨h.whole_digits, h.places_digits, h.whole_ne_nil, ?_⟩
  have hhead := head_signed h.whole_digits h.whole_ne_nil neg places
  rw [← h.text] at hhead
  cases neg with
  | true =>
    rw [negateDecimalString, if_pos (hhead.mpr rfl), h.text]
    rfl
  | false =>
    rw [negateDecimalString, if_neg (mt hhead.mp Bool.false_ne_true), h.text]
    rfl

theorem value_negate {s : List Char} (h : isDecimal s = true) :
    isDecimal (negateDecimalString s) = true ∧ value (negateDecimalString s) = -value s := by
  obtain ⟨neg, whole, places, hs⟩ := isDecimal_iff.mp h
  have hneg := spelt_negate hs
  refine ⟨isDecimal_iff.mpr ⟨_, _, _, hneg⟩, ?_⟩
  rw [hneg.value_eq, hs.value_eq]
  cases neg <;> simp [neg_div]

/-- A written negative number without its sign is the number written without it. -/
theorem tail_written {units : ℤ} {scale : ℕ} (hneg : units < 0) :
    (written units scale).tail = written (-units) scale := by
  have hbody : wholeOf units.natAbs scale ++ point (dropZeros (placesOf units.natAbs scale)) ≠
      ['0'] := by
    intro hnil
    have hzero : written units scale = ['0'] := by simp [written, spell, hnil, sign]
    exact absurd (written_eq_zero.mp hzero) (by omega)
  have hpos : units ≤ 0 := hneg.le
  simp [written, spell, hneg, hpos, hbody, sign]

theorem compare_units {x y : ℚ} {ux uy : ℤ} {scale : ℕ} (hx : (ux : ℚ) / 10 ^ scale = x)
    (hy : (uy : ℚ) / 10 ^ scale = y) : ux < uy ↔ x < y := by
  have hten : (0 : ℚ) < 10 ^ scale := by positivity
  rw [← hx, ← hy, div_lt_div_iff_of_pos_right hten, Int.cast_lt]

theorem decParts_of_unsigned {s whole places : List Char} (h : Spelt s false whole places) :
    decParts s = some ((natOf (whole ++ places) : ℤ), places.length) := by
  have hunsigned : isUnsigned s = true := isUnsigned_iff.mpr ⟨whole, places, h⟩
  have hunits : bigInt (s.erase '.') = some (natOf (whole ++ places) : ℤ) := by
    rw [h.erase_eq]
    have hread := bigInt_signed (h.whole_digits.append h.places_digits)
      (List.append_ne_nil_of_left_ne_nil h.whole_ne_nil _) false
    simpa using hread
  simp only [decParts, trim_of_spelt h, hunsigned, if_true, hunits, h.dp_eq]
  rfl

theorem signedDecParts_spelt {s whole places : List Char} {neg : Bool}
    (h : Spelt s neg whole places) :
    ∃ units : ℤ, signedDecParts s = some (units, places.length) ∧
      (units : ℚ) / 10 ^ places.length = value s := by
  have hhead := head_signed h.whole_digits h.whole_ne_nil neg places
  rw [← h.text] at hhead
  have hmag := decParts_of_unsigned h.unsigned
  cases neg with
  | true =>
    have htail : magnitude s = s.tail := if_pos (hhead.mpr rfl)
    rw [htail] at hmag
    refine ⟨-(natOf (whole ++ places) : ℤ), ?_, ?_⟩
    · rw [signedDecParts, trim_of_spelt h, if_pos (hhead.mpr rfl), hmag]
      rfl
    · rw [h.value_eq, if_pos rfl, neg_one_mul, Int.cast_neg, Int.cast_natCast]
  | false =>
    have hsame : magnitude s = s := if_neg (mt hhead.mp Bool.false_ne_true)
    rw [hsame] at hmag
    refine ⟨natOf (whole ++ places), ?_, ?_⟩
    · rw [signedDecParts, trim_of_spelt h, if_neg (mt hhead.mp Bool.false_ne_true), hmag]
    · rw [h.value_eq, if_neg Bool.false_ne_true, one_mul, Int.cast_natCast]

/-- The comparison is that of the values. -/
theorem decCompare_eq {a b : List Char} (ha : isDecimal a = true) (hb : isDecimal b = true) :
    decCompare a b = some (if value a < value b then -1 else if value b < value a then 1 else 0) := by
  obtain ⟨_, _, pa, hsa⟩ := isDecimal_iff.mp ha
  obtain ⟨_, _, pb, hsb⟩ := isDecimal_iff.mp hb
  obtain ⟨ua, hua, hva⟩ := signedDecParts_spelt hsa
  obtain ⟨ub, hub, hvb⟩ := signedDecParts_spelt hsb
  have hcommon : ∀ {u : ℤ} {v : ℚ} {p : ℕ}, p ≤ max pa.length pb.length →
      (u : ℚ) / 10 ^ p = v →
      ((u * 10 ^ (max pa.length pb.length - p) : ℤ) : ℚ) / 10 ^ (max pa.length pb.length) = v := by
    intro u v p hp hv
    have hten : (10 : ℚ) ^ (max pa.length pb.length - p) ≠ 0 := by positivity
    have hpow : (10 : ℚ) ^ max pa.length pb.length =
        10 ^ p * 10 ^ (max pa.length pb.length - p) := by
      rw [← pow_add, Nat.add_sub_cancel' hp]
    rw [← hv, hpow]
    push_cast
    exact mul_div_mul_right _ _ hten
  have hxa := hcommon (le_max_left _ _) hva
  have hxb := hcommon (le_max_right _ _) hvb
  simp only [decCompare, looksNumeric, ha, hb, hua, hub, Bool.not_true, Bool.or_self,
    Bool.false_eq_true, if_false, Option.bind_eq_bind, Option.bind_some,
    compare_units hxa hxb, compare_units hxb hxa]
  rfl

/-! ### Runs of the allocation editor -/

/-- Spelt with no zeros at either end and no sign on nil. -/
def IsCanonical (s : List Char) : Prop := ∃ neg whole places, Canonical s neg whole places

theorem add_eq_of_value {a b c d : List Char} (ha : isDecimal a = true) (hb : isDecimal b = true)
    (hc : isDecimal c = true) (hd : isDecimal d = true)
    (h : value a + value b = value c + value d) : addDecimalStrings a b = addDecimalStrings c d := by
  obtain ⟨u, k, hab, hu⟩ := addDecimalStrings_written ha hb
  obtain ⟨v, l, hcd, hv⟩ := addDecimalStrings_written hc hd
  rw [hab, hcd, written_congr (hu.trans (h.trans hv.symm))]

theorem addDecimalStrings_assoc {a b c : List Char} (ha : isDecimal a = true)
    (hb : isDecimal b = true) (hc : isDecimal c = true) :
    ((addDecimalStrings a b).bind fun s => addDecimalStrings s c) =
      (addDecimalStrings b c).bind fun s => addDecimalStrings a s := by
  obtain ⟨u, k, hab, hu⟩ := addDecimalStrings_written ha hb
  obtain ⟨v, l, hbc, hv⟩ := addDecimalStrings_written hb hc
  rw [hab, hbc, Option.bind_some, Option.bind_some]
  refine add_eq_of_value (isDecimal_written u k) hc ha (isDecimal_written v l) ?_
  rw [written_value, written_value, hu, hv, add_assoc]

/-- A row that is a decimal is added to the total and counted. -/
theorem allocate_decimal (st : Allocated) (htotal : isDecimal st.total = true) {q : List Char}
    (hq : isDecimal q = true) :
    ∃ units scale, allocate st q = some ⟨written units scale, st.counted + 1, st.invalid⟩ ∧
      (units : ℚ) / 10 ^ scale = value st.total + value q := by
  obtain ⟨neg, whole, places, hs⟩ := isDecimal_iff.mp hq
  obtain ⟨units, scale, hadd, hvalue⟩ := addDecimalStrings_written htotal hq
  refine ⟨units, scale, ?_, hvalue⟩
  simp only [allocate, trim_of_spelt hs, if_neg (ne_nil_of_spelt hs), hq, Bool.not_true,
    Bool.false_eq_true, if_false, hadd]
  rfl

/-- A run over decimals totals them exactly and counts them all. -/
theorem allocate_run {quantities : List (List Char)} (h : ∀ q ∈ quantities, isDecimal q = true)
    (units : ℤ) (scale counted invalid : ℕ) :
    ∃ units' scale', quantities.foldlM allocate ⟨written units scale, counted, invalid⟩ =
        some ⟨written units' scale', counted + quantities.length, invalid⟩ ∧
      (units' : ℚ) / 10 ^ scale' = units / 10 ^ scale + (quantities.map value).sum := by
  induction quantities generalizing units scale counted with
  | nil => exact ⟨units, scale, rfl, by rw [List.map_nil, List.sum_nil, add_zero]⟩
  | cons q quantities ih =>
    obtain ⟨u, k, hstep, hu⟩ := allocate_decimal ⟨written units scale, counted, invalid⟩
      (isDecimal_written units scale) (h q List.mem_cons_self)
    obtain ⟨v, l, hrun, hv⟩ := ih (fun p hp => h p (List.mem_cons_of_mem q hp)) u k (counted + 1)
    refine ⟨v, l, ?_, ?_⟩
    · rw [List.foldlM_cons, hstep, Option.bind_eq_bind, Option.bind_some, hrun,
        List.length_cons, Nat.add_assoc, Nat.add_comm 1]
    · rw [hv, hu, written_value, List.map_cons, List.sum_cons, add_assoc]

/-- What the summary says of decimals that sum to `sum` against a decimal target. -/
structure Summed (r : AllocationSummary) (rows : ℕ) (sum target : ℚ) : Prop where
  counted : r.counted = rows
  invalid : r.invalid = 0
  total_canonical : IsCanonical r.total
  total_value : value r.total = sum
  agrees : r.status = .agrees ↔ sum = target
  short : r.status = .short ↔ sum < target
  exceeds : r.status = .exceeds ↔ target < sum
  difference_canonical : IsCanonical r.difference
  difference_value : value r.difference = |target - sum|

theorem zero_canonical : IsCanonical ['0'] := by
  rw [← written_zero 0]
  exact written_canonical 0 0

/-- The status and the difference, from the written difference of target and total. -/
theorem status_of_signed {st : Allocated} (hcounted : st.counted ≠ 0) {units : ℤ} {scale : ℕ}
    {sum target : ℚ} (h : (units : ℚ) / 10 ^ scale = target - sum) :
    (allocationStatus true st (written units scale) = .agrees ↔ sum = target) ∧
      (allocationStatus true st (written units scale) = .short ↔ sum < target) ∧
      (allocationStatus true st (written units scale) = .exceeds ↔ target < sum) := by
  have hten : (0 : ℚ) < 10 ^ scale := by positivity
  have hzero : units = 0 ↔ sum = target := by
    rw [eq_comm (a := sum), ← sub_eq_zero (a := target), ← h, div_eq_zero_iff,
      or_iff_left hten.ne', Int.cast_eq_zero]
  have hneg : units < 0 ↔ target < sum := by
    rw [← sub_neg (a := target), ← h, div_lt_iff₀ hten, zero_mul, Int.cast_lt_zero]
  simp only [allocationStatus, Bool.not_true, Bool.false_eq_true, if_false, hcounted, false_and,
    written_eq_zero, written_head]
  rcases lt_trichotomy units 0 with hlt | heq | hgt
  · have hover := hneg.mp hlt
    rw [if_neg hlt.ne, if_pos hlt]
    exact ⟨iff_of_false (by decide) hover.ne', iff_of_false (by decide) hover.le.not_gt,
      iff_of_true rfl hover⟩
  · have hsame := hzero.mp heq
    rw [if_pos heq]
    exact ⟨iff_of_true rfl hsame, iff_of_false (by decide) hsame.not_lt,
      iff_of_false (by decide) hsame.symm.not_lt⟩
  · have hshort : sum < target :=
      lt_of_le_of_ne (not_lt.mp (mt hneg.mpr (by omega))) (mt hzero.mpr hgt.ne')
    rw [if_neg hgt.ne', if_neg hgt.not_gt]
    exact ⟨iff_of_false (by decide) hshort.ne, iff_of_true rfl hshort,
      iff_of_false (by decide) hshort.le.not_gt⟩

theorem difference_of_signed {st : Allocated} (hcounted : st.counted ≠ 0) {units : ℤ} {scale : ℕ}
    {sum target : ℚ} (h : (units : ℚ) / 10 ^ scale = target - sum) {difference : List Char}
    (hdiff : difference =
      if allocationStatus true st (written units scale) = .exceeds then (written units scale).tail
      else if allocationStatus true st (written units scale) = .short then written units scale
      else ['0']) :
    IsCanonical difference ∧ value difference = |target - sum| := by
  obtain ⟨hagrees, hshort, hexceeds⟩ := status_of_signed hcounted h
  have hten : (0 : ℚ) < 10 ^ scale := by positivity
  rcases lt_trichotomy sum target with hlt | heq | hgt
  · rw [if_neg (mt hexceeds.mp hlt.not_gt), if_pos (hshort.mpr hlt)] at hdiff
    rw [hdiff]
    exact ⟨written_canonical _ _, by rw [written_value, h, abs_of_pos (sub_pos.mpr hlt)]⟩
  · rw [if_neg (mt hexceeds.mp heq.symm.not_lt), if_neg (mt hshort.mp heq.not_lt)] at hdiff
    rw [hdiff, heq, sub_self, abs_zero]
    exact ⟨zero_canonical, by rw [← written_zero 0, written_value, Int.cast_zero, zero_div]⟩
  · have hneg : units < 0 := by
      have hlt : (units : ℚ) / 10 ^ scale < 0 := by
        rw [h]
        exact sub_neg.mpr hgt
      rw [div_lt_iff₀ hten, zero_mul, Int.cast_lt_zero] at hlt
      exact hlt
    rw [if_pos (hexceeds.mpr hgt), tail_written hneg] at hdiff
    rw [hdiff]
    refine ⟨written_canonical _ _, ?_⟩
    rw [written_value, Int.cast_neg, neg_div, h, abs_of_neg (sub_neg.mpr hgt)]

theorem allocationSummary_decimal {quantities : List (List Char)} {required : List Char}
    (hq : ∀ q ∈ quantities, isDecimal q = true) (hreq : isDecimal required = true) :
    ∃ r, allocationSummary quantities required = some r ∧
      (quantities ≠ [] →
        Summed r quantities.length (quantities.map value).sum (value required)) ∧
      (quantities = [] → r.status = .pending ∧ r.difference = ['0']) := by
  obtain ⟨units, scale, hrun, hsum⟩ := allocate_run hq 0 0 0 0
  rw [written_zero, Int.cast_zero, zero_div, zero_add] at *
  obtain ⟨hnegate, hvneg⟩ := value_negate (isDecimal_written units scale)
  obtain ⟨diff, k, hadd, hdiff⟩ := addDecimalStrings_written hreq hnegate
  rw [hvneg, written_value, hsum, ← sub_eq_add_neg] at hdiff
  obtain ⟨_, _, _, hspelt⟩ := isDecimal_iff.mp hreq
  simp only [allocationSummary, hrun, trim_of_spelt hspelt, hreq, if_true, hadd,
    Option.bind_eq_bind, Option.bind_some, Option.pure_def]
  refine ⟨_, rfl, ?_, ?_⟩
  · intro hne
    have hcounted : (⟨written units scale, quantities.length, 0⟩ : Allocated).counted ≠ 0 :=
      mt List.length_eq_zero_iff.mp hne
    obtain ⟨hagrees, hshort, hexceeds⟩ := status_of_signed hcounted hdiff
    obtain ⟨hcanonical, hvalue⟩ := difference_of_signed hcounted hdiff rfl
    exact ⟨rfl, rfl, written_canonical _ _, by rw [written_value, hsum], hagrees, hshort, hexceeds,
      hcanonical, hvalue⟩
  · rintro rfl
    exact ⟨rfl, rfl⟩

/-- **The browser's sums are exact.** Sums are spelt from their values alone, the
comparison is that of the values, and the summary of any rows at all against a
target states the exact total, standing and difference. -/
theorem browser_sums_exact :
    (∀ a b, isDecimal a = true → isDecimal b = true →
      ∃ s, addDecimalStrings a b = some s ∧ IsCanonical s ∧ value s = value a + value b) ∧
    (∀ a b, isDecimal a = true → isDecimal b = true →
      addDecimalStrings a b = addDecimalStrings b a) ∧
    (∀ a b c, isDecimal a = true → isDecimal b = true → isDecimal c = true →
      ((addDecimalStrings a b).bind fun s => addDecimalStrings s c) =
        (addDecimalStrings b c).bind fun s => addDecimalStrings a s) ∧
    (∀ a b, isDecimal a = true → isDecimal b = true → decCompare a b =
      some (if value a < value b then -1 else if value b < value a then 1 else 0)) ∧
    ∀ quantities required, (∀ q ∈ quantities, isDecimal q = true) → isDecimal required = true →
      ∃ r, allocationSummary quantities required = some r ∧
        (quantities ≠ [] →
          Summed r quantities.length (quantities.map value).sum (value required)) ∧
        (quantities = [] → r.status = .pending ∧ r.difference = ['0']) := by
  refine ⟨?_, ?_, ?_, ?_, ?_⟩
  · intro a b ha hb
    obtain ⟨units, scale, hadd, hvalue⟩ := addDecimalStrings_written ha hb
    exact ⟨_, hadd, written_canonical units scale, by rw [written_value, hvalue]⟩
  · intro a b ha hb
    exact add_eq_of_value ha hb hb ha (add_comm _ _)
  · intro a b c ha hb hc
    exact addDecimalStrings_assoc ha hb hc
  · intro a b ha hb
    exact decCompare_eq ha hb
  · intro quantities required hq hreq
    exact allocationSummary_decimal hq hreq

/-- With no row typed the target is pending, not short. -/
theorem empty_allocation_not_short :
    ¬ ∀ quantities required, (∀ q ∈ quantities, isDecimal q = true) → isDecimal required = true →
      ∃ r, allocationSummary quantities required = some r ∧
        Summed r quantities.length (quantities.map value).sum (value required) := by
  intro h
  have hreq : isDecimal ['5'] = true := by decide
  obtain ⟨r, hr, hsummed⟩ := h [] ['5'] (fun _ hq => absurd hq List.not_mem_nil) hreq
  have hstatus : (allocationSummary [] ['5']).map AllocationSummary.status = some .pending := by
    decide
  rw [hr] at hstatus
  have hpending : r.status = .pending := Option.some.inj hstatus
  have hlt : ((([] : List (List Char)).map value).sum : ℚ) < value ['5'] := by decide +kernel
  have hshort := hsummed.short.mpr hlt
  rw [hpending] at hshort
  cases hshort

end ShareTracker.Web
