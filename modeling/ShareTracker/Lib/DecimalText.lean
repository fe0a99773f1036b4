import Mathlib

/-!
# Decimal numbers as texts

A decimal is an optional sign, digits, and perhaps a point with digits after it.
Its value is read from its digits and its places, and a number of a given count
of places is written out with the zeros at its end dropped.
-/
namespace DecimalText

def Digits (l : List Char) : Prop := ∀ c ∈ l, c.isDigit = true

/-- The number a list of digits states. -/
def natOf (digits : List Char) : ℕ := Nat.ofDigitChars 10 digits 0

def sign (neg : Bool) : List Char := if neg then ['-'] else []

/-- A point and the places after it, or nothing. -/
def point (places : List Char) : List Char := if places = [] then [] else '.' :: places

structure Spelt (s : List Char) (neg : Bool) (whole places : List Char) : Prop where
  whole_digits : Digits whole
  places_digits : Digits places
  whole_ne_nil : whole ≠ []
  text : s = sign neg ++ (whole ++ point places)

/-- Digits, and a point only with digits after it. -/
def isUnsigned (s : List Char) : Bool :=
  let whole := s.takeWhile Char.isDigit
  let rest := s.dropWhile Char.isDigit
  !whole.isEmpty && (rest.isEmpty ||
    (rest.head? == some '.' && !rest.tail.isEmpty && rest.tail.all Char.isDigit))

/-- The text after a minus sign, where there is one. -/
def magnitude (s : List Char) : List Char := if s.head? = some '-' then s.tail else s

def isDecimal (s : List Char) : Bool := isUnsigned (magnitude s)

/-- The places after the point. -/
def dp (s : List Char) : ℕ := if '.' ∈ s then s.length - s.idxOf '.' - 1 else 0

def value (s : List Char) : ℚ :=
  (if s.head? = some '-' then -1 else 1) * natOf ((magnitude s).erase '.') / 10 ^ dp s

section Reading
variable {s whole places : List Char} {neg : Bool}

theorem Digits.append {a b : List Char} (ha : Digits a) (hb : Digits b) : Digits (a ++ b) := by
  intro c hc
  exact (List.mem_append.mp hc).elim (ha c) (hb c)

theorem Digits.not_mem {l : List Char} (h : Digits l) {c : Char} (hc : c.isDigit = false) :
    c ∉ l := by
  intro hmem
  rw [h c hmem] at hc
  cases hc

theorem point_nil : point [] = [] := rfl

theorem point_cons {places : List Char} (h : places ≠ []) : point places = '.' :: places := if_neg h

/-- The sign a decimal starts with is not one of its digits. -/
theorem head_ne_minus (h : Digits whole) (hne : whole ≠ []) :
    (whole ++ point places).head? ≠ some '-' := by
  cases whole with
  | nil => exact absurd rfl hne
  | cons c whole =>
    intro hhead
    obtain rfl : c = '-' := by simpa using hhead
    exact h.not_mem (c := '-') (by decide) List.mem_cons_self

theorem magnitude_signed (h : Digits whole) (hne : whole ≠ []) (neg : Bool) (places : List Char) :
    magnitude (sign neg ++ (whole ++ point places)) = whole ++ point places := by
  cases neg with
  | true => rfl
  | false => exact if_neg (head_ne_minus h hne)

theorem head_signed (h : Digits whole) (hne : whole ≠ []) (neg : Bool) (places : List Char) :
    (sign neg ++ (whole ++ point places)).head? = some '-' ↔ neg = true := by
  cases neg with
  | true => simp [sign]
  | false => simpa [sign] using head_ne_minus h hne

theorem isUnsigned_iff :
    isUnsigned s = true ↔ ∃ whole places, Spelt s false whole places := by
  constructor
  · intro h
    simp only [isUnsigned, Bool.and_eq_true, Bool.or_eq_true, Bool.not_eq_true',
      List.isEmpty_eq_false_iff, List.isEmpty_iff, beq_iff_eq, List.all_eq_true] at h
    obtain ⟨hwhole, hrest⟩ := h
    have hdigits : Digits (s.takeWhile Char.isDigit) := fun c hc => List.mem_takeWhile_imp hc
    have hsplit := (List.takeWhile_append_dropWhile (p := Char.isDigit) (l := s)).symm
    rcases hrest with hnone | ⟨⟨hdot, hplaces⟩, hall⟩
    · refine ⟨_, [], hdigits, by simp [Digits], hwhole, ?_⟩
      rw [hnone] at hsplit
      exact hsplit
    · refine ⟨_, (s.dropWhile Char.isDigit).tail, hdigits, hall, hwhole, ?_⟩
      rw [point_cons hplaces]
      have hrest : s.dropWhile Char.isDigit = '.' :: (s.dropWhile Char.isDigit).tail :=
        (List.cons_head?_tail hdot).symm
      rw [← hrest]
      exact hsplit
  · rintro ⟨whole, places, h⟩
    have htext : s = whole ++ point places := h.text
    have hstop : (point places).takeWhile Char.isDigit = [] ∧
        (point places).dropWhile Char.isDigit = point places := by
      by_cases hplaces : places = []
      · rw [hplaces, point_nil]
        exact ⟨rfl, rfl⟩
      · rw [point_cons hplaces]
        exact ⟨rfl, rfl⟩
    have htake : s.takeWhile Char.isDigit = whole := by
      rw [htext, List.takeWhile_append_of_pos h.whole_digits, hstop.1, List.append_nil]
    have hdrop : s.dropWhile Char.isDigit = point places := by
      rw [htext, List.dropWhile_append_of_pos h.whole_digits, hstop.2]
    rw [isUnsigned, htake, hdrop]
    by_cases hplaces : places = []
    · simp [hplaces, point_nil, h.whole_ne_nil]
    · rw [point_cons hplaces]
      have hall : ∀ c ∈ places, c.isDigit = true := h.places_digits
      simpa [h.whole_ne_nil, hplaces] using hall

theorem isDecimal_iff : isDecimal s = true ↔ ∃ neg whole places, Spelt s neg whole places := by
  rw [isDecimal, isUnsigned_iff]
  constructor
  · rintro ⟨whole, places, h⟩
    by_cases hhead : s.head? = some '-'
    · refine ⟨true, whole, places, h.whole_digits, h.places_digits, h.whole_ne_nil, ?_⟩
      have htail : s.tail = whole ++ point places := by
        have htext := h.text
        rw [magnitude, if_pos hhead] at htext
        exact htext
      rw [← htail]
      exact (List.cons_head?_tail hhead).symm
    · refine ⟨false, whole, places, h.whole_digits, h.places_digits, h.whole_ne_nil, ?_⟩
      have htext := h.text
      rw [magnitude, if_neg hhead] at htext
      exact htext
  · rintro ⟨neg, whole, places, h⟩
    refine ⟨whole, places, h.whole_digits, h.places_digits, h.whole_ne_nil, ?_⟩
    rw [h.text, magnitude_signed h.whole_digits h.whole_ne_nil]
    rfl

theorem Spelt.unsigned (h : Spelt s neg whole places) :
    Spelt (magnitude s) false whole places := by
  refine ⟨h.whole_digits, h.places_digits, h.whole_ne_nil, ?_⟩
  rw [h.text, magnitude_signed h.whole_digits h.whole_ne_nil]
  rfl

theorem Spelt.dp_eq (h : Spelt s neg whole places) : dp s = places.length := by
  have hminus : '.' ∉ sign neg := by cases neg <;> simp [sign]
  have hwhole : '.' ∉ whole := h.whole_digits.not_mem (by decide)
  rw [dp, h.text]
  by_cases hplaces : places = []
  · rw [hplaces, point_nil, List.append_nil, if_neg (by simp [hminus, hwhole]), List.length_nil]
  · rw [point_cons hplaces, if_pos (by simp), List.idxOf_append_of_notMem hminus,
      List.idxOf_append_of_notMem hwhole, List.idxOf_cons_self]
    simp only [List.length_append, List.length_cons]
    omega

theorem Spelt.erase_eq (h : Spelt s neg whole places) :
    s.erase '.' = sign neg ++ (whole ++ places) := by
  have hminus : '.' ∉ sign neg := by cases neg <;> simp [sign]
  have hwhole : '.' ∉ whole := h.whole_digits.not_mem (by decide)
  rw [h.text, List.erase_append_right _ hminus, List.erase_append_right _ hwhole]
  by_cases hplaces : places = []
  · rw [hplaces, point_nil]
    rfl
  · rw [point_cons hplaces, List.erase_cons_head]

theorem Spelt.value_eq (h : Spelt s neg whole places) :
    value s = (if neg then -1 else 1) * natOf (whole ++ places) / 10 ^ places.length := by
  have hhead := head_signed h.whole_digits h.whole_ne_nil neg places
  rw [← h.text] at hhead
  rw [value, h.dp_eq, h.unsigned.erase_eq]
  simp only [hhead]
  rfl

end Reading

/-! ### Writing -/

/-- The digits of `m`, at least one before the places. -/
def padded (m scale : ℕ) : List Char := List.leftpad (scale + 1) '0' (Nat.toDigits 10 m)

theorem length_padded (m scale : ℕ) : scale < (padded m scale).length := by
  rw [padded, List.length_leftpad]
  omega

theorem padded_zero (m : ℕ) : padded m 0 = Nat.toDigits 10 m := by
  have hpos := Nat.length_toDigits_pos (b := 10) (n := m)
  rw [padded, List.leftpad, Nat.sub_eq_zero_of_le (by omega)]
  rfl

theorem padded_succ (m scale : ℕ) :
    padded m (scale + 1) = padded (m / 10) scale ++ [(m % 10).digitChar] := by
  unfold padded List.leftpad
  rcases lt_or_ge m 10 with hlt | hge
  · rw [Nat.div_eq_of_lt hlt, Nat.mod_eq_of_lt hlt, Nat.toDigits_of_lt_base hlt, Nat.toDigits_zero]
    have hzeros : List.replicate (scale + 1) '0' = List.replicate scale '0' ++ ['0'] :=
      List.replicate_succ'
    simp only [List.length_singleton, Nat.add_sub_cancel]
    rw [hzeros]
  · rw [Nat.toDigits_of_base_le (by decide) hge, List.length_append, List.length_singleton,
      ← List.append_assoc]
    congr 3
    omega

/-- The digits before the point and those after it. -/
def wholeOf (m scale : ℕ) : List Char := (padded m scale).take ((padded m scale).length - scale)

def placesOf (m scale : ℕ) : List Char := (padded m scale).drop ((padded m scale).length - scale)

theorem wholeOf_append_placesOf (m scale : ℕ) : wholeOf m scale ++ placesOf m scale = padded m scale :=
  List.take_append_drop _ _

theorem length_placesOf (m scale : ℕ) : (placesOf m scale).length = scale := by
  have hlen := length_padded m scale
  rw [placesOf, List.length_drop]
  omega

theorem split_succ (m scale : ℕ) :
    wholeOf m (scale + 1) = wholeOf (m / 10) scale ∧
      placesOf m (scale + 1) = placesOf (m / 10) scale ++ [(m % 10).digitChar] := by
  have hlen := length_padded (m / 10) scale
  have hcut : (padded m (scale + 1)).length - (scale + 1) =
      (padded (m / 10) scale).length - scale := by
    rw [padded_succ, List.length_append, List.length_singleton]
    omega
  constructor
  · rw [wholeOf, hcut, padded_succ, List.take_append_of_le_length (Nat.sub_le _ _)]
    rfl
  · rw [placesOf, hcut, padded_succ, List.drop_append_of_le_length (Nat.sub_le _ _)]
    rfl

theorem wholeOf_eq (m scale : ℕ) : wholeOf m scale = Nat.toDigits 10 (m / 10 ^ scale) := by
  induction scale generalizing m with
  | zero => rw [wholeOf, padded_zero, Nat.sub_zero, List.take_length, pow_zero, Nat.div_one]
  | succ scale ih => rw [(split_succ m scale).1, ih, Nat.div_div_eq_div_mul, pow_succ']

theorem digits_toDigits (m : ℕ) : Digits (Nat.toDigits 10 m) :=
  fun _ hc => Nat.isDigit_of_mem_toDigits (by decide) (by decide) hc

theorem digits_padded (m scale : ℕ) : Digits (padded m scale) := by
  intro c hc
  rw [padded, List.leftpad] at hc
  rcases List.mem_append.mp hc with hzero | hdigit
  · rw [List.eq_of_mem_replicate hzero]
    rfl
  · exact digits_toDigits m c hdigit

theorem digits_placesOf (m scale : ℕ) : Digits (placesOf m scale) :=
  fun c hc => digits_padded m scale c (List.mem_of_mem_drop hc)

theorem natOf_padded (m scale : ℕ) : natOf (padded m scale) = m := by
  rw [natOf, padded, List.leftpad, Nat.ofDigitChars_append, Nat.ofDigitChars_replicate_zero, mul_zero,
    Nat.ofDigitChars_ten_toDigits]

theorem natOf_zeros (digits : List Char) (n : ℕ) :
    natOf (digits ++ List.replicate n '0') = natOf digits * 10 ^ n := by
  rw [natOf, Nat.ofDigitChars_append, Nat.ofDigitChars_replicate_zero, mul_comm]
  rfl

/-- A number with ten times as many units has one more place, and it is a zero. -/
theorem split_mul_ten (m scale : ℕ) :
    wholeOf (m * 10) (scale + 1) = wholeOf m scale ∧
      placesOf (m * 10) (scale + 1) = placesOf m scale ++ ['0'] := by
  have h := split_succ (m * 10) scale
  rw [Nat.mul_div_cancel m (by decide), Nat.mul_mod_left] at h
  exact h

/-- The first digit of a number is a zero only where the number is. -/
theorem head_toDigits (m : ℕ) :
    Nat.toDigits 10 m = ['0'] ∨ (Nat.toDigits 10 m).head? ≠ some '0' := by
  induction m using Nat.strong_induction_on with
  | _ m ih =>
    rcases lt_or_ge m 10 with hlt | hge
    · rw [Nat.toDigits_of_lt_base hlt]
      interval_cases m
      · exact .inl rfl
      all_goals exact .inr (by decide)
    · have hsmall : m / 10 < m := Nat.div_lt_self (by omega) (by decide)
      have hne := Nat.toDigits_ne_nil (n := m / 10) (b := 10)
      right
      rw [Nat.toDigits_of_base_le (by decide) hge, List.head?_append_of_ne_nil _ hne]
      rcases ih (m / 10) hsmall with hzero | hhead
      · have hval := congrArg (fun l => Nat.ofDigitChars 10 l 0) hzero
        simp only [Nat.ofDigitChars_ten_toDigits] at hval
        have hnil : Nat.ofDigitChars 10 ['0'] 0 = 0 := rfl
        rw [hnil] at hval
        omega
      · exact hhead

/-! ### The spelling without zeros at the end -/

def dropZeros (places : List Char) : List Char := places.rdropWhile (· == '0')

/-- `m` units of the last of `scale` places, written out. -/
def spell (neg : Bool) (m scale : ℕ) : List Char :=
  let body := wholeOf m scale ++ point (dropZeros (placesOf m scale))
  sign (neg && body != ['0']) ++ body

theorem dropZeros_append (places : List Char) :
    ∃ n, places = dropZeros places ++ List.replicate n '0' := by
  induction places using List.reverseRecOn with
  | nil => exact ⟨0, rfl⟩
  | append_singleton places c ih =>
    obtain ⟨n, hn⟩ := ih
    by_cases hc : c = '0'
    · subst hc
      refine ⟨n + 1, ?_⟩
      rw [dropZeros, List.rdropWhile_concat_pos _ _ _ (by decide), List.replicate_succ',
        ← List.append_assoc]
      exact congrArg (· ++ ['0']) hn
    · refine ⟨0, ?_⟩
      rw [dropZeros, List.rdropWhile_concat_neg _ _ _ (by simpa using hc)]
      exact (List.append_nil _).symm

theorem dropZeros_concat (places : List Char) : dropZeros (places ++ ['0']) = dropZeros places :=
  List.rdropWhile_concat_pos _ _ _ (by decide)

theorem getLast_dropZeros (places : List Char) : (dropZeros places).getLast? ≠ some '0' := by
  intro h
  have hne : dropZeros places ≠ [] := by
    intro hnil
    rw [hnil] at h
    cases h
  have hlast := List.rdropWhile_last_not (· == '0') places hne
  rw [List.getLast?_eq_some_getLast hne] at h
  exact hlast (beq_iff_eq.mpr (Option.some.inj h))

theorem digits_dropZeros {places : List Char} (h : Digits places) : Digits (dropZeros places) :=
  fun c hc => h c ((List.rdropWhile_prefix _ _).subset hc)

theorem spell_mul_ten (neg : Bool) (m scale : ℕ) :
    spell neg (m * 10) (scale + 1) = spell neg m scale := by
  obtain ⟨hwhole, hplaces⟩ := split_mul_ten m scale
  simp only [spell, hwhole, hplaces, dropZeros_concat]

theorem spell_mul_pow (neg : Bool) (m scale extra : ℕ) :
    spell neg (m * 10 ^ extra) (scale + extra) = spell neg m scale := by
  induction extra with
  | zero => rw [pow_zero, mul_one, Nat.add_zero]
  | succ extra ih =>
    rw [pow_succ, ← mul_assoc, ← Nat.add_assoc, spell_mul_ten, ih]

/-- No zeros before the first digit or after the last place, and no sign on nil. -/
structure Canonical (s : List Char) (neg : Bool) (whole places : List Char) : Prop
    extends Spelt s neg whole places where
  no_leading : whole = ['0'] ∨ whole.head? ≠ some '0'
  no_trailing : places.getLast? ≠ some '0'
  signed : neg = true → ¬ (whole = ['0'] ∧ places = [])

theorem spell_canonical (neg : Bool) (m scale : ℕ) :
    ∃ neg' whole places, Canonical (spell neg m scale) neg' whole places := by
  refine ⟨_, wholeOf m scale, dropZeros (placesOf m scale), ⟨?_, ?_, ?_, rfl⟩, ?_, ?_, ?_⟩
  · rw [wholeOf_eq]
    exact digits_toDigits _
  · exact digits_dropZeros (digits_placesOf m scale)
  · rw [wholeOf_eq]
    exact Nat.toDigits_ne_nil
  · rw [wholeOf_eq]
    exact head_toDigits _
  · exact getLast_dropZeros _
  · rintro hneg ⟨hwhole, hplaces⟩
    rw [hwhole, hplaces] at hneg
    simp [point] at hneg

theorem natOf_spelt (m scale : ℕ) :
    (natOf (wholeOf m scale ++ dropZeros (placesOf m scale)) : ℚ) /
      10 ^ (dropZeros (placesOf m scale)).length = m / 10 ^ scale := by
  obtain ⟨n, hn⟩ := dropZeros_append (placesOf m scale)
  have hlen : scale = (dropZeros (placesOf m scale)).length + n := by
    have hcount := congrArg List.length hn
    rwa [length_placesOf, List.length_append, List.length_replicate] at hcount
  have hnat : natOf (wholeOf m scale ++ dropZeros (placesOf m scale)) * 10 ^ n = m := by
    rw [← natOf_zeros, List.append_assoc, ← hn, wholeOf_append_placesOf, natOf_padded]
  have hten : (10 : ℚ) ^ n ≠ 0 := by positivity
  have hscale : (10 : ℚ) ^ scale = 10 ^ (dropZeros (placesOf m scale)).length * 10 ^ n := by
    rw [← pow_add, ← hlen]
  have hm : (m : ℚ) = natOf (wholeOf m scale ++ dropZeros (placesOf m scale)) * 10 ^ n := by
    exact_mod_cast hnat.symm
  rw [hscale]
  conv_rhs => rw [hm]
  rw [mul_div_mul_right _ _ hten]

/-- A sign is left off only where there is nothing to be negative. -/
theorem spell_value (neg : Bool) (m scale : ℕ) :
    value (spell neg m scale) = (if neg then -1 else 1) * m / 10 ^ scale := by
  have hspelt : Spelt (spell neg m scale) (neg && (wholeOf m scale ++
      point (dropZeros (placesOf m scale))) != ['0']) (wholeOf m scale)
      (dropZeros (placesOf m scale)) := by
    refine ⟨?_, digits_dropZeros (digits_placesOf m scale), ?_, rfl⟩
    · rw [wholeOf_eq]
      exact digits_toDigits _
    · rw [wholeOf_eq]
      exact Nat.toDigits_ne_nil
  rw [hspelt.value_eq, mul_div_assoc, natOf_spelt, ← mul_div_assoc]
  cases neg with
  | false => rfl
  | true =>
    by_cases hnil : wholeOf m scale ++ point (dropZeros (placesOf m scale)) = ['0']
    · have hplaces : dropZeros (placesOf m scale) = [] := by
        by_contra hne
        have hdot : '.' ∈ wholeOf m scale ++ point (dropZeros (placesOf m scale)) := by
          rw [point_cons hne]
          simp
        rw [hnil] at hdot
        simp at hdot
      have hzero := natOf_spelt m scale
      rw [hplaces, point_nil, List.append_nil] at hnil
      rw [hplaces, List.append_nil, hnil] at hzero
      have hnat : natOf ['0'] = 0 := rfl
      rw [hnat, Nat.cast_zero, zero_div] at hzero
      rw [mul_div_assoc, mul_div_assoc, ← hzero, mul_zero, mul_zero]
    · have hbne : (wholeOf m scale ++ point (dropZeros (placesOf m scale)) != ['0']) = true :=
        bne_iff_ne.mpr hnil
      rw [hbne]
      rfl

end DecimalText
