import ShareTracker.FigureSums
import ShareTracker.Lib.DecimalText
import ShareTracker.Lib.Text

/-!
A decimal a request states, as it is read and stored: text is trimmed and handed
to the decimal library, a JSON number is refused. The library rounds a text of
more digits than a figure holds, and what it stores it reads back.
-/
namespace ShareTracker.StrictDecimals

open DecimalText

/-! ### What a text spells -/

/-- A sign, digits, and how many of them follow the point. -/
structure Spelling where
  neg : Bool
  digits : List Char
  places : ℕ

namespace Spelling

def mantissa (s : Spelling) : ℤ := (if s.neg then -1 else 1) * natOf s.digits

def value (s : Spelling) : ℚ := s.mantissa / 10 ^ s.places

end Spelling

/-- What follows the sign, if one is written. -/
def unsigned (t : List Char) : List Char :=
  if t.head? = some '-' ∨ t.head? = some '+' then t.tail else t

/-- A sign or none, and digits with at most one point among them; underscores are skipped. -/
def digitsOf (t : List Char) : Option Spelling :=
  let parts := (Text.splitOnce '.' (unsigned t)).getD (unsigned t, [])
  let places := parts.2.filter fun c => c ≠ '_'
  let digits := parts.1.filter (fun c => c ≠ '_') ++ places
  if digits ≠ [] ∧ digits.all Char.isDigit = true then
    some ⟨t.head? = some '-', digits, places.length⟩
  else none

/-- Digits, and the power of ten they are moved by. -/
structure Numeral where
  digits : Spelling
  exponent : ℤ

def Numeral.value (n : Numeral) : ℚ := n.digits.value * 10 ^ n.exponent

def isExponent (c : Char) : Bool := c == 'e' || c == 'E'

/-- What stands before the exponent. -/
def base (t : List Char) : List Char := t.takeWhile fun c => !isExponent c

def exponentOf (t : List Char) : Option ℤ :=
  if unsigned t ≠ [] ∧ (unsigned t).all Char.isDigit = true then
    some ((if t.head? = some '-' then -1 else 1) * natOf (unsigned t))
  else none

/-- The exponent, or nought where none is written. -/
def exponent (t : List Char) : Option ℤ :=
  match t.dropWhile fun c => !isExponent c with
  | [] => some 0
  | _ :: written => exponentOf written

/-- The decimal a text spells. -/
def spelling (t : List Char) : Option Numeral :=
  (digitsOf (base t)).bind fun digits => (exponent t).map fun e => ⟨digits, e⟩

/-- What is relied on of the decimal library. Digits are read to as many of their
places as fit, and off by less than one of the last of them; a text with an exponent
is read as its digits are, moved by it; a plain decimal in range is read; and a figure
is displayed as a plain decimal of its value. -/
structure DecimalLibrary where
  parse : List Char → Option Decimal
  display : Decimal → List Char
  keeps : ∀ {t s d}, digitsOf t = some s → parse t = some d →
    ∀ p ≤ 28, p ≤ s.places → |s.value| * 10 ^ p ≤ 2 ^ 96 - 1 → p ≤ d.scale
  near : ∀ {t s d}, digitsOf t = some s → parse t = some d → |d.value - s.value| < 1 / 10 ^ d.scale
  moves : ∀ {t n d}, spelling t = some n → parse t = some d →
    ∃ b, parse (base t) = some b ∧ d.value = b.value * 10 ^ n.exponent
  accepts : ∀ t, isDecimal t = true → |value t| ≤ 2 ^ 96 - 1 → ∃ d, parse t = some d
  displays : ∀ d, isDecimal (display d) = true ∧ value (display d) = d.value

/-! ### The request codec and the stored column -/

inductive JsonValue
  | null
  | bool (b : Bool)
  | number (literal : List Char)
  | string (text : List Char)
  | array
  | object

inductive RequestError
  | jsonNumberRefused
  | notADecimal (text : List Char)
  | invalidType
  deriving DecidableEq

inductive DecodeError
  | invalidDecimal (text : List Char)

section Codec
variable (L : DecimalLibrary)

/-- `StrictDecimal`: every shape of JSON number is refused. -/
def strictDecimal : JsonValue → Except RequestError Decimal
  | .string v => (L.parse (Text.trim v)).elim (.error (.notADecimal v)) .ok
  | .number _ => .error .jsonNumberRefused
  | .null | .bool _ | .array | .object => .error .invalidType

/-- `Money`: a figure is stored as it is displayed. -/
def encode (d : Decimal) : List Char := L.display d

def decode (text : List Char) : Except DecodeError Decimal :=
  (L.parse text).elim (.error (.invalidDecimal text)) .ok

/-- What is yielded of the value is just what its text spells. -/
def StoredAsStated (json : JsonValue) : Prop :=
  ∀ d, strictDecimal L json = .ok d →
    ∃ t n, json = .string t ∧ spelling (Text.trim t) = some n ∧ d.value = n.value

/-- The value is no text, or one the library refuses, or one that spells a
decimal, its digits one a figure holds. -/
def FitsOrRefused : JsonValue → Prop
  | .string t => L.parse (Text.trim t) = none ∨
      ∃ n, spelling (Text.trim t) = some n ∧ holds n.digits.value = true
  | _ => True

end Codec

/-! ### What the library reads exactly -/

section Reading
variable {L : DecimalLibrary} {t : List Char} {s : Spelling} {d : Decimal}

/-- Digits that a figure holds are a whole number of some place it keeps. -/
theorem exists_kept (hs : digitsOf t = some s) (hd : L.parse t = some d)
    (hv : holds s.value = true) : ∃ n : ℤ, s.value * 10 ^ d.scale = n := by
  obtain ⟨m, k, hvalue, hk, hm⟩ := Decimal.eq_of_holds hv
  have hwhole : ∃ n : ℤ, s.value * 10 ^ min k s.places = n := by
    rcases le_total k s.places with h | h
    · refine ⟨m, ?_⟩
      rw [min_eq_left h, hvalue]
      exact div_mul_cancel₀ _ (by positivity)
    · refine ⟨s.mantissa, ?_⟩
      rw [min_eq_right h, Spelling.value]
      exact div_mul_cancel₀ _ (by positivity)
  have hfit : |s.value| * 10 ^ min k s.places ≤ 2 ^ 96 - 1 := by
    calc |s.value| * 10 ^ min k s.places ≤ |s.value| * 10 ^ k :=
          mul_le_mul_of_nonneg_left (pow_le_pow_right₀ (by norm_num) (min_le_left _ _)) (abs_nonneg _)
      _ = |(m : ℚ)| := by
          rw [hvalue, abs_div, abs_of_pos (by positivity : (0 : ℚ) < 10 ^ k)]
          exact div_mul_cancel₀ _ (by positivity)
      _ ≤ 2 ^ 96 - 1 := by
          rw [← Int.cast_abs, Int.abs_eq_natAbs]
          have hle : (m.natAbs : ℤ) ≤ 2 ^ 96 - 1 := by omega
          exact_mod_cast hle
  have hscale := L.keeps hs hd (min k s.places) ((min_le_left _ _).trans hk) (min_le_right _ _) hfit
  obtain ⟨n, hn⟩ := hwhole
  obtain ⟨j, hj⟩ := Nat.exists_eq_add_of_le hscale
  refine ⟨n * 10 ^ j, ?_⟩
  rw [hj, pow_add, ← mul_assoc, hn]
  push_cast
  rfl

/-- Digits that a figure holds are read as themselves. -/
theorem parse_exact (hs : digitsOf t = some s) (hd : L.parse t = some d)
    (hv : holds s.value = true) : d.value = s.value := by
  obtain ⟨n, hn⟩ := exists_kept hs hd hv
  have hten : (0 : ℚ) < 10 ^ d.scale := by positivity
  have hnear := L.near hs hd
  have hmantissa : d.value * 10 ^ d.scale = d.mantissa := div_mul_cancel₀ _ hten.ne'
  have hclose : |(d.mantissa : ℚ) - n| < 1 := by
    rw [← hmantissa, ← hn, ← sub_mul, abs_mul, abs_of_pos hten]
    exact (lt_div_iff₀ hten).mp hnear
  have heq : d.mantissa = n := by
    have hint : |d.mantissa - n| < 1 := by exact_mod_cast hclose
    exact sub_eq_zero.mp (Int.abs_lt_one_iff.mp hint)
  rw [← heq, ← hmantissa] at hn
  exact (mul_right_cancel₀ hten.ne' hn).symm

theorem digitsOf_base {n : Numeral} (h : spelling t = some n) : digitsOf (base t) = some n.digits := by
  obtain ⟨digits, hdigits, hexponent⟩ := Option.bind_eq_some_iff.mp h
  obtain ⟨e, -, rfl⟩ := Option.map_eq_some_iff.mp hexponent
  exact hdigits

/-- What is read of a text is what it spells just where its digits are one a figure holds. -/
theorem read_exact_iff {n : Numeral} (hn : spelling t = some n) (hd : L.parse t = some d) :
    d.value = n.value ↔ holds n.digits.value = true := by
  obtain ⟨b, hb, hvalue⟩ := L.moves hn hd
  have hten : (10 : ℚ) ^ n.exponent ≠ 0 := zpow_ne_zero _ (by norm_num)
  rw [hvalue, Numeral.value, mul_left_inj' hten]
  constructor
  · exact fun h => holds_iff.mpr ⟨b, h⟩
  · exact parse_exact (digitsOf_base hn) hb

theorem storedAsStated_iff (json : JsonValue) : StoredAsStated L json ↔ FitsOrRefused L json := by
  cases json with
  | string t =>
    constructor
    · intro h
      cases hparse : L.parse (Text.trim t) with
      | none => exact .inl hparse
      | some d =>
        have hread : strictDecimal L (.string t) = .ok d := by
          rw [strictDecimal, hparse]
          rfl
        obtain ⟨t', n, heq, hn, hvalue⟩ := h d hread
        cases heq
        exact .inr ⟨n, hn, (read_exact_iff hn hparse).mp hvalue⟩
    · intro h d hread
      rw [strictDecimal] at hread
      cases hparse : L.parse (Text.trim t) with
      | none =>
        rw [hparse] at hread
        cases hread
      | some d' =>
        rw [hparse] at hread
        cases hread
        rcases h with h | ⟨n, hn, hv⟩
        · rw [hparse] at h
          cases h
        · exact ⟨t, n, rfl, hn, (read_exact_iff hn hparse).mpr hv⟩
  | null => exact iff_of_true (fun d h => by cases h) trivial
  | bool b => exact iff_of_true (fun d h => by cases h) trivial
  | number literal => exact iff_of_true (fun d h => by cases h) trivial
  | array => exact iff_of_true (fun d h => by cases h) trivial
  | object => exact iff_of_true (fun d h => by cases h) trivial

end Reading

/-! ### A stored figure read back -/

section Stored
variable {L : DecimalLibrary} {t whole places : List Char} {neg : Bool}

theorem filter_underscore {l : List Char} (h : Digits l) :
    l.filter (fun c => c ≠ '_') = l := by
  rw [List.filter_eq_self]
  intro c hc
  have hdigit := h c hc
  refine decide_eq_true ?_
  rintro rfl
  cases hdigit

/-- A plain decimal spells its value. -/
theorem digitsOf_spelt (h : Spelt t neg whole places) :
    digitsOf t = some ⟨neg, whole ++ places, places.length⟩ := by
  have hminus := head_signed h.whole_digits h.whole_ne_nil neg places
  rw [← h.text] at hminus
  have hunsigned : unsigned t = whole ++ point places := by
    unfold unsigned
    cases neg with
    | true =>
      rw [if_pos (.inl (hminus.mpr rfl)), h.text]
      rfl
    | false =>
      rw [if_neg, h.text]
      · rfl
      · rintro (hhead | hhead)
        · exact Bool.false_ne_true (hminus.mp hhead)
        · rw [h.text] at hhead
          cases whole with
          | nil => exact h.whole_ne_nil rfl
          | cons c whole =>
            obtain rfl : c = '+' := by simpa [sign] using hhead
            cases h.whole_digits '+' List.mem_cons_self
  have hsplit : (Text.splitOnce '.' (whole ++ point places)).getD (whole ++ point places, []) =
      (whole, places) := by
    have hdot : '.' ∉ whole := h.whole_digits.not_mem (by decide)
    by_cases hplaces : places = []
    · rw [hplaces, point_nil, List.append_nil]
      cases hnone : Text.splitOnce '.' whole with
      | none => rfl
      | some parts =>
        obtain ⟨a, b⟩ := parts
        refine absurd ?_ hdot
        rw [(Text.splitOnce_some hnone).1]
        simp
    · rw [point_cons hplaces, Text.splitOnce_append hdot]
      rfl
  have hdigits : (whole ++ places).all Char.isDigit = true :=
    List.all_eq_true.mpr (h.whole_digits.append h.places_digits)
  simp only [digitsOf, hunsigned, hsplit, filter_underscore h.whole_digits,
    filter_underscore h.places_digits]
  have hneg : decide (t.head? = some '-') = neg := by
    cases neg with
    | true => exact decide_eq_true (hminus.mpr rfl)
    | false => exact decide_eq_false fun hhead => Bool.false_ne_true (hminus.mp hhead)
  rw [if_pos ⟨by simp [h.whole_ne_nil], hdigits⟩, hneg]

theorem digitsOf_decimal (h : isDecimal t = true) :
    ∃ s, digitsOf t = some s ∧ s.value = value t := by
  obtain ⟨neg, whole, places, hspelt⟩ := isDecimal_iff.mp h
  refine ⟨_, digitsOf_spelt hspelt, ?_⟩
  rw [hspelt.value_eq, Spelling.value, Spelling.mantissa]
  push_cast
  cases neg <;> rfl

theorem abs_value_le (d : Decimal) : |d.value| ≤ 2 ^ 96 - 1 := by
  have hlt := d.mantissa_lt
  have hmantissa : |(d.mantissa : ℚ)| ≤ 2 ^ 96 - 1 := by
    rw [← Int.cast_abs, Int.abs_eq_natAbs]
    have hle : (d.mantissa.natAbs : ℤ) ≤ 2 ^ 96 - 1 := by omega
    exact_mod_cast hle
  refine le_trans ?_ hmantissa
  have hten : (1 : ℚ) ≤ 10 ^ d.scale := one_le_pow₀ (by norm_num)
  rw [Decimal.value, abs_div, abs_of_pos (zero_lt_one.trans_le hten)]
  exact div_le_self (abs_nonneg _) hten

/-- A figure written to its column is read back as the same value. -/
theorem decode_encode (d : Decimal) : ∃ d', decode L (encode L d) = .ok d' ∧ d'.value = d.value := by
  obtain ⟨hdecimal, hvalue⟩ := L.displays d
  obtain ⟨d', hparse⟩ := L.accepts _ hdecimal (hvalue ▸ abs_value_le d)
  obtain ⟨s, hs, hspelled⟩ := digitsOf_decimal hdecimal
  refine ⟨d', ?_, ?_⟩
  · unfold decode encode
    rw [hparse]
    rfl
  · rw [parse_exact hs hparse (holds_iff.mpr ⟨d, (hspelled.trans hvalue).symm⟩), hspelled, hvalue]

end Stored

/-- What a request states is stored as stated or refused just where the digits of
the decimal its text spells are one a figure holds; and every figure stored is read back. -/
theorem stated_decimals_exact_iff (L : DecimalLibrary) :
    (∀ json, StoredAsStated L json ↔ FitsOrRefused L json) ∧
      ∀ d, ∃ d', decode L (encode L d) = .ok d' ∧ d'.value = d.value :=
  ⟨storedAsStated_iff, decode_encode⟩

/-! ### The nearest figure of what is spelled -/

section Nearest
open ScaledRounding

/-- A figure with its point moved: by fewer places, or by zeros after the last. -/
def shift (d : Decimal) (e : ℤ) : Option Decimal :=
  if e ≤ d.scale then
    if h : (d.scale - e).toNat ≤ 28 then some ⟨d.mantissa, (d.scale - e).toNat, d.mantissa_lt, h⟩
    else none
  else if h : (d.mantissa * 10 ^ (e - d.scale).toNat).natAbs < 2 ^ 96 then
    some ⟨d.mantissa * 10 ^ (e - d.scale).toNat, 0, h, Decimal.no_scale_le⟩
  else none

/-- The nearest figure of as many of the spelled places as fit, moved by the exponent. -/
def parseNearest (t : List Char) : Option Decimal :=
  (spelling t).bind fun n => (figureAt n.digits.places n.digits.value).bind fun d => shift d n.exponent

theorem shift_zero (d : Decimal) : shift d 0 = some d := by
  have hscale : ((d.scale : ℤ) - 0).toNat = d.scale := by omega
  simp only [shift, hscale]
  rw [if_pos (Int.natCast_nonneg _), dif_pos d.scale_le]

theorem shift_value {d d' : Decimal} {e : ℤ} (h : shift d e = some d') :
    d'.value = d.value * 10 ^ e := by
  have hten : (10 : ℚ) ≠ 0 := by norm_num
  unfold shift at h
  split at h
  · rename_i hle
    split at h
    · obtain rfl := Option.some.inj h
      have hplaces : ((d.scale - e).toNat : ℤ) = d.scale - e := Int.toNat_of_nonneg (by omega)
      rw [Decimal.value, Decimal.value, ← zpow_natCast, hplaces, zpow_sub₀ hten, zpow_natCast,
        div_div_eq_mul_div, div_mul_eq_mul_div]
    · cases h
  · rename_i hlt
    split at h
    · obtain rfl := Option.some.inj h
      have hzeros : ((e - d.scale).toNat : ℤ) = e - d.scale := Int.toNat_of_nonneg (by omega)
      rw [Decimal.value, Decimal.value, pow_zero, div_one, Int.cast_mul, Int.cast_pow, Int.cast_ofNat,
        ← zpow_natCast, hzeros, zpow_sub₀ hten, zpow_natCast, div_mul_eq_mul_div, mul_div_assoc]
    · cases h

theorem mem_unsigned {t : List Char} {c : Char} (h : c ∈ t) : c = '-' ∨ c = '+' ∨ c ∈ unsigned t := by
  unfold unsigned
  split
  · rename_i hsign
    cases t with
    | nil => exact absurd h List.not_mem_nil
    | cons first rest =>
      simp only [List.head?_cons, Option.some.injEq] at hsign
      rcases List.mem_cons.mp h with rfl | h
      · exact hsign.imp_right .inl
      · exact .inr (.inr h)
  · exact .inr (.inr h)

theorem mem_splitOnce {u : List Char} {sep c : Char} (h : c ∈ u) :
    c = sep ∨ c ∈ ((Text.splitOnce sep u).getD (u, [])).1 ∨
      c ∈ ((Text.splitOnce sep u).getD (u, [])).2 := by
  cases hsplit : Text.splitOnce sep u with
  | none => exact .inr (.inl h)
  | some parts =>
    rw [(Text.splitOnce_some hsplit).1] at h
    rcases List.mem_append.mp h with h | h
    · exact .inr (.inl h)
    · exact (List.mem_cons.mp h).imp_right .inr

theorem digit_no_exponent {c : Char} (h : c.isDigit = true) : isExponent c = false := by
  by_contra he
  rw [Bool.not_eq_false, isExponent, Bool.or_eq_true, beq_iff_eq, beq_iff_eq] at he
  rcases he with rfl | rfl <;> cases h

/-- Digits have no exponent among them. -/
theorem digitsOf_no_exponent {t : List Char} {s : Spelling} (h : digitsOf t = some s) :
    ∀ c ∈ t, isExponent c = false := by
  unfold digitsOf at h
  simp only [Option.ite_none_right_eq_some] at h
  have hall := List.all_eq_true.mp h.1.2
  intro c hc
  by_cases hunderscore : c = '_'
  · rw [hunderscore]
    rfl
  · have hdigit : (c ∈ ((Text.splitOnce '.' (unsigned t)).getD (unsigned t, [])).1 ∨
        c ∈ ((Text.splitOnce '.' (unsigned t)).getD (unsigned t, [])).2) → isExponent c = false := by
      intro hpart
      refine digit_no_exponent (hall c (List.mem_append.mpr ?_))
      simpa [hunderscore] using hpart
    rcases mem_unsigned hc with rfl | rfl | hc
    · rfl
    · rfl
    · rcases @mem_splitOnce _ '.' c hc with rfl | hpart
      · rfl
      · exact hdigit hpart

theorem spelling_of_digits {t : List Char} {s : Spelling} (h : digitsOf t = some s) :
    spelling t = some ⟨s, 0⟩ := by
  have hno := digitsOf_no_exponent h
  have hbase : base t = t := by
    rw [base, List.takeWhile_eq_self_iff]
    intro c hc
    rw [hno c hc]
    rfl
  have hnone : t.dropWhile (fun c => !isExponent c) = [] := by
    rw [List.dropWhile_eq_nil_iff]
    intro c hc
    rw [hno c hc]
    rfl
  rw [spelling, hbase, h, exponent, hnone]
  rfl

/-- A figure with all its places. -/
def displayFigure (d : Decimal) : List Char :=
  sign (decide (d.mantissa < 0)) ++
    (wholeOf d.mantissa.natAbs d.scale ++ point (placesOf d.mantissa.natAbs d.scale))

theorem figureAt_some {places : ℕ} {q : ℚ} {d : Decimal} (h : figureAt places q = some d) :
    d.scale = finest (2 ^ 96) q (min places 28) ∧ d.value = atScale d.scale q := by
  unfold figureAt at h
  split at h
  · rename_i hzero
    have hscale : finest (2 ^ 96) q (min places 28) ≤ 28 := (finest_le q _).trans (min_le_right _ _)
    have hfits : fits (2 ^ 96) (finest (2 ^ 96) q (min places 28)) q = true := by
      rcases Nat.eq_zero_or_pos (finest (2 ^ 96) q (min places 28)) with hnil | hpos
      · rw [hnil]
        exact hzero
      · exact fits_finest hpos
    obtain rfl := Option.some.inj h
    have hmantissa := of_decide_eq_true hfits
    rw [Decimal.new, dif_pos ⟨hmantissa, hscale⟩]
    exact ⟨rfl, rfl⟩
  · cases h

theorem parseNearest_some {t : List Char} {n : Numeral} {d : Decimal} (hn : spelling t = some n)
    (h : parseNearest t = some d) :
    ∃ b, figureAt n.digits.places n.digits.value = some b ∧ shift b n.exponent = some d := by
  rw [parseNearest, hn] at h
  exact Option.bind_eq_some_iff.mp h

theorem parseNearest_digits {t : List Char} {s : Spelling} (hs : digitsOf t = some s) :
    parseNearest t = figureAt s.places s.value := by
  rw [parseNearest, spelling_of_digits hs, Option.bind_some]
  simp only [shift_zero]
  exact Option.bind_fun_some _

/-- A number no larger than the largest mantissa at a scale fits at it. -/
theorem fits_of_abs_le {q : ℚ} {p : ℕ} (h : |q| * 10 ^ p ≤ 2 ^ 96 - 1) :
    fits (2 ^ 96) p q = true := by
  have hten : (0 : ℚ) < 10 ^ p := by positivity
  have habs : |q * 10 ^ p| ≤ 2 ^ 96 - 1 := by rwa [abs_mul, abs_of_pos hten]
  obtain ⟨hlo, hhi⟩ := abs_le.mp habs
  have hmax : q * 10 ^ p ≤ ((2 ^ 96 - 1 : ℤ) : ℚ) := by exact_mod_cast hhi
  have hmin : ((-(2 ^ 96 - 1) : ℤ) : ℚ) ≤ q * 10 ^ p := by exact_mod_cast hlo
  have hup := halfEven_mono hmax
  have hdown := halfEven_mono hmin
  rw [halfEven_intCast] at hup hdown
  refine decide_eq_true ?_
  omega

theorem parseNearest_keeps {t : List Char} {s : Spelling} {d : Decimal} (hs : digitsOf t = some s)
    (h : parseNearest t = some d) (p : ℕ) (hp : p ≤ 28) (hplaces : p ≤ s.places)
    (hfit : |s.value| * 10 ^ p ≤ 2 ^ 96 - 1) : p ≤ d.scale := by
  rw [(figureAt_some (parseNearest_digits hs ▸ h)).1]
  exact le_finest (fits_of_abs_le hfit) (le_min hplaces hp)

theorem parseNearest_near {t : List Char} {s : Spelling} {d : Decimal} (hs : digitsOf t = some s)
    (h : parseNearest t = some d) : |d.value - s.value| < 1 / 10 ^ d.scale := by
  rw [(figureAt_some (parseNearest_digits hs ▸ h)).2, atScale]
  have hten : (0 : ℚ) < 10 ^ d.scale := by positivity
  obtain ⟨hlo, hhi⟩ := halfEven_near (s.value * 10 ^ d.scale)
  rw [lt_div_iff₀ hten, ← abs_of_pos hten, ← abs_mul, abs_of_pos hten, sub_mul,
    div_mul_cancel₀ _ hten.ne', abs_lt]
  constructor <;> linarith

theorem parseNearest_accepts (t : List Char) (h : isDecimal t = true) (hv : |value t| ≤ 2 ^ 96 - 1) :
    ∃ d, parseNearest t = some d := by
  obtain ⟨s, hs, hvalue⟩ := digitsOf_decimal h
  have hfits : fits (2 ^ 96) 0 s.value = true := by
    apply fits_of_abs_le
    rwa [pow_zero, mul_one, hvalue]
  rw [parseNearest_digits hs, figureAt, if_pos hfits]
  exact ⟨_, rfl⟩

theorem parseNearest_moves {t : List Char} {n : Numeral} {d : Decimal} (hn : spelling t = some n)
    (h : parseNearest t = some d) :
    ∃ b, parseNearest (base t) = some b ∧ d.value = b.value * 10 ^ n.exponent := by
  obtain ⟨b, hb, hshift⟩ := parseNearest_some hn h
  exact ⟨b, (parseNearest_digits (digitsOf_base hn)).trans hb, shift_value hshift⟩

theorem displayFigure_spelt (d : Decimal) :
    Spelt (displayFigure d) (decide (d.mantissa < 0)) (wholeOf d.mantissa.natAbs d.scale)
      (placesOf d.mantissa.natAbs d.scale) := by
  refine ⟨?_, digits_placesOf _ _, ?_, rfl⟩
  · rw [wholeOf_eq]
    exact digits_toDigits _
  · rw [wholeOf_eq]
    exact Nat.toDigits_ne_nil

theorem displayFigure_displays (d : Decimal) :
    isDecimal (displayFigure d) = true ∧ value (displayFigure d) = d.value := by
  have hspelt := displayFigure_spelt d
  refine ⟨isDecimal_iff.mpr ⟨_, _, _, hspelt⟩, ?_⟩
  rw [hspelt.value_eq, wholeOf_append_placesOf, natOf_padded, length_placesOf, Decimal.value]
  congr 1
  by_cases hneg : d.mantissa < 0
  · rw [decide_eq_true hneg, if_pos rfl]
    have habs : ((d.mantissa.natAbs : ℤ) : ℚ) = -d.mantissa := by
      rw [Int.ofNat_natAbs_of_nonpos hneg.le]
      push_cast
      rfl
    rw [← Int.cast_natCast, habs]
    ring
  · rw [decide_eq_false hneg, if_neg Bool.false_ne_true, one_mul, ← Int.cast_natCast,
      Int.natAbs_of_nonneg (not_lt.mp hneg)]

/-- A library that rounds to the nearest figure, halves to the even one. -/
def nearest : DecimalLibrary where
  parse := parseNearest
  display := displayFigure
  keeps := parseNearest_keeps
  near := parseNearest_near
  moves := parseNearest_moves
  accepts := parseNearest_accepts
  displays := displayFigure_displays

example : (nearest.parse "1_000.50e-2".toList).map Decimal.value = some (2001 / 200) := by
  decide +kernel

end Nearest

/-- A text of 29 places is rounded to 28, and stored as it was not stated. -/
theorem long_text_rounded :
    ¬ StoredAsStated nearest (.string "0.12345678901234567890123456789".toList) := by
  rw [storedAsStated_iff]
  have hparse : nearest.parse (Text.trim "0.12345678901234567890123456789".toList) ≠ none := by
    decide +kernel
  have hholds : ((spelling (Text.trim "0.12345678901234567890123456789".toList)).any
      fun n => holds n.digits.value) = false := by
    decide +kernel
  rintro (hnone | ⟨n, hn, hv⟩)
  · exact hparse hnone
  · rw [hn, Option.any_some, hv] at hholds
    cases hholds

end ShareTracker.StrictDecimals
