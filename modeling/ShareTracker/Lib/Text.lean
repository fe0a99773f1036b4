import Mathlib.Data.List.Basic
import Mathlib.Data.List.DropRight
import Mathlib.Tactic.IntervalCases

/-!
# Text, its bytes and its spellings

A text is its characters. What is read of one: the parts about a separator, its
UTF-8 bytes, a decimal number, and bytes written out as pairs of hexadecimal
digits in any alphabet.
-/
namespace Text

/-! ### Splitting -/

def splitOnce (sep : Char) : List Char → Option (List Char × List Char)
  | [] => none
  | c :: cs =>
    if c = sep then some ([], cs)
    else (splitOnce sep cs).map fun parts => (c :: parts.1, parts.2)

theorem splitOnce_append {sep : Char} {a : List Char} (h : sep ∉ a) (b : List Char) :
    splitOnce sep (a ++ sep :: b) = some (a, b) := by
  induction a with
  | nil => simp [splitOnce]
  | cons c a ih =>
    obtain ⟨hc, ha⟩ := not_or.mp (mt List.mem_cons.mpr h)
    simp [splitOnce, Ne.symm hc, ih ha]

theorem splitOnce_some {sep : Char} {t a b : List Char} (h : splitOnce sep t = some (a, b)) :
    t = a ++ sep :: b ∧ sep ∉ a := by
  induction t generalizing a with
  | nil => cases h
  | cons c t ih =>
    rw [splitOnce] at h
    split at h
    · rename_i hc
      cases h
      exact ⟨by rw [hc, List.nil_append], List.not_mem_nil⟩
    · rename_i hc
      obtain ⟨⟨x, y⟩, hsplit, hparts⟩ := Option.map_eq_some_iff.mp h
      cases hparts
      obtain ⟨rfl, hnot⟩ := ih hsplit
      exact ⟨rfl, mt List.mem_cons.mp (not_or.mpr ⟨Ne.symm hc, hnot⟩)⟩

/-- The pieces about every separator: one more than there are separators. -/
def splitAll (sep : Char) : List Char → List (List Char)
  | [] => [[]]
  | c :: s =>
    match splitAll sep s with
    | [] => [[c]]
    | p :: ps => if c = sep then [] :: p :: ps else (c :: p) :: ps

section SplitAll
variable {sep : Char}

theorem splitAll_ne_nil (s : List Char) : splitAll sep s ≠ [] := by
  cases s with
  | nil => simp [splitAll]
  | cons c s =>
    unfold splitAll
    cases splitAll sep s with
    | nil => simp
    | cons p ps =>
      change (if c = sep then [] :: p :: ps else (c :: p) :: ps) ≠ []
      split <;> simp

theorem splitAll_cons_sep (s : List Char) : splitAll sep (sep :: s) = [] :: splitAll sep s := by
  rw [splitAll]
  cases h : splitAll sep s with
  | nil => exact absurd h (splitAll_ne_nil s)
  | cons p ps => exact if_pos rfl

theorem splitAll_cons {c : Char} (hc : c ≠ sep) {s p : List Char} {ps : List (List Char)}
    (h : splitAll sep s = p :: ps) : splitAll sep (c :: s) = (c :: p) :: ps := by
  rw [splitAll, h]
  exact if_neg hc

theorem splitAll_append_sep (a b : List Char) :
    splitAll sep (a ++ sep :: b) = splitAll sep a ++ splitAll sep b := by
  induction a with
  | nil => exact splitAll_cons_sep b
  | cons c a ih =>
    by_cases hc : c = sep
    · rw [hc, List.cons_append, splitAll_cons_sep, splitAll_cons_sep, ih]
      rfl
    · obtain ⟨p, ps, hp⟩ := List.exists_cons_of_ne_nil (splitAll_ne_nil a)
      rw [List.cons_append, splitAll_cons hc (ih.trans (by rw [hp]; rfl)), splitAll_cons hc hp]
      rfl

theorem splitAll_of_notMem {b : List Char} (h : sep ∉ b) : splitAll sep b = [b] := by
  induction b with
  | nil => rfl
  | cons c b ih =>
    simp only [List.mem_cons, not_or] at h
    exact splitAll_cons (Ne.symm h.1) (ih h.2)

theorem notMem_of_mem_splitAll {s p : List Char} (h : p ∈ splitAll sep s) : sep ∉ p := by
  induction s generalizing p with
  | nil =>
    rw [List.mem_singleton.mp h]
    exact List.not_mem_nil
  | cons c s ih =>
    by_cases hc : c = sep
    · rw [hc, splitAll_cons_sep] at h
      rcases List.mem_cons.mp h with rfl | h
      · exact List.not_mem_nil
      · exact ih h
    · obtain ⟨q, qs, hq⟩ := List.exists_cons_of_ne_nil (splitAll_ne_nil s)
      rw [splitAll_cons hc hq] at h
      rcases List.mem_cons.mp h with rfl | h
      · intro hmem
        rcases List.mem_cons.mp hmem with hsep | hmem
        · exact hc hsep.symm
        · exact ih (hq ▸ List.mem_cons_self) hmem
      · exact ih (hq ▸ List.mem_cons_of_mem _ h)

/-- Pieces without the separator are read back from their text. -/
theorem splitAll_intercalate {ps : List (List Char)} (hne : ps ≠ []) (h : ∀ p ∈ ps, sep ∉ p) :
    splitAll sep ([sep].intercalate ps) = ps := by
  induction ps with
  | nil => exact absurd rfl hne
  | cons p ps ih =>
    have hp := splitAll_of_notMem (h p List.mem_cons_self)
    cases ps with
    | nil => simpa using hp
    | cons q qs =>
      have hrest := ih (by simp) fun p hmem => h p (List.mem_cons_of_mem _ hmem)
      have htext : [sep].intercalate (p :: q :: qs) = p ++ sep :: [sep].intercalate (q :: qs) := by
        simp [List.intercalate]
      rw [htext, splitAll_append_sep, hp, hrest]
      rfl

/-- What is written at a text's end without the separator is written at its last piece's. -/
theorem splitAll_append {w : List Char} (hw : sep ∉ w) (s : List Char) :
    ∃ ps p, splitAll sep s = ps ++ [p] ∧ splitAll sep (s ++ w) = ps ++ [p ++ w] := by
  induction s with
  | nil => exact ⟨[], [], rfl, splitAll_of_notMem hw⟩
  | cons c s ih =>
    obtain ⟨ps, p, hs, hsw⟩ := ih
    by_cases hc : c = sep
    · refine ⟨[] :: ps, p, ?_, ?_⟩
      · rw [hc, splitAll_cons_sep, hs]
        rfl
      · rw [hc, List.cons_append, splitAll_cons_sep, hsw]
        rfl
    · cases ps with
      | nil => exact ⟨[], c :: p, splitAll_cons hc hs, splitAll_cons hc hsw⟩
      | cons q qs => exact ⟨(c :: q) :: qs, p, splitAll_cons hc hs, splitAll_cons hc hsw⟩

end SplitAll

/-! ### Bytes -/

def asBytes (t : List Char) : List UInt8 := t.flatMap String.utf8EncodeChar

def fromUtf8 (bytes : List UInt8) : Option (List Char) :=
  (ByteArray.utf8Decode? ⟨bytes.toArray⟩).map Array.toList

theorem utf8Encode_eq (t : List Char) : t.utf8Encode = ⟨(asBytes t).toArray⟩ := by
  apply ByteArray.ext
  apply Array.toList_inj.mp
  simp [List.utf8Encode, asBytes]

theorem fromUtf8_asBytes (t : List Char) : fromUtf8 (asBytes t) = some t := by
  rw [fromUtf8, ← utf8Encode_eq, List.utf8Decode?_utf8Encode]
  rfl

theorem asBytes_of_fromUtf8 {bytes : List UInt8} {t : List Char} (h : fromUtf8 bytes = some t) :
    bytes = asBytes t := by
  obtain ⟨chars, hdecode, rfl⟩ := Option.map_eq_some_iff.mp h
  have hsome : (ByteArray.utf8Decode? ⟨bytes.toArray⟩).isSome = true := by
    rw [hdecode]
    rfl
  have hback := ByteArray.utf8Encode_get_utf8Decode? (h := hsome)
  simp only [hdecode, Option.get_some] at hback
  rw [utf8Encode_eq] at hback
  have hdata := congrArg (fun b : ByteArray => b.data.toList) hback
  exact hdata.symm

/-! ### Decimal numbers -/

/-- An unsigned number of at most `bits` bits, a plus sign allowed before its digits. -/
def parseUnsigned (bits : ℕ) (t : List Char) : Option ℕ :=
  let digits := if t.head? = some '+' then t.tail else t
  if digits = [] then none
  else if digits.all Char.isDigit then
    if Nat.ofDigitChars 10 digits 0 < 2 ^ bits then some (Nat.ofDigitChars 10 digits 0) else none
  else none

theorem parseUnsigned_toDigits {bits n : ℕ} (h : n < 2 ^ bits) :
    parseUnsigned bits (Nat.toDigits 10 n) = some n := by
  have hdigits : ∀ c ∈ Nat.toDigits 10 n, c.isDigit = true :=
    fun c hc => Nat.isDigit_of_mem_toDigits (by decide) (by decide) hc
  have hplus : (Nat.toDigits 10 n).head? ≠ some '+' := by
    intro hhead
    have hmem := hdigits '+' (List.mem_of_head? hhead)
    cases hmem
  have hall : (Nat.toDigits 10 n).all Char.isDigit = true := List.all_eq_true.mpr hdigits
  rw [parseUnsigned]
  simp only [hplus, if_false, Nat.toDigits_ne_nil, hall, if_true, Nat.ofDigitChars_ten_toDigits, h]

/-! ### Hexadecimal -/

def hexVal (c : Char) : Option ℕ :=
  if '0' ≤ c ∧ c ≤ '9' then some (c.toNat - 48)
  else if 'a' ≤ c ∧ c ≤ 'f' then some (c.toNat - 87)
  else if 'A' ≤ c ∧ c ≤ 'F' then some (c.toNat - 55)
  else none

/-- Bytes written out as pairs of digits of an alphabet. -/
def hexWith (digit : ℕ → Char) (bytes : List UInt8) : List Char :=
  bytes.flatMap fun b => [digit (b.toNat / 16), digit (b.toNat % 16)]

/-- An alphabet of digits that are read as their values. -/
def Reads (digit : ℕ → Char) : Prop := ∀ n < 16, hexVal (digit n) = some n

def lowerDigit (n : ℕ) : Char := n.digitChar

def upperDigit (n : ℕ) : Char := n.digitChar.toUpper

theorem reads_lower : Reads lowerDigit := by
  intro n hn
  interval_cases n <;> rfl

theorem reads_upper : Reads upperDigit := by
  intro n hn
  interval_cases n <;> rfl

theorem hexWith_cons (digit : ℕ → Char) (b : UInt8) (bytes : List UInt8) :
    hexWith digit (b :: bytes) =
      digit (b.toNat / 16) :: digit (b.toNat % 16) :: hexWith digit bytes := rfl

theorem Reads.mem_hexWith {digit : ℕ → Char} (h : Reads digit) {bytes : List UInt8} {c : Char}
    (hc : c ∈ hexWith digit bytes) : ∃ n < 16, hexVal c = some n := by
  obtain ⟨b, -, hdigit⟩ := List.mem_flatMap.mp hc
  have hb := b.toNat_lt
  have hhigh : b.toNat / 16 < 16 := by omega
  have hlow : b.toNat % 16 < 16 := by omega
  rcases List.mem_cons.mp hdigit with rfl | hdigit
  · exact ⟨_, hhigh, h _ hhigh⟩
  · rw [List.mem_singleton] at hdigit
    exact ⟨_, hlow, hdigit ▸ h _ hlow⟩

theorem length_hexWith (digit : ℕ → Char) (bytes : List UInt8) :
    (hexWith digit bytes).length = 2 * bytes.length := by
  induction bytes with
  | nil => rfl
  | cons b bytes ih =>
    rw [hexWith_cons, List.length_cons, List.length_cons, List.length_cons, ih]
    omega

/-- Two alphabets that part at a digit spell a byte with that digit differently. -/
theorem hexWith_ne {digit digit' : ℕ → Char} {bytes : List UInt8} {b : UInt8} (hb : b ∈ bytes)
    (h : digit (b.toNat % 16) ≠ digit' (b.toNat % 16)) :
    hexWith digit bytes ≠ hexWith digit' bytes := by
  induction bytes with
  | nil => cases hb
  | cons a bytes ih =>
    intro heq
    rw [hexWith_cons, hexWith_cons] at heq
    obtain ⟨-, htail⟩ := List.cons.inj heq
    obtain ⟨hlow, hrest⟩ := List.cons.inj htail
    rcases List.mem_cons.mp hb with rfl | hb
    · exact h hlow
    · exact ih hb hrest

/-! ### White space -/

/-- The characters of Unicode's White_Space property. -/
def isWhitespace (c : Char) : Bool :=
  (9 ≤ c.toNat && c.toNat ≤ 13) || (0x2000 ≤ c.toNat && c.toNat ≤ 0x200A) ||
    [0x20, 0x85, 0xA0, 0x1680, 0x2028, 0x2029, 0x202F, 0x205F, 0x3000].contains c.toNat

def trimStart (s : List Char) : List Char := s.dropWhile isWhitespace

def trimEnd (s : List Char) : List Char := s.rdropWhile isWhitespace

def trim (s : List Char) : List Char := trimEnd (trimStart s)

section Trim
variable {w : List Char}

/-- A text is what is left of it and white space. -/
theorem trimEnd_append (s : List Char) :
    ∃ w : List Char, w.all isWhitespace = true ∧ s = trimEnd s ++ w := by
  refine ⟨s.rtakeWhile isWhitespace, ?_, ?_⟩
  · exact List.all_eq_true.mpr fun c hc => List.mem_rtakeWhile_imp hc
  · exact List.rdropWhile_append_rtakeWhile.symm

theorem trimEnd_append_space (hw : w.all isWhitespace = true) (s : List Char) :
    trimEnd (s ++ w) = trimEnd s := by
  unfold trimEnd List.rdropWhile
  rw [List.reverse_append, List.dropWhile_append_of_pos]
  intro c hc
  exact List.all_eq_true.mp hw c (List.mem_reverse.mp hc)

theorem trim_append_space (hw : w.all isWhitespace = true) (s : List Char) :
    trim (s ++ w) = trim s := by
  unfold trim trimStart
  rw [List.dropWhile_append]
  split
  · rename_i hempty
    rw [List.isEmpty_iff.mp hempty]
    have hnil : w.dropWhile isWhitespace = [] :=
      List.dropWhile_eq_nil_iff.mpr (List.all_eq_true.mp hw)
    rw [hnil]
  · exact trimEnd_append_space hw _

end Trim

/-! ### Lines -/

def stripCr (line : List Char) : List Char := if line.getLast? = some '\r' then line.dropLast else line

/-- `str::lines`: a last line is one when it holds a character, and keeps its carriage return. -/
def lines (s : List Char) : List (List Char) :=
  let pieces := splitAll '\n' s
  pieces.dropLast.map stripCr ++ pieces.getLast?.toList.filter fun line => line ≠ []

theorem trimEnd_stripCr (line : List Char) : trimEnd (stripCr line) = trimEnd line := by
  unfold stripCr
  split
  · rename_i hlast
    have hline := List.dropLast_append_getLast? '\r' hlast
    conv_rhs => rw [← hline]
    exact (trimEnd_append_space (by decide) _).symm
  · rfl

end Text
