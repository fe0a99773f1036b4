import ShareTracker.TaxYear
import ShareTracker.Lib.Text

/-!
The names of a database's backups: how one is built from the database's path,
the second and a suffix, and how it is read back out of a directory listing.
-/
namespace ShareTracker.Backups

/-! ### Seconds -/

/-- A local clock reading, to the second. -/
structure NaiveDateTime where
  date : NaiveDate
  hour : ℕ
  minute : ℕ
  second : ℕ
  year_ge : -262143 ≤ date.year
  year_le : date.year ≤ 262142
  hour_lt : hour < 24
  minute_lt : minute < 60
  second_le : second ≤ 60

namespace NaiveDateTime

def key (t : NaiveDateTime) : NaiveDate ×ₗ ℕ ×ₗ ℕ ×ₗ ℕ :=
  toLex (t.date, toLex (t.hour, toLex (t.minute, t.second)))

theorem key_injective : Function.Injective key := by
  rintro ⟨d, h, m, s⟩ ⟨d', h', m', s'⟩ heq
  obtain ⟨rfl, heq⟩ := Prod.mk.inj (toLex.injective heq)
  obtain ⟨rfl, heq⟩ := Prod.mk.inj (toLex.injective heq)
  obtain ⟨rfl, rfl⟩ := Prod.mk.inj (toLex.injective heq)
  rfl

instance : LinearOrder NaiveDateTime := LinearOrder.lift' key key_injective

/-- Whether the year is one of the four figures `%Y` writes without a sign. -/
def PlainYear (t : NaiveDateTime) : Prop := 0 ≤ t.date.year ∧ t.date.year ≤ 9999

instance (t : NaiveDateTime) : Decidable t.PlainYear := inferInstanceAs (Decidable (_ ∧ _))

end NaiveDateTime

def digit (n : ℕ) : Char := Char.ofNat (48 + n % 10)

/-- The last `width` figures of `n`. -/
def padded : ℕ → ℕ → List Char
  | 0, _ => []
  | width + 1, n => padded width (n / 10) ++ [digit n]

def yearWidth (n : ℕ) : ℕ := if n < 10000 then 4 else if n < 100000 then 5 else 6

/-- `%Y`: four figures, or a sign and at least four. -/
def yearText (year : ℤ) : List Char :=
  if 0 ≤ year ∧ year ≤ 9999 then padded 4 year.natAbs
  else (if year < 0 then '-' else '+') :: padded (yearWidth year.natAbs) year.natAbs

/-- `%Y-%m-%d-%H%M%S`. -/
def formatTimestamp (t : NaiveDateTime) : List Char :=
  yearText t.date.year ++ ('-' :: padded 2 t.date.month ++ ('-' :: padded 2 t.date.day ++
    ('-' :: padded 2 t.hour ++ (padded 2 t.minute ++ padded 2 t.second))))

/-! ### Paths -/

def stripPrefix (p s : List Char) : Option (List Char) :=
  if p <+: s then some (s.drop p.length) else none

def stripSuffix (suffix s : List Char) : Option (List Char) :=
  if suffix <:+ s then some (s.take (s.length - suffix.length)) else none

/-- A path's pieces between its slashes. -/
def pieces : List Char → List (List Char)
  | [] => [[]]
  | c :: s =>
    match pieces s with
    | [] => [[c]]
    | p :: ps => if c = '/' then [] :: p :: ps else (c :: p) :: ps

/-- The pieces that are components: not the empty ones, nor those that stay in place. -/
def components (path : List Char) : List (List Char) :=
  (pieces path).filter fun p => p ≠ [] ∧ p ≠ ['.']

/-- The last component, where it is a name. -/
def fileName (path : List Char) : Option (List Char) :=
  (components path).getLast?.filter fun p => p ≠ ['.', '.']

def dotDb : List Char := ['.', 'd', 'b']

/-- The database's path without its extension. -/
def stemPath (dbPath : List Char) : List Char := (stripSuffix dotDb dbPath).getD dbPath

/-- `Path::join`: an absolute path replaces the directory. -/
def joinPath (dir path : List Char) : List Char :=
  if ['/'] <+: path ∨ dir = [] then path
  else if ['/'] <:+ dir then dir ++ path
  else dir ++ '/' :: path

def suffixPart (suffix : Option (List Char)) : List Char := suffix.elim [] fun s => '-' :: s

def backupPathAt (dbPath : List Char) (backupDir suffix : Option (List Char))
    (at_ : NaiveDateTime) : List Char :=
  let rest := '-' :: formatTimestamp at_ ++ suffixPart suffix ++ dotDb
  let stem := stemPath dbPath
  match backupDir with
  | none => stem ++ rest
  | some dir => joinPath dir ((fileName stem).getD stem ++ rest)

def maxBackupSuffixLen : ℕ := 40

/-- A suffix accepted for a file's name. -/
def validateBackupSuffix (suffix : List Char) : Bool :=
  suffix ≠ [] && suffix.length ≤ maxBackupSuffixLen &&
    suffix.all (fun c => c.isAlphanum || ['.', '_', '-'].contains c) &&
    !(['-'] <+: suffix) && !(['.'] <+: suffix)

/-- The name every backup of the database starts with. -/
def backupStem (dbPath : List Char) : List Char :=
  (fileName (stemPath dbPath)).getD (stemPath dbPath)

/-- A directory: whether it is given from the root, and its components. -/
abbrev Directory := Bool × List (List Char)

def directory (path : List Char) : Directory := (['/'] <+: path, components path)

/-- `Path::parent`. -/
def parent (path : List Char) : Directory := (['/'] <+: path, (components path).dropLast)

/-- The directory the backups are looked for in. -/
def backupDestination (dbPath : List Char) (backupDir : Option (List Char)) : Directory :=
  backupDir.elim (parent dbPath) directory

/-! ### Reading a name -/

def backupTimestampLen : ℕ := 17

/-- The text split at a byte, where one character ends there. -/
def splitAtByte (n : ℕ) : List Char → Option (List Char × List Char)
  | [] => if n = 0 then some ([], []) else none
  | c :: s =>
    if n = 0 then some ([], c :: s)
    else if c.utf8Size ≤ n then
      (splitAtByte (n - c.utf8Size) s).map fun parts => (c :: parts.1, parts.2)
    else none

section Read
variable (parse : List Char → Option NaiveDateTime)

/-- The second in a name of this database's backups. -/
def backupTimestamp (name stem : List Char) : Option NaiveDateTime := do
  let rest ← stripPrefix stem name
  let rest ← stripPrefix ['-'] rest
  let rest ← stripSuffix dotDb rest
  let (ts, after) ← splitAtByte backupTimestampLen rest
  if after ≠ [] ∧ ¬ ['-'] <+: after then none else parse ts

/-- The second in the name of a staging or quarantined file. -/
def backupArtefactTimestamp (name stem suffix : List Char) : Option NaiveDateTime := do
  backupTimestamp parse (← stripSuffix suffix name) stem

/-- What is relied on of the parser: it reads back what is written of a plain
year, and reads no other year of a text that begins with a figure. -/
structure ReadsTimestamps : Prop where
  written : ∀ t : NaiveDateTime, t.PlainYear → parse (formatTimestamp t) = some t
  unsigned : ∀ (c : Char) (s : List Char) (t : NaiveDateTime), c.isDigit = true →
    parse (c :: s) = some t → t.PlainYear

end Read


/-! ### What is written of a second -/

section Written

theorem isDigit_digit (n : ℕ) : (digit n).isDigit = true := by
  have hlt := Nat.mod_lt n (by decide : 0 < 10)
  unfold digit
  generalize n % 10 = k at hlt
  interval_cases k <;> decide

theorem padded_length (width n : ℕ) : (padded width n).length = width := by
  induction width generalizing n with
  | zero => rfl
  | succ width ih => rw [padded, List.length_append, ih, List.length_singleton]

theorem padded_digits {width n : ℕ} {c : Char} (h : c ∈ padded width n) : c.isDigit = true := by
  induction width generalizing n with
  | zero => cases h
  | succ width ih =>
    rcases List.mem_append.mp h with h | h
    · exact ih h
    · rw [List.mem_singleton.mp h]
      exact isDigit_digit n

/-- A year out of the plain range: a sign, then four to six figures. -/
theorem yearText_signed {t : NaiveDateTime} (h : ¬ t.PlainYear) :
    ∃ sign digits, yearText t.date.year = sign :: digits ∧ (∀ c ∈ digits, c.isDigit = true) ∧
      4 ≤ digits.length ∧ digits.length ≤ 6 := by
  refine ⟨_, _, if_neg h, fun c => padded_digits, ?_, ?_⟩
  · rw [padded_length]
    unfold yearWidth
    split
    · exact le_rfl
    · split <;> decide
  · rw [padded_length]
    unfold yearWidth
    split
    · decide
    · split <;> decide

/-- A character of a timestamp: a figure or a sign. -/
def inTimestamp (c : Char) : Bool := c.isDigit || c = '-' || c = '+'

theorem yearText_chars (year : ℤ) : ∀ c ∈ yearText year, inTimestamp c = true := by
  intro c hc
  unfold yearText at hc
  split at hc
  · simp [inTimestamp, padded_digits hc]
  · rcases List.mem_cons.mp hc with rfl | hc
    · split <;> rfl
    · simp [inTimestamp, padded_digits hc]

theorem formatTimestamp_chars (t : NaiveDateTime) : ∀ c ∈ formatTimestamp t, inTimestamp c = true := by
  have hpadded : ∀ {width n : ℕ} {c : Char}, c ∈ padded width n → inTimestamp c = true :=
    fun h => by simp [inTimestamp, padded_digits h]
  intro c hc
  simp only [formatTimestamp, List.mem_append, List.mem_cons, List.cons_append] at hc
  rcases hc with hc | rfl | hc | rfl | hc | rfl | hc | hc | hc
  · exact yearText_chars _ c hc
  · rfl
  · exact hpadded hc
  · rfl
  · exact hpadded hc
  · rfl
  · exact hpadded hc
  · exact hpadded hc
  · exact hpadded hc

theorem formatTimestamp_length (t : NaiveDateTime) :
    (formatTimestamp t).length = (yearText t.date.year).length + 13 := by
  simp only [formatTimestamp, List.length_append, List.length_cons, List.cons_append, padded_length]

theorem formatTimestamp_length_plain {t : NaiveDateTime} (h : t.PlainYear) :
    (formatTimestamp t).length = backupTimestampLen := by
  rw [formatTimestamp_length, yearText, if_pos (show _ ∧ _ from h), padded_length]
  rfl

/-- The last six characters are figures. -/
theorem formatTimestamp_clock (t : NaiveDateTime) : ∃ front clock, formatTimestamp t = front ++ clock ∧
    front.length = (yearText t.date.year).length + 7 ∧ ∀ c ∈ clock, c.isDigit = true := by
  refine ⟨yearText t.date.year ++ ('-' :: padded 2 t.date.month ++ ('-' :: padded 2 t.date.day ++
    ['-'])), padded 2 t.hour ++ (padded 2 t.minute ++ padded 2 t.second), ?_, ?_, ?_⟩
  · simp [formatTimestamp]
  · simp [padded_length]
  · intro c hc
    simp only [List.mem_append] at hc
    rcases hc with hc | hc | hc
    · exact padded_digits hc
    · exact padded_digits hc
    · exact padded_digits hc

/-- A character below 128 is one byte. -/
theorem utf8Size_of_ascii {c : Char} (h : c.toNat < 128) : c.utf8Size = 1 := by
  have hval : c.val ≤ 127 := by
    rw [UInt32.le_iff_toNat_le]
    exact Nat.le_of_lt_succ h
  simp [Char.utf8Size, hval]

theorem isDigit_range {c : Char} (h : c.isDigit = true) : 48 ≤ c.toNat ∧ c.toNat ≤ 57 := by
  simp only [Char.isDigit, Bool.and_eq_true, decide_eq_true_eq, ge_iff_le,
    UInt32.le_iff_toNat_le] at h
  exact h

theorem inTimestamp_ascii {c : Char} (h : inTimestamp c = true) : c.toNat < 128 := by
  simp only [inTimestamp, Bool.or_eq_true, decide_eq_true_eq] at h
  rcases h with (h | rfl) | rfl
  · exact (isDigit_range h).2.trans_lt (by decide)
  · decide
  · decide

theorem inTimestamp_ne_slash {c : Char} (h : inTimestamp c = true) : c ≠ '/' := by
  rintro rfl
  revert h
  decide

end Written

/-! ### Cutting a name up -/

section Cut

theorem stripPrefix_some {p s rest : List Char} :
    stripPrefix p s = some rest ↔ s = p ++ rest := by
  unfold stripPrefix
  constructor
  · intro h
    split at h
    · rename_i hp
      obtain ⟨t, rfl⟩ := hp
      rw [List.drop_left] at h
      rw [Option.some.inj h]
    · cases h
  · rintro rfl
    rw [if_pos ⟨rest, rfl⟩, List.drop_left]

theorem stripSuffix_some {suffix s rest : List Char} :
    stripSuffix suffix s = some rest ↔ s = rest ++ suffix := by
  unfold stripSuffix
  constructor
  · intro h
    split at h
    · rename_i hs
      obtain ⟨t, rfl⟩ := hs
      rw [List.length_append, Nat.add_sub_cancel, List.take_left] at h
      rw [Option.some.inj h]
    · cases h
  · rintro rfl
    rw [if_pos ⟨rest, rfl⟩, List.length_append, Nat.add_sub_cancel, List.take_left]

theorem splitAtByte_some {n : ℕ} {s a b : List Char} (h : splitAtByte n s = some (a, b)) :
    s = a ++ b := by
  induction s generalizing n a with
  | nil =>
    unfold splitAtByte at h
    split at h
    · obtain ⟨rfl, rfl⟩ := Prod.mk.inj (Option.some.inj h)
      rfl
    · cases h
  | cons c s ih =>
    unfold splitAtByte at h
    split at h
    · obtain ⟨rfl, rfl⟩ := Prod.mk.inj (Option.some.inj h)
      rfl
    · split at h
      · obtain ⟨parts, hparts, heq⟩ := Option.map_eq_some_iff.mp h
        obtain ⟨rfl, rfl⟩ := Prod.mk.inj heq
        rw [ih hparts]
        rfl
      · cases h

/-- A text of one-byte characters splits at the byte its length. -/
theorem splitAtByte_append {a : List Char} (h : ∀ c ∈ a, c.toNat < 128) (b : List Char) :
    splitAtByte a.length (a ++ b) = some (a, b) := by
  induction a with
  | nil =>
    cases b with
    | nil => rfl
    | cons c b => rfl
  | cons c a ih =>
    have hc := utf8Size_of_ascii (h c List.mem_cons_self)
    rw [List.cons_append, List.length_cons, splitAtByte, if_neg (Nat.succ_ne_zero _),
      if_pos (by omega), hc, Nat.add_sub_cancel, ih fun c' hc' => h c' (List.mem_cons_of_mem c hc')]
    rfl

theorem splitAtByte_length {n : ℕ} {s a b : List Char} (hs : ∀ c ∈ s, c.toNat < 128)
    (h : splitAtByte n s = some (a, b)) : a.length = n := by
  induction s generalizing n a with
  | nil =>
    unfold splitAtByte at h
    split at h
    · obtain ⟨rfl, rfl⟩ := Prod.mk.inj (Option.some.inj h)
      exact (by assumption : n = 0).symm
    · cases h
  | cons c s ih =>
    unfold splitAtByte at h
    split at h
    · obtain ⟨rfl, rfl⟩ := Prod.mk.inj (Option.some.inj h)
      exact (by assumption : n = 0).symm
    · split at h
      · rename_i hzero hle
        obtain ⟨parts, hparts, heq⟩ := Option.map_eq_some_iff.mp h
        obtain ⟨rfl, rfl⟩ := Prod.mk.inj heq
        have hone := utf8Size_of_ascii (hs c List.mem_cons_self)
        rw [hone] at hparts hle
        have hrest := ih (fun c' hc' => hs c' (List.mem_cons_of_mem c hc')) hparts
        rw [List.length_cons, hrest]
        omega
      · cases h

end Cut

/-! ### A backup's name -/

/-- The last of a path's pieces. -/
def lastPiece (path : List Char) : List Char := (pieces path).getLast?.getD []

/-- The pieces that name nothing. -/
def nameless : List (List Char) := [[], ['.'], ['.', '.']]

/-- What follows the stem in a backup's name. -/
def nameRest (t : NaiveDateTime) (suffix : Option (List Char)) : List Char :=
  '-' :: formatTimestamp t ++ suffixPart suffix ++ dotDb

/-- The name a backup gets in its directory. -/
def backupName (dbPath : List Char) (backupDir suffix : Option (List Char)) (t : NaiveDateTime) :
    List Char :=
  (fileName (backupPathAt dbPath backupDir suffix t)).getD []

/-- A path whose backups are named after it: one piece, or a last piece that is
a name; with a backup directory, any path with a name in it. -/
def NamesBackups (dbPath : List Char) (backupDir : Option (List Char)) : Prop :=
  '/' ∉ stemPath dbPath ∨ lastPiece (stemPath dbPath) ∉ nameless ∨
    (backupDir.isSome ∧ (fileName (stemPath dbPath)).isSome)

instance (dbPath : List Char) (backupDir : Option (List Char)) :
    Decidable (NamesBackups dbPath backupDir) :=
  inferInstanceAs (Decidable (_ ∨ _ ∨ _))

section Paths

theorem pieces_eq (s : List Char) : pieces s = Text.splitAll '/' s := by
  induction s with
  | nil => rfl
  | cons c s ih =>
    cases hrest : Text.splitAll '/' s with
    | nil => simp [pieces, Text.splitAll, ih, hrest]
    | cons p ps => simp [pieces, Text.splitAll, ih, hrest]

theorem pieces_append_slash (a b : List Char) : pieces (a ++ '/' :: b) = pieces a ++ pieces b := by
  rw [pieces_eq, pieces_eq, pieces_eq]
  exact Text.splitAll_append_sep a b

theorem pieces_of_name {b : List Char} (h : '/' ∉ b) : pieces b = [b] := by
  rw [pieces_eq]
  exact Text.splitAll_of_notMem h

theorem slash_notMem_piece {s p : List Char} (h : p ∈ pieces s) : '/' ∉ p := by
  rw [pieces_eq] at h
  exact Text.notMem_of_mem_splitAll h

theorem fileName_piece {path p : List Char} (h : fileName path = some p) :
    p ∈ pieces path ∧ p ∉ nameless := by
  obtain ⟨hlast, hp⟩ := Option.filter_eq_some_iff.mp h
  obtain ⟨hmem, hnormal⟩ := List.mem_filter.mp (List.mem_of_getLast? hlast)
  simp only [decide_eq_true_eq] at hp hnormal
  exact ⟨hmem, by simp [nameless, hp, hnormal.1, hnormal.2]⟩

theorem fileName_of_pieces {path b : List Char} {before : List (List Char)}
    (h : pieces path = before ++ [b]) (hb : b ∉ nameless) : fileName path = some b := by
  simp only [nameless, List.mem_cons, List.not_mem_nil, or_false, not_or] at hb
  unfold fileName components
  rw [h, List.filter_append, List.filter_cons_of_pos (by simp [hb.1, hb.2.1]), List.filter_nil,
    List.getLast?_append]
  simp [hb.2.2]

theorem fileName_of_name {b : List Char} (h : '/' ∉ b) (hb : b ∉ nameless) : fileName b = some b :=
  @fileName_of_pieces b b [] (pieces_of_name h) hb

theorem fileName_append {a b : List Char} (h : '/' ∉ b) (hb : b ∉ nameless) :
    fileName (a ++ '/' :: b) = some b :=
  fileName_of_pieces (by rw [pieces_append_slash, pieces_of_name h]) hb

theorem fileName_joinPath {dir n : List Char} (h : '/' ∉ n) (hn : n ∉ nameless) :
    fileName (joinPath dir n) = some n := by
  unfold joinPath
  split
  · exact fileName_of_name h hn
  · split
    · rename_i hslash
      obtain ⟨a, rfl⟩ := hslash
      rw [List.append_assoc]
      exact fileName_append h hn
    · exact fileName_append h hn

/-- A path is one piece, or ends in one after a slash. -/
theorem exists_lastPiece (path : List Char) : '/' ∉ path ∨
    ∃ a b, path = a ++ '/' :: b ∧ '/' ∉ b ∧ lastPiece path = b := by
  by_cases h : '/' ∈ path
  · right
    obtain ⟨b, a, heq, hb⟩ := List.eq_append_cons_of_mem (List.mem_reverse.mpr h)
    rw [← List.mem_reverse] at hb
    have hpath : path = a.reverse ++ '/' :: b.reverse := by
      rw [← List.reverse_reverse path, heq, List.reverse_append, List.reverse_cons,
        List.append_assoc]
      rfl
    refine ⟨a.reverse, b.reverse, hpath, hb, ?_⟩
    rw [hpath, lastPiece, pieces_append_slash, pieces_of_name hb, List.getLast?_append]
    rfl
  · exact .inl h

end Paths

section Names

theorem validateBackupSuffix_chars {suffix : List Char} (h : validateBackupSuffix suffix = true) :
    '/' ∉ suffix := by
  intro hmem
  simp only [validateBackupSuffix, Bool.and_eq_true, List.all_eq_true] at h
  have hslash := h.1.1.2 '/' hmem
  revert hslash
  decide

/-- A suffix as `backup` takes it. -/
def ValidSuffix (suffix : Option (List Char)) : Prop :=
  ∀ s ∈ suffix, validateBackupSuffix s = true

instance (suffix : Option (List Char)) : Decidable (ValidSuffix suffix) :=
  inferInstanceAs (Decidable (∀ s ∈ suffix, _))

theorem slash_notMem_nameRest {suffix : Option (List Char)} (h : ValidSuffix suffix)
    (t : NaiveDateTime) : '/' ∉ nameRest t suffix := by
  unfold nameRest
  simp only [List.cons_append, List.mem_cons, List.mem_append, not_or]
  refine ⟨by decide, ⟨fun hmem => inTimestamp_ne_slash (formatTimestamp_chars t _ hmem) rfl, ?_⟩,
    by decide⟩
  cases suffix with
  | none => exact List.not_mem_nil
  | some s =>
    change '/' ∉ '-' :: s
    rw [List.mem_cons, not_or]
    exact ⟨by decide, validateBackupSuffix_chars (h s rfl)⟩

/-- Three characters name something. -/
theorem long_name {n : List Char} (h : 3 ≤ n.length) : n ∉ nameless := by
  intro hmem
  simp only [nameless, List.mem_cons, List.not_mem_nil, or_false] at hmem
  rcases hmem with rfl | rfl | rfl <;> (revert h; decide)

theorem append_nameRest_name (n : List Char) (t : NaiveDateTime) (suffix : Option (List Char)) :
    n ++ nameRest t suffix ∉ nameless := by
  apply long_name
  simp only [nameRest, dotDb, List.length_append, List.length_cons]
  omega

variable {dbPath : List Char} {backupDir suffix : Option (List Char)} {t : NaiveDateTime}

theorem backupPathAt_none : backupPathAt dbPath none suffix t = stemPath dbPath ++ nameRest t suffix := rfl

theorem backupPathAt_some {dir : List Char} : backupPathAt dbPath (some dir) suffix t =
    joinPath dir (backupStem dbPath ++ nameRest t suffix) := rfl

theorem backupStem_of_name (h : '/' ∉ stemPath dbPath) : backupStem dbPath = stemPath dbPath := by
  unfold backupStem
  cases hname : fileName (stemPath dbPath) with
  | none => rfl
  | some p =>
    have hpiece := (fileName_piece hname).1
    rw [pieces_of_name h] at hpiece
    exact List.mem_singleton.mp hpiece

theorem slash_notMem_backupStem (h : NamesBackups dbPath backupDir) : '/' ∉ backupStem dbPath := by
  cases hname : fileName (stemPath dbPath) with
  | some p =>
    have hbackup : backupStem dbPath = p := by rw [backupStem, hname]; rfl
    rw [hbackup]
    exact slash_notMem_piece (fileName_piece hname).1
  | none =>
    have hbackup : backupStem dbPath = stemPath dbPath := by rw [backupStem, hname]; rfl
    rw [hbackup]
    rcases exists_lastPiece (stemPath dbPath) with hone | ⟨a, b, hstem, hb, hlast⟩
    · exact hone
    rcases h with h | h | h
    · exact h
    · rw [hstem, fileName_append hb (hlast ▸ h)] at hname
      cases hname
    · rw [hname] at h
      cases h.2

/-- A path that names its backups: each is named by the database's stem. -/
theorem backupName_eq (h : NamesBackups dbPath backupDir) (hsuffix : ValidSuffix suffix) :
    backupName dbPath backupDir suffix t = backupStem dbPath ++ nameRest t suffix := by
  have hrest := slash_notMem_nameRest hsuffix t
  have hname : ∀ n, n ++ nameRest t suffix ∉ nameless := fun n => append_nameRest_name n t suffix
  have hjoin : ∀ {n : List Char}, '/' ∉ n → '/' ∉ n ++ nameRest t suffix := fun hn hmem =>
    (List.mem_append.mp hmem).elim hn hrest
  unfold backupName
  rcases exists_lastPiece (stemPath dbPath) with hone | ⟨a, b, hstem, hb, hlast⟩
  · have hstem := backupStem_of_name hone
    cases backupDir with
    | none =>
      rw [backupPathAt_none, fileName_of_name (hjoin hone) (hname _), hstem]
      rfl
    | some dir =>
      rw [backupPathAt_some, hstem, fileName_joinPath (hjoin hone) (hname _)]
      rfl
  · by_cases hnamed : b ∈ nameless
    · rcases h with h | h | ⟨hdir, hsome⟩
      · exact absurd (hstem ▸ List.mem_append_right a List.mem_cons_self) h
      · exact absurd (hlast ▸ hnamed) h
      · obtain ⟨dir, rfl⟩ := Option.isSome_iff_exists.mp hdir
        obtain ⟨p, hp⟩ := Option.isSome_iff_exists.mp hsome
        have hpiece := slash_notMem_piece (fileName_piece hp).1
        have hbackup : backupStem dbPath = p := by rw [backupStem, hp]; rfl
        rw [backupPathAt_some, hbackup, fileName_joinPath (hjoin hpiece) (hname _)]
        rfl
    · have hbackup : backupStem dbPath = b := by
        rw [backupStem, hstem, fileName_append hb hnamed]
        rfl
      cases backupDir with
      | none =>
        rw [backupPathAt_none, hstem, List.append_assoc, List.cons_append,
          fileName_append (hjoin hb) (hname b), hbackup]
        rfl
      | some dir =>
        rw [backupPathAt_some, hbackup, fileName_joinPath (hjoin hb) (hname b)]
        rfl

end Names

/-! ### Reading a backup's name -/

section Reading
variable {parse : List Char → Option NaiveDateTime} {dbPath : List Char}
  {backupDir suffix : Option (List Char)} {t : NaiveDateTime}

/-- What a name of this stem is read as. -/
theorem backupTimestamp_append (stem body : List Char) :
    backupTimestamp parse (stem ++ '-' :: body ++ dotDb) stem =
      (splitAtByte backupTimestampLen body).bind fun parts =>
        if parts.2 ≠ [] ∧ ¬ ['-'] <+: parts.2 then none else parse parts.1 := by
  have hstem : stripPrefix stem (stem ++ '-' :: body ++ dotDb) = some ('-' :: body ++ dotDb) :=
    stripPrefix_some.mpr (List.append_assoc _ _ _)
  have hdash : stripPrefix ['-'] ('-' :: body ++ dotDb) = some (body ++ dotDb) :=
    stripPrefix_some.mpr rfl
  have hext : stripSuffix dotDb (body ++ dotDb) = some body := stripSuffix_some.mpr rfl
  unfold backupTimestamp
  simp only [hstem, hdash, hext, Option.bind_eq_bind, Option.bind_some]

/-- A name is read as a second only where it is cut up so. -/
theorem backupTimestamp_some {name stem : List Char} (h : backupTimestamp parse name stem = some t) :
    ∃ ts after, name = stem ++ '-' :: (ts ++ after) ++ dotDb ∧
      splitAtByte backupTimestampLen (ts ++ after) = some (ts, after) ∧ parse ts = some t := by
  unfold backupTimestamp at h
  obtain ⟨r, hr, h⟩ := Option.bind_eq_some_iff.mp h
  obtain ⟨r', hr', h⟩ := Option.bind_eq_some_iff.mp h
  obtain ⟨body, hbody, h⟩ := Option.bind_eq_some_iff.mp h
  obtain ⟨⟨ts, after⟩, hsplit, h⟩ := Option.bind_eq_some_iff.mp h
  have hparts := splitAtByte_some hsplit
  refine ⟨ts, after, ?_, hparts ▸ hsplit, ?_⟩
  · rw [stripPrefix_some.mp hr, stripPrefix_some.mp hr', stripSuffix_some.mp hbody, hparts]
    simp
  · change (if after ≠ [] ∧ ¬ ['-'] <+: after then none else parse ts) = some t at h
    split at h
    · cases h
    · exact h

theorem format_ascii (t : NaiveDateTime) : ∀ c ∈ formatTimestamp t, c.toNat < 128 :=
  fun c hc => inTimestamp_ascii (formatTimestamp_chars t c hc)

/-- A name of this stem is read as its own second, in a plain year. -/
theorem read_plain (hparse : ReadsTimestamps parse) (h : t.PlainYear) (stem : List Char) :
    backupTimestamp parse (stem ++ nameRest t suffix) stem = some t := by
  have hname : stem ++ nameRest t suffix =
      stem ++ '-' :: (formatTimestamp t ++ suffixPart suffix) ++ dotDb := by
    simp [nameRest]
  have hsplit := splitAtByte_append (format_ascii t) (suffixPart suffix)
  rw [formatTimestamp_length_plain h] at hsplit
  rw [hname, backupTimestamp_append, hsplit]
  change (if suffixPart suffix ≠ [] ∧ ¬ ['-'] <+: suffixPart suffix then none
    else parse (formatTimestamp t)) = _
  rw [if_neg, hparse.written t h]
  rintro ⟨hne, hdash⟩
  cases suffix with
  | none => exact hne rfl
  | some s => exact hdash ⟨s, rfl⟩

/-- In any other year it is read as none. -/
theorem read_signed (h : ¬ t.PlainYear) (stem : List Char) :
    backupTimestamp parse (stem ++ nameRest t none) stem = none := by
  obtain ⟨sign, digits, hyear, -, hge, hle⟩ := yearText_signed h
  obtain ⟨front, clock, hformat, hfront, hclock⟩ := formatTimestamp_clock t
  have hlength := formatTimestamp_length t
  rw [hyear, List.length_cons] at hlength hfront
  have hname : stem ++ nameRest t none = stem ++ '-' :: formatTimestamp t ++ dotDb := by
    simp [nameRest, suffixPart]
  have hclockLength : front.length + clock.length = (formatTimestamp t).length := by
    rw [hformat, List.length_append]
  -- the first 17 characters end inside the clock, so a figure follows them
  have hcut : formatTimestamp t = (front ++ clock.take (17 - front.length)) ++
      clock.drop (17 - front.length) := by
    rw [List.append_assoc, List.take_append_drop]
    exact hformat
  have htake : (front ++ clock.take (17 - front.length)).length = backupTimestampLen := by
    rw [List.length_append, List.length_take]
    change _ = 17
    omega
  have hsplit := splitAtByte_append (fun c hc => format_ascii t c
    (by rw [hcut]; exact List.mem_append_left _ hc)) (clock.drop (17 - front.length))
  rw [htake, ← hcut] at hsplit
  rw [hname, backupTimestamp_append, hsplit]
  refine if_pos ⟨?_, ?_⟩
  · intro hnil
    have := congrArg List.length hnil
    simp only [List.length_drop, List.length_nil] at this
    omega
  · rintro ⟨more, hmore⟩
    have hmem : '-' ∈ clock.drop (17 - front.length) := by
      change _ = clock.drop (17 - front.length) at hmore
      rw [← hmore]
      exact List.mem_cons_self
    have hdash := List.mem_of_mem_drop hmem
    have hdigit := hclock _ hdash
    revert hdigit
    decide

theorem slash_notMem_backupName : '/' ∉ backupName dbPath backupDir suffix t := by
  unfold backupName
  cases h : fileName (backupPathAt dbPath backupDir suffix t) with
  | none => exact List.not_mem_nil
  | some p => exact slash_notMem_piece (fileName_piece h).1

/-- A name read against a longer stem than the one it was built on holds too
short a text for a second, or one that starts in another year. -/
theorem read_other (hparse : ReadsTimestamps parse) {b p : List Char} (hb : b = [] ∨ b = ['.'])
    (hp : p ∉ nameless) : backupTimestamp parse (b ++ nameRest t none) p ≠ some t := by
  intro h
  obtain ⟨ts, after, hname, hsplit, hread⟩ := backupTimestamp_some h
  have hrest : b ++ '-' :: formatTimestamp t = p ++ '-' :: (ts ++ after) := by
    apply @List.append_cancel_right _ _ dotDb
    rw [← hname]
    simp [nameRest, suffixPart]
  -- the stem takes the dash, and some of the timestamp before another
  obtain ⟨w, hw⟩ : ∃ w, formatTimestamp t = w ++ '-' :: (ts ++ after) := by
    simp only [nameless, List.mem_cons, List.not_mem_nil, or_false, not_or] at hp
    rcases hb with rfl | rfl
    · cases p with
      | nil => exact absurd rfl hp.1
      | cons c w => exact ⟨w, (List.cons.inj hrest).2⟩
    · cases p with
      | nil => exact absurd rfl hp.1
      | cons c p =>
        obtain ⟨rfl, htail⟩ := List.cons.inj hrest
        cases p with
        | nil => exact absurd rfl hp.2.1
        | cons c w => exact ⟨w, (List.cons.inj htail).2⟩
  have hascii : ∀ c ∈ ts ++ after, c.toNat < 128 := fun c hc => format_ascii t c
    (by rw [hw]; exact List.mem_append_right _ (List.mem_cons_of_mem _ hc))
  have hts : ts.length = 17 := splitAtByte_length hascii hsplit
  have hlength := congrArg List.length hw
  rw [formatTimestamp_length, List.length_append, List.length_cons, List.length_append, hts] at hlength
  by_cases hplain : t.PlainYear
  · rw [yearText, if_pos (show _ ∧ _ from hplain), padded_length] at hlength
    omega
  obtain ⟨sign, digits, hyear, hdigits, hge, hle⟩ := yearText_signed hplain
  rw [hyear, List.length_cons] at hlength
  obtain ⟨d₁, d₂, rest, rfl⟩ : ∃ d₁ d₂ rest, digits = d₁ :: d₂ :: rest := by
    cases digits with
    | nil => simp at hge
    | cons d₁ digits =>
      cases digits with
      | nil => simp at hge
      | cons d₂ rest => exact ⟨d₁, d₂, rest, rfl⟩
  have hformat : ∃ more, formatTimestamp t = sign :: d₁ :: d₂ :: more := by
    rw [formatTimestamp, hyear]
    exact ⟨_, rfl⟩
  obtain ⟨more, hmore⟩ := hformat
  rw [hmore] at hw
  have hdash : ∀ d : Char, d.isDigit = true → d ≠ '-' := by
    rintro d hd rfl
    revert hd
    decide
  cases w with
  | nil =>
    obtain ⟨-, hts'⟩ := List.cons.inj hw
    cases ts with
    | nil => simp at hts
    | cons c ts =>
      obtain ⟨rfl, -⟩ := List.cons.inj hts'
      exact hplain (hparse.unsigned d₁ ts t (hdigits _ List.mem_cons_self) hread)
  | cons x w =>
    obtain ⟨-, hw⟩ := List.cons.inj hw
    cases w with
    | nil => exact hdash d₁ (hdigits _ List.mem_cons_self) (List.cons.inj hw).1
    | cons y w =>
      obtain ⟨-, hw⟩ := List.cons.inj hw
      cases w with
      | nil =>
        exact hdash d₂ (hdigits _ (List.mem_cons_of_mem _ List.mem_cons_self))
          (List.cons.inj hw).1
      | cons z w =>
        simp only [List.length_cons] at hlength hle
        omega

/-- Every name built of a second is read as it just where the path names its
backups and the year is plain. -/
theorem read_iff (hparse : ReadsTimestamps parse) :
    (∀ suffix, ValidSuffix suffix →
      backupTimestamp parse (backupName dbPath backupDir suffix t) (backupStem dbPath) = some t) ↔
        NamesBackups dbPath backupDir ∧ t.PlainYear := by
  constructor
  · intro h
    have hnone := h none (fun s hs => by cases hs)
    have hnamed : NamesBackups dbPath backupDir := by
      by_contra hnot
      simp only [NamesBackups, not_or, not_and, not_not] at hnot
      obtain ⟨hslash, hlast, hdir⟩ := hnot
      rcases exists_lastPiece (stemPath dbPath) with hone | ⟨a, b, hstem, hb, hpiece⟩
      · exact hone hslash
      cases hname : fileName (stemPath dbPath) with
      | none =>
        obtain ⟨ts, after, hsplit, -⟩ := backupTimestamp_some hnone
        refine @slash_notMem_backupName dbPath backupDir none t ?_
        have hbackup : backupStem dbPath = stemPath dbPath := by rw [backupStem, hname]; rfl
        rw [hsplit, hbackup]
        exact List.mem_append_left _ (List.mem_append_left _ hslash)
      | some p =>
        cases backupDir with
        | some dir =>
          rw [hname] at hdir
          exact absurd rfl (hdir rfl)
        | none =>
          have hbackup : backupStem dbPath = p := by rw [backupStem, hname]; rfl
          have hb' : b = [] ∨ b = ['.'] := by
            rw [hpiece] at hlast
            simp only [nameless, List.mem_cons, List.not_mem_nil, or_false] at hlast
            rcases hlast with h | h | h
            · exact .inl h
            · exact .inr h
            · have hpieces : pieces (stemPath dbPath) = pieces a ++ [b] := by
                rw [hstem, pieces_append_slash, pieces_of_name hb]
              rw [fileName, components, hpieces, h, List.filter_append,
                List.getLast?_append] at hname
              simp at hname
              exact absurd hname.1.symm hname.2
          have hfile : backupName dbPath none none t = b ++ nameRest t none := by
            have hrest : '/' ∉ b ++ nameRest t none := fun hmem =>
              (List.mem_append.mp hmem).elim hb
                (slash_notMem_nameRest (fun s hs => by cases hs) t)
            rw [backupName, backupPathAt_none, hstem, List.append_assoc, List.cons_append,
              fileName_append hrest (append_nameRest_name b t none)]
            rfl
          rw [hfile, hbackup] at hnone
          exact read_other hparse hb' (fileName_piece hname).2 hnone
    refine ⟨hnamed, ?_⟩
    by_contra hyear
    rw [backupName_eq hnamed (fun s hs => by cases hs), read_signed hyear] at hnone
    cases hnone
  · rintro ⟨hnamed, hyear⟩ suffix hsuffix
    rw [backupName_eq hnamed hsuffix]
    exact read_plain hparse hyear _

/-- No staging or quarantined file is read as a backup. -/
theorem read_artefact (name stem : List Char) {artefact : List Char}
    (h : artefact = ".partial".toList ∨ artefact = ".bad".toList) :
    backupTimestamp parse (name ++ artefact) stem = none := by
  by_contra hsome
  obtain ⟨t, ht⟩ := Option.ne_none_iff_exists'.mp hsome
  obtain ⟨ts, after, hname, -⟩ := backupTimestamp_some ht
  have hlast : (name ++ artefact).getLast? = some 'b' := by
    rw [hname, List.getLast?_append]
    rfl
  rw [List.getLast?_append] at hlast
  rcases h with rfl | rfl <;> simp at hlast

end Reading

/-! ### A backup's directory -/

section Place

theorem components_append_slash (a b : List Char) :
    components (a ++ '/' :: b) = components a ++ components b := by
  unfold components
  rw [pieces_append_slash, List.filter_append]

theorem components_of_name {b : List Char} (h : '/' ∉ b) (hb : b ∉ nameless) : components b = [b] := by
  simp only [nameless, List.mem_cons, List.not_mem_nil, or_false, not_or] at hb
  unfold components
  rw [pieces_of_name h]
  simp [hb.1, hb.2.1]

theorem components_dropLast_of_name {b : List Char} (h : '/' ∉ b) : (components b).dropLast = [] := by
  unfold components
  rw [pieces_of_name h, List.filter_cons]
  split <;> rfl

theorem dbPath_eq (dbPath : List Char) :
    dbPath = stemPath dbPath ∨ dbPath = stemPath dbPath ++ dotDb := by
  unfold stemPath
  cases h : stripSuffix dotDb dbPath with
  | none => exact .inl rfl
  | some stem => exact .inr (stripSuffix_some.mp h)

/-- The root a path starts at is its stem's. -/
theorem root_append (stem : List Char) {rest : List Char} (h : ¬ ['/'] <+: rest) :
    (['/'] <+: stem ++ rest) ↔ ['/'] <+: stem := by
  cases stem with
  | nil =>
    refine iff_of_false h ?_
    rintro ⟨t, ht⟩
    cases ht
  | cons c stem => simp

variable {dbPath : List Char} {backupDir suffix : Option (List Char)} {t : NaiveDateTime}

theorem parent_joinPath {dir n : List Char} (h : '/' ∉ n) (hn : n ∉ nameless) :
    parent (joinPath dir n) = directory dir := by
  have hroot : ¬ ['/'] <+: n := by
    rintro ⟨more, rfl⟩
    exact h List.mem_cons_self
  have hcomponents := components_of_name h hn
  unfold joinPath parent directory
  split
  · rename_i hbare
    rcases hbare with habs | rfl
    · exact absurd habs hroot
    · rw [hcomponents]
      simp [hroot, components, pieces]
  · rename_i hne
    simp only [not_or] at hne
    have habs : ∀ rest : List Char, (['/'] <+: dir ++ rest) ↔ ['/'] <+: dir := by
      intro rest
      cases dir with
      | nil => exact absurd rfl hne.2
      | cons c dir => simp
    split
    · rename_i hslash
      obtain ⟨a, rfl⟩ := hslash
      rw [List.append_assoc, List.singleton_append, components_append_slash, hcomponents,
        List.dropLast_concat]
      have hroot' := habs n
      rw [List.append_assoc, List.singleton_append] at hroot'
      have hdir : components (a ++ ['/']) = components a := by
        rw [components_append_slash]
        simp [components, pieces]
      rw [hdir]
      exact Prod.ext (decide_eq_decide.mpr hroot') rfl
    · rw [components_append_slash, hcomponents, List.dropLast_concat]
      exact Prod.ext (decide_eq_decide.mpr (habs _)) rfl

/-- A path that names its backups: they are written where they are looked for. -/
theorem parent_backupPathAt (h : NamesBackups dbPath backupDir) (hsuffix : ValidSuffix suffix) :
    parent (backupPathAt dbPath backupDir suffix t) = backupDestination dbPath backupDir := by
  have hrest := slash_notMem_nameRest hsuffix t
  have hname : ∀ n, n ++ nameRest t suffix ∉ nameless := fun n => append_nameRest_name n t suffix
  have hjoin : ∀ {n : List Char}, '/' ∉ n → '/' ∉ n ++ nameRest t suffix := fun hn hmem =>
    (List.mem_append.mp hmem).elim hn hrest
  have hstart : ¬ ['/'] <+: nameRest t suffix := by
    rintro ⟨more, hmore⟩
    exact hrest (hmore ▸ List.mem_cons_self)
  have hdot : ¬ ['/'] <+: dotDb := by decide
  have hslash : '/' ∉ dotDb := by decide
  cases backupDir with
  | none =>
    have habs : (['/'] <+: stemPath dbPath ++ nameRest t suffix) ↔ ['/'] <+: dbPath := by
      rw [root_append _ hstart]
      rcases dbPath_eq dbPath with hdb | hdb
      · rw [← hdb]
      · conv_rhs => rw [hdb]
        exact (root_append _ hdot).symm
    refine Prod.ext (decide_eq_decide.mpr habs) ?_
    change (components (stemPath dbPath ++ nameRest t suffix)).dropLast =
      (components dbPath).dropLast
    rcases exists_lastPiece (stemPath dbPath) with hone | ⟨a, b, hstem, hb, hlast⟩
    · rw [components_dropLast_of_name (hjoin hone)]
      refine (components_dropLast_of_name ?_).symm
      rcases dbPath_eq dbPath with hdb | hdb
      · rw [hdb]
        exact hone
      · rw [hdb]
        exact fun hmem => (List.mem_append.mp hmem).elim hone hslash
    · have hnamed : b ∉ nameless := by
        rcases h with h | h | h
        · exact absurd (hstem ▸ List.mem_append_right a List.mem_cons_self) h
        · exact hlast ▸ h
        · exact absurd h.1 (by simp)
      have hdrop : ∀ rest : List Char, '/' ∉ rest → b ++ rest ∉ nameless →
          (components (stemPath dbPath ++ rest)).dropLast = components a := by
        intro rest hslash hne
        rw [hstem, List.append_assoc, List.cons_append, components_append_slash,
          components_of_name (fun hmem => (List.mem_append.mp hmem).elim hb hslash) hne,
          List.dropLast_concat]
      rw [hdrop _ hrest (hname b)]
      rcases dbPath_eq dbPath with hdb | hdb
      · have hsame := hdrop [] List.not_mem_nil (by rwa [List.append_nil])
        rw [List.append_nil, ← hdb] at hsame
        exact hsame.symm
      · rw [hdb]
        refine (hdrop dotDb hslash (long_name ?_)).symm
        rw [List.length_append]
        exact Nat.le_add_left 3 b.length
  | some dir => exact parent_joinPath (hjoin (slash_notMem_backupStem h)) (hname _)

end Place

end ShareTracker.Backups
