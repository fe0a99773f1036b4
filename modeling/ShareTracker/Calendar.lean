import ShareTracker.TaxYear

/-! Days counted along the calendar, and the days of the week. -/
namespace ShareTracker.NaiveDate

/-- Days of the years before `year`, counted from the first day of year 1. -/
def daysBeforeYear (year : ℤ) : ℤ :=
  365 * (year - 1) + (year - 1) / 4 - (year - 1) / 100 + (year - 1) / 400

def daysBeforeMonth (year : ℤ) : ℕ → ℤ
  | 0 => 0
  | 1 => 0
  | m + 1 => daysBeforeMonth year m + daysInMonth year m

/-- The days from the start of the calendar: 1 January of year 1, a Monday, is 1. -/
def dayNumber (d : NaiveDate) : ℤ := daysBeforeYear d.year + daysBeforeMonth d.year d.month + d.day

/-- Whether the date is a Saturday or a Sunday. -/
def isWeekend (d : NaiveDate) : Bool := d.dayNumber % 7 = 6 || d.dayNumber % 7 = 0

/-- `date - Duration::days(1)`. -/
def pred (d : NaiveDate) : NaiveDate :=
  if hd : 1 < d.day then
    { d with
      day := d.day - 1
      day_pos := by omega
      day_le := (Nat.sub_le d.day 1).trans d.day_le }
  else if hm : 1 < d.month then
    { year := d.year
      month := d.month - 1
      day := daysInMonth d.year (d.month - 1)
      month_pos := by omega
      month_le := (Nat.sub_le d.month 1).trans d.month_le
      day_pos := Nat.le_trans (by decide) (le_daysInMonth d.year (d.month - 1))
      day_le := le_rfl }
  else
    { year := d.year - 1
      month := 12
      day := 31
      month_pos := by decide
      month_le := le_rfl
      day_pos := by decide
      day_le := le_rfl }

theorem pred_lt (d : NaiveDate) : d.pred < d := by
  have hm := d.month_pos
  have hd := d.day_pos
  rw [lt_def]
  unfold pred
  split
  · simp only [key]
    omega
  · split
    · have hlen := daysInMonth_le d.year (d.month - 1)
      simp only [key]
      omega
    · simp only [key]
      omega

/-- `date + Duration::days(1)`. -/
def succ (d : NaiveDate) : NaiveDate :=
  if hd : d.day < daysInMonth d.year d.month then
    { d with
      day := d.day + 1
      day_pos := Nat.le_add_left 1 d.day
      day_le := hd }
  else if hm : d.month < 12 then
    { year := d.year
      month := d.month + 1
      day := 1
      month_pos := Nat.le_add_left 1 d.month
      month_le := hm
      day_pos := le_rfl
      day_le := Nat.le_trans (by decide) (le_daysInMonth d.year (d.month + 1)) }
  else
    { year := d.year + 1
      month := 1
      day := 1
      month_pos := le_rfl
      month_le := by decide
      day_pos := le_rfl
      day_le := by simp [daysInMonth] }

/-- `date + Duration::days(n)`. -/
def addDays (d : NaiveDate) : ℕ → NaiveDate
  | 0 => d
  | n + 1 => (d.addDays n).succ

theorem daysBeforeMonth_succ {year : ℤ} {month : ℕ} (h : 1 ≤ month) :
    daysBeforeMonth year (month + 1) = daysBeforeMonth year month + daysInMonth year month := by
  cases month with
  | zero => omega
  | succ m => rfl

/-- The days of the months of a year are the days to the next year. -/
theorem daysBeforeYear_succ (year : ℤ) :
    daysBeforeYear (year + 1) = daysBeforeYear year + daysBeforeMonth year 12 + 31 := by
  have hmonths : daysBeforeMonth year 12 = 306 + daysInMonth year 2 := by
    simp [daysBeforeMonth, daysInMonth]
    ring
  have hleap : (daysInMonth year 2 : ℤ) =
      28 + (if year % 4 = 0 ∧ (year % 100 ≠ 0 ∨ year % 400 = 0) then 1 else 0) := by
    by_cases h : year % 4 = 0 ∧ (year % 100 ≠ 0 ∨ year % 400 = 0)
    · have hyes : isLeapYear year = true := by simpa [isLeapYear] using h
      rw [if_pos h]
      simp [daysInMonth, hyes]
    · have hno : isLeapYear year = false := by simpa [isLeapYear] using h
      rw [if_neg h]
      simp [daysInMonth, hno]
  rw [hmonths, hleap]
  unfold daysBeforeYear
  split <;> omega

theorem dayNumber_succ (d : NaiveDate) : d.succ.dayNumber = d.dayNumber + 1 := by
  have hday := d.day_le
  have hmonth := d.month_le
  unfold succ dayNumber
  split
  · push_cast
    ring
  · rename_i hfull
    have hend : d.day = daysInMonth d.year d.month := by omega
    split
    · simp only
      rw [daysBeforeMonth_succ d.month_pos, hend]
      push_cast
      ring
    · rename_i hlast
      have hdec : d.month = 12 := by omega
      have hlen : daysInMonth d.year 12 = 31 := rfl
      simp only
      rw [daysBeforeYear_succ, hend, hdec, hlen]
      simp [daysBeforeMonth]

theorem dayNumber_addDays (d : NaiveDate) (n : ℕ) : (d.addDays n).dayNumber = d.dayNumber + n := by
  induction n with
  | zero => simp [addDays]
  | succ n ih =>
    rw [addDays, dayNumber_succ, ih]
    push_cast
    ring

theorem daysBeforeYear_mono {a b : ℤ} (h : a ≤ b) : daysBeforeYear a ≤ daysBeforeYear b := by
  unfold daysBeforeYear
  omega

theorem daysBeforeMonth_mono (year : ℤ) {a b : ℕ} (ha : 1 ≤ a) (h : a ≤ b) :
    daysBeforeMonth year a ≤ daysBeforeMonth year b := by
  induction b, h using Nat.le_induction with
  | base => exact le_rfl
  | succ b hb ih =>
    rw [daysBeforeMonth_succ (ha.trans hb)]
    omega

/-- Later dates have later day numbers. -/
theorem dayNumber_strictMono : StrictMono dayNumber := by
  intro a b hab
  rw [lt_def] at hab
  have ha := a.day_le
  have ha' := daysInMonth_le a.year a.month
  have hb := b.day_pos
  have hb' := daysInMonth_le b.year b.month
  have hb'' := b.day_le
  have hapos := a.day_pos
  have ham := a.month_le
  have hamp := a.month_pos
  have hbm := b.month_le
  have hbmp := b.month_pos
  simp only [key] at hab
  unfold dayNumber
  rcases lt_trichotomy a.year b.year with hy | hy | hy
  · have hyear := daysBeforeYear_mono (Int.add_one_le_of_lt hy)
    have hmonth := daysBeforeMonth_mono a.year hamp ham
    have hstart := daysBeforeMonth_mono b.year le_rfl hbmp
    rw [daysBeforeYear_succ] at hyear
    have hzero : daysBeforeMonth b.year 1 = 0 := rfl
    omega
  · rcases lt_trichotomy a.month b.month with hm | hm | hm
    · have hmonth := daysBeforeMonth_mono a.year (Nat.le_add_left 1 a.month) hm
      rw [daysBeforeMonth_succ hamp] at hmonth
      rw [← hy]
      omega
    · rw [hy, hm]
      rw [hy, hm] at hab
      omega
    · rw [hy] at hab
      omega
  · omega

theorem dayNumber_le {a b : NaiveDate} : a.dayNumber ≤ b.dayNumber ↔ a ≤ b :=
  dayNumber_strictMono.le_iff_le

theorem dayNumber_lt {a b : NaiveDate} : a.dayNumber < b.dayNumber ↔ a < b :=
  dayNumber_strictMono.lt_iff_lt

theorem dayNumber_pred (d : NaiveDate) : d.pred.dayNumber = d.dayNumber - 1 := by
  have hday := d.day_pos
  have hmonth := d.month_pos
  unfold pred dayNumber
  split
  · simp only
    omega
  · rename_i hfirst
    have hstart : d.day = 1 := by omega
    split
    · rename_i hlater
      have hsucc : d.month = d.month - 1 + 1 := by omega
      have hdays : daysBeforeMonth d.year (d.month - 1 + 1) =
          daysBeforeMonth d.year (d.month - 1) + daysInMonth d.year (d.month - 1) :=
        daysBeforeMonth_succ (by omega)
      rw [← hsucc] at hdays
      simp only
      rw [hdays, hstart]
      push_cast
      ring
    · rename_i hjanuary
      have hjan : d.month = 1 := by omega
      have hyear := daysBeforeYear_succ (d.year - 1)
      rw [sub_add_cancel] at hyear
      have hnone : daysBeforeMonth d.year 1 = 0 := rfl
      simp only
      rw [hyear, hstart, hjan, hnone]
      push_cast
      ring

theorem succ_le_iff {a b : NaiveDate} : a.succ ≤ b ↔ a < b := by
  rw [← dayNumber_le, ← dayNumber_lt, dayNumber_succ]
  omega

theorem le_pred_iff {a b : NaiveDate} : a ≤ b.pred ↔ a < b := by
  rw [← dayNumber_le, ← dayNumber_lt, dayNumber_pred]
  omega

instance succOrder : SuccOrder NaiveDate := .ofSuccLeIff succ succ_le_iff

instance predOrder : PredOrder NaiveDate := .ofPredLeIff pred le_pred_iff

instance noMinOrder : NoMinOrder NaiveDate := ⟨fun d => ⟨d.pred, d.pred_lt⟩⟩

/-- Every later date is days away. -/
theorem exists_addDays {a b : NaiveDate} (h : a ≤ b) :
    b = a.addDays (b.dayNumber - a.dayNumber).toNat := by
  have hle := dayNumber_le.mpr h
  apply dayNumber_strictMono.injective
  rw [dayNumber_addDays]
  omega

example : ((ymd 2026 1 3) : NaiveDate).isWeekend := by decide

end ShareTracker.NaiveDate
