import Mathlib

/-! Calendar dates and the Australian financial year they fall in. -/
namespace ShareTracker

def isLeapYear (year : ℤ) : Bool := year % 4 == 0 && (year % 100 != 0 || year % 400 == 0)

def daysInMonth (year : ℤ) (month : ℕ) : ℕ :=
  match month with
  | 2 => if isLeapYear year then 29 else 28
  | 4 | 6 | 9 | 11 => 30
  | _ => 31

theorem daysInMonth_le (year : ℤ) (month : ℕ) : daysInMonth year month ≤ 31 := by
  unfold daysInMonth
  split
  · split <;> omega
  all_goals omega

/-- A date of the proleptic Gregorian calendar. -/
structure NaiveDate where
  year : ℤ
  month : ℕ
  day : ℕ
  month_pos : 1 ≤ month
  month_le : month ≤ 12
  day_pos : 1 ≤ day
  day_le : day ≤ daysInMonth year month
  deriving DecidableEq

/-- Position in calendar order: every month is given 31 places. -/
def NaiveDate.key (d : NaiveDate) : ℤ := (d.year * 12 + (d.month - 1)) * 31 + (d.day - 1)

theorem NaiveDate.key_injective : Function.Injective NaiveDate.key := by
  rintro ⟨y, m, d, hm, hm', hd, hd'⟩ ⟨y', m', d', kM, kM', kd, kd'⟩ h
  have h1 := hd'.trans (daysInMonth_le y m)
  have h2 := kd'.trans (daysInMonth_le y' m')
  simp only [NaiveDate.key] at h
  have hy : y = y' := by omega
  subst hy
  have hmm : m = m' := by omega
  subst hmm
  have hdd : d = d' := by omega
  subst hdd
  rfl

instance : LinearOrder NaiveDate := LinearOrder.lift' NaiveDate.key NaiveDate.key_injective

theorem NaiveDate.le_def {a b : NaiveDate} : a ≤ b ↔ a.key ≤ b.key := Iff.rfl

theorem NaiveDate.lt_def {a b : NaiveDate} : a < b ↔ a.key < b.key := Iff.rfl

/-- The financial year a date falls in, named by the calendar year of its 30 June end. -/
def taxYearFor (date : NaiveDate) : ℤ := if date.month ≥ 7 then date.year + 1 else date.year

/-- The 1 July on which the financial year containing the date began. -/
def fyStart (date : NaiveDate) : NaiveDate where
  year := taxYearFor date - 1
  month := 7
  day := 1
  month_pos := by omega
  month_le := by omega
  day_pos := by omega
  day_le := by simp [daysInMonth]

theorem fyStart_le (date : NaiveDate) : fyStart date ≤ date := by
  have hd := date.day_pos
  have hm := date.month_pos
  rw [NaiveDate.le_def]
  simp only [NaiveDate.key, fyStart, taxYearFor]
  split <;> omega

theorem le_daysInMonth (year : ℤ) (month : ℕ) : 28 ≤ daysInMonth year month := by
  unfold daysInMonth
  split
  · split <;> omega
  all_goals omega

theorem epoch_month : 1 ≤ 12 := by decide

theorem epoch_day : 1 ≤ daysInMonth 1970 1 := by decide

/-- A date by its figures; figures of no date are read as the epoch. -/
def ymd (year : ℤ) (month day : ℕ) : NaiveDate :=
  if h : (1 ≤ month ∧ month ≤ 12) ∧ 1 ≤ day ∧ day ≤ daysInMonth year month then
    ⟨year, month, day, h.1.1, h.1.2, h.2.1, h.2.2⟩
  else ⟨1970, 1, 1, Nat.one_pos, epoch_month, Nat.one_pos, epoch_day⟩

/-- `date - Months::new(12)`: the day is cut to the length of the month a year earlier. -/
def twelveMonthsBefore (date : NaiveDate) : NaiveDate where
  year := date.year - 1
  month := date.month
  day := min date.day (daysInMonth (date.year - 1) date.month)
  month_pos := date.month_pos
  month_le := date.month_le
  day_pos := by
    have := le_daysInMonth (date.year - 1) date.month
    have := date.day_pos
    omega
  day_le := min_le_right _ _

/-- Held more than 12 months, neither the day of acquisition nor of the event counted. -/
def discountEligible (acquired eventDate : NaiveDate) : Bool :=
  acquired < twelveMonthsBefore eventDate

end ShareTracker
