import ShareTracker.BackupNames
import ShareTracker.Calendar
import ShareTracker.JobRuns
import ShareTracker.Lib.Keyed
import ShareTracker.Lib.StableSort
import ShareTracker.Lib.TextOrder

/-!
# The stored schedule

`job_schedule` holds, for each entry a process runs, the instant it is next due,
as text. What is read back of it is the schedule the process last stored, and the
order of the texts is the order of the instants.
-/
namespace ShareTracker.Schedule

open Backups StableSort

/-! ### Instants and their text -/

/-- `DateTime<Utc>`. -/
structure UtcInstant where
  date : NaiveDate
  hour : ℕ
  minute : ℕ
  second : ℕ
  nanos : ℕ
  hour_lt : hour < 24
  minute_lt : minute < 60
  second_lt : second < 60
  nanos_lt : nanos < 1000000000

namespace UtcInstant

def key (t : UtcInstant) : NaiveDate ×ₗ ℕ ×ₗ ℕ ×ₗ ℕ ×ₗ ℕ :=
  toLex (t.date, toLex (t.hour, toLex (t.minute, toLex (t.second, t.nanos))))

theorem key_injective : Function.Injective key := by
  rintro ⟨d, h, m, s, n⟩ ⟨d', h', m', s', n'⟩ heq
  obtain ⟨rfl, heq⟩ := Prod.mk.inj (toLex.injective heq)
  obtain ⟨rfl, heq⟩ := Prod.mk.inj (toLex.injective heq)
  obtain ⟨rfl, heq⟩ := Prod.mk.inj (toLex.injective heq)
  obtain ⟨rfl, rfl⟩ := Prod.mk.inj (toLex.injective heq)
  rfl

instance : LinearOrder UtcInstant := LinearOrder.lift' key key_injective

/-- Nanoseconds from the start of the calendar. -/
def timestampNanos (t : UtcInstant) : ℤ :=
  (((t.date.dayNumber * 24 + t.hour) * 60 + t.minute) * 60 + t.second) * 1000000000 + t.nanos

/-- The years written in four figures. -/
def PlainYear (t : UtcInstant) : Prop := 0 ≤ t.date.year ∧ t.date.year ≤ 9999

instance (t : UtcInstant) : Decidable t.PlainYear := inferInstanceAs (Decidable (_ ∧ _))

end UtcInstant

/-- The fraction of a second, in as few groups of three figures as hold it. -/
def fractionText (nanos : ℕ) : List Char :=
  if nanos = 0 then []
  else if nanos % 1000000 = 0 then '.' :: padded 3 (nanos / 1000000)
  else if nanos % 1000 = 0 then '.' :: padded 6 (nanos / 1000)
  else '.' :: padded 9 nanos

/-- `DateTime::<Utc>::to_rfc3339`. -/
def toRfc3339 (t : UtcInstant) : List Char :=
  yearText t.date.year ++ ('-' :: padded 2 t.date.month ++ ('-' :: padded 2 t.date.day ++
    ('T' :: padded 2 t.hour ++ (':' :: padded 2 t.minute ++ (':' :: padded 2 t.second ++
      (fractionText t.nanos ++ ['+', '0', '0', ':', '0', '0']))))))

/-! ### The table -/

structure ScheduleEntry where
  name : String
  expr : List Char
  tz : Option (List Char)
  deriving DecidableEq

/-- One row of `job_schedule`. -/
structure JobScheduleRow where
  id : ℕ
  name : String
  cron : List Char
  timezone : Option (List Char)
  nextRunAt : List Char
  deriving DecidableEq

abbrev JobSchedule := List JobScheduleRow

def dbClearSchedule : JobSchedule := []

/-- An `INTEGER PRIMARY KEY` is one more than the greatest in use. -/
def nextId (rows : JobSchedule) : ℕ := (rows.map JobScheduleRow.id).foldr max 0 + 1

def dbInsertSchedule (rows : JobSchedule) (name : String) (cron : List Char)
    (timezone : Option (List Char)) (nextRunAt : List Char) : JobSchedule × ℕ :=
  (rows ++ [⟨nextId rows, name, cron, timezone, nextRunAt⟩], nextId rows)

def setNextRun (id : ℕ) (nextRunAt : List Char) (r : JobScheduleRow) : JobScheduleRow :=
  if r.id = id then { r with nextRunAt } else r

/-- The rows, and whether one had the id. -/
def dbUpdateSchedule (rows : JobSchedule) (id : ℕ) (nextRunAt : List Char) : JobSchedule × Bool :=
  (rows.map (setNextRun id nextRunAt), rows.any fun r => r.id = id)

/-- A job with several lines is due when the earliest of them is. -/
def dbNextRuns (rows : JobSchedule) : String → Option (List Char) :=
  rows.foldl
    (fun (next : String → Option (List Char)) row =>
      Function.update next row.name (some
        (match next row.name with
        | some held => if row.nextRunAt < held then row.nextRunAt else held
        | none => row.nextRunAt)))
    fun _ => none

/-! ### The entries that write it -/

/-- What one entry's task knows of its own row. -/
structure StoredSchedule where
  entry : ScheduleEntry
  id : Option ℕ
  deriving DecidableEq

def StoredSchedule.new (entry : ScheduleEntry) : StoredSchedule := ⟨entry, none⟩

/-- Claim a row; `inserted` is whether the write lands. -/
def StoredSchedule.claim (stored : StoredSchedule) (rows : JobSchedule) (next : UtcInstant)
    (inserted : Bool) : StoredSchedule × JobSchedule :=
  if inserted then
    let (rows, id) := dbInsertSchedule rows stored.entry.name stored.entry.expr stored.entry.tz
      (toRfc3339 next)
    ({ stored with id := some id }, rows)
  else ({ stored with id := none }, rows)

/-- `updated` and `inserted` are whether the two writes land. -/
def StoredSchedule.record (stored : StoredSchedule) (rows : JobSchedule) (next : UtcInstant)
    (updated inserted : Bool) : StoredSchedule × JobSchedule :=
  match stored.id with
  | some id =>
    if updated then
      match dbUpdateSchedule rows id (toRfc3339 next) with
      | (rows, true) => (stored, rows)
      | (rows, false) => stored.claim rows next inserted
    else (stored, rows)
  | none => stored.claim rows next inserted

structure Process where
  rows : JobSchedule
  entries : List StoredSchedule

inductive Event where
  /-- A process starts on a schedule and clears the table, or fails to; the tasks of
  the process before it are gone. -/
  | spawned (schedule : List ScheduleEntry) (cleared : Bool)
  /-- The task of the `i`-th entry stores when it is next due. -/
  | recorded (i : ℕ) (next : UtcInstant) (updated inserted : Bool)

def Process.step (s : Process) : Event → Process
  | .spawned schedule cleared =>
    ⟨if cleared then dbClearSchedule else s.rows, schedule.map StoredSchedule.new⟩
  | .recorded i next updated inserted =>
    match s.entries[i]? with
    | some stored =>
      let (stored, rows) := stored.record s.rows next updated inserted
      ⟨rows, s.entries.set i stored⟩
    | none => s

def processAfter (events : List Event) : Process := events.foldl Process.step ⟨[], []⟩

/-! ### The schedule itself -/

/-- When each entry of the running process is next due, as far as it could store
it, and what a table that could not be cleared still holds. -/
structure Agenda where
  leftOver : List (ScheduleEntry × UtcInstant)
  live : List (ScheduleEntry × Option UtcInstant)

def known : List (ScheduleEntry × Option UtcInstant) → List (ScheduleEntry × UtcInstant) :=
  List.filterMap fun due => due.2.map fun next => (due.1, next)

def Agenda.stored (a : Agenda) : List (ScheduleEntry × UtcInstant) := a.leftOver ++ known a.live

/-- An entry's first instant has a row to claim, a later one a row to move on. -/
def moved (next : UtcInstant) (updated inserted : Bool) (due : ScheduleEntry × Option UtcInstant) :
    ScheduleEntry × Option UtcInstant :=
  (due.1, if (if due.2.isSome then updated else inserted) then some next else due.2)

def Agenda.step (a : Agenda) : Event → Agenda
  | .spawned schedule cleared =>
    ⟨if cleared then [] else a.stored, schedule.map fun entry => (entry, none)⟩
  | .recorded i next updated inserted => { a with live := a.live.modify i (moved next updated inserted) }

def agenda (events : List Event) : Agenda := events.foldl Agenda.step ⟨[], []⟩

/-! ### Texts in the order of their instants -/

section Text

theorem digit_lt {n m : ℕ} (h : n % 10 < m % 10) : digit n < digit m := by
  have hlt := Nat.mod_lt m (by decide : 0 < 10)
  unfold digit
  generalize n % 10 = i at h
  generalize m % 10 = j at h hlt
  interval_cases j <;> interval_cases i <;> decide

theorem padded_lt {width n m : ℕ} (hm : m < 10 ^ width) (h : n < m) :
    padded width n < padded width m := by
  induction width generalizing n m with
  | zero => omega
  | succ width ih =>
    rw [padded, padded]
    refine TextOrder.blocks_lt (by rw [padded_length, padded_length]) ?_
    rcases Nat.lt_or_ge (n / 10) (m / 10) with htens | htens
    · refine .inl (ih ?_ htens)
      rw [pow_succ] at hm
      omega
    · have hsame : n / 10 = m / 10 := by omega
      have hunits : n % 10 < m % 10 := by omega
      exact .inr ⟨by rw [hsame], List.cons_lt_cons_iff.mpr (.inl (digit_lt hunits))⟩

theorem padded_add (width more n : ℕ) :
    padded (width + more) n = padded width (n / 10 ^ more) ++ padded more n := by
  induction more generalizing n with
  | zero => simp [padded]
  | succ more ih =>
    rw [← Nat.add_assoc, padded, ih, padded, List.append_assoc, Nat.div_div_eq_div_mul,
      pow_succ, Nat.mul_comm 10]

theorem padded_zeros {width n : ℕ} (h : n % 10 ^ width = 0) : ∀ c ∈ padded width n, c = '0' := by
  induction width generalizing n with
  | zero => exact fun c hc => absurd hc List.not_mem_nil
  | succ width ih =>
    have hdvd : 10 ^ width * 10 ∣ n := by
      rw [← pow_succ]
      exact Nat.dvd_of_mod_eq_zero h
    obtain ⟨k, rfl⟩ := hdvd
    intro c hc
    rw [padded] at hc
    rcases List.mem_append.mp hc with hc | hc
    · refine ih ?_ c hc
      rw [show 10 ^ width * 10 * k / 10 = 10 ^ width * k by
        rw [Nat.mul_comm (10 ^ width) 10, Nat.mul_assoc, Nat.mul_div_cancel_left _ (by decide)]]
      exact Nat.mul_mod_right _ _
    · rw [List.mem_singleton.mp hc, digit, show 10 ^ width * 10 * k % 10 = 0 by
        rw [Nat.mul_comm (10 ^ width) 10, Nat.mul_assoc, Nat.mul_mod_right]]

theorem zero_le_padded {width n : ℕ} : ∀ c ∈ padded width n, '0' ≤ c := fun _ hc =>
  (isDigit_range (padded_digits hc)).1

/-- A fraction is its nine figures, cut where only zeros follow. -/
theorem fractionText_cut {nanos : ℕ} (h : nanos ≠ 0) :
    ∃ k, fractionText nanos = '.' :: (padded 9 nanos).take k ∧
      ∀ c ∈ (padded 9 nanos).drop k, c = '0' := by
  have hcut : ∀ width more, width + more = 9 → nanos % 10 ^ more = 0 →
      (padded 9 nanos).take width = padded width (nanos / 10 ^ more) ∧
        ∀ c ∈ (padded 9 nanos).drop width, c = '0' := by
    intro width more hwidth hzeros
    have hlen : (padded width (nanos / 10 ^ more)).length = width := padded_length _ _
    rw [← hwidth, padded_add, List.take_left' hlen, List.drop_left' hlen]
    exact ⟨rfl, padded_zeros hzeros⟩
  unfold fractionText
  rw [if_neg h]
  split
  · rename_i hmillis
    obtain ⟨htake, hdrop⟩ := hcut 3 6 rfl hmillis
    exact ⟨3, congrArg _ htake.symm, hdrop⟩
  · split
    · rename_i hmicros
      obtain ⟨htake, hdrop⟩ := hcut 6 3 rfl hmicros
      exact ⟨6, congrArg _ htake.symm, hdrop⟩
    · obtain ⟨htake, hdrop⟩ := hcut 9 0 rfl (Nat.mod_one _)
      exact ⟨9, congrArg _ (by rw [htake, pow_zero, Nat.div_one]), hdrop⟩

theorem fractionText_lt {n m : ℕ} (hm : m < 1000000000) (h : n < m) (x y : List Char) :
    fractionText n ++ '+' :: x < fractionText m ++ '+' :: y := by
  obtain ⟨j, hj, hzeros⟩ := fractionText_cut (Nat.ne_zero_of_lt h)
  by_cases hn : n = 0
  · rw [fractionText, if_pos hn, hj]
    exact List.cons_lt_cons_iff.mpr (.inl (by decide))
  · obtain ⟨k, hk, -⟩ := fractionText_cut hn
    rw [hk, hj]
    refine List.cons_lt_cons_iff.mpr (.inr ⟨rfl, ?_⟩)
    refine TextOrder.cut_lt (by rw [padded_length, padded_length]) (padded_lt hm h) hzeros ?_
      (by decide : '+' < '0') x y
    exact fun c hc => (List.mem_append.mp hc).elim (zero_le_padded c) (zero_le_padded c)

theorem block_lt {n m : ℕ} {x y : List Char} (hm : m < 100) (h : n < m ∨ n = m ∧ x < y) :
    padded 2 n ++ x < padded 2 m ++ y := by
  refine TextOrder.blocks_lt (by rw [padded_length, padded_length]) ?_
  rcases h with h | ⟨rfl, h⟩
  · exact .inl (padded_lt hm h)
  · exact .inr ⟨rfl, h⟩

theorem sep_lt {sep : Char} {x y : List Char} (h : x < y) : sep :: x < sep :: y :=
  List.cons_lt_cons_iff.mpr (.inr ⟨rfl, h⟩)

theorem date_lt {a b : NaiveDate} (h : a < b) : a.year < b.year ∨
    a.year = b.year ∧ (a.month < b.month ∨ a.month = b.month ∧ a.day < b.day) := by
  have h1 := a.day_le.trans (daysInMonth_le a.year a.month)
  have h2 := b.day_le.trans (daysInMonth_le b.year b.month)
  have h3 := a.month_le
  have h4 := b.month_le
  have h5 := a.month_pos
  have h6 := b.month_pos
  have h7 := a.day_pos
  have h8 := b.day_pos
  rw [NaiveDate.lt_def] at h
  simp only [NaiveDate.key] at h
  omega

/-- Instants sort as their texts do. -/
theorem toRfc3339_lt {a b : UtcInstant} (ha : a.PlainYear) (hb : b.PlainYear) (h : a < b) :
    toRfc3339 a < toRfc3339 b := by
  have hmonth := b.date.month_le
  have hday := b.date.day_le.trans (daysInMonth_le b.date.year b.date.month)
  have hhour := b.hour_lt
  have hminute := b.minute_lt
  have hsecond := b.second_lt
  have hyear : ∀ {x y : List Char}, a.date.year < b.date.year ∨ a.date.year = b.date.year ∧ x < y →
      yearText a.date.year ++ x < yearText b.date.year ++ y := by
    intro x y hlt
    obtain ⟨ha0, ha9⟩ := ha
    obtain ⟨hb0, hb9⟩ := hb
    rw [yearText, if_pos ⟨ha0, ha9⟩, yearText, if_pos ⟨hb0, hb9⟩]
    refine TextOrder.blocks_lt (by rw [padded_length, padded_length]) ?_
    rcases hlt with hlt | ⟨heq, hlt⟩
    · exact .inl (padded_lt (by omega) (by omega))
    · exact .inr ⟨by rw [heq], hlt⟩
  have hkey : a.key < b.key := h
  unfold UtcInstant.key at hkey
  simp only [Prod.Lex.toLex_lt_toLex] at hkey
  unfold toRfc3339
  rcases hkey with hdate | ⟨hdate, hclock⟩
  · rcases date_lt hdate with hy | ⟨hy, hm | ⟨hm, hd⟩⟩
    · exact hyear (.inl hy)
    · exact hyear (.inr ⟨hy, sep_lt (block_lt (by omega) (.inl hm))⟩)
    · refine hyear (.inr ⟨hy, sep_lt (block_lt (by omega) (.inr ⟨hm, ?_⟩))⟩)
      exact sep_lt (block_lt (by omega) (.inl hd))
  · refine hyear (.inr ⟨by rw [hdate], sep_lt (block_lt (by omega) (.inr ⟨by rw [hdate], ?_⟩))⟩)
    refine sep_lt (block_lt (by omega) (.inr ⟨by rw [hdate], sep_lt ?_⟩))
    rcases hclock with hh | ⟨hh, hclock⟩
    · exact block_lt (by omega) (.inl hh)
    refine block_lt (by omega) (.inr ⟨hh, sep_lt ?_⟩)
    rcases hclock with hmin | ⟨hmin, hclock⟩
    · exact block_lt (by omega) (.inl hmin)
    refine block_lt (by omega) (.inr ⟨hmin, sep_lt ?_⟩)
    rcases hclock with hsec | ⟨hsec, hnanos⟩
    · exact block_lt (by omega) (.inl hsec)
    · exact block_lt (by omega) (.inr ⟨hsec, fractionText_lt b.nanos_lt hnanos _ _⟩)

theorem toRfc3339_lt_iff {a b : UtcInstant} (ha : a.PlainYear) (hb : b.PlainYear) :
    toRfc3339 a < toRfc3339 b ↔ a < b := by
  refine ⟨fun h => ?_, toRfc3339_lt ha hb⟩
  rcases lt_trichotomy a b with hlt | rfl | hgt
  · exact hlt
  · exact absurd h (lt_irrefl _)
  · exact absurd h (toRfc3339_lt hb ha hgt).asymm

end Text

/-! ### The table follows the agenda -/

/-- What a row says of its entry. -/
def JobScheduleRow.content (r : JobScheduleRow) :
    String × List Char × Option (List Char) × List Char :=
  (r.name, r.cron, r.timezone, r.nextRunAt)

def dueContent (due : ScheduleEntry × UtcInstant) :
    String × List Char × Option (List Char) × List Char :=
  (due.1.name, due.1.expr, due.1.tz, toRfc3339 due.2)

/-- The row an entry's task has claimed, with the instant it last stored. -/
def rowOf (p : StoredSchedule × Option UtcInstant) : Option JobScheduleRow :=
  p.1.id.bind fun id => p.2.map fun next =>
    ⟨id, p.1.entry.name, p.1.entry.expr, p.1.entry.tz, toRfc3339 next⟩

/-- The rows are those left over and one for each entry that has stored an instant. -/
structure Tracks (s : Process) (a : Agenda) (old : List JobScheduleRow)
    (tasks : List (StoredSchedule × Option UtcInstant)) : Prop where
  entries : s.entries = tasks.map Prod.fst
  live : a.live = tasks.map fun p => (p.1.entry, p.2)
  claimed : ∀ p ∈ tasks, p.1.id.isSome = p.2.isSome
  leftOver : old.map JobScheduleRow.content = a.leftOver.map dueContent
  rows : s.rows.Perm (old ++ tasks.filterMap rowOf)
  ids : (s.rows.map JobScheduleRow.id).Nodup

theorem lt_nextId {rows : JobSchedule} {r : JobScheduleRow} (h : r ∈ rows) : r.id < nextId rows :=
  Nat.lt_succ_of_le (List.le_max_of_le' 0 (List.mem_map_of_mem h) le_rfl)

@[simp] theorem setNextRun_id (id : ℕ) (at_ : List Char) (r : JobScheduleRow) :
    (setNextRun id at_ r).id = r.id := by
  unfold setNextRun
  split <;> rfl

theorem setNextRun_of_ne {id : ℕ} {at_ : List Char} {r : JobScheduleRow} (h : r.id ≠ id) :
    setNextRun id at_ r = r := if_neg h

/-- What is stored of the tasks, entry by entry. -/
theorem filterMap_rowOf_content {tasks : List (StoredSchedule × Option UtcInstant)}
    (h : ∀ p ∈ tasks, p.1.id.isSome = p.2.isSome) :
    (tasks.filterMap rowOf).map JobScheduleRow.content =
      (known (tasks.map fun p => (p.1.entry, p.2))).map dueContent := by
  unfold known
  induction tasks with
  | nil => rfl
  | cons p tasks ih =>
    have hrest := ih fun q hq => h q (List.mem_cons_of_mem p hq)
    have hp := h p List.mem_cons_self
    obtain ⟨⟨entry, id⟩, next⟩ := p
    cases id with
    | none =>
      obtain rfl : next = none := by cases next with | none => rfl | some _ => cases hp
      exact hrest
    | some id =>
      cases next with
      | none => cases hp
      | some next => exact congrArg _ hrest

section Record
variable {rows : JobSchedule} {old : List JobScheduleRow}
  {before after : List (StoredSchedule × Option UtcInstant)}
  {stored : StoredSchedule} {held : Option UtcInstant}

/-- A row claimed is one more. -/
theorem claim_rows (hrows : rows.Perm (old ++ (before ++ (stored, none) :: after).filterMap rowOf))
    (hids : (rows.map JobScheduleRow.id).Nodup) (next : UtcInstant) (inserted : Bool) :
    let result := stored.claim rows next inserted
    let now := (result.1, if inserted then some next else none)
    result.1.entry = stored.entry ∧ now.1.id.isSome = now.2.isSome ∧
      result.2.Perm (old ++ (before ++ now :: after).filterMap rowOf) ∧
      (result.2.map JobScheduleRow.id).Nodup := by
  have hnothing : rowOf (stored, none) = none := by simp [rowOf]
  rw [List.filterMap_append, List.filterMap_cons_none hnothing] at hrows
  cases inserted with
  | false =>
    refine ⟨rfl, rfl, ?_, hids⟩
    rw [List.filterMap_append, List.filterMap_cons_none (by simp [rowOf])]
    exact hrows
  | true =>
    refine ⟨rfl, rfl, ?_, ?_⟩
    · rw [List.filterMap_append, List.filterMap_cons_some (by rfl), ← List.append_assoc]
      refine List.Perm.trans ?_ List.perm_middle.symm
      rw [List.append_assoc]
      exact (List.perm_append_singleton _ _).trans (hrows.cons _)
    · change ((rows ++ [_]).map JobScheduleRow.id).Nodup
      rw [List.map_append, List.map_singleton]
      refine List.nodup_append.mpr ⟨hids, List.nodup_singleton _, fun i hi j hj => ?_⟩
      obtain ⟨r, hr, rfl⟩ := List.mem_map.mp hi
      rw [List.mem_singleton.mp hj]
      exact (lt_nextId hr).ne

/-- The row a task claimed is there, and moving it on leaves the others. -/
theorem update_rows {id : ℕ} {at_ : UtcInstant} (hid : stored.id = some id)
    (hrows : rows.Perm (old ++ (before ++ (stored, some at_) :: after).filterMap rowOf))
    (hids : (rows.map JobScheduleRow.id).Nodup) (next : UtcInstant) :
    (dbUpdateSchedule rows id (toRfc3339 next)).2 = true ∧
      (dbUpdateSchedule rows id (toRfc3339 next)).1.Perm
        (old ++ (before ++ (stored, some next) :: after).filterMap rowOf) ∧
      ((dbUpdateSchedule rows id (toRfc3339 next)).1.map JobScheduleRow.id).Nodup := by
  have hrow : ∀ t, rowOf (stored, some t) =
      some ⟨id, stored.entry.name, stored.entry.expr, stored.entry.tz, toRfc3339 t⟩ := by
    intro t
    simp [rowOf, hid]
  rw [List.filterMap_append, List.filterMap_cons_some (hrow at_), ← List.append_assoc] at hrows
  rw [List.filterMap_append, List.filterMap_cons_some (hrow next), ← List.append_assoc]
  have hmem := hrows.mem_iff.mpr (List.mem_append_right _ List.mem_cons_self)
  have hnodup := (hrows.map JobScheduleRow.id).nodup_iff.mp hids
  rw [List.map_append, List.map_cons] at hnodup
  have hothers := List.nodup_middle.mp hnodup
  rw [← List.map_append] at hothers
  have hkeep : ∀ r ∈ (old ++ before.filterMap rowOf) ++ after.filterMap rowOf,
      setNextRun id (toRfc3339 next) r = r := by
    intro r hr
    refine setNextRun_of_ne fun heq => (List.nodup_cons.mp hothers).1 ?_
    rw [← heq]
    exact List.mem_map.mpr ⟨r, hr, rfl⟩
  refine ⟨List.any_eq_true.mpr ⟨_, hmem, decide_eq_true rfl⟩, ?_, ?_⟩
  · have hmapped := hrows.map (setNextRun id (toRfc3339 next))
    rw [List.map_append, List.map_cons,
      List.map_congr_left fun r hr => hkeep r (List.mem_append_left _ hr),
      List.map_congr_left fun r hr => hkeep r (List.mem_append_right _ hr),
      List.map_id', List.map_id'] at hmapped
    rw [setNextRun, if_pos rfl] at hmapped
    exact hmapped
  · rw [dbUpdateSchedule, List.map_map]
    simpa [Function.comp_def] using hids

/-- One task stores an instant: its own row is claimed or moved on, where that
write lands, and no other row is touched. -/
theorem record_rows (hclaimed : stored.id.isSome = held.isSome)
    (hrows : rows.Perm (old ++ (before ++ (stored, held) :: after).filterMap rowOf))
    (hids : (rows.map JobScheduleRow.id).Nodup) (next : UtcInstant) (updated inserted : Bool) :
    let result := stored.record rows next updated inserted
    let now := (result.1, (moved next updated inserted (stored.entry, held)).2)
    result.1.entry = stored.entry ∧ now.1.id.isSome = now.2.isSome ∧
      result.2.Perm (old ++ (before ++ now :: after).filterMap rowOf) ∧
      (result.2.map JobScheduleRow.id).Nodup := by
  unfold StoredSchedule.record
  cases hid : stored.id with
  | none =>
    rw [hid] at hclaimed
    obtain rfl : held = none := by cases held with | none => rfl | some _ => cases hclaimed
    exact claim_rows hrows hids next inserted
  | some id =>
    rw [hid] at hclaimed
    obtain ⟨at_, rfl⟩ := Option.isSome_iff_exists.mp hclaimed.symm
    cases updated with
    | false => exact ⟨rfl, congrArg Option.isSome hid, hrows, hids⟩
    | true =>
      obtain ⟨hfound, hmoved, hnodup⟩ := update_rows hid hrows hids next
      have hupdate : dbUpdateSchedule rows id (toRfc3339 next) =
          ((dbUpdateSchedule rows id (toRfc3339 next)).1, true) := by rw [← hfound]
      simp only [if_true]
      rw [hupdate]
      exact ⟨rfl, congrArg Option.isSome hid, hmoved, hnodup⟩

end Record

section Run
variable {s : Process} {a : Agenda} {old : List JobScheduleRow}
  {tasks : List (StoredSchedule × Option UtcInstant)}

theorem Tracks.spawned (h : Tracks s a old tasks) (schedule : List ScheduleEntry)
    (cleared : Bool) : ∃ old' tasks',
    Tracks (s.step (.spawned schedule cleared)) (a.step (.spawned schedule cleared)) old' tasks' := by
  have hnew : (schedule.map fun entry => (StoredSchedule.new entry, (none : Option UtcInstant))).filterMap
      rowOf = [] := by
    refine List.filterMap_eq_nil_iff.mpr fun p hp => ?_
    obtain ⟨entry, -, rfl⟩ := List.mem_map.mp hp
    rfl
  refine ⟨if cleared then [] else old ++ tasks.filterMap rowOf,
    schedule.map fun entry => (StoredSchedule.new entry, none), ?_, ?_, ?_, ?_, ?_, ?_⟩
  · simp [Process.step, Function.comp_def]
  · simp [Agenda.step, Function.comp_def, StoredSchedule.new]
  · intro p hp
    obtain ⟨entry, -, rfl⟩ := List.mem_map.mp hp
    rfl
  · cases cleared with
    | true => rfl
    | false =>
      simp only [Agenda.step, Agenda.stored, Bool.false_eq_true, if_false, List.map_append]
      rw [h.leftOver, filterMap_rowOf_content h.claimed, ← h.live]
  · rw [hnew, List.append_nil]
    cases cleared with
    | true => exact List.Perm.nil
    | false => exact h.rows
  · cases cleared with
    | true => exact List.nodup_nil
    | false => exact h.ids

theorem Process.step_recorded (s : Process) (i : ℕ) (next : UtcInstant) (updated inserted : Bool) :
    s.step (.recorded i next updated inserted) =
      match s.entries[i]? with
      | some stored =>
        ⟨(stored.record s.rows next updated inserted).2,
          s.entries.set i (stored.record s.rows next updated inserted).1⟩
      | none => s := rfl

theorem Agenda.step_recorded (a : Agenda) (i : ℕ) (next : UtcInstant) (updated inserted : Bool) :
    a.step (.recorded i next updated inserted) =
      ⟨a.leftOver, a.live.modify i (moved next updated inserted)⟩ := rfl

theorem modify_middle {α : Type} (before : List α) (x : α) (after : List α) (f : α → α) :
    (before ++ x :: after).modify before.length f = before ++ f x :: after := by
  induction before with
  | nil => rfl
  | cons y before ih => rw [List.cons_append, List.length_cons, List.modify_succ_cons, ih]; rfl

theorem Tracks.recorded (h : Tracks s a old tasks) (i : ℕ) (next : UtcInstant)
    (updated inserted : Bool) : ∃ tasks', Tracks (s.step (.recorded i next updated inserted))
      (a.step (.recorded i next updated inserted)) old tasks' := by
  rw [Process.step_recorded, Agenda.step_recorded, h.entries, h.live, List.getElem?_map]
  cases hi : tasks[i]? with
  | none =>
    refine ⟨tasks, h.entries, ?_, h.claimed, h.leftOver, h.rows, h.ids⟩
    refine List.modify_eq_self ?_
    rw [List.length_map]
    exact List.getElem?_eq_none_iff.mp hi
  | some p =>
    obtain ⟨hlt, hget⟩ := List.getElem?_eq_some_iff.mp hi
    obtain ⟨before, after, rfl, rfl⟩ : ∃ before after, tasks = before ++ p :: after ∧
        before.length = i := by
      refine ⟨tasks.take i, tasks.drop (i + 1), ?_, List.length_take_of_le hlt.le⟩
      rw [← hget, List.cons_getElem_drop_succ, List.take_append_drop]
    obtain ⟨stored, held⟩ := p
    obtain ⟨hentry, hclaimed, hrows, hids⟩ := record_rows
      (h.claimed (stored, held) (List.mem_append_right _ List.mem_cons_self)) h.rows h.ids next
      updated inserted
    refine ⟨_, ?_, ?_, ?_, h.leftOver, hrows, hids⟩
    · simp
    · rw [List.map_append, List.map_cons, ← List.length_map, modify_middle, List.map_append,
        List.map_cons, hentry]
      rfl
    · intro q hq
      rcases List.mem_append.mp hq with hq | hq
      · exact h.claimed q (List.mem_append_left _ hq)
      · rcases List.mem_cons.mp hq with rfl | hq
        · exact hclaimed
        · exact h.claimed q (List.mem_append_right _ (List.mem_cons_of_mem _ hq))

theorem Tracks.run (h : Tracks s a old tasks) (events : List Event) :
    ∃ old' tasks', Tracks (events.foldl Process.step s) (events.foldl Agenda.step a) old' tasks' := by
  induction events generalizing s a old tasks with
  | nil => exact ⟨old, tasks, h⟩
  | cons e events ih =>
    cases e with
    | spawned schedule cleared =>
      obtain ⟨old', tasks', hnext⟩ := h.spawned schedule cleared
      exact ih hnext
    | recorded i next updated inserted =>
      obtain ⟨tasks', hnext⟩ := h.recorded i next updated inserted
      exact ih hnext

end Run

/-- Whatever writes fail and whenever processes start, the table holds one row for
each entry that has stored an instant, with the last it stored, and otherwise only
what a table that could not be cleared had left. -/
theorem rows_are_agenda (events : List Event) :
    ((processAfter events).rows.map JobScheduleRow.content).Perm
      ((agenda events).stored.map dueContent) := by
  have hempty : Tracks ⟨[], []⟩ ⟨[], []⟩ [] [] :=
    ⟨rfl, rfl, fun p hp => absurd hp List.not_mem_nil, rfl, .nil, .nil⟩
  obtain ⟨old, tasks, h⟩ := hempty.run events
  have hrows := h.rows.map JobScheduleRow.content
  rw [List.map_append, h.leftOver, filterMap_rowOf_content h.claimed, ← h.live,
    ← List.map_append] at hrows
  exact hrows

/-! ### What is read of the table -/

theorem dbNextRuns_eq (rows : JobSchedule) (name : String) :
    dbNextRuns rows name =
      ((rows.filter fun r => r.name = name).map JobScheduleRow.nextRunAt).min? := by
  have hfold : ∀ (rows : JobSchedule) (next : String → Option (List Char)),
      rows.foldl
        (fun (next : String → Option (List Char)) row =>
          Function.update next row.name (some
            (match next row.name with
            | some held => if row.nextRunAt < held then row.nextRunAt else held
            | none => row.nextRunAt))) next name =
      ((next name).toList ++
        (rows.filter fun r => r.name = name).map JobScheduleRow.nextRunAt).min? := by
    intro rows
    induction rows with
    | nil =>
      intro next
      cases hheld : next name <;> simp [hheld]
    | cons r rows ih =>
      intro next
      rw [List.foldl_cons, ih, List.filter_cons]
      by_cases hr : r.name = name
      · subst hr
        rw [Function.update_self, if_pos (decide_eq_true rfl), List.map_cons]
        cases next r.name with
        | none => rfl
        | some held =>
          have hmin : (if r.nextRunAt < held then r.nextRunAt else held) = min held r.nextRunAt := by
            by_cases hlt : r.nextRunAt < held
            · rw [if_pos hlt, min_eq_right hlt.le]
            · rw [if_neg hlt, min_eq_left (not_lt.mp hlt)]
          simp only [Option.toList_some, List.cons_append, List.nil_append, List.min?_cons',
            List.foldl_cons, hmin]
      · rw [Function.update_of_ne (Ne.symm hr), if_neg (by simpa using hr)]
  exact hfold rows _

/-- The earliest of a job's instants. -/
def Agenda.earliest (a : Agenda) (name : String) : Option UtcInstant :=
  ((a.stored.filter fun due => due.1.name = name).map Prod.snd).min?

/-- Every instant of a run is of a year of four figures. -/
def PlainYears (events : List Event) : Prop :=
  ∀ i next updated inserted, Event.recorded i next updated inserted ∈ events → next.PlainYear

theorem mem_moved {next at_ : UtcInstant} {updated inserted : Bool}
    {due : ScheduleEntry × Option UtcInstant} (h : at_ ∈ (moved next updated inserted due).2) :
    at_ = next ∨ at_ ∈ due.2 := by
  unfold moved at h
  dsimp only at h
  by_cases hlands : (if due.2.isSome then updated else inserted) = true
  · rw [if_pos hlands] at h
    exact .inl (Option.mem_some_iff.mp h).symm
  · rw [if_neg hlands] at h
    exact .inr h

/-- Every instant it holds, left over or of a running task, satisfies `P`. -/
def Agenda.Every (P : UtcInstant → Prop) (a : Agenda) : Prop :=
  (∀ due ∈ a.leftOver, P due.2) ∧ ∀ due ∈ a.live, ∀ next ∈ due.2, P next

section Every
variable {P : UtcInstant → Prop}

theorem Agenda.Every.stored {a : Agenda} (h : a.Every P) : ∀ due ∈ a.stored, P due.2 := by
  intro due hdue
  rcases List.mem_append.mp hdue with hdue | hdue
  · exact h.1 due hdue
  · obtain ⟨task, htask, hnext⟩ := List.mem_filterMap.mp hdue
    obtain ⟨next, hheld, rfl⟩ := Option.map_eq_some_iff.mp hnext
    exact h.2 task htask next hheld

theorem Agenda.Every.step {a : Agenda} (h : a.Every P) {e : Event}
    (he : ∀ i next updated inserted, e = .recorded i next updated inserted → P next) :
    (a.step e).Every P := by
  cases e with
  | spawned schedule cleared =>
    refine ⟨fun due hdue => ?_, fun due hdue next hnext => ?_⟩
    · cases cleared with
      | true => exact absurd hdue List.not_mem_nil
      | false => exact h.stored due hdue
    · obtain ⟨entry, -, rfl⟩ := List.mem_map.mp hdue
      cases hnext
  | recorded i at_ updated inserted =>
    refine ⟨h.1, fun due hdue next hnext => ?_⟩
    obtain ⟨j, hj⟩ := List.mem_iff_getElem?.mp hdue
    simp only [Agenda.step, List.getElem?_modify] at hj
    obtain ⟨task, htask, rfl⟩ := Option.map_eq_some_iff.mp hj
    have hmem := List.mem_of_getElem? htask
    split at hnext
    · rcases mem_moved hnext with rfl | hheld
      · exact he i next updated inserted rfl
      · exact h.2 task hmem next hheld
    · exact h.2 task hmem next hnext

theorem Agenda.Every.run {a : Agenda} (h : a.Every P) {events : List Event}
    (he : ∀ i next updated inserted, Event.recorded i next updated inserted ∈ events → P next) :
    (events.foldl Agenda.step a).Every P := by
  induction events generalizing a with
  | nil => exact h
  | cons e events ih =>
    refine ih (h.step fun i next updated inserted heq => ?_) fun i next updated inserted hmem =>
      he i next updated inserted (List.mem_cons_of_mem e hmem)
    exact he i next updated inserted (heq ▸ List.mem_cons_self)

/-- What every instant recorded satisfies, every instant stored does. -/
theorem Agenda.stored_of_recorded (events : List Event)
    (h : ∀ i next updated inserted, Event.recorded i next updated inserted ∈ events → P next) :
    ∀ due ∈ (agenda events).stored, P due.2 := by
  have hnone : Agenda.Every P ⟨[], []⟩ :=
    ⟨fun _ hnone => absurd hnone List.not_mem_nil, fun _ hnone => absurd hnone List.not_mem_nil⟩
  exact (hnone.run h).stored

end Every

/-- A smallest text is the text of the smallest instant. -/
theorem min_toRfc3339 {instants : List UtcInstant} {texts : List (List Char)}
    (hplain : ∀ t ∈ instants, t.PlainYear) (h : texts.Perm (instants.map toRfc3339)) :
    texts.min? = instants.min?.map toRfc3339 := by
  cases hmin : instants.min? with
  | none =>
    rw [List.min?_eq_none_iff.mp hmin] at h
    rw [List.Perm.eq_nil h]
    rfl
  | some earliest =>
    obtain ⟨hmem, hle⟩ := List.min?_eq_some_iff.mp hmin
    refine List.min?_eq_some_iff.mpr ⟨h.mem_iff.mpr (List.mem_map_of_mem hmem), fun text htext => ?_⟩
    obtain ⟨t, ht, rfl⟩ := List.mem_map.mp (h.mem_iff.mp htext)
    refine not_lt.mp fun hlt => (hle t ht).not_gt ?_
    exact (toRfc3339_lt_iff (hplain t ht) (hplain earliest hmem)).mp hlt

/-- Under any restarts, failed clears and failed writes, each job's next run is the
earliest instant that its lines last stored. -/
theorem next_runs_are_earliest (events : List Event) (hplain : PlainYears events) (name : String) :
    dbNextRuns (processAfter events).rows name =
      ((agenda events).earliest name).map toRfc3339 := by
  have hperm := ((rows_are_agenda events).filter fun c => c.1 = name).map fun c => c.2.2.2
  rw [List.filter_map, List.filter_map, List.map_map, List.map_map] at hperm
  rw [dbNextRuns_eq, Agenda.earliest]
  refine min_toRfc3339 (fun t ht => ?_) (by rw [List.map_map]; exact hperm)
  obtain ⟨due, hdue, rfl⟩ := List.mem_map.mp ht
  exact Agenda.stored_of_recorded events hplain due (List.mem_filter.mp hdue).1

/-- Midnight of a day of 2026. -/
def midnight (month day : ℕ) (hm : 1 ≤ month ∧ month ≤ 12) (hd : 1 ≤ day ∧ day ≤ 28) : UtcInstant where
  date := ⟨2026, month, day, hm.1, hm.2, hd.1, hd.2.trans (le_daysInMonth 2026 month)⟩
  hour := 0
  minute := 0
  second := 0
  nanos := 0
  hour_lt := by decide
  minute_lt := by decide
  second_lt := by decide
  nanos_lt := by decide

def firstOfMay : UtcInstant := midnight 5 1 (by decide) (by decide)

def secondOfMay : UtcInstant := midnight 5 2 (by decide) (by decide)

/-- Two lines of one job, a claim that fails, and a restart whose clear fails. -/
def twoLines : List Event := [
  .spawned [⟨"price-import", [], none⟩, ⟨"price-import", [], none⟩] true,
  .recorded 0 secondOfMay true false,
  .recorded 1 secondOfMay true true,
  .recorded 0 secondOfMay true true,
  .recorded 1 firstOfMay true true,
  .spawned [⟨"backup", [], none⟩] false,
  .recorded 0 secondOfMay true true]

theorem recorded_twoLines {i : ℕ} {next : UtcInstant} {updated inserted : Bool}
    (h : Event.recorded i next updated inserted ∈ twoLines) :
    next = secondOfMay ∨ next = firstOfMay := by
  simp only [twoLines, List.mem_cons, List.not_mem_nil, or_false, reduceCtorEq, false_or,
    Event.recorded.injEq] at h
  rcases h with h | h | h | h | h
  · exact .inl h.2.1
  · exact .inl h.2.1
  · exact .inl h.2.1
  · exact .inr h.2.1
  · exact .inl h.2.1

theorem next_runs_are_earliest_two :
    dbNextRuns (processAfter twoLines).rows "price-import" =
      ((agenda twoLines).earliest "price-import").map toRfc3339 :=
  next_runs_are_earliest twoLines (fun i next updated inserted h => by
    rcases recorded_twoLines h with rfl | rfl <;> decide) "price-import"

/-! ### The overdue check -/

structure OverdueJob where
  name : String
  cron : List Char
  timezone : Option (List Char)
  nextRunAt : List Char
  overdueHours : ℤ
  deriving DecidableEq

def jobOverdueGraceHours : ℤ := 6

/-- An entry, where its instant is past by more than the margin. -/
def overdueAt (now due : UtcInstant) (entry : ScheduleEntry) (nextRunAt : List Char) :
    Option OverdueJob :=
  let late := now.timestampNanos - due.timestampNanos
  if jobOverdueGraceHours * Jobs.hour < late then
    some ⟨entry.name, entry.expr, entry.tz, nextRunAt, late / Jobs.hour⟩
  else none

/-- `none` is a stored text that does not parse. -/
def dbOverdueJobs (parse : List Char → Option UtcInstant) (rows : JobSchedule) (now : UtcInstant) :
    Option (List OverdueJob) :=
  let ordered := sortBy (fun r => toLex (r.name, r.nextRunAt)) rows
  (ordered.mapM fun r => (parse r.nextRunAt).map fun due =>
    overdueAt now due ⟨r.name, r.cron, r.timezone⟩ r.nextRunAt).map List.reduceOption

/-- Where the parser reads back the texts that were written, the check reads the table, and names
every line of the running schedule that is late by more than the margin, and no other
line, with the hours it is late by. -/
theorem overdue_jobs_are_late (parse : List Char → Option UtcInstant)
    (events : List Event) (hparse : ∀ i next updated inserted,
      Event.recorded i next updated inserted ∈ events → parse (toRfc3339 next) = some next)
    (now : UtcInstant) :
    ∃ overdue, dbOverdueJobs parse (processAfter events).rows now = some overdue ∧
      overdue.Perm ((agenda events).stored.filterMap fun due =>
        overdueAt now due.2 due.1 (toRfc3339 due.2)) := by
  let reading : String × List Char × Option (List Char) × List Char → Option OverdueJob := fun c =>
    (parse c.2.2.2).bind fun due => overdueAt now due ⟨c.1, c.2.1, c.2.2.1⟩ c.2.2.2
  have hagenda := rows_are_agenda events
  have hdue : ∀ due ∈ (agenda events).stored, parse (toRfc3339 due.2) = some due.2 :=
    Agenda.stored_of_recorded (P := fun t => parse (toRfc3339 t) = some t) events hparse
  let ordered := sortBy (fun r => toLex (r.name, r.nextRunAt)) (processAfter events).rows
  have hsorted : ordered.Perm (processAfter events).rows := sortBy_perm _ _
  have hread : (ordered.mapM fun r => (parse r.nextRunAt).map fun due =>
      overdueAt now due ⟨r.name, r.cron, r.timezone⟩ r.nextRunAt) =
        some (ordered.map fun r => reading r.content) := by
    refine Jobs.mapM_decoded fun r hr => ?_
    obtain ⟨due, hmem, hcontent⟩ := List.mem_map.mp
      (hagenda.mem_iff.mp (List.mem_map_of_mem (mem_sortBy.mp hr)))
    have htext : r.nextRunAt = toRfc3339 due.2 := congrArg (fun c => c.2.2.2) hcontent.symm
    have hparsed : parse r.nextRunAt = some due.2 := by rw [htext, hdue due hmem]
    simp only [reading, JobScheduleRow.content, hparsed, Option.map_some, Option.bind_some]
  refine ⟨(ordered.map fun r => reading r.content).reduceOption, ?_, ?_⟩
  · exact congrArg (Option.map List.reduceOption) hread
  · have hperm := ((hsorted.map JobScheduleRow.content).trans hagenda).filterMap reading
    rw [List.filterMap_map, List.filterMap_map] at hperm
    rw [List.reduceOption, List.filterMap_map]
    refine hperm.trans (List.Perm.of_eq (List.filterMap_congr fun due hmem => ?_))
    simp only [Function.comp_apply, reading, dueContent, hdue due hmem, Option.bind_some]

def thirdOfMay : UtcInstant := midnight 5 3 (by decide) (by decide)

/-- Reads the texts of the two days. -/
def readTwoDays (text : List Char) : Option UtcInstant :=
  [secondOfMay, firstOfMay].find? fun t => toRfc3339 t = text

theorem overdue_jobs_are_late_two :
    ∃ overdue, dbOverdueJobs readTwoDays (processAfter twoLines).rows thirdOfMay = some overdue ∧
      overdue.Perm ((agenda twoLines).stored.filterMap fun due =>
        overdueAt thirdOfMay due.2 due.1 (toRfc3339 due.2)) :=
  overdue_jobs_are_late readTwoDays twoLines (fun i next updated inserted h => by
    rcases recorded_twoLines h with rfl | rfl <;> decide) thirdOfMay

end ShareTracker.Schedule
