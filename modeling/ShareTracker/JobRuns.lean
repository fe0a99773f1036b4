import Mathlib
import ShareTracker.Lib.EventTrace
import ShareTracker.Lib.Keyed
import ShareTracker.Lib.StableSort

/-!
# The run history of the scheduled jobs

`job_runs` under any interleaving of runs of any jobs, with writes that fail and
processes that die. Each job's stored history is the newest part of a chronicle
that only its own runs write.
-/
namespace ShareTracker.Jobs

open StableSort

/-- An RFC 3339 timestamp column, as the instant it names in nanoseconds. -/
abbrev Instant := ℤ

inductive JobRunStatus where
  | running
  | ok
  | failed
  deriving DecidableEq

/-- What a job's work answers: an error, or success with a note on what it left undone. -/
abbrev JobOutcome := Except String (Option String)

def JobRunStatus.finished : JobOutcome → JobRunStatus
  | .ok _ => .ok
  | .error _ => .failed

def errorAndNote : JobOutcome → Option String × Option String
  | .ok note => (none, note)
  | .error error => (some error, none)

structure JobRunRecord where
  startedAt : Instant
  finishedAt : Option Instant
  status : JobRunStatus
  error : Option String
  note : Option String
  deriving DecidableEq

/-- One row of `job_runs`. -/
structure JobRun where
  id : ℕ
  name : String
  record : JobRunRecord
  deriving DecidableEq

/-- `job_runs` and the greatest id it has handed out. -/
structure JobRuns where
  rows : List JobRun
  sequence : ℕ

def jobRunHistoryLimit : ℕ := 20

inductive SqlxError where
  | rowNotFound
  | database
  deriving DecidableEq

/-! ### The statements -/

def opening (startedAt : Instant) : JobRunRecord := ⟨startedAt, none, .running, none, none⟩

def completed (startedAt finishedAt : Instant) (outcome : JobOutcome) : JobRunRecord :=
  ⟨startedAt, some finishedAt, .finished outcome, (errorAndNote outcome).1, (errorAndNote outcome).2⟩

/-- `ORDER BY id DESC`. -/
def newestFirst (rows : List JobRun) : List JobRun := sortBy (fun r => OrderDual.toDual r.id) rows

namespace JobRuns

variable (t : JobRuns)

def insert (name : String) (record : JobRunRecord) : JobRuns :=
  ⟨t.rows ++ [⟨t.sequence + 1, name, record⟩], t.sequence + 1⟩

def pruneHistory (name : String) : JobRuns :=
  let newest := (newestFirst (t.rows.filter fun r => r.name = name)).take jobRunHistoryLimit
  { t with rows := t.rows.filter fun r => r.name ≠ name ∨ r.id ∈ newest.map JobRun.id }

def dbStartRun (name : String) (startedAt : Instant) : JobRuns × ℕ :=
  ((t.insert name (opening startedAt)).pruneHistory name, t.sequence + 1)

def finishRow (id : ℕ) (finishedAt : Instant) (outcome : JobOutcome) (r : JobRun) : JobRun :=
  if r.id = id ∧ r.record.status = .running then
    { r with record := completed r.record.startedAt finishedAt outcome }
  else r

def dbFinishRun (id : ℕ) (finishedAt : Instant) (outcome : JobOutcome) : Except SqlxError JobRuns :=
  if ∃ r ∈ t.rows, r.id = id ∧ r.record.status = .running then
    .ok { t with rows := t.rows.map (finishRow id finishedAt outcome) }
  else .error .rowNotFound

def dbRecordRun (name : String) (startedAt finishedAt : Instant) (outcome : JobOutcome) : JobRuns :=
  (t.insert name (completed startedAt finishedAt outcome)).pruneHistory name

/-- A job without runs has no entry in the source's map and the empty history here. -/
def dbRunHistories : String → List JobRunRecord :=
  (newestFirst t.rows).foldl
    (fun histories r => Function.update histories r.name (histories r.name ++ [r.record]))
    fun _ => []

end JobRuns

/-! ### Runs of the jobs -/

/-- A run that holds its job's lock; `ι` names the row opened for it, if that write landed. -/
inductive RunState (ι : Type) where
  | starting (startedAt : Instant)
  | working (startedAt : Instant) (runId : Option ι)
  | finishing (startedAt : Instant) (runId : Option ι) (finishedAt : Instant) (outcome : JobOutcome)

/-- The runs waiting for a job's lock, and the one that holds it. -/
structure RegisteredJob (ι : Type) where
  waiting : ℕ
  inFlight : Option (RunState ι)

def RegisteredJob.idle {ι : Type} : RegisteredJob ι := ⟨0, none⟩

structure Scheduler where
  runs : JobRuns
  jobs : String → RegisteredJob ℕ

def Scheduler.new : Scheduler := ⟨⟨[], 0⟩, fun _ => .idle⟩

/-- How the task of a job's work ends. -/
inductive WorkEnd where
  | returned (outcome : JobOutcome)
  | panicked (payload : Option String)

def joinFailure : Option String → String
  | some m => "job panicked: " ++ m
  | none => "job panicked"

def WorkEnd.outcome : WorkEnd → JobOutcome
  | .returned outcome => outcome
  | .panicked payload => .error (joinFailure payload)

/-- What can happen to one job: a caller asks for a run, a waiting run gets the lock,
its start is written, its work ends, its end is written. A write lands or fails. -/
inductive JobEvent where
  | triggered
  | locked (now : Instant)
  | startWritten (landed : Bool)
  | workEnded (now : Instant) (ended : WorkEnd)
  | endWritten (landed : Bool)

inductive Event where
  | job (name : String) (event : JobEvent)
  /-- The process dies, and its runs with it; another takes over the database. -/
  | restarted

namespace Scheduler

variable (s : Scheduler)

def setJob (name : String) (job : RegisteredJob ℕ) : Scheduler :=
  { s with jobs := Function.update s.jobs name job }

/-- The end of a run is written, to its opening row or in one write. -/
def writeEnd (name : String) (startedAt : Instant) (runId : Option ℕ) (finishedAt : Instant)
    (outcome : JobOutcome) : Except SqlxError JobRuns :=
  match runId with
  | some id => s.runs.dbFinishRun id finishedAt outcome
  | none => .ok (s.runs.dbRecordRun name startedAt finishedAt outcome)

/-- One step of `run_attached`; what cannot happen now changes nothing. Only the
write of a run's end is answered. -/
def stepJob (name : String) (event : JobEvent) : Scheduler × Option (Except SqlxError Unit) :=
  let job := s.jobs name
  match event, job.inFlight with
  | .triggered, _ => (s.setJob name { job with waiting := job.waiting + 1 }, none)
  | .locked now, none =>
    if 0 < job.waiting then (s.setJob name ⟨job.waiting - 1, some (.starting now)⟩, none)
    else (s, none)
  | .startWritten landed, some (.starting startedAt) =>
    if landed then
      let (runs, id) := s.runs.dbStartRun name startedAt
      ({ s with runs := runs }.setJob name
        { job with inFlight := some (.working startedAt (some id)) }, none)
    else (s.setJob name { job with inFlight := some (.working startedAt none) }, none)
  | .workEnded now ended, some (.working startedAt runId) =>
    (s.setJob name { job with inFlight := some (.finishing startedAt runId now ended.outcome) },
      none)
  | .endWritten landed, some (.finishing startedAt runId finishedAt outcome) =>
    -- the lock is released however the write goes
    let released := { job with inFlight := none }
    if landed then
      match s.writeEnd name startedAt runId finishedAt outcome with
      | .ok runs => ({ s with runs := runs }.setJob name released, some (.ok ()))
      | .error e => (s.setJob name released, some (.error e))
    else (s.setJob name released, some (.error .database))
  | _, _ => (s, none)

def step : Event → Scheduler × Option (Except SqlxError Unit)
  | .job name event => s.stepJob name event
  | .restarted => ({ s with jobs := fun _ => .idle }, none)

end Scheduler

def schedulerAfter (events : List Event) : Scheduler :=
  events.foldl (fun s e => (s.step e).1) .new

/-! ### The chronicle of one job -/

/-- All the runs of one job there is a record of, newest first. -/
structure Chronicle where
  runs : List JobRunRecord
  job : RegisteredJob Unit

def Chronicle.new : Chronicle := ⟨[], .idle⟩

/-- The newest run's record is replaced when that run is the one that ends. -/
def Chronicle.conclude (runs : List JobRunRecord) (startedAt : Instant) (opened : Option Unit)
    (finishedAt : Instant) (outcome : JobOutcome) : List JobRunRecord :=
  completed startedAt finishedAt outcome ::
    match opened with
    | some () => runs.tail
    | none => runs

/-- What an event of the job, or a restart, does to its chronicle. -/
def Chronicle.step (c : Chronicle) : Option JobEvent → Chronicle
  | none => { c with job := .idle }
  | some event =>
    match event, c.job.inFlight with
    | .triggered, _ => { c with job := { c.job with waiting := c.job.waiting + 1 } }
    | .locked now, none =>
      if 0 < c.job.waiting then { c with job := ⟨c.job.waiting - 1, some (.starting now)⟩ } else c
    | .startWritten landed, some (.starting startedAt) =>
      if landed then
        ⟨opening startedAt :: c.runs,
          { c.job with inFlight := some (.working startedAt (some ())) }⟩
      else { c with job := { c.job with inFlight := some (.working startedAt none) } }
    | .workEnded now ended, some (.working startedAt opened) =>
      { c with job :=
          { c.job with inFlight := some (.finishing startedAt opened now ended.outcome) } }
    | .endWritten landed, some (.finishing startedAt opened finishedAt outcome) =>
      ⟨if landed then conclude c.runs startedAt opened finishedAt outcome else c.runs,
        { c.job with inFlight := none }⟩
    | _, _ => c

/-- The events a job's chronicle sees: its own, and the restarts. -/
def eventOf (name : String) : Event → Option (Option JobEvent)
  | .job other event => if other = name then some (some event) else none
  | .restarted => some none

def chronicle (name : String) (events : List Event) : Chronicle :=
  (events.filterMap (eventOf name)).foldl Chronicle.step .new

/-! ### The table -/

namespace JobRuns

/-- A job's rows, newest first. -/
def recent (t : JobRuns) (name : String) : List JobRun :=
  (t.rows.filter fun r => r.name = name).reverse

/-- Rows stand in the order of the ids they were given. -/
structure Ascending (t : JobRuns) : Prop where
  sorted : t.rows.Pairwise fun a b => a.id < b.id
  issued : ∀ r ∈ t.rows, r.id ≤ t.sequence

theorem newestFirst_eq_reverse {rows : List JobRun} (h : rows.Pairwise fun a b => a.id < b.id) :
    newestFirst rows = rows.reverse := by
  refine sortBy_eq_of_pairwise (h.imp fun hlt heq => hlt.ne (congrArg JobRun.id heq)) ?_ fun r =>
    List.mem_reverse
  rw [List.pairwise_reverse]
  exact h

variable {t : JobRuns} {name other : String}

theorem Ascending.of_filter (h : t.Ascending) (p : JobRun → Bool) :
    (t.rows.filter p).Pairwise fun a b => a.id < b.id :=
  h.sorted.sublist List.filter_sublist

theorem Ascending.newestFirst_ofJob (h : t.Ascending) :
    newestFirst (t.rows.filter fun r => r.name = name) = t.recent name :=
  newestFirst_eq_reverse (h.of_filter _)

theorem Ascending.ids_nodup (h : t.Ascending) : (t.rows.map JobRun.id).Nodup :=
  List.pairwise_map.mpr (h.sorted.imp fun hlt => hlt.ne)

theorem mem_recent {r : JobRun} : r ∈ t.recent name ↔ r ∈ t.rows ∧ r.name = name := by
  rw [recent, List.mem_reverse, List.mem_filter, decide_eq_true_eq]

theorem recent_nodup (h : t.Ascending) : ((t.recent name).map JobRun.id).Nodup := by
  rw [recent, List.map_reverse, List.nodup_reverse]
  exact h.ids_nodup.sublist (List.filter_sublist.map _)

theorem Ascending.insert (h : t.Ascending) (record : JobRunRecord) :
    (t.insert name record).Ascending where
  sorted := by
    refine List.pairwise_append.mpr ⟨h.sorted, List.pairwise_singleton _ _, fun a ha b hb => ?_⟩
    rw [List.mem_singleton.mp hb]
    exact Nat.lt_succ_of_le (h.issued a ha)
  issued := fun r hr => by
    rcases List.mem_append.mp hr with hr | hr
    · exact (h.issued r hr).trans (Nat.le_succ _)
    · rw [List.mem_singleton.mp hr]
      exact le_rfl

theorem Ascending.pruneHistory (h : t.Ascending) : (t.pruneHistory name).Ascending :=
  ⟨h.of_filter _, fun r hr => h.issued r (List.mem_filter.mp hr).1⟩

theorem recent_insert (record : JobRunRecord) :
    (t.insert name record).recent name = ⟨t.sequence + 1, name, record⟩ :: t.recent name := by
  simp [recent, insert]

theorem recent_insert_other (hne : other ≠ name) (record : JobRunRecord) :
    (t.insert name record).recent other = t.recent other := by
  simp [recent, insert, hne.symm]

theorem recent_pruneHistory (h : t.Ascending) :
    (t.pruneHistory name).recent name = (t.recent name).take jobRunHistoryLimit := by
  have hpart : ∀ ids : List ℕ,
      (t.rows.filter fun r => r.name ≠ name ∨ r.id ∈ ids).filter (fun r => r.name = name) =
        (t.rows.filter fun r => r.name = name).filter fun r => decide (r.id ∈ ids) := by
    intro ids
    rw [List.filter_filter, List.filter_filter]
    refine List.filter_congr fun r _ => ?_
    by_cases hr : r.name = name
    · simp [hr]
    · simp [hr]
  have hkept : (t.pruneHistory name).recent name = (t.recent name).filter fun r =>
      decide (r.id ∈ ((t.recent name).take jobRunHistoryLimit).map JobRun.id) := by
    unfold JobRuns.pruneHistory
    rw [h.newestFirst_ofJob]
    unfold recent
    rw [hpart, List.filter_reverse]
  rw [hkept]
  exact Keyed.filter_mem_take (recent_nodup h) _

theorem recent_pruneHistory_other (hne : other ≠ name) :
    (t.pruneHistory name).recent other = t.recent other := by
  rw [recent, recent, JobRuns.pruneHistory, List.filter_filter]
  congr 1
  refine List.filter_congr fun r _ => ?_
  by_cases hr : r.name = other
  · simp [hr, hne]
  · simp [hr]

/-! A write that opens a run and one that records a whole run are an insert and a prune. -/

theorem recent_logged (h : t.Ascending) (record : JobRunRecord) :
    ((t.insert name record).pruneHistory name).recent name =
      (⟨t.sequence + 1, name, record⟩ :: t.recent name).take jobRunHistoryLimit := by
  rw [recent_pruneHistory (h.insert record), recent_insert]

theorem recent_logged_other (hne : other ≠ name) (record : JobRunRecord) :
    ((t.insert name record).pruneHistory name).recent other = t.recent other := by
  rw [recent_pruneHistory_other hne, recent_insert_other hne]

/-! The write that ends an opened run. -/

section Finish
variable {id : ℕ} {startedAt finishedAt : Instant} {outcome : JobOutcome}

@[simp] theorem finishRow_name (r : JobRun) : (finishRow id finishedAt outcome r).name = r.name := by
  unfold finishRow
  split <;> rfl

@[simp] theorem finishRow_id (r : JobRun) : (finishRow id finishedAt outcome r).id = r.id := by
  unfold finishRow
  split <;> rfl

theorem finishRow_of_ne {r : JobRun} (h : r.id ≠ id) : finishRow id finishedAt outcome r = r :=
  if_neg fun hid => h hid.1

/-- The in-flight run's row is found, and nothing but its record changes. -/
theorem dbFinishRun_newest (finishedAt : Instant) (outcome : JobOutcome) (h : t.Ascending)
    {rest : List JobRun}
    (hopen : t.recent name = ⟨id, name, opening startedAt⟩ :: rest) :
    ∃ t', t.dbFinishRun id finishedAt outcome = .ok t' ∧ t'.Ascending ∧
      t'.recent name = ⟨id, name, completed startedAt finishedAt outcome⟩ :: rest ∧
      ∀ other ≠ name, t'.recent other = t.recent other := by
  have hmem : (⟨id, name, opening startedAt⟩ : JobRun) ∈ t.rows :=
    (mem_recent.mp (hopen ▸ List.mem_cons_self)).1
  have hkey : ∀ r ∈ t.rows, r.id = id → r = ⟨id, name, opening startedAt⟩ := fun r hr hid =>
    List.inj_on_of_nodup_map h.ids_nodup hr hmem hid
  have hrecent : ∀ n, ({ t with rows := t.rows.map (finishRow id finishedAt outcome) } : JobRuns).recent n =
      (t.recent n).map (finishRow id finishedAt outcome) := by
    intro n
    simp only [recent, List.filter_map, Function.comp_def, finishRow_name, List.map_reverse]
  refine ⟨_, if_pos ⟨_, hmem, rfl, rfl⟩, ⟨?_, ?_⟩, ?_, fun n hne => ?_⟩
  · refine List.pairwise_map.mpr (h.sorted.imp fun hlt => ?_)
    rwa [finishRow_id, finishRow_id]
  · intro r hr
    obtain ⟨a, ha, rfl⟩ := List.mem_map.mp hr
    rw [finishRow_id]
    exact h.issued a ha
  · have hnodup : ((t.recent name).map JobRun.id).Nodup := recent_nodup h
    rw [hopen, List.map_cons] at hnodup
    have hrest : ∀ r ∈ rest, finishRow id finishedAt outcome r = r := by
      intro r hr
      refine finishRow_of_ne fun hid => (List.nodup_cons.mp hnodup).1 ?_
      rw [← hid]
      exact List.mem_map.mpr ⟨r, hr, rfl⟩
    rw [hrecent, hopen, List.map_cons, List.map_congr_left hrest, List.map_id']
    exact congrArg (· :: rest) (if_pos ⟨rfl, rfl⟩)
  · rw [hrecent]
    conv_rhs => rw [← List.map_id (t.recent n)]
    refine List.map_congr_left fun r hr => finishRow_of_ne fun hid => hne ?_
    obtain ⟨hr, hname⟩ := mem_recent.mp hr
    rw [← hname, hkey r hr hid]

end Finish

theorem dbRunHistories_eq (h : t.Ascending) :
    t.dbRunHistories name = (t.recent name).map JobRun.record := by
  have hfold : ∀ (rows : List JobRun) (histories : String → List JobRunRecord),
      rows.foldl (fun (histories : String → List JobRunRecord) r =>
        Function.update histories r.name (histories r.name ++ [r.record])) histories name =
      histories name ++ (rows.filter fun r => r.name = name).map JobRun.record := by
    intro rows
    induction rows with
    | nil => intro histories; simp
    | cons r rows ih =>
      intro histories
      rw [List.foldl_cons, ih]
      by_cases hr : r.name = name
      · subst hr
        simp
      · simp [hr, Function.update_of_ne (Ne.symm hr)]
  unfold dbRunHistories
  rw [hfold, newestFirst_eq_reverse h.sorted, recent, List.filter_reverse, List.nil_append]

end JobRuns

/-! ### The scheduler follows the chronicles -/

namespace RunState
variable {ι : Type}

def startedAt : RunState ι → Instant
  | .starting s => s
  | .working s _ => s
  | .finishing s _ _ _ => s

def runId : RunState ι → Option ι
  | .starting _ => none
  | .working _ id => id
  | .finishing _ id _ _ => id

/-- The run without the number of its row. -/
def unnumbered : RunState ι → RunState Unit
  | .starting s => .starting s
  | .working s id => .working s (id.map fun _ => ())
  | .finishing s id f o => .finishing s (id.map fun _ => ()) f o

end RunState

/-- A scheduler's view of one job agrees with the job's chronicle: the history is
its newest part, and the row opened for the run in flight is the newest. -/
structure Follows (runs : JobRuns) (name : String) (job : RegisteredJob ℕ) (c : Chronicle) : Prop where
  recorded : (runs.recent name).map JobRun.record = c.runs.take jobRunHistoryLimit
  phase : c.job = ⟨job.waiting, job.inFlight.map RunState.unnumbered⟩
  opened : ∀ run ∈ job.inFlight, ∀ id ∈ run.runId, ∃ rest,
    runs.recent name = ⟨id, name, opening run.startedAt⟩ :: rest

structure Consistent (s : Scheduler) (chronicles : String → Chronicle) : Prop where
  ascending : s.runs.Ascending
  follows : ∀ name, Follows s.runs name (s.jobs name) (chronicles name)

section Steps
variable {s : Scheduler} {cs : String → Chronicle} {name : String} {job : RegisteredJob ℕ}
  {c : Chronicle}

/-- A step of one job leaves the others as they were. -/
theorem Consistent.update (h : Consistent s cs) {runs : JobRuns} (hruns : runs.Ascending)
    (hothers : ∀ other ≠ name, runs.recent other = s.runs.recent other)
    (hjob : Follows runs name job c) :
    Consistent ({ s with runs := runs }.setJob name job) (Function.update cs name c) where
  ascending := hruns
  follows := fun other => by
    by_cases hne : other = name
    · subst hne
      simpa [Scheduler.setJob] using hjob
    · have hold := h.follows other
      refine ⟨?_, ?_, ?_⟩
      · simpa [Scheduler.setJob, hne, hothers other hne] using hold.recorded
      · simpa [Scheduler.setJob, hne] using hold.phase
      · simpa [Scheduler.setJob, hne, hothers other hne] using hold.opened

/-- A step that writes no row. -/
theorem Consistent.setJob (h : Consistent s cs) (hjob : Follows s.runs name job c) :
    Consistent (s.setJob name job) (Function.update cs name c) :=
  h.update h.ascending (fun _ _ => rfl) hjob

theorem Consistent.unchanged (h : Consistent s cs) :
    Consistent s (Function.update cs name (cs name)) := by
  rwa [Function.update_eq_self]

theorem logged_recorded (hascending : s.runs.Ascending)
    (h : (s.runs.recent name).map JobRun.record = c.runs.take jobRunHistoryLimit)
    (record : JobRunRecord) :
    (((s.runs.insert name record).pruneHistory name).recent name).map JobRun.record =
      (record :: c.runs).take jobRunHistoryLimit := by
  rw [JobRuns.recent_logged hascending, List.map_take, List.map_cons, h]
  simp [jobRunHistoryLimit, List.take_take]

/-- The rows are left alone, and no row is opened that was not. -/
theorem Follows.moved {runs : JobRuns} {job' : RegisteredJob ℕ} (h : Follows runs name job c)
    (hopened : ∀ run' ∈ job'.inFlight, ∀ id ∈ run'.runId, ∃ run ∈ job.inFlight,
      id ∈ run.runId ∧ run.startedAt = run'.startedAt) :
    Follows runs name job' ⟨c.runs, ⟨job'.waiting, job'.inFlight.map RunState.unnumbered⟩⟩ where
  recorded := h.recorded
  phase := rfl
  opened := fun run' hrun' id hid => by
    obtain ⟨run, hrun, hopen, hstart⟩ := hopened run' hrun' id hid
    exact hstart ▸ h.opened run hrun id hopen

/-- A newest row that no run in flight opened. -/
theorem Follows.logged {record : JobRunRecord} {waiting : ℕ} (hascending : s.runs.Ascending)
    (h : Follows s.runs name job c) :
    Follows ((s.runs.insert name record).pruneHistory name) name ⟨waiting, none⟩
      ⟨record :: c.runs, ⟨waiting, none⟩⟩ where
  recorded := logged_recorded hascending h.recorded record
  phase := rfl
  opened := fun run hrun => absurd hrun (Option.not_mem_none run)

theorem Follows.started {startedAt : Instant} {waiting : ℕ} (hascending : s.runs.Ascending)
    (h : Follows s.runs name job c) :
    Follows (s.runs.dbStartRun name startedAt).1 name
      ⟨waiting, some (.working startedAt (some (s.runs.dbStartRun name startedAt).2))⟩
      ⟨opening startedAt :: c.runs, ⟨waiting, some (.working startedAt (some ()))⟩⟩ where
  recorded := logged_recorded hascending h.recorded (opening startedAt)
  phase := rfl
  opened := fun run hrun id hid => by
    obtain rfl := Option.mem_some_iff.mp hrun
    obtain rfl := Option.mem_some_iff.mp hid
    exact ⟨_, JobRuns.recent_logged hascending _⟩

/-- The opening row is there to be completed, and completing it completes the
newest record of the chronicle. -/
theorem Follows.finished {id waiting : ℕ} {startedAt finishedAt : Instant} {outcome : JobOutcome}
    (hascending : s.runs.Ascending) (h : Follows s.runs name job c)
    (hrun : job.inFlight = some (.finishing startedAt (some id) finishedAt outcome)) :
    ∃ runs, s.runs.dbFinishRun id finishedAt outcome = .ok runs ∧ runs.Ascending ∧
      (∀ other ≠ name, runs.recent other = s.runs.recent other) ∧
      Follows runs name ⟨waiting, none⟩
        ⟨Chronicle.conclude c.runs startedAt (some ()) finishedAt outcome, ⟨waiting, none⟩⟩ := by
  obtain ⟨rest, hopen⟩ := h.opened _ hrun id rfl
  obtain ⟨runs, hok, hsorted, hrecent, hothers⟩ :=
    JobRuns.dbFinishRun_newest finishedAt outcome hascending hopen
  refine ⟨runs, hok, hsorted, hothers, ?_, rfl, fun run hrun => absurd hrun (Option.not_mem_none run)⟩
  have hrecorded := h.recorded
  rw [hopen, List.map_cons] at hrecorded
  rw [hrecent, List.map_cons]
  cases hruns : c.runs with
  | nil =>
    rw [hruns] at hrecorded
    cases hrecorded
  | cons record older =>
    rw [hruns, jobRunHistoryLimit, List.take_succ_cons] at hrecorded
    rw [(List.cons.inj hrecorded).2]
    rfl

/-- One event of a job: the others keep their chronicles, and the end of a run
never finds its row gone. -/
theorem Consistent.stepJob (h : Consistent s cs) (event : JobEvent) :
    Consistent (s.stepJob name event).1
        (Function.update cs name ((cs name).step (some event))) ∧
      (s.stepJob name event).2 ≠ some (.error .rowNotFound) := by
  have hf := h.follows name
  have hwaiting : (cs name).job.waiting = (s.jobs name).waiting := by rw [hf.phase]
  have hin : (cs name).job.inFlight = (s.jobs name).inFlight.map RunState.unnumbered := by
    rw [hf.phase]
  unfold Scheduler.stepJob Chronicle.step
  cases event with
  | triggered =>
    simp only [hwaiting, hin]
    exact ⟨h.setJob (hf.moved fun run hrun id hid => ⟨run, hrun, hid, rfl⟩), nofun⟩
  | locked now =>
    cases hrun : (s.jobs name).inFlight with
    | some run =>
      simp only [hin, hrun, Option.map_some]
      exact ⟨h.unchanged, nofun⟩
    | none =>
      simp only [hin, hrun, hwaiting, Option.map_none]
      split
      · refine ⟨h.setJob (hf.moved fun run hrun id hid => ?_), nofun⟩
        obtain rfl := Option.mem_some_iff.mp hrun
        exact absurd hid (Option.not_mem_none id)
      · exact ⟨h.unchanged, nofun⟩
  | startWritten landed =>
    cases hrun : (s.jobs name).inFlight with
    | none =>
      simp only [hin, hrun, Option.map_none]
      exact ⟨h.unchanged, nofun⟩
    | some run =>
      cases run with
      | starting startedAt =>
        simp only [hin, hrun, hwaiting, Option.map_some, RunState.unnumbered]
        cases landed with
        | true =>
          refine ⟨h.update ?_ ?_ (hf.started h.ascending), nofun⟩
          · exact (h.ascending.insert _).pruneHistory
          · exact fun other hne => JobRuns.recent_logged_other hne _
        | false =>
          refine ⟨h.setJob (hf.moved fun run hrun id hid => ?_), nofun⟩
          obtain rfl := Option.mem_some_iff.mp hrun
          exact absurd hid (Option.not_mem_none id)
      | working _ _ =>
        simp only [hin, hrun, Option.map_some, RunState.unnumbered]
        exact ⟨h.unchanged, nofun⟩
      | finishing _ _ _ _ =>
        simp only [hin, hrun, Option.map_some, RunState.unnumbered]
        exact ⟨h.unchanged, nofun⟩
  | workEnded now ended =>
    cases hrun : (s.jobs name).inFlight with
    | none =>
      simp only [hin, hrun, Option.map_none]
      exact ⟨h.unchanged, nofun⟩
    | some run =>
      cases run with
      | starting _ =>
        simp only [hin, hrun, Option.map_some, RunState.unnumbered]
        exact ⟨h.unchanged, nofun⟩
      | working startedAt runId =>
        simp only [hin, hrun, hwaiting, Option.map_some, RunState.unnumbered]
        refine ⟨h.setJob (hf.moved fun run' hrun' id hid => ⟨_, hrun, ?_⟩), nofun⟩
        obtain rfl := Option.mem_some_iff.mp hrun'
        exact ⟨hid, rfl⟩
      | finishing _ _ _ _ =>
        simp only [hin, hrun, Option.map_some, RunState.unnumbered]
        exact ⟨h.unchanged, nofun⟩
  | endWritten landed =>
    cases hrun : (s.jobs name).inFlight with
    | none =>
      simp only [hin, hrun, Option.map_none]
      exact ⟨h.unchanged, nofun⟩
    | some run =>
      cases run with
      | starting _ =>
        simp only [hin, hrun, Option.map_some, RunState.unnumbered]
        exact ⟨h.unchanged, nofun⟩
      | working _ _ =>
        simp only [hin, hrun, Option.map_some, RunState.unnumbered]
        exact ⟨h.unchanged, nofun⟩
      | finishing startedAt runId finishedAt outcome =>
        simp only [hin, hrun, hwaiting, Option.map_some, RunState.unnumbered]
        cases landed with
        | false =>
          refine ⟨h.setJob (hf.moved fun run hrun => ?_), nofun⟩
          exact absurd hrun (Option.not_mem_none run)
        | true =>
          cases runId with
          | none =>
            refine ⟨h.update ?_ ?_ (hf.logged h.ascending), nofun⟩
            · exact (h.ascending.insert _).pruneHistory
            · exact fun other hne => JobRuns.recent_logged_other hne _
          | some id =>
            obtain ⟨runs, hok, hsorted, hothers, hfinished⟩ :=
              hf.finished h.ascending hrun
            simp only [if_true, Scheduler.writeEnd, hok]
            exact ⟨h.update hsorted hothers hfinished, nofun⟩

end Steps

theorem Consistent.new : Consistent .new fun _ => .new where
  ascending := ⟨.nil, fun _ hr => absurd hr List.not_mem_nil⟩
  follows := fun _ => ⟨rfl, rfl, fun run hrun => absurd hrun (Option.not_mem_none run)⟩

theorem Consistent.step {s : Scheduler} {cs : String → Chronicle} (h : Consistent s cs) (e : Event) :
    Consistent (s.step e).1 (fun name => (eventOf name e).elim (cs name) (cs name).step) ∧
      (s.step e).2 ≠ some (.error .rowNotFound) := by
  cases e with
  | job name event =>
    have hseen : (fun other => (eventOf other (.job name event)).elim (cs other) (cs other).step) =
        Function.update cs name ((cs name).step (some event)) := by
      funext other
      by_cases hne : other = name
      · subst hne
        simp [eventOf]
      · simp [eventOf, hne, Ne.symm hne]
    rw [hseen]
    exact h.stepJob event
  | restarted =>
    refine ⟨⟨h.ascending, fun name => ?_⟩, nofun⟩
    exact (h.follows name).moved fun run hrun => absurd hrun (Option.not_mem_none run)

theorem Consistent.run {s : Scheduler} {cs : String → Chronicle} (h : Consistent s cs)
    (events : List Event) :
    Consistent (events.foldl (fun s e => (s.step e).1) s)
      (fun name => (events.filterMap (eventOf name)).foldl Chronicle.step (cs name)) := by
  induction events generalizing s cs with
  | nil => exact h
  | cons e events ih =>
    have hrest := ih (h.step e).1
    have hseen : (fun name => ((e :: events).filterMap (eventOf name)).foldl Chronicle.step (cs name)) =
        fun name => (events.filterMap (eventOf name)).foldl Chronicle.step
          ((eventOf name e).elim (cs name) (cs name).step) := by
      funext name
      rw [List.filterMap_cons]
      cases eventOf name e <;> rfl
    rw [hseen]
    exact hrest

theorem consistent_after (events : List Event) :
    Consistent (schedulerAfter events) fun name => chronicle name events :=
  Consistent.new.run events

/-- Under every interleaving of the runs of all jobs, with failed writes and dead
processes: each job's history is the newest part of the chronicle of its own runs,
and a run that ends finds its opening row. -/
theorem histories_are_newest (events : List Event) :
    (∀ name, (schedulerAfter events).runs.dbRunHistories name =
      (chronicle name events).runs.take jobRunHistoryLimit) ∧
    ∀ e, ((schedulerAfter events).step e).2 ≠ some (.error .rowNotFound) := by
  have h := consistent_after events
  refine ⟨fun name => ?_, fun e => (h.step e).2⟩
  rw [JobRuns.dbRunHistories_eq h.ascending]
  exact (h.follows name).recorded

/-! ### What the health report reads -/

structure FailedJob where
  name : String
  finishedAt : Instant
  error : Option String
  deriving DecidableEq

structure StalledJob where
  name : String
  startedAt : Instant
  runningHours : ℤ
  deriving DecidableEq

def hour : ℤ := 3600 * 1000000000

def jobRunningStaleHours : ℤ := 6

namespace JobRuns

/-- `SELECT MAX(id) FROM job_runs WHERE name = ?`. -/
def maxId (t : JobRuns) (name : String) : Option ℕ :=
  ((t.rows.filter fun r => r.name = name).map JobRun.id).max?

/-- Each job's latest run, where it has the status, by name. -/
def latest (t : JobRuns) (status : JobRunStatus) : List JobRun :=
  sortBy JobRun.name
    (t.rows.filter fun r => some r.id = t.maxId r.name ∧ r.record.status = status)

/-- `none` is a row that does not decode: a failed run without a finish. -/
def dbFailedJobs (t : JobRuns) : Option (List FailedJob) :=
  (t.latest .failed).mapM fun r =>
    r.record.finishedAt.map fun finishedAt => ⟨r.name, finishedAt, r.record.error⟩

def dbStalledJobs (t : JobRuns) (now : Instant) : List StalledJob :=
  (t.latest .running).filterMap fun r =>
    let open_ := now - r.record.startedAt
    if jobRunningStaleHours * hour < open_ then
      some ⟨r.name, r.record.startedAt, open_ / hour⟩
    else none

end JobRuns

/-! A row's columns agree, as the table's own constraint asks. -/

def JobRunRecord.InStep (r : JobRunRecord) : Prop := r.status = .running ↔ r.finishedAt = none

/-- A failed run has a finish. -/
theorem JobRunRecord.InStep.finished {r : JobRunRecord} (h : r.InStep) (hfailed : r.status = .failed) :
    ∃ finishedAt, r.finishedAt = some finishedAt := by
  refine Option.ne_none_iff_exists'.mp fun hnone => ?_
  have hrunning := h.mpr hnone
  rw [hfailed] at hrunning
  cases hrunning

theorem inStep_opening (startedAt : Instant) : (opening startedAt).InStep := ⟨fun _ => rfl, fun _ => rfl⟩

theorem inStep_completed (startedAt finishedAt : Instant) (outcome : JobOutcome) :
    (completed startedAt finishedAt outcome).InStep := by
  refine ⟨fun h => ?_, nofun⟩
  cases outcome <;> cases h

theorem Chronicle.inStep_step {c : Chronicle} (h : ∀ r ∈ c.runs, r.InStep)
    (event : Option JobEvent) : ∀ r ∈ (c.step event).runs, r.InStep := by
  unfold Chronicle.step
  cases event with
  | none => exact h
  | some event =>
    dsimp only
    split
    · exact h
    · split <;> exact h
    · split
      · exact List.forall_mem_cons.mpr ⟨inStep_opening _, h⟩
      · exact h
    · exact h
    · split
      · refine List.forall_mem_cons.mpr ⟨inStep_completed _ _ _, ?_⟩
        split
        · exact fun r hr => h r (List.mem_of_mem_tail hr)
        · exact h
      · exact h
    · exact h

theorem chronicle_inStep (name : String) (events : List Event) :
    ∀ r ∈ (chronicle name events).runs, r.InStep := by
  have hrun : ∀ (seen : List (Option JobEvent)) (c : Chronicle), (∀ r ∈ c.runs, r.InStep) →
      ∀ r ∈ (seen.foldl Chronicle.step c).runs, r.InStep := by
    intro seen
    induction seen with
    | nil => exact fun c h => h
    | cons event seen ih => exact fun c h => ih _ (Chronicle.inStep_step h event)
  exact hrun _ _ fun r hr => absurd hr List.not_mem_nil

section Latest
variable {t : JobRuns} {name : String} {status : JobRunStatus} {r : JobRun}

theorem JobRuns.maxId_eq (h : t.Ascending) : t.maxId name = (t.recent name).head?.map JobRun.id := by
  have hsorted : ((t.rows.filter fun r => r.name = name).map JobRun.id).Pairwise (· < ·) :=
    List.pairwise_map.mpr (h.of_filter _)
  unfold maxId recent
  generalize t.rows.filter (fun r => r.name = name) = rows at hsorted
  rw [List.head?_reverse, ← List.getLast?_map]
  cases hlast : (rows.map JobRun.id).getLast? with
  | none => rw [List.getLast?_eq_none_iff.mp hlast]; rfl
  | some id =>
    obtain ⟨earlier, hids⟩ := List.getLast?_eq_some_iff.mp hlast
    rw [hids] at hsorted ⊢
    refine List.max?_eq_some_iff.mpr ⟨List.mem_append_right _ List.mem_cons_self, fun b hb => ?_⟩
    rcases List.mem_append.mp hb with hb | hb
    · exact ((List.pairwise_append.mp hsorted).2.2 b hb id List.mem_cons_self).le
    · exact (List.mem_singleton.mp hb).le

theorem JobRuns.mem_latest (h : t.Ascending) :
    r ∈ t.latest status ↔ (t.recent r.name).head? = some r ∧ r.record.status = status := by
  rw [latest, mem_sortBy, List.mem_filter, decide_eq_true_eq, maxId_eq h]
  constructor
  · rintro ⟨hr, hid, hstatus⟩
    refine ⟨?_, hstatus⟩
    obtain ⟨first, hfirst, hfirstid⟩ := Option.map_eq_some_iff.mp hid.symm
    have hmem := (mem_recent.mp (List.mem_of_mem_head? hfirst)).1
    rw [hfirst, List.inj_on_of_nodup_map h.ids_nodup hmem hr hfirstid]
  · rintro ⟨hhead, hstatus⟩
    exact ⟨(mem_recent.mp (List.mem_of_mem_head? hhead)).1, by rw [hhead]; rfl, hstatus⟩

theorem JobRuns.latest_names (h : t.Ascending) :
    ((t.latest status).map JobRun.name).Pairwise (· < ·) := by
  refine List.pairwise_map.mpr (sortBy_strict ?_ fun a ha b hb hname => ?_)
  · exact (h.sorted.imp fun hlt heq => hlt.ne (congrArg JobRun.id heq)).sublist List.filter_sublist
  · have hfirst := ((mem_latest h).mp (mem_sortBy.mpr ha)).1
    have hsecond := ((mem_latest h).mp (mem_sortBy.mpr hb)).1
    rw [hname, hsecond] at hfirst
    exact (Option.some.inj hfirst).symm

/-- Rows that all decode are read as they decode. -/
theorem mapM_decoded {α β : Type} {decode : α → Option β} {decoded : α → β} {rows : List α}
    (h : ∀ r ∈ rows, decode r = some (decoded r)) : rows.mapM decode = some (rows.map decoded) := by
  induction rows with
  | nil => rfl
  | cons r rows ih =>
    rw [List.mapM_cons, ih fun a ha => h a (List.mem_cons_of_mem r ha), h r List.mem_cons_self]
    rfl

theorem JobRuns.dbFailedJobs_eq (hsteps : ∀ r ∈ t.rows, r.record.InStep) (h : t.Ascending) :
    t.dbFailedJobs = some ((t.latest .failed).map fun r =>
      ⟨r.name, r.record.finishedAt.getD 0, r.record.error⟩) := by
  refine mapM_decoded fun r hr => ?_
  obtain ⟨hhead, hstatus⟩ := (mem_latest h).mp hr
  obtain ⟨f, hf⟩ := (hsteps r (mem_recent.mp (List.mem_of_mem_head? hhead)).1).finished hstatus
  rw [hf]
  rfl

end Latest

/-- The run a job's health rests on is the newest of its chronicle. -/
theorem head_recorded {runs : JobRuns} {name : String} {job : RegisteredJob ℕ} {c : Chronicle}
    (h : Follows runs name job c) : (runs.recent name).head?.map JobRun.record = c.runs.head? := by
  rw [← List.head?_map, h.recorded, List.head?_take, if_neg (by decide)]

/-- Whatever runs of whatever jobs interleave, the health report reads: it names
each job whose newest run failed, and each whose newest run is open too long, once
and by name. A run that a dead process left open is no failure, and no later run of
another job hides one. -/
theorem health_names_newest_runs (events : List Event) (now : Instant) :
    ∃ failed, (schedulerAfter events).runs.dbFailedJobs = some failed ∧
      (failed.map FailedJob.name).Pairwise (· < ·) ∧
      (∀ name finishedAt error, ⟨name, finishedAt, error⟩ ∈ failed ↔
        ∃ run ∈ (chronicle name events).runs.head?, run.status = .failed ∧
          run.finishedAt = some finishedAt ∧ run.error = error) ∧
      (((schedulerAfter events).runs.dbStalledJobs now).map StalledJob.name).Pairwise (· < ·) ∧
      ∀ name startedAt hours,
        ⟨name, startedAt, hours⟩ ∈ (schedulerAfter events).runs.dbStalledJobs now ↔
        ∃ run ∈ (chronicle name events).runs.head?, run.status = .running ∧
          run.startedAt = startedAt ∧ jobRunningStaleHours * hour < now - startedAt ∧
          hours = (now - startedAt) / hour := by
  have h := consistent_after events
  have hsteps : ∀ r ∈ (schedulerAfter events).runs.rows, r.record.InStep := by
    intro r hr
    have hmem : r.record ∈ ((schedulerAfter events).runs.recent r.name).map JobRun.record :=
      List.mem_map_of_mem (JobRuns.mem_recent.mpr ⟨hr, rfl⟩)
    rw [(h.follows r.name).recorded] at hmem
    exact chronicle_inStep r.name events r.record (List.mem_of_mem_take hmem)
  have hnewest : ∀ name status record,
      (∃ r ∈ (schedulerAfter events).runs.latest status, r.name = name ∧ r.record = record) ↔
        record ∈ (chronicle name events).runs.head? ∧ record.status = status := by
    intro name status record
    rw [← head_recorded (h.follows name)]
    constructor
    · rintro ⟨r, hr, rfl, rfl⟩
      obtain ⟨hhead, hstatus⟩ := (JobRuns.mem_latest h.ascending).mp hr
      exact ⟨by rw [hhead]; rfl, hstatus⟩
    · rintro ⟨hrecord, hstatus⟩
      obtain ⟨r, hr, rfl⟩ := Option.map_eq_some_iff.mp hrecord
      obtain ⟨-, rfl⟩ := JobRuns.mem_recent.mp (List.mem_of_mem_head? hr)
      exact ⟨r, (JobRuns.mem_latest h.ascending).mpr ⟨hr, hstatus⟩, rfl, rfl⟩
  refine ⟨_, JobRuns.dbFailedJobs_eq hsteps h.ascending, ?_, fun name finishedAt error => ?_, ?_,
    fun name startedAt hours => ?_⟩
  · rw [List.map_map]
    exact JobRuns.latest_names h.ascending
  · rw [List.mem_map]
    constructor
    · rintro ⟨r, hr, heq⟩
      obtain ⟨rfl, rfl, rfl⟩ := FailedJob.mk.inj heq
      obtain ⟨hhead, hstatus⟩ := (hnewest r.name .failed r.record).mp ⟨r, hr, rfl, rfl⟩
      obtain ⟨f, hf⟩ := (chronicle_inStep r.name events _ (List.mem_of_mem_head? hhead)).finished hstatus
      exact ⟨r.record, hhead, hstatus, by rw [hf]; rfl, rfl⟩
    · rintro ⟨run, hrun, hstatus, hf, rfl⟩
      obtain ⟨r, hr, rfl, rfl⟩ := (hnewest name .failed run).mpr ⟨hrun, hstatus⟩
      exact ⟨r, hr, by rw [hf]; rfl⟩
  · refine (JobRuns.latest_names h.ascending).sublist (Keyed.filterMap_sublist ?_ _)
    intro r stalled hr
    by_cases hopen : jobRunningStaleHours * hour < now - r.record.startedAt
    · rw [if_pos hopen] at hr
      exact Option.some.inj hr ▸ rfl
    · rw [if_neg hopen] at hr
      cases hr
  · rw [JobRuns.dbStalledJobs, List.mem_filterMap]
    constructor
    · rintro ⟨r, hr, heq⟩
      by_cases hopen : jobRunningStaleHours * hour < now - r.record.startedAt
      · rw [if_pos hopen] at heq
        obtain ⟨rfl, rfl, rfl⟩ := StalledJob.mk.inj (Option.some.inj heq)
        obtain ⟨hhead, hstatus⟩ := (hnewest r.name .running r.record).mp ⟨r, hr, rfl, rfl⟩
        exact ⟨r.record, hhead, hstatus, rfl, hopen, rfl⟩
      · rw [if_neg hopen] at heq
        cases heq
    · rintro ⟨run, hrun, hstatus, rfl, hopen, rfl⟩
      obtain ⟨r, hr, rfl, rfl⟩ := (hnewest name .running run).mpr ⟨hrun, hstatus⟩
      exact ⟨r, hr, if_pos hopen⟩

end ShareTracker.Jobs
