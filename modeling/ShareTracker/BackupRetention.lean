import ShareTracker.BackupNames
import ShareTracker.Lib.Retention
import ShareTracker.Lib.StableSort

/-!
The backups that survive: a run writes one, and what its prune deletes is read
from the names left in the directory. However the runs are ordered, what is left
is what the policy keeps of all the backups ever taken.
-/
namespace ShareTracker.Backups

/-! ### The prune -/

def keepRecent : ℕ := 8

def keepMonthly : ℕ := 12

def keepBad : ℕ := 3

def stagingSuffix : List Char := ".partial".toList

def quarantineSuffix : List Char := ".bad".toList

/-- `%Y-%m`. -/
def month (t : NaiveDateTime) : ℤ ×ₗ ℕ := toLex (t.date.year, t.date.month)

/-- Newest first. -/
def newestFirst (found : List (NaiveDateTime × List Char)) : List (NaiveDateTime × List Char) :=
  StableSort.sortBy (fun b => OrderDual.toDual b.1) found

section Prune
variable (parse : List Char → Option NaiveDateTime) (stem : List Char)

/-- The directory's backups of this stem. -/
def backupsIn (files : List (List Char)) : List (NaiveDateTime × List Char) :=
  files.filterMap fun name => (backupTimestamp parse name stem).map fun t => (t, name)

def quarantinedIn (files : List (List Char)) : List (NaiveDateTime × List Char) :=
  files.filterMap fun name =>
    if (backupTimestamp parse name stem).isSome then none
    else (backupArtefactTimestamp parse name stem quarantineSuffix).map fun t => (t, name)

/-- What a prune deletes: the backups that are not kept, and the quarantined
files beyond the newest few. -/
def pruned (files : List (List Char)) : List (List Char) :=
  let backups := newestFirst (backupsIn parse stem files)
  let keep := (Retention.keepers Prod.fst month keepRecent keepMonthly backups).map Prod.snd
  (backups.map Prod.snd).filter (fun name => name ∉ keep) ++
    ((newestFirst (quarantinedIn parse stem files)).drop keepBad).map Prod.snd

def pruneBackups (files : List (List Char)) : List (List Char) :=
  files.filter fun name => name ∉ pruned parse stem files

end Prune

/-! ### Runs -/

/-- How a run ends: with a verified backup, with one that failed verification, or
interrupted before either. -/
inductive Outcome where
  | verified
  | quarantined
  | interrupted
  deriving DecidableEq

structure Run where
  time : NaiveDateTime
  suffix : Option (List Char)
  outcome : Outcome
  deriving DecidableEq

/-- A file put in the directory, or found there. -/
def put (name : List Char) (files : List (List Char)) : List (List Char) :=
  if name ∈ files then files else files ++ [name]

section Runs
variable (parse : List Char → Option NaiveDateTime) (dbPath : List Char)
  (backupDir : Option (List Char))

/-- One run: only a verified backup is followed by a prune. -/
def runBackup (files : List (List Char)) (run : Run) : List (List Char) :=
  let name := backupName dbPath backupDir run.suffix run.time
  match run.outcome with
  | .verified => pruneBackups parse (backupStem dbPath) (put name files)
  | .quarantined => put (name ++ quarantineSuffix) files
  | .interrupted => put (name ++ stagingSuffix) files

def runBackups (files : List (List Char)) (history : List Run) : List (List Char) :=
  history.foldl (runBackup parse dbPath backupDir) files

end Runs

/-- The backups ever taken. -/
def taken (history : List Run) : List Run := history.filter fun run => run.outcome = .verified

/-- When they were taken. -/
def times (history : List Run) : Finset NaiveDateTime := ((taken history).map Run.time).toFinset

/-- What the policy keeps of all the backups ever taken. -/
def KeptOf (history : List Run) (t : NaiveDateTime) : Prop :=
  Retention.Keeps month keepRecent keepMonthly (times history) t

section Listing
variable {parse : List Char → Option NaiveDateTime} {stem : List Char} {files : List (List Char)}

theorem month_monotone : Monotone month := by
  intro a b h
  have hdate : a.date ≤ b.date := by
    rcases Prod.Lex.le_iff.mp (show a.key ≤ b.key from h) with hlt | ⟨heq, -⟩
    · exact hlt.le
    · exact heq.le
  rw [NaiveDate.le_def] at hdate
  simp only [NaiveDate.key] at hdate
  have ha := a.date.day_le.trans (daysInMonth_le _ _)
  have hb := b.date.day_le.trans (daysInMonth_le _ _)
  have ha' := a.date.month_le
  have hb' := b.date.month_le
  have := a.date.day_pos
  have := b.date.day_pos
  have := a.date.month_pos
  have := b.date.month_pos
  rw [Prod.Lex.le_iff]
  by_cases hyear : a.date.year < b.date.year
  · exact .inl hyear
  · refine .inr ⟨?_, ?_⟩
    · change a.date.year = b.date.year
      omega
    · change a.date.month ≤ b.date.month
      omega

theorem mem_backupsIn {t : NaiveDateTime} {name : List Char} :
    (t, name) ∈ backupsIn parse stem files ↔
      name ∈ files ∧ backupTimestamp parse name stem = some t := by
  unfold backupsIn
  rw [List.mem_filterMap]
  constructor
  · rintro ⟨name', hname, heq⟩
    obtain ⟨t', ht, heq⟩ := Option.map_eq_some_iff.mp heq
    obtain ⟨rfl, rfl⟩ := Prod.mk.inj heq
    exact ⟨hname, ht⟩
  · rintro ⟨hname, ht⟩
    exact ⟨name, hname, by rw [ht]; rfl⟩

theorem notMem_quarantinedIn {t t' : NaiveDateTime} {name : List Char}
    (h : backupTimestamp parse name stem = some t) : (t', name) ∉ quarantinedIn parse stem files := by
  unfold quarantinedIn
  rw [List.mem_filterMap]
  rintro ⟨name', -, heq⟩
  split at heq
  · cases heq
  · rename_i hnot
    obtain ⟨t', -, heq⟩ := Option.map_eq_some_iff.mp heq
    obtain ⟨rfl, rfl⟩ := Prod.mk.inj heq
    rw [h] at hnot
    exact hnot rfl

theorem backupsIn_nodup (h : files.Nodup) : (backupsIn parse stem files).Nodup := by
  unfold backupsIn
  refine h.filterMap fun name name' b hb hb' => ?_
  obtain ⟨t, -, rfl⟩ := Option.map_eq_some_iff.mp hb
  obtain ⟨t', -, heq⟩ := Option.map_eq_some_iff.mp hb'
  exact (Prod.mk.inj heq).2.symm

/-- Sorted, the directory's backups are strictly newest first where no two are of one second. -/
theorem newestFirst_strict (hnodup : files.Nodup)
    (hdistinct : ∀ t name name', (t, name) ∈ backupsIn parse stem files →
      (t, name') ∈ backupsIn parse stem files → name = name') :
    (newestFirst (backupsIn parse stem files)).Pairwise fun a b => b.1 < a.1 := by
  refine @StableSort.sortBy_strict _ _ _ (fun b => OrderDual.toDual b.1) _
    (backupsIn_nodup hnodup) ?_
  rintro ⟨t, name⟩ ha ⟨t', name'⟩ hb heq
  obtain rfl : t = t' := heq
  rw [hdistinct t name name' ha hb]

/-- What a prune leaves of the backups: those the policy keeps of the ones there. -/
theorem mem_pruneBackups (hnodup : files.Nodup)
    (hdistinct : ∀ t name name', (t, name) ∈ backupsIn parse stem files →
      (t, name') ∈ backupsIn parse stem files → name = name') {name : List Char} {t : NaiveDateTime}
    (ht : backupTimestamp parse name stem = some t) :
    name ∈ pruneBackups parse stem files ↔ name ∈ files ∧
      Retention.Keeps month keepRecent keepMonthly
        ((backupsIn parse stem files).map Prod.fst).toFinset t := by
  have hset : ((newestFirst (backupsIn parse stem files)).map Prod.fst).toFinset =
      ((backupsIn parse stem files).map Prod.fst).toFinset := by
    ext x
    simp [newestFirst]
  have hkeepers : ((t, name) ∈ Retention.keepers Prod.fst month keepRecent keepMonthly
      (newestFirst (backupsIn parse stem files))) ↔ _ :=
    Retention.mem_keepers_iff month_monotone (newestFirst_strict hnodup hdistinct) (t, name)
  have hsorted : (t, name) ∈ newestFirst (backupsIn parse stem files) ↔ name ∈ files := by
    rw [newestFirst, StableSort.mem_sortBy, mem_backupsIn]
    exact and_iff_left ht
  rw [hset, hsorted] at hkeepers
  rw [← hkeepers]
  -- a backup's name is kept just where it is, its second being read from it
  have hname : name ∈ (Retention.keepers Prod.fst month keepRecent keepMonthly
      (newestFirst (backupsIn parse stem files))).map Prod.snd ↔
        (t, name) ∈ Retention.keepers Prod.fst month keepRecent keepMonthly
          (newestFirst (backupsIn parse stem files)) := by
    refine ⟨fun h => ?_, fun h => List.mem_map.mpr ⟨_, h, rfl⟩⟩
    obtain ⟨⟨t', name'⟩, hmem, rfl⟩ := List.mem_map.mp h
    have hin := ((Retention.mem_keepers_iff month_monotone
      (newestFirst_strict hnodup hdistinct) (t', name')).mp hmem).1
    rw [newestFirst, StableSort.mem_sortBy, mem_backupsIn] at hin
    obtain rfl := Option.some.inj (ht.symm.trans hin.2)
    exact hmem
  have hbad : name ∉ ((newestFirst (quarantinedIn parse stem files)).drop keepBad).map Prod.snd := by
    intro h
    obtain ⟨⟨t', name'⟩, hmem, rfl⟩ := List.mem_map.mp h
    have hin := List.mem_of_mem_drop hmem
    rw [newestFirst, StableSort.mem_sortBy] at hin
    exact notMem_quarantinedIn ht hin
  have hfiles : name ∈ (newestFirst (backupsIn parse stem files)).map Prod.snd ↔ name ∈ files := by
    refine ⟨fun h => ?_, fun h => List.mem_map.mpr ⟨_, hsorted.mpr h, rfl⟩⟩
    obtain ⟨⟨t', name'⟩, hmem, rfl⟩ := List.mem_map.mp h
    rw [newestFirst, StableSort.mem_sortBy, mem_backupsIn] at hmem
    exact hmem.1
  unfold pruneBackups pruned
  simp only [List.mem_filter, decide_eq_true_eq, List.mem_append, hbad, or_false, hfiles, hname]
  constructor
  · rintro ⟨hmem, hnot⟩
    by_contra hkeep
    exact hnot ⟨hmem, hkeep⟩
  · intro hkeep
    exact ⟨(hkeepers.mp hkeep).1, fun h => h.2 hkeep⟩

end Listing

/-! ### Whole histories -/

section History
variable {parse : List Char → Option NaiveDateTime} {dbPath : List Char}
  {backupDir : Option (List Char)} {files : List (List Char)} {history : List Run}

theorem put_nodup {name : List Char} (h : files.Nodup) : (put name files).Nodup := by
  unfold put
  split
  · exact h
  · rename_i hname
    refine List.nodup_append.mpr ⟨h, List.nodup_singleton name, ?_⟩
    intro a ha b hb heq
    rw [List.mem_singleton.mp hb] at heq
    exact hname (heq ▸ ha)

theorem mem_put {name name' : List Char} : name' ∈ put name files ↔ name' = name ∨ name' ∈ files := by
  unfold put
  split
  · rename_i hname
    exact ⟨.inr, fun h => h.elim (fun heq => heq ▸ hname) id⟩
  · rw [List.mem_append, List.mem_singleton, or_comm]

/-- The directory after a history: the names read as backups are those of the
backups ever taken that the policy keeps. -/
structure Holds (parse : List Char → Option NaiveDateTime) (dbPath : List Char)
    (backupDir : Option (List Char)) (files : List (List Char)) (history : List Run) : Prop where
  nodup : files.Nodup
  survivors : ∀ name t, (name ∈ files ∧ backupTimestamp parse name (backupStem dbPath) = some t) ↔
    ∃ run ∈ taken history, run.time = t ∧ name = backupName dbPath backupDir run.suffix run.time ∧
      KeptOf history t

theorem taken_append (history : List Run) (run : Run) : taken (history ++ [run]) =
    taken history ++ if run.outcome = .verified then [run] else [] := by
  unfold taken
  rw [List.filter_append, List.filter_singleton]
  cases run.outcome <;> rfl

/-- A file that is read as no backup changes none of what is held. -/
theorem Holds.put_other {run : Run} {name : List Char} (h : Holds parse dbPath backupDir files history)
    (hrun : run.outcome ≠ .verified) (hname : backupTimestamp parse name (backupStem dbPath) = none) :
    Holds parse dbPath backupDir (put name files) (history ++ [run]) := by
  have htaken : taken (history ++ [run]) = taken history := by
    rw [taken_append, if_neg hrun, List.append_nil]
  refine ⟨put_nodup h.nodup, fun name' t => ?_⟩
  rw [htaken, KeptOf, times, htaken]
  refine Iff.trans ?_ (h.survivors name' t)
  rw [mem_put]
  constructor
  · rintro ⟨rfl | hmem, ht⟩
    · rw [hname] at ht
      cases ht
    · exact ⟨hmem, ht⟩
  · rintro ⟨hmem, ht⟩
    exact ⟨.inr hmem, ht⟩

/-- A verified backup of a new second, and its prune: the policy's keep of the
backups there is its keep of all of them. -/
theorem Holds.verified {run : Run} (h : Holds parse dbPath backupDir files history)
    (hrun : run.outcome = .verified)
    (hread : backupTimestamp parse (backupName dbPath backupDir run.suffix run.time)
      (backupStem dbPath) = some run.time)
    (hdistinct : ((taken (history ++ [run])).map Run.time).Nodup) :
    Holds parse dbPath backupDir
      (pruneBackups parse (backupStem dbPath)
        (put (backupName dbPath backupDir run.suffix run.time) files)) (history ++ [run]) := by
  have htaken : taken (history ++ [run]) = taken history ++ [run] := by
    rw [taken_append, if_pos hrun]
  rw [htaken] at hdistinct
  have htimes : times (history ++ [run]) = times history ∪ {run.time} := by
    unfold times
    rw [htaken]
    simp
  have hnew : run.time ∉ times history := by
    unfold times
    rw [List.mem_toFinset]
    rw [List.map_append] at hdistinct
    exact fun hmem => (List.nodup_append.mp hdistinct).2.2 _ hmem _ List.mem_cons_self rfl
  have hinj : ∀ a ∈ taken history ++ [run], ∀ b ∈ taken history ++ [run], a.time = b.time → a = b :=
    fun a ha b hb => List.inj_on_of_nodup_map hdistinct ha hb
  have hput : (put (backupName dbPath backupDir run.suffix run.time) files).Nodup :=
    put_nodup h.nodup
  -- a backup in the directory is one ever taken, under its own name
  have hin : ∀ name t, (t, name) ∈ backupsIn parse (backupStem dbPath)
      (put (backupName dbPath backupDir run.suffix run.time) files) ↔
        ∃ r ∈ taken history ++ [run], r.time = t ∧ name = backupName dbPath backupDir r.suffix r.time ∧
          (KeptOf history t ∨ t = run.time) := by
    intro name t
    rw [mem_backupsIn, mem_put]
    constructor
    · rintro ⟨rfl | hmem, ht⟩
      · obtain rfl := Option.some.inj (hread.symm.trans ht)
        exact ⟨run, List.mem_append_right _ List.mem_cons_self, rfl, rfl, .inr rfl⟩
      · obtain ⟨r, hr, hrt, hrn, hkept⟩ := (h.survivors name t).mp ⟨hmem, ht⟩
        exact ⟨r, List.mem_append_left _ hr, hrt, hrn, .inl hkept⟩
    · rintro ⟨r, hr, hrt, hrn, hkept⟩
      rcases List.mem_append.mp hr with hr | hr
      · have hold : t ≠ run.time := by
          rintro rfl
          exact hnew (List.mem_toFinset.mpr (hrt ▸ List.mem_map_of_mem hr))
        obtain ⟨hmem, ht⟩ :=
          (h.survivors name t).mpr ⟨r, hr, hrt, hrn, hkept.resolve_right hold⟩
        exact ⟨.inr hmem, ht⟩
      · obtain rfl := List.mem_singleton.mp hr
        exact ⟨.inl hrn, by rw [hrn, hread, hrt]⟩
  have honce : ∀ t name name', (t, name) ∈ backupsIn parse (backupStem dbPath)
      (put (backupName dbPath backupDir run.suffix run.time) files) →
        (t, name') ∈ backupsIn parse (backupStem dbPath)
          (put (backupName dbPath backupDir run.suffix run.time) files) → name = name' := by
    intro t name name' ha hb
    obtain ⟨r, hr, hrt, rfl, -⟩ := (hin name t).mp ha
    obtain ⟨r', hr', hrt', rfl, -⟩ := (hin name' t).mp hb
    rw [hinj r hr r' hr' (hrt.trans hrt'.symm)]
  have hset : ((backupsIn parse (backupStem dbPath)
      (put (backupName dbPath backupDir run.suffix run.time) files)).map Prod.fst).toFinset =
        Retention.keep month keepRecent keepMonthly (times history) ∪ {run.time} := by
    ext t
    rw [List.mem_toFinset, List.mem_map, Finset.mem_union, Finset.mem_singleton,
      Retention.mem_keep]
    constructor
    · rintro ⟨⟨t', name⟩, hmem, rfl⟩
      obtain ⟨r, -, -, -, hkept⟩ := (hin name t').mp hmem
      exact hkept
    · intro hkept
      have hmem : ∃ r ∈ taken history ++ [run], r.time = t := by
        rcases hkept with hkept | rfl
        · obtain ⟨r, hr, hrt⟩ := List.mem_map.mp (List.mem_toFinset.mp hkept.1)
          exact ⟨r, List.mem_append_left _ hr, hrt⟩
        · exact ⟨run, List.mem_append_right _ List.mem_cons_self, rfl⟩
      obtain ⟨r, hr, hrt⟩ := hmem
      exact ⟨(t, _), (hin _ t).mpr ⟨r, hr, hrt, rfl, hkept⟩, rfl⟩
  refine ⟨hput.filter _, fun name t => ?_⟩
  rw [htaken, KeptOf, htimes]
  constructor
  · rintro ⟨hmem, ht⟩
    rw [mem_pruneBackups hput honce ht, hset, Retention.keeps_keep_union] at hmem
    obtain ⟨r, hr, hrt, hrn, -⟩ := (hin name t).mp (mem_backupsIn.mpr ⟨hmem.1, ht⟩)
    exact ⟨r, hr, hrt, hrn, hmem.2⟩
  · rintro ⟨r, hr, hrt, hrn, hkept⟩
    have hthere := ((Retention.keeps_keep_union (times history) {run.time} t).mpr hkept).1
    rw [Finset.mem_union, Finset.mem_singleton, Retention.mem_keep] at hthere
    obtain ⟨hmem, ht⟩ := mem_backupsIn.mp ((hin name t).mpr ⟨r, hr, hrt, hrn, hthere⟩)
    refine ⟨?_, ht⟩
    rw [mem_pruneBackups hput honce ht, hset, Retention.keeps_keep_union]
    exact ⟨hmem, hkept⟩

/-- From a directory with no backup of the database, every history is held to the policy. -/
theorem holds_run (hfiles : files.Nodup)
    (hnone : ∀ name ∈ files, backupTimestamp parse name (backupStem dbPath) = none)
    (hread : ∀ run ∈ taken history, backupTimestamp parse
      (backupName dbPath backupDir run.suffix run.time) (backupStem dbPath) = some run.time)
    (hdistinct : ((taken history).map Run.time).Nodup) :
    Holds parse dbPath backupDir (runBackups parse dbPath backupDir files history) history := by
  induction history using List.reverseRecOn with
  | nil =>
    refine ⟨hfiles, fun name t => ⟨fun ⟨hmem, ht⟩ => ?_, fun ⟨run, hrun, _⟩ => ?_⟩⟩
    · rw [hnone name hmem] at ht
      cases ht
    · cases hrun
  | append_singleton history run ih =>
    have hsub : (taken history).Sublist (taken (history ++ [run])) := by
      rw [taken_append]
      exact List.sublist_append_left _ _
    have hbefore := ih (fun r hr => hread r (hsub.mem hr)) (hdistinct.sublist (hsub.map _))
    unfold runBackups
    rw [List.foldl_append, List.foldl_cons, List.foldl_nil]
    change Holds parse dbPath backupDir
      (runBackup parse dbPath backupDir (runBackups parse dbPath backupDir files history) run) _
    unfold runBackup
    cases hrun : run.outcome with
    | verified =>
      refine hbefore.verified hrun (hread run ?_) hdistinct
      rw [taken_append, if_pos hrun]
      exact List.mem_append_right _ List.mem_cons_self
    | quarantined =>
      exact hbefore.put_other (by rw [hrun]; decide) (read_artefact _ _ (.inr rfl))
    | interrupted =>
      exact hbefore.put_other (by rw [hrun]; decide) (read_artefact _ _ (.inl rfl))

/-- Retention as it is meant: every backup is written where the prune looks and
is read as its own second, no staging or quarantined file is read as one, and
what survives is what the policy keeps of all the backups ever taken. -/
structure Retained (parse : List Char → Option NaiveDateTime) (dbPath : List Char)
    (backupDir : Option (List Char)) (files : List (List Char)) (history : List Run) : Prop where
  recognised : ∀ run ∈ taken history, ∀ suffix, ValidSuffix suffix →
    parent (backupPathAt dbPath backupDir suffix run.time) = backupDestination dbPath backupDir ∧
      backupTimestamp parse (backupName dbPath backupDir suffix run.time) (backupStem dbPath) =
        some run.time
  others : ∀ name, backupTimestamp parse (name ++ stagingSuffix) (backupStem dbPath) = none ∧
    backupTimestamp parse (name ++ quarantineSuffix) (backupStem dbPath) = none
  survivors : ∀ name t, (name ∈ runBackups parse dbPath backupDir files history ∧
      backupTimestamp parse name (backupStem dbPath) = some t) ↔
    ∃ run ∈ taken history, run.time = t ∧ name = backupName dbPath backupDir run.suffix run.time ∧
      KeptOf history t

/-- A history is retained so just where every backup's path names its backups
and its year is plain. -/
theorem retained_iff (parse : List Char → Option NaiveDateTime) (dbPath : List Char)
    (backupDir : Option (List Char)) (files : List (List Char)) (history : List Run)
    (hparse : ReadsTimestamps parse) (hsuffix : ∀ run ∈ history, ValidSuffix run.suffix)
    (hdistinct : ((taken history).map Run.time).Nodup) (hfiles : files.Nodup)
    (hnone : ∀ name ∈ files, backupTimestamp parse name (backupStem dbPath) = none) :
    Retained parse dbPath backupDir files history ↔
      ∀ run ∈ taken history, NamesBackups dbPath backupDir ∧ run.time.PlainYear := by
  constructor
  · intro h run hrun
    exact (read_iff hparse).mp fun suffix hsuffix => (h.recognised run hrun suffix hsuffix).2
  · intro h
    refine ⟨fun run hrun suffix hvalid => ?_, fun name => ?_, ?_⟩
    · exact ⟨parent_backupPathAt (h run hrun).1 hvalid,
        (read_iff hparse).mpr (h run hrun) suffix hvalid⟩
    · exact ⟨read_artefact _ _ (.inl rfl), read_artefact _ _ (.inr rfl)⟩
    · refine (holds_run hfiles hnone (fun run hrun => ?_) hdistinct).survivors
      exact (read_iff hparse).mpr (h run hrun) run.suffix
        (hsuffix run (List.mem_filter.mp hrun).1)

/-! ### Plainly written seconds -/

/-- The figures of a text, as a number. -/
def figures (s : List Char) : ℕ := s.foldl (fun n c => 10 * n + (c.toNat - 48)) 0

theorem plainYear_ge (year : ℕ) : -262143 ≤ (year : ℤ) := by omega

theorem plainYear_le {year : ℕ} (h : year ≤ 9999) : (year : ℤ) ≤ 262142 := by omega

/-- The second of these figures, in a plain year. -/
def ofFigures (year month day hour minute second : ℕ) : Option NaiveDateTime :=
  if h : ((1 ≤ month ∧ month ≤ 12) ∧ 1 ≤ day ∧ day ≤ daysInMonth year month) ∧ year ≤ 9999 ∧
      hour < 24 ∧ minute < 60 ∧ second ≤ 60 then
    some ⟨⟨year, month, day, h.1.1.1, h.1.1.2, h.1.2.1, h.1.2.2⟩, hour, minute, second,
      plainYear_ge year, plainYear_le h.2.1, h.2.2.1, h.2.2.2.1, h.2.2.2.2⟩
  else none

def field (s : List Char) (start width : ℕ) : List Char := (s.drop start).take width

/-- The parser on text written plainly: 17 characters, dashes at their places. -/
def plainTimestamp (s : List Char) : Option NaiveDateTime :=
  if s.length = 17 ∧ field s 4 1 = ['-'] ∧ field s 7 1 = ['-'] ∧ field s 10 1 = ['-'] then
    ofFigures (figures (field s 0 4)) (figures (field s 5 2)) (figures (field s 8 2))
      (figures (field s 11 2)) (figures (field s 13 2)) (figures (field s 15 2))
  else none

section Plain

theorem digit_toNat (n : ℕ) : (digit n).toNat - 48 = n % 10 := by
  have hlt := Nat.mod_lt n (by decide : 0 < 10)
  unfold digit
  generalize n % 10 = k at hlt
  interval_cases k <;> rfl

theorem figures_two {n : ℕ} (h : n < 100) : figures (padded 2 n) = n := by
  simp only [padded, figures, List.nil_append, List.cons_append, List.foldl_cons, List.foldl_nil,
    digit_toNat]
  omega

theorem figures_four {n : ℕ} (h : n ≤ 9999) : figures (padded 4 n) = n := by
  simp only [padded, figures, List.nil_append, List.cons_append, List.foldl_cons, List.foldl_nil,
    digit_toNat]
  omega

theorem ofFigures_plain {t : NaiveDateTime} (h : t.PlainYear) :
    ofFigures t.date.year.natAbs t.date.month t.date.day t.hour t.minute t.second = some t := by
  obtain ⟨⟨year, month, day, hm, hm', hd, hd'⟩, hour, minute, second, hge, hle, hh, hi, hs⟩ := t
  obtain ⟨y, rfl⟩ := Int.eq_ofNat_of_zero_le h.1
  have hyear : y ≤ 9999 := by
    have := h.2
    simp only at this
    omega
  exact dif_pos ⟨⟨⟨hm, hm'⟩, hd, hd'⟩, hyear, hh, hi, hs⟩

theorem ofFigures_year {year month day hour minute second : ℕ} {t : NaiveDateTime}
    (h : ofFigures year month day hour minute second = some t) : t.PlainYear := by
  unfold ofFigures at h
  split at h
  · rename_i hvalid
    rw [← Option.some.inj h]
    exact ⟨Int.natCast_nonneg _, Int.ofNat_le.mpr hvalid.2.1⟩
  · cases h

theorem plainTimestamp_format {t : NaiveDateTime} (h : t.PlainYear) :
    plainTimestamp (formatTimestamp t) = some t := by
  have hmonth := figures_two (t.date.month_le.trans_lt (by decide : 12 < 100))
  have hday := figures_two ((t.date.day_le.trans (daysInMonth_le _ _)).trans_lt
    (by decide : 31 < 100))
  have hhour := figures_two (t.hour_lt.trans (by decide : 24 < 100))
  have hminute := figures_two (t.minute_lt.trans (by decide : 60 < 100))
  have hsecond := figures_two (t.second_le.trans_lt (by decide : 60 < 100))
  have hyear : figures (padded 4 t.date.year.natAbs) = t.date.year.natAbs :=
    figures_four (by have := h.1; have := h.2; omega)
  have htext : formatTimestamp t = padded 4 t.date.year.natAbs ++ ('-' :: padded 2 t.date.month ++
      ('-' :: padded 2 t.date.day ++ ('-' :: padded 2 t.hour ++
        (padded 2 t.minute ++ padded 2 t.second)))) := by
    rw [formatTimestamp, yearText, if_pos (show _ ∧ _ from h)]
  have hfields : plainTimestamp (formatTimestamp t) =
      ofFigures (figures (padded 4 t.date.year.natAbs)) (figures (padded 2 t.date.month))
        (figures (padded 2 t.date.day)) (figures (padded 2 t.hour)) (figures (padded 2 t.minute))
        (figures (padded 2 t.second)) := by
    rw [htext, plainTimestamp]
    exact if_pos ⟨rfl, rfl, rfl, rfl⟩
  rw [hfields, hyear, hmonth, hday, hhour, hminute, hsecond]
  exact ofFigures_plain h

theorem readsTimestamps_plain : ReadsTimestamps plainTimestamp where
  written := fun t => plainTimestamp_format
  unsigned := by
    intro c s t _ h
    unfold plainTimestamp at h
    split at h
    · exact ofFigures_year h
    · cases h

end Plain

theorem firstOf2026_ge : -262143 ≤ (ymd 2026 1 1).year := by decide

theorem firstOf2026_le : (ymd 2026 1 1).year ≤ 262142 := by decide

theorem noon_hour : 12 < 24 := by decide

theorem noon_minute : 0 < 60 := by decide

theorem noon_second : 0 ≤ 60 := by decide

/-- Noon on the first of a month of 2026. -/
def noon (month : ℕ) : NaiveDateTime :=
  (ofFigures 2026 month 1 12 0 0).getD
    ⟨ymd 2026 1 1, 12, 0, 0, firstOf2026_ge, firstOf2026_le, noon_hour, noon_minute, noon_second⟩

theorem retained_portfolio : Retained plainTimestamp "data/portfolio.db".toList none
    ["portfolio.db".toList]
    [⟨noon 3, none, .verified⟩, ⟨noon 4, none, .quarantined⟩,
      ⟨noon 1, some "pre-0.5.1".toList, .verified⟩] :=
  (retained_iff plainTimestamp "data/portfolio.db".toList none ["portfolio.db".toList] _
    readsTimestamps_plain (by decide) (by decide) (by decide)
    (by decide)).mpr (by decide)

/-- A database named by its extension alone leaves its backups nameless. -/
theorem retained_fails : ¬ ∀ (dbPath : List Char) (backupDir : Option (List Char))
    (files : List (List Char)) (history : List Run), (∀ run ∈ history, ValidSuffix run.suffix) →
    ((taken history).map Run.time).Nodup → files.Nodup →
    (∀ name ∈ files, backupTimestamp plainTimestamp name (backupStem dbPath) = none) →
    Retained plainTimestamp dbPath backupDir files history := by
  intro h
  have hretained := h "data/.db".toList none [] [⟨noon 3, none, .verified⟩] (by decide)
    (by decide) (by decide) (by decide)
  have hread := (hretained.recognised ⟨noon 3, none, .verified⟩ (by decide) none
    (by decide)).2
  revert hread
  decide

end History

end ShareTracker.Backups
