import ShareTracker.SnapshotFreshness
import ShareTracker.SnapshotDate
import ShareTracker.PriceFetches

/-!
The catch-up run of the snapshots: the dates of a bounded window that have none,
or one stale or provisional, are come to in turn, with any write between two turns.
-/
namespace ShareTracker.Snapshots
open Performance ClosingPrices HealthPrices MoneyWeighted
open ShareTracker.Valuation hiding Records

/-! ### The dates due -/

/-- No upper bound, as a date. -/
def openEndedCutoff : NaiveDate := ymd 9999 12 31

def catchupLookbackDays : ℕ := 14

def needsGeneration (snapshots : List StoredSnapshot) (date : NaiveDate) : Bool :=
  (Keyed.get? StoredSnapshot.date snapshots date).all fun s => s.stale || s.rows.provisional

/-- The first stored date, no further back than the lookback; the latest date
alone where nothing is stored. -/
def candidatesFrom (snapshots : List StoredSnapshot) (latest : NaiveDate) : NaiveDate :=
  match (snapshots.map StoredSnapshot.date).min? with
  | none => latest
  | some first => max first (Order.pred^[catchupLookbackDays - 1] latest)

/-- The dates of the window on which something was held. -/
def heldDates (a : Archive) : Option NaiveDate → List NaiveDate
  | none => []
  | some latest =>
    (daysBetween (candidatesFrom a.snapshots latest) latest).filter fun date =>
      a.facts.store.heldListingIds date ≠ []

def GenerateError.unprocessable : GenerateError → Bool
  | .nothingHeld _ | .valuation (.blocked _) | .valuation (.allExcluded ..) => true
  | .valuation (.failed _) | .fx _ => false

/-- A run under way, over the archive as the writes between its turns leave it. -/
structure CatchUp where
  archive : Archive
  pending : List NaiveDate
  generated : List NaiveDate
  blocked : List (NaiveDate × GenerateError)

inductive Turn where
  | next
  | write (event : Event)

inductive TurnRefused where
  | write (refusal : Refused)
  | aborted (date : NaiveDate) (error : GenerateError)

section Job
variable (A : RateArithmetic) (clocks : Clocks) (now : Instant)

def latestDate (a : Archive) : Except String (Option NaiveDate) :=
  SnapshotDate.latestSnapshotDate a.facts.store clocks (a.facts.store.heldMarkets openEndedCutoff) now

/-- What the run reads before its first turn. -/
def catchUp (a : Archive) : Except String CatchUp := do
  let latest ← latestDate clocks now a
  return ⟨a, (heldDates a latest).filter (needsGeneration a.snapshots), [], []⟩

def nextTurn (j : CatchUp) : Except TurnRefused CatchUp :=
  match j.pending with
  | [] => .ok j
  | date :: pending =>
    match generate A clocks now j.archive.facts date with
    | .ok rows =>
      .ok { j with
        archive := { j.archive with
          snapshots := store j.archive.snapshots ⟨date, now, false, rows⟩ }
        pending
        generated := date :: j.generated }
    | .error e =>
      if e.unprocessable then .ok { j with pending, blocked := (date, e) :: j.blocked }
      else .error (.aborted date e)

def turn (j : CatchUp) : Turn → Except TurnRefused CatchUp
  | .next => nextTurn A clocks now j
  | .write e => do
      let archive ← (step A clocks j.archive e).mapError .write
      return { j with archive }

/-- Whether a turn moves no snapshot the triggers leave out. -/
def turnHeeds (j : CatchUp) : Turn → Bool
  | .next => true
  | .write e => heeds j.archive e

end Job

/-! ### A turn -/

section Turns
variable {A : RateArithmetic} {clocks : Clocks} {now : Instant} {a a' : Archive} {j j' : CatchUp}

/-- What the run's own turn does. -/
theorem nextTurn_cases (h : nextTurn A clocks now j = .ok j') :
    (j.pending = [] ∧ j' = j) ∨ ∃ date pending, j.pending = date :: pending ∧
      ((∃ rows, generate A clocks now j.archive.facts date = .ok rows ∧
        j' = { j with
          archive := { j.archive with
            snapshots := store j.archive.snapshots ⟨date, now, false, rows⟩ }
          pending
          generated := date :: j.generated }) ∨
      ∃ e, generate A clocks now j.archive.facts date = .error e ∧ e.unprocessable = true ∧
        j' = { j with pending, blocked := (date, e) :: j.blocked }) := by
  unfold nextTurn at h
  split at h
  · rename_i hnone
    exact Or.inl ⟨hnone, (Except.ok.inj h).symm⟩
  · rename_i date pending hpending
    refine Or.inr ⟨date, pending, hpending, ?_⟩
    split at h
    · rename_i rows hrows
      exact Or.inl ⟨rows, hrows, (Except.ok.inj h).symm⟩
    · rename_i e he
      split at h
      · rename_i hunprocessable
        exact Or.inr ⟨e, he, hunprocessable, (Except.ok.inj h).symm⟩
      · cases h

/-- A date with a snapshot keeps one. -/
theorem stored_store {snapshots : List StoredSnapshot} {s : StoredSnapshot} {date : NaiveDate}
    (h : ∃ stored ∈ snapshots, stored.date = date) : ∃ stored ∈ store snapshots s, stored.date = date := by
  obtain ⟨stored, hstored, hdate⟩ := h
  by_cases hsame : stored.date = s.date
  · exact ⟨s, Keyed.mem_put.mpr (Or.inr rfl), hsame.symm.trans hdate⟩
  · exact ⟨stored, Keyed.mem_put.mpr (Or.inl ⟨hstored, hsame⟩), hdate⟩

theorem stored_markStale {covers : NaiveDate → Bool} {snapshots : List StoredSnapshot} {date : NaiveDate}
    (h : ∃ stored ∈ snapshots, stored.date = date) :
    ∃ stored ∈ markStale covers snapshots, stored.date = date := by
  obtain ⟨stored, hstored, hdate⟩ := h
  refine ⟨_, List.mem_map_of_mem hstored, ?_⟩
  split <;> exact hdate

/-- A write marks snapshots, or stores one. -/
theorem step_snapshots {e : Event} (hstep : step A clocks a e = .ok a') :
    (∃ covers, a'.snapshots = markStale covers a.snapshots) ∨
      ∃ s, a'.snapshots = store a.snapshots s := by
  cases e with
  | ledger w =>
    obtain ⟨ledger, -, hstep⟩ := Checked.bind_ok hstep
    obtain ⟨listed, -, hstep⟩ := Checked.bind_ok hstep
    obtain rfl := Except.ok.inj hstep
    exact Or.inl ⟨fun date => (writtenDates a.facts.book w).any fun d => decide (d ≤ date), rfl⟩
  | prices w =>
    obtain ⟨_, -, hstep⟩ := Checked.bind_ok hstep
    obtain rfl := Except.ok.inj hstep
    exact Or.inl ⟨_, rfl⟩
  | importRate currency month rate =>
    obtain ⟨_, -, hstep⟩ := Checked.bind_ok hstep
    obtain rfl := Except.ok.inj hstep
    exact Or.inl ⟨_, rfl⟩
  | generate now date =>
    obtain ⟨_, -, hstep⟩ := Checked.bind_ok hstep
    obtain rfl := Except.ok.inj hstep
    exact Or.inr ⟨_, rfl⟩

theorem step_stored {e : Event} {date : NaiveDate} (hstep : step A clocks a e = .ok a')
    (h : ∃ s ∈ a.snapshots, s.date = date) : ∃ s ∈ a'.snapshots, s.date = date := by
  rcases step_snapshots hstep with ⟨covers, hmarked⟩ | ⟨s, hstored⟩
  · rw [hmarked]
    exact stored_markStale h
  · rw [hstored]
    exact stored_store h

/-- Each of the dates still to come to, blocked, or with a snapshot. -/
structure Underway (A : RateArithmetic) (clocks : Clocks) (dates : List NaiveDate) (j : CatchUp) :
    Prop where
  coherent : Coherent A clocks j.archive
  covered : ∀ date ∈ dates, date ∈ j.pending ∨ (∃ e, (date, e) ∈ j.blocked) ∨
    ∃ s ∈ j.archive.snapshots, s.date = date

theorem turn_underway {dates : List NaiveDate} (h : Underway A clocks dates j) {t : Turn}
    (hheeds : turnHeeds j t = true) (hturn : turn A clocks now j t = .ok j') :
    Underway A clocks dates j' := by
  cases t with
  | write e =>
    obtain ⟨archive, harchive, hturn⟩ := Checked.bind_ok hturn
    obtain rfl := Except.ok.inj hturn
    have hstep := Checked.mapError_ok.mp harchive
    refine ⟨step_coherent h.coherent hheeds hstep, fun date hdate => ?_⟩
    exact (h.covered date hdate).imp_right (Or.imp_right (step_stored hstep))
  | next =>
    rcases nextTurn_cases hturn with ⟨-, rfl⟩ | ⟨date, pending, hpending, hcome⟩
    · exact h
    · have hsplit : ∀ d ∈ dates, d = date ∨ d ∈ pending ∨ (∃ e, (d, e) ∈ j.blocked) ∨
          ∃ s ∈ j.archive.snapshots, s.date = d := by
        intro d hd
        rcases h.covered d hd with hleft | hdone
        · rw [hpending] at hleft
          exact (List.mem_cons.mp hleft).imp_right Or.inl
        · exact Or.inr (Or.inr hdone)
      rcases hcome with ⟨rows, hrows, rfl⟩ | ⟨e, -, -, rfl⟩
      · have hstep : step A clocks j.archive (.generate now date) = .ok { j.archive with
            snapshots := store j.archive.snapshots ⟨date, now, false, rows⟩ } :=
          Checked.bind_ok_iff.mpr ⟨rows, Checked.mapError_ok.mpr hrows, rfl⟩
        refine ⟨step_coherent h.coherent (List.all_eq_true.mpr fun s _ => Bool.or_true _) hstep,
          fun d hd => ?_⟩
        rcases hsplit d hd with rfl | hleft | hblocked | hstored
        · exact Or.inr (Or.inr ⟨_, Keyed.mem_put.mpr (Or.inr rfl), rfl⟩)
        · exact Or.inl hleft
        · exact Or.inr (Or.inl hblocked)
        · exact Or.inr (Or.inr (stored_store hstored))
      · refine ⟨h.coherent, fun d hd => ?_⟩
        rcases hsplit d hd with rfl | hleft | ⟨e', he'⟩ | hstored
        · exact Or.inr (Or.inl ⟨e, List.mem_cons_self⟩)
        · exact Or.inl hleft
        · exact Or.inr (Or.inl ⟨e', List.mem_cons_of_mem _ he'⟩)
        · exact Or.inr (Or.inr hstored)

/-! ### A run with no write between its turns -/

/-- The facts as they were; each date fresh, or blocked by what it is refused
for, or still to come to; and what was fresh and final untouched. -/
structure Undisturbed (A : RateArithmetic) (clocks : Clocks) (now : Instant) (a : Archive)
    (dates : List NaiveDate) (j : CatchUp) : Prop where
  facts : j.archive.facts = a.facts
  pending : ∀ date ∈ j.pending, date ∈ dates ∧ needsGeneration a.snapshots date = true
  fresh : ∀ date ∈ dates, date ∈ j.pending ∨ (∃ e, (date, e) ∈ j.blocked) ∨
    ∃ s ∈ j.archive.snapshots, s.date = date ∧ s.stale = false ∧
      (s.rows.provisional = true → s.ranAt = now)
  blocked : ∀ date e, (date, e) ∈ j.blocked → date ∈ dates ∧
    generate A clocks now a.facts date = .error e ∧ e.unprocessable = true
  kept : ∀ s ∈ a.snapshots, needsGeneration a.snapshots s.date = false → s ∈ j.archive.snapshots

theorem nextTurn_undisturbed {dates : List NaiveDate} (h : Undisturbed A clocks now a dates j)
    (hturn : nextTurn A clocks now j = .ok j') : Undisturbed A clocks now a dates j' := by
  rcases nextTurn_cases hturn with ⟨-, rfl⟩ | ⟨date, pending, hpending, hcome⟩
  · exact h
  · have hdate : date ∈ j.pending := by
      rw [hpending]
      exact List.mem_cons_self
    have hlater : ∀ d ∈ pending, d ∈ dates ∧ needsGeneration a.snapshots d = true := fun d hd =>
      h.pending d (by rw [hpending]; exact List.mem_cons_of_mem _ hd)
    have hsplit : ∀ d ∈ dates, d = date ∨ d ∈ pending ∨ (∃ e, (d, e) ∈ j.blocked) ∨
        ∃ s ∈ j.archive.snapshots, s.date = d ∧ s.stale = false ∧
          (s.rows.provisional = true → s.ranAt = now) := by
      intro d hd
      rcases h.fresh d hd with hleft | hdone
      · rw [hpending] at hleft
        exact (List.mem_cons.mp hleft).imp_right Or.inl
      · exact Or.inr (Or.inr hdone)
    rcases hcome with ⟨rows, hrows, rfl⟩ | ⟨e, he, hunprocessable, rfl⟩
    · refine ⟨h.facts, hlater, fun d hd => ?_, h.blocked, fun s hs hneeds => ?_⟩
      · by_cases hsame : d = date
        · exact Or.inr (Or.inr ⟨_, Keyed.mem_put.mpr (Or.inr rfl), hsame.symm, rfl, fun _ => rfl⟩)
        · rcases hsplit d hd with hd | hleft | hblocked | ⟨s, hs, hday, hfresh⟩
          · exact absurd hd hsame
          · exact Or.inl hleft
          · exact Or.inr (Or.inl hblocked)
          · exact Or.inr (Or.inr ⟨s, Keyed.mem_put.mpr (Or.inl ⟨hs, hday.symm ▸ hsame⟩), hday, hfresh⟩)
      · refine Keyed.mem_put.mpr (Or.inl ⟨h.kept s hs hneeds, fun hday => ?_⟩)
        have hday : s.date = date := hday
        rw [hday, (h.pending date hdate).2] at hneeds
        cases hneeds
    · refine ⟨h.facts, hlater, fun d hd => ?_, fun d e' he' => ?_, h.kept⟩
      · rcases hsplit d hd with rfl | hleft | ⟨e', he'⟩ | hstored
        · exact Or.inr (Or.inl ⟨e, List.mem_cons_self⟩)
        · exact Or.inl hleft
        · exact Or.inr (Or.inl ⟨e', List.mem_cons_of_mem _ he'⟩)
        · exact Or.inr (Or.inr hstored)
      · rcases List.mem_cons.mp he' with hnew | hold
        · obtain ⟨rfl, rfl⟩ := Prod.mk.inj hnew
          exact ⟨(h.pending d hdate).1, h.facts ▸ he, hunprocessable⟩
        · exact h.blocked d e' hold

end Turns

/-! ### Runs -/

section Runs
variable {A : RateArithmetic} {clocks : Clocks} {now : Instant} {a : Archive} {j j' : CatchUp}

/-- Whether a turn is the run's own. -/
def ownTurn (_ : CatchUp) : Turn → Bool
  | .next => true
  | .write _ => false

/-- What a run that came to all its dates leaves. -/
structure CaughtUp (A : RateArithmetic) (clocks : Clocks) (now : Instant) (a : Archive)
    (dates : List NaiveDate) (undisturbed : Prop) (j : CatchUp) : Prop where
  covered : ∀ date ∈ dates, (∃ e, (date, e) ∈ j.blocked) ∨ ∃ s ∈ j.archive.snapshots, s.date = date
  told : ∀ s ∈ j.archive.snapshots, s.stale = false → s.rows.provisional = false →
    generate A clocks s.ranAt j.archive.facts s.date = .ok s.rows
  alone : undisturbed → Undisturbed A clocks now a dates j

theorem mem_of_needsGeneration {snapshots : List StoredSnapshot} {date : NaiveDate}
    (h : needsGeneration snapshots date = false) :
    ∃ s ∈ snapshots, s.date = date ∧ s.stale = false ∧ s.rows.provisional = false := by
  unfold needsGeneration at h
  cases hget : Keyed.get? StoredSnapshot.date snapshots date with
  | none =>
    rw [hget] at h
    cases h
  | some s =>
    rw [hget, Option.all_some, Bool.or_eq_false_iff] at h
    have hkey := List.find?_some hget
    exact ⟨s, List.mem_of_find?_eq_some hget, of_decide_eq_true hkey, h⟩

theorem catch_up_covers {markets : List Market} {markets_unique : (markets.map Market.listing).Nodup}
    {exchange : ListingId → Exchange} {events : List Event} {turns : List Turn}
    {latest : Option NaiveDate}
    (hrun : GuardedRun.run (step A clocks) (.opening markets markets_unique exchange) events = .ok a)
    (hheeds : GuardedRun.meets (step A clocks) heeds (.opening markets markets_unique exchange) events =
      true) (hlatest : latestDate clocks now a = .ok latest) (hbegins : catchUp clocks now a = .ok j)
    (hturns : GuardedRun.run (turn A clocks now) j turns = .ok j')
    (hturnHeeds : GuardedRun.meets (turn A clocks now) turnHeeds j turns = true)
    (hdone : j'.pending = []) :
    CaughtUp A clocks now a (heldDates a latest)
      (GuardedRun.meets (turn A clocks now) ownTurn j turns = true) j' := by
  have hcoherent : Coherent A clocks a := coherent_of_run hrun hheeds
  obtain ⟨date, hdate, hbegins⟩ := Checked.bind_ok hbegins
  obtain rfl : date = latest := Except.ok.inj (hdate.symm.trans hlatest)
  obtain rfl := Except.ok.inj hbegins
  have hdue : ∀ d ∈ heldDates a date, d ∈ (heldDates a date).filter (needsGeneration a.snapshots) ∨
      ∃ s ∈ a.snapshots, s.date = d ∧ s.stale = false ∧ s.rows.provisional = false := by
    intro d hd
    cases hneeds : needsGeneration a.snapshots d with
    | true => exact Or.inl (List.mem_filter.mpr ⟨hd, hneeds⟩)
    | false => exact Or.inr (mem_of_needsGeneration hneeds)
  have hunderway : Underway A clocks (heldDates a date) j' := by
    refine GuardedRun.invariant (fun _ _ _ h hgood hturn => turn_underway h hgood hturn)
      ⟨hcoherent, fun d hd => ?_⟩ hturnHeeds hturns
    exact (hdue d hd).imp_right fun ⟨s, hs, hday, _⟩ => Or.inr ⟨s, hs, hday⟩
  refine ⟨fun d hd => ?_, hunderway.coherent.fresh, fun hown => ?_⟩
  · refine (hunderway.covered d hd).resolve_left ?_
    rw [hdone]
    exact List.not_mem_nil
  · refine GuardedRun.invariant (fun _ t _ h hgood hturn => ?_) ⟨rfl, ?_, ?_, ?_, ?_⟩ hown hturns
    · cases t with
      | write e => cases hgood
      | next => exact nextTurn_undisturbed h hturn
    · exact fun d hd => List.mem_filter.mp hd
    · intro d hd
      refine (hdue d hd).imp_right fun ⟨s, hs, hday, hfresh, hreal⟩ =>
        Or.inr ⟨s, hs, hday, hfresh, fun hprovisional => ?_⟩
      rw [hreal] at hprovisional
      cases hprovisional
    · exact fun _ _ hnone => absurd hnone List.not_mem_nil
    · exact fun s hs _ => hs

end Runs

/-! A snapshot of New Year's Eve made stale, nothing priced on New Year's Day, and
the day after's price entered while the run is under way. -/

def newYearsEve : NaiveDate := ymd 2025 12 31

def beforeNewYear : List Event :=
  [.ledger (.putTrade usdPurchase []), .importRate ⟨"USD"⟩ ⟨2024, 1⟩ (2 / 3),
    .importRate ⟨"USD"⟩ ⟨2025, 12⟩ (3 / 4), .importRate ⟨"USD"⟩ ⟨2026, 1⟩ (3 / 4),
    monthEndPrice newYearsEve 2, .generate saturday newYearsEve, monthEndPrice newYearsEve 3]

def newYearTurns : List Turn := [.next, .next, .write (monthEndPrice (ymd 2026 1 2) 4), .next]

theorem newYear_catches_up : Checked.accepts
    (GuardedRun.run (step nearestArithmetic HealthPrices.clocks) usdArchive beforeNewYear) (fun a =>
      Checked.accepts (latestDate HealthPrices.clocks saturday a) (fun latest =>
        decide (heldDates a latest = [newYearsEve, ymd 2026 1 1, ymd 2026 1 2]) &&
          Checked.accepts (catchUp HealthPrices.clocks saturday a) fun j =>
            GuardedRun.meets (turn nearestArithmetic HealthPrices.clocks saturday) turnHeeds j
                newYearTurns &&
              Checked.accepts (GuardedRun.run (turn nearestArithmetic HealthPrices.clocks saturday) j
                newYearTurns) fun j' => decide (j'.pending = []) &&
                  decide (j'.generated = [ymd 2026 1 2, newYearsEve]))) = true := by
  decide +kernel

theorem catch_up_covers_new_year : ∃ a latest j j',
    heldDates a latest = [newYearsEve, ymd 2026 1 1, ymd 2026 1 2] ∧
      j'.generated = [ymd 2026 1 2, newYearsEve] ∧
        CaughtUp nearestArithmetic HealthPrices.clocks saturday a (heldDates a latest)
          (GuardedRun.meets (turn nearestArithmetic HealthPrices.clocks saturday) ownTurn j
            newYearTurns = true) j' := by
  obtain ⟨a, hrun, h⟩ := Checked.accepts_iff.mp newYear_catches_up
  obtain ⟨latest, hlatest, h⟩ := Checked.accepts_iff.mp h
  obtain ⟨hdates, h⟩ := (Bool.and_eq_true _ _).mp h
  obtain ⟨j, hbegins, h⟩ := Checked.accepts_iff.mp h
  obtain ⟨hheeds, h⟩ := (Bool.and_eq_true _ _).mp h
  obtain ⟨j', hturns, h⟩ := Checked.accepts_iff.mp h
  obtain ⟨hdone, hgenerated⟩ := (Bool.and_eq_true _ _).mp h
  exact ⟨a, latest, j, j', of_decide_eq_true hdates, of_decide_eq_true hgenerated,
    catch_up_covers hrun (by decide +kernel) hlatest hbegins hturns hheeds (of_decide_eq_true hdone)⟩

end ShareTracker.Snapshots
