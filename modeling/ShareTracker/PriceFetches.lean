import ShareTracker.Lib.GuardedRun
import ShareTracker.Lib.Checked
import ShareTracker.Calendar
import ShareTracker.Adjustments
import ShareTracker.ClosingPrices

/-!
Price fetches and hand-entered prices interleaved: a fetch reads which days it
needs, waits for the provider, and stores its rows one statement at a time.
-/
namespace ShareTracker.ClosingPrices
open CorporateActions Checked

/-- The calls of `fetch_and_store`. -/
inductive Caller where
  | collection
  | backfill
  | single
  deriving DecidableEq

/-- How far a fetch has come with the listing it is on. -/
inductive Phase where
  | reading
  | waiting (listing : ListingId) (dates : List NaiveDate)
  | answered (listing : ListingId) (observed : NaiveDate)
      (outcomes : List (NaiveDate × Except String ℚ))
  | storing (listing : ListingId) (observed : NaiveDate) (events : List PriceBasisEvent)
      (outcomes : List (NaiveDate × Except String ℚ))

/-- A call in flight, with the listings it has still to come to. -/
structure Fetch where
  caller : Caller
  listings : List ListingId
  phase : Phase

inductive FetchRefusal where
  | entry (why : Refusal)
  | enteredManually
  | notReady
  deriving DecidableEq

/-- The days of `first..=last`. -/
def daysBetween (first last : NaiveDate) : List NaiveDate :=
  (List.range (last.dayNumber - first.dayNumber + 1).toNat).map first.addDays

theorem daysBetween_nodup (first last : NaiveDate) : (daysBetween first last).Nodup := by
  refine List.nodup_range.map fun m n h => ?_
  have hnum := congrArg NaiveDate.dayNumber h
  rw [NaiveDate.dayNumber_addDays, NaiveDate.dayNumber_addDays] at hnum
  omega

theorem mem_daysBetween {first last date : NaiveDate} :
    date ∈ daysBetween first last ↔ first ≤ date ∧ date ≤ last := by
  rw [daysBetween, List.mem_map]
  constructor
  · rintro ⟨n, hn, rfl⟩
    have hlt := List.mem_range.mp hn
    rw [← NaiveDate.dayNumber_le, ← NaiveDate.dayNumber_le, NaiveDate.dayNumber_addDays]
    omega
  · rintro ⟨hfirst, hlast⟩
    have hle := NaiveDate.dayNumber_le.mpr hlast
    refine ⟨_, List.mem_range.mpr ?_, (NaiveDate.exists_addDays hfirst).symm⟩
    have hge := NaiveDate.dayNumber_le.mpr hfirst
    omega

def isManual (row : ClosingPrice) : Bool :=
  match row.quote with
  | .manual .. => true
  | .fetched .. | .errored .. => false

def isOk (row : ClosingPrice) : Bool := !Book.isErrored row

namespace Book

def rowAt (s : Book) (day : ListingId × NaiveDate) : Option ClosingPrice :=
  Keyed.get? ClosingPrice.day s.prices day

def manualAt (s : Book) (day : ListingId × NaiveDate) : Bool := (s.rowAt day).any isManual

def okAt (s : Book) (day : ListingId × NaiveDate) : Bool := (s.rowAt day).any isOk

/-- The days a call asks the provider for: collection and backfill those with
no ok row, a single re-fetch its one day unless the row there is manual. -/
def wanted (s : Book) (caller : Caller) (listing : ListingId) (first last : NaiveDate)
    (quoted : NaiveDate → Bool) : Except FetchRefusal (List NaiveDate) :=
  match caller with
  | .collection | .backfill =>
    .ok (((daysBetween first last).filter quoted).filter fun date => !s.okAt (listing, date))
  | .single => if s.manualAt (listing, first) then .error .enteredManually else .ok [first]

end Book

/-- `outcome.remove(&date)` for each date asked for, in turn. -/
def takeOutcomes (outcome : NaiveDate → Option (Except String ℚ)) :
    List NaiveDate → List (NaiveDate × Except String ℚ)
  | [] => []
  | date :: dates =>
    (date, (outcome date).getD (.error "no identity span covers this date")) ::
      takeOutcomes (Function.update outcome date none) dates

namespace Fetch

/-- Read what is stored for the next listing; with no day to ask for, go on. -/
def read (f : Fetch) (s : Book) (first last : NaiveDate) (quoted : NaiveDate → Bool) :
    Except FetchRefusal Fetch :=
  match f.phase, f.listings with
  | .reading, listing :: rest => do
      let dates ← s.wanted f.caller listing first last quoted
      .ok { f with
        listings := rest
        phase := if dates = [] then .reading else .waiting listing dates }
  | _, _ => .error .notReady

/-- The provider's answer arrives: the moment the rows are dated by. -/
def answer (f : Fetch) (observed : NaiveDate) (outcome : NaiveDate → Option (Except String ℚ)) :
    Except FetchRefusal Fetch :=
  match f.phase with
  | .waiting listing dates => .ok { f with phase := .answered listing observed (takeOutcomes outcome dates) }
  | _ => .error .notReady

def readEvents (f : Fetch) (s : Book) : Except FetchRefusal Fetch :=
  match f.phase with
  | .answered listing observed outcomes =>
    .ok { f with phase := .storing listing observed (s.priceBasisEvents listing) outcomes }
  | _ => .error .notReady

/-- The row the fetch stores next. -/
def nextRow (f : Fetch) : Option ClosingPrice :=
  match f.phase with
  | .storing listing observed events (outcome :: _) =>
    some (Book.fetchedRow listing observed events outcome)
  | _ => none

/-- The fetch once that row is stored. -/
def stored (f : Fetch) : Fetch :=
  match f.phase with
  | .storing listing observed events (_ :: outcomes) =>
    { f with phase := .storing listing observed events outcomes }
  | _ => f

/-- The listing whose rows are all stored. -/
def finished (f : Fetch) : Option ListingId :=
  match f.phase with
  | .storing listing _ _ [] => some listing
  | _ => none

/-- The days the fetch has still to store. -/
def pending (f : Fetch) : List (ListingId × NaiveDate) :=
  match f.phase with
  | .reading => []
  | .waiting listing dates => dates.map fun date => (listing, date)
  | .answered listing _ outcomes => outcomes.map fun o => (listing, o.1)
  | .storing listing _ _ outcomes => outcomes.map fun o => (listing, o.1)

def failed (outcome : NaiveDate × Except String ℚ) : Bool :=
  match outcome.2 with
  | .ok _ => false
  | .error _ => true

/-- The days it has still to store as errored. -/
def erroring (f : Fetch) : List (ListingId × NaiveDate) :=
  match f.phase with
  | .reading | .waiting .. => []
  | .answered listing _ outcomes => (outcomes.filter failed).map fun o => (listing, o.1)
  | .storing listing _ _ outcomes => (outcomes.filter failed).map fun o => (listing, o.1)

end Fetch

/-- The stored prices and the fetches in flight. -/
structure System where
  book : Book
  fetches : List Fetch

inductive DbStep where
  | putManual (listing : ListingId) (date observed : NaiveDate) (price : ℚ)
      (sourcedFrom reason : String)
  | collect (listings : List ListingId)
  | backfill (listing : ListingId)
  | fetchOne (listing : ListingId)
  | read (fetch : ℕ) (first last : NaiveDate) (quoted : NaiveDate → Bool)
  | answer (fetch : ℕ) (observed : NaiveDate) (outcome : NaiveDate → Option (Except String ℚ))
  | readEvents (fetch : ℕ)
  | storeRow (fetch : ℕ)
  | rebase (fetch : ℕ)
  | abandon (fetch : ℕ)

namespace System

def idle (book : Book) : System := ⟨book, []⟩

def begin (s : System) (caller : Caller) (listings : List ListingId) : System :=
  { s with fetches := s.fetches ++ [⟨caller, listings, .reading⟩] }

def fetchAt (s : System) (i : ℕ) : Except FetchRefusal Fetch := orRefuse s.fetches[i]? .notReady

def setFetch (s : System) (i : ℕ) (f : Fetch) : System := { s with fetches := s.fetches.set i f }

/-- One database step of one of the parties, or the provider's answer to one. -/
def step (s : System) : DbStep → Except FetchRefusal System
  | .putManual listing date observed price sourcedFrom reason => do
      let book ← (s.book.putManual listing date observed price sourcedFrom reason).mapError .entry
      .ok { s with book }
  | .collect listings => .ok (s.begin .collection listings)
  | .backfill listing => .ok (s.begin .backfill [listing])
  | .fetchOne listing => .ok (s.begin .single [listing])
  | .read i first last quoted => do
      let f ← s.fetchAt i
      let f' ← f.read s.book first last quoted
      .ok (s.setFetch i f')
  | .answer i observed outcome => do
      let f ← s.fetchAt i
      let f' ← f.answer observed outcome
      .ok (s.setFetch i f')
  | .readEvents i => do
      let f ← s.fetchAt i
      let f' ← f.readEvents s.book
      .ok (s.setFetch i f')
  | .storeRow i => do
      let f ← s.fetchAt i
      let row ← orRefuse f.nextRow .notReady
      .ok { s.setFetch i f.stored with book := s.book.store row }
  | .rebase i => do
      let f ← s.fetchAt i
      let listing ← orRefuse f.finished .notReady
      .ok { s.setFetch i { f with phase := .reading } with
        book := s.book.rebaseListingPrices listing }
  | .abandon i => do
      let _ ← s.fetchAt i
      .ok { s with fetches := s.fetches.eraseIdx i }

/-- Whether the step stores a row of a single re-fetch. -/
def refetches (s : System) : DbStep → Bool
  | .storeRow i => s.fetches[i]?.any fun f => f.caller = .single
  | _ => false

/-- Whether a collection or backfill has still to store the day as errored. -/
def errorsAt (day : ListingId × NaiveDate) (f : Fetch) : Bool :=
  f.caller ≠ .single && decide (day ∈ f.erroring)

/-- Whether the step puts nothing where a fetch in flight is about to write
over it: no price is entered by hand for a day still to be stored, no day
stored ok is answered with a failure, and no ok row is stored for a day another
collection or backfill has still to store as errored. -/
def undisturbed (s : System) : DbStep → Bool
  | .putManual listing date .. => s.fetches.all fun f => decide ((listing, date) ∉ f.pending)
  | .answer i observed outcome =>
    accepts (s.fetchAt i) fun f => accepts (f.answer observed outcome) fun f' =>
      s.book.prices.all fun row => !isOk row || !errorsAt row.day f'
  | .storeRow i =>
    accepts (s.fetchAt i) fun f => f.nextRow.all fun row =>
      !isOk row || (s.fetches.eraseIdx i).all fun other => !errorsAt row.day other
  | _ => true

end System

/-! ### What a day's row is after a write -/

namespace Book

theorem rowAt_store (s : Book) (row : ClosingPrice) (day : ListingId × NaiveDate) :
    (s.store row).rowAt day = if day = row.day then some row else s.rowAt day := by
  split
  · rename_i h
    rw [h]
    exact Keyed.get?_put_self s.days_unique row
  · rename_i h
    exact Keyed.get?_put_ne s.days_unique h

theorem rowAt_rebase (s : Book) (listing : ListingId) (day : ListingId × NaiveDate) :
    (s.rebaseListingPrices listing).rowAt day =
      (s.rowAt day).map (rederiveOn listing (s.priceBasisEvents listing)) :=
  Keyed.get?_map (rederiveOn_day listing _) day

theorem isManual_rederiveOn (listing : ListingId) (events : List PriceBasisEvent)
    (row : ClosingPrice) : isManual (rederiveOn listing events row) = isManual row := by
  obtain ⟨l, date, observed, quote⟩ := row
  unfold rederiveOn
  split
  · cases quote <;> rfl
  · rfl

theorem isOk_rederiveOn (listing : ListingId) (events : List PriceBasisEvent)
    (row : ClosingPrice) : isOk (rederiveOn listing events row) = isOk row := by
  obtain ⟨l, date, observed, quote⟩ := row
  unfold rederiveOn
  split
  · cases quote <;> rfl
  · rfl

theorem manualAt_rebase (s : Book) (listing : ListingId) :
    (s.rebaseListingPrices listing).manualAt = s.manualAt := by
  funext day
  rw [manualAt, rowAt_rebase, Option.any_map, manualAt]
  congr 1
  funext row
  exact isManual_rederiveOn listing _ row

theorem okAt_rebase (s : Book) (listing : ListingId) :
    (s.rebaseListingPrices listing).okAt = s.okAt := by
  funext day
  rw [okAt, rowAt_rebase, Option.any_map, okAt]
  congr 1
  funext row
  exact isOk_rederiveOn listing _ row

theorem manualAt_store (s : Book) (row : ClosingPrice) (day : ListingId × NaiveDate) :
    (s.store row).manualAt day = if day = row.day then isManual row else s.manualAt day := by
  rw [manualAt, rowAt_store]
  split <;> rfl

theorem okAt_store (s : Book) (row : ClosingPrice) (day : ListingId × NaiveDate) :
    (s.store row).okAt day = if day = row.day then isOk row else s.okAt day := by
  rw [okAt, rowAt_store]
  split <;> rfl

theorem okAt_of_row {s : Book} {day : ListingId × NaiveDate} (h : s.okAt day = true) :
    ∃ row ∈ s.prices, row.day = day ∧ isOk row = true := by
  obtain ⟨row, hrow, hok⟩ := (Option.any_eq_true _ _).mp h
  obtain ⟨hmem, hday⟩ := (Keyed.get?_eq_some s.days_unique).mp hrow
  exact ⟨row, hmem, hday, hok⟩

/-- A manual row is an ok row. -/
theorem okAt_of_manualAt {s : Book} {day : ListingId × NaiveDate} (h : s.manualAt day = true) :
    s.okAt day = true := by
  obtain ⟨⟨l, date, observed, quote⟩, hrow, hmanual⟩ := (Option.any_eq_true _ _).mp h
  refine (Option.any_eq_true _ _).mpr ⟨_, hrow, ?_⟩
  cases quote with
  | manual => rfl
  | fetched => cases hmanual
  | errored => cases hmanual

theorem fetchedRow_not_manual (listing : ListingId) (observed : NaiveDate)
    (events : List PriceBasisEvent) (outcome : NaiveDate × Except String ℚ) :
    isManual (fetchedRow listing observed events outcome) = false := by
  obtain ⟨date, result⟩ := outcome
  cases result <;> rfl

theorem isOk_fetchedRow (listing : ListingId) (observed : NaiveDate)
    (events : List PriceBasisEvent) (outcome : NaiveDate × Except String ℚ) :
    isOk (fetchedRow listing observed events outcome) = !Fetch.failed outcome := by
  obtain ⟨date, result⟩ := outcome
  cases result <;> rfl

end Book

/-! ### The days a fetch may still write -/

theorem takeOutcomes_dates (outcome : NaiveDate → Option (Except String ℚ))
    (dates : List NaiveDate) : (takeOutcomes outcome dates).map Prod.fst = dates := by
  induction dates generalizing outcome with
  | nil => rfl
  | cons date dates ih => rw [takeOutcomes, List.map_cons, ih]

/-- The days of a fetch with a listing's rows still to come. -/
theorem map_days (listing : ListingId) (outcomes : List (NaiveDate × Except String ℚ)) :
    (outcomes.map fun o => (listing, o.1)) =
      (outcomes.map Prod.fst).map fun date => (listing, date) := by
  rw [List.map_map]
  rfl

namespace Fetch

/-- What a fetch may still write over: no day it has to store is manual, nor,
for a collection or backfill, is a day it has to store as errored ok. -/
structure Safe (s : Book) (f : Fetch) : Prop where
  nodup : f.pending.Nodup
  notManual : ∀ day ∈ f.pending, s.manualAt day = false
  notOk : f.caller ≠ .single → ∀ day ∈ f.erroring, s.okAt day = false

theorem Safe.reading {s : Book} {f : Fetch} (h : f.phase = .reading) : f.Safe s where
  nodup := by simp [pending, h]
  notManual := by simp [pending, h]
  notOk := by simp [erroring, h]

/-- A change of the book that touches none of the fetch's days. -/
theorem Safe.congr {s s' : Book} {f : Fetch} (h : f.Safe s)
    (hmanual : ∀ day ∈ f.pending, s'.manualAt day = s.manualAt day)
    (hok : f.caller ≠ .single → ∀ day ∈ f.erroring, s'.okAt day = s.okAt day) : f.Safe s' where
  nodup := h.nodup
  notManual := by
    intro day hday
    rw [hmanual day hday]
    exact h.notManual day hday
  notOk := by
    intro hcaller day hday
    rw [hok hcaller day hday]
    exact h.notOk hcaller day hday

theorem erroring_sublist (f : Fetch) : f.erroring.Sublist f.pending := by
  unfold erroring pending
  cases f.phase with
  | reading => exact List.Sublist.refl []
  | waiting listing dates => exact List.nil_sublist _
  | answered listing observed outcomes => exact List.filter_sublist.map _
  | storing listing observed events outcomes => exact List.filter_sublist.map _

theorem Safe.read {s : Book} {f f' : Fetch} {first last : NaiveDate} {quoted : NaiveDate → Bool}
    (hok : f.read s first last quoted = .ok f') : f'.Safe s := by
  obtain ⟨caller, listings, phase⟩ := f
  cases phase with
  | waiting | answered | storing => cases listings <;> cases hok
  | reading =>
    cases listings with
    | nil => cases hok
    | cons listing rest =>
      obtain ⟨dates, hdates, hf⟩ := bind_ok hok
      obtain rfl := Except.ok.inj hf
      by_cases hempty : dates = []
      · exact Safe.reading (if_pos hempty)
      · have hwant : dates.Nodup ∧ ∀ date ∈ dates, s.manualAt (listing, date) = false := by
          cases caller with
          | single =>
            change (if s.manualAt (listing, first) then .error FetchRefusal.enteredManually
              else .ok [first]) = Except.ok dates at hdates
            split at hdates
            · cases hdates
            · rename_i hfree
              obtain rfl := Except.ok.inj hdates
              exact ⟨List.nodup_singleton _, fun date hdate =>
                List.mem_singleton.mp hdate ▸ Bool.eq_false_iff.mpr hfree⟩
          | collection | backfill =>
            obtain rfl := Except.ok.inj hdates
            refine ⟨((daysBetween_nodup first last).filter _).filter _, fun date hdate => ?_⟩
            have hnot := (List.mem_filter.mp hdate).2
            rw [Bool.not_eq_true'] at hnot
            exact Bool.eq_false_iff.mpr fun hmanual =>
              Bool.eq_false_iff.mp hnot (Book.okAt_of_manualAt hmanual)
        refine ⟨?_, ?_, ?_⟩
        · simp only [pending, if_neg hempty]
          exact hwant.1.map fun a b h => congrArg Prod.snd h
        · simp only [pending, if_neg hempty]
          intro day hday
          obtain ⟨date, hdate, rfl⟩ := List.mem_map.mp hday
          exact hwant.2 date hdate
        · simp [erroring, if_neg hempty]

theorem answer_pending {f f' : Fetch} {observed : NaiveDate}
    {outcome : NaiveDate → Option (Except String ℚ)} (hok : f.answer observed outcome = .ok f') :
    f'.caller = f.caller ∧ f'.pending = f.pending := by
  unfold answer at hok
  split at hok
  · rename_i listing dates hphase
    obtain rfl := Except.ok.inj hok
    refine ⟨rfl, ?_⟩
    simp only [pending, hphase]
    rw [map_days, takeOutcomes_dates]
  · cases hok

theorem readEvents_pending {f f' : Fetch} {s : Book} (hok : f.readEvents s = .ok f') :
    f'.caller = f.caller ∧ f'.pending = f.pending ∧ f'.erroring = f.erroring := by
  unfold readEvents at hok
  split at hok
  · rename_i hphase
    obtain rfl := Except.ok.inj hok
    refine ⟨rfl, ?_, ?_⟩
    · simp only [pending, hphase]
    · simp only [erroring, hphase]
  · cases hok

/-- Storing a row takes its day off what the fetch has still to store. -/
theorem nextRow_pending {f : Fetch} {row : ClosingPrice} (h : f.nextRow = some row) :
    f.pending = row.day :: f.stored.pending ∧
      f.erroring = (if isOk row then [] else [row.day]) ++ f.stored.erroring ∧
      f.stored.caller = f.caller ∧ isManual row = false := by
  unfold nextRow at h
  split at h
  · rename_i listing observed events outcome outcomes hphase
    obtain rfl := Option.some.inj h
    refine ⟨?_, ?_, ?_, Book.fetchedRow_not_manual listing observed events outcome⟩
    · simp only [pending, stored, hphase]
      rfl
    · simp only [erroring, stored, hphase, List.filter_cons, Book.isOk_fetchedRow]
      cases failed outcome <;> rfl
    · simp only [stored, hphase]
  · cases h

end Fetch

namespace System

/-- Every fetch in flight is safe to let go on. -/
def Safe (s : System) : Prop := ∀ f ∈ s.fetches, f.Safe s.book

theorem mem_of_fetchAt {s : System} {i : ℕ} {f : Fetch} (h : s.fetchAt i = .ok f) :
    f ∈ s.fetches := List.mem_of_getElem? (orRefuse_ok.mp h)

theorem mem_set {α : Type*} {l : List α} {i : ℕ} {a b : α} (h : b ∈ l.set i a) :
    b = a ∨ b ∈ l.eraseIdx i := by
  induction l generalizing i with
  | nil => exact absurd h List.not_mem_nil
  | cons c l ih =>
    cases i with
    | zero =>
      rw [List.set_cons_zero] at h
      exact List.mem_cons.mp h
    | succ i =>
      rw [List.set_cons_succ] at h
      rw [List.eraseIdx_cons_succ]
      rcases List.mem_cons.mp h with rfl | h
      · exact Or.inr List.mem_cons_self
      · exact (ih h).imp_right (List.mem_cons_of_mem c)

theorem Safe.setFetch {s : System} {i : ℕ} {f : Fetch} (h : s.Safe) (hf : f.Safe s.book) :
    (s.setFetch i f).Safe := by
  intro other hother
  rcases mem_set hother with rfl | hmem
  · exact hf
  · exact h other (List.mem_of_mem_eraseIdx hmem)

/-- A row stored in place of none that a listed fetch may still write over. -/
theorem safe_store {s : Book} {row : ClosingPrice} {f : Fetch} (h : f.Safe s)
    (hmanual : isManual row = true → row.day ∉ f.pending)
    (hok : isOk row = true → f.caller ≠ .single → row.day ∉ f.erroring) : f.Safe (s.store row) where
  nodup := h.nodup
  notManual := by
    intro day hday
    rw [Book.manualAt_store]
    split
    · rename_i heq
      exact Bool.eq_false_iff.mpr fun hrow => hmanual hrow (heq ▸ hday)
    · exact h.notManual day hday
  notOk := by
    intro hcaller day hday
    rw [Book.okAt_store]
    split
    · rename_i heq
      exact Bool.eq_false_iff.mpr fun hrow => hok hrow hcaller (heq ▸ hday)
    · exact h.notOk hcaller day hday

theorem putManual_ok {s s' : Book} {listing : ListingId} {date observed : NaiveDate} {price : ℚ}
    {sourcedFrom reason : String}
    (hok : s.putManual listing date observed price sourcedFrom reason = .ok s') :
    s' = s.store ⟨listing, date, observed, .manual price sourcedFrom reason⟩ := by
  unfold Book.putManual at hok
  split at hok
  · cases hok
  · split at hok
    · cases hok
    · split at hok
      · cases hok
      · exact (Except.ok.inj hok).symm

/-- What a row being stored does to the system, whoever is to store it. -/
theorem Safe.storeRow {s : System} {i : ℕ} {f : Fetch} {row : ClosingPrice} (h : s.Safe)
    (hf : s.fetchAt i = .ok f) (hrow : f.nextRow = some row)
    (hgood : s.undisturbed (.storeRow i) = true) :
    Safe { s.setFetch i f.stored with book := s.book.store row } := by
  obtain ⟨hpending, herroring, hcaller, hnot⟩ := Fetch.nextRow_pending hrow
  have hsafe := h f (mem_of_fetchAt hf)
  obtain ⟨hday, hrest⟩ := List.nodup_cons.mp (hpending ▸ hsafe.nodup)
  have hothers : isOk row = true → ∀ other ∈ s.fetches.eraseIdx i,
      errorsAt row.day other = false := by
    intro hok other hother
    simp only [undisturbed, hf, accepts, hrow, Option.all_some, hok, Bool.not_true,
      Bool.false_or] at hgood
    exact (Bool.not_eq_true' _).mp (List.all_eq_true.mp hgood other hother)
  intro other hother
  rcases mem_set hother with rfl | hmem
  · refine safe_store ⟨hrest, ?_, ?_⟩ (fun hmanual => absurd hmanual (Bool.eq_false_iff.mp hnot))
      fun _ _ hmem => hday ((Fetch.erroring_sublist _).subset hmem)
    · intro day hmem
      exact hsafe.notManual day (hpending ▸ List.mem_cons_of_mem _ hmem)
    · intro hsingle day hmem
      exact hsafe.notOk (hcaller ▸ hsingle) day
        (herroring ▸ List.mem_append_right _ hmem)
  · refine safe_store (h other (List.mem_of_mem_eraseIdx hmem))
      (fun hmanual => absurd hmanual (Bool.eq_false_iff.mp hnot)) fun hok hsingle hpend => ?_
    have hfree := hothers hok other hmem
    simp [errorsAt, hsingle, hpend] at hfree

/-- An undisturbed step keeps every fetch safe. -/
theorem Safe.step {s s' : System} {w : DbStep} (h : s.Safe) (hgood : s.undisturbed w = true)
    (hok : s.step w = .ok s') : s'.Safe := by
  cases w with
  | collect listings =>
    obtain rfl := Except.ok.inj hok
    intro f hf
    rcases List.mem_append.mp hf with hf | hf
    · exact h f hf
    · exact Fetch.Safe.reading (congrArg Fetch.phase (List.mem_singleton.mp hf))
  | backfill listing =>
    obtain rfl := Except.ok.inj hok
    intro f hf
    rcases List.mem_append.mp hf with hf | hf
    · exact h f hf
    · exact Fetch.Safe.reading (congrArg Fetch.phase (List.mem_singleton.mp hf))
  | fetchOne listing =>
    obtain rfl := Except.ok.inj hok
    intro f hf
    rcases List.mem_append.mp hf with hf | hf
    · exact h f hf
    · exact Fetch.Safe.reading (congrArg Fetch.phase (List.mem_singleton.mp hf))
  | putManual listing date observed price sourcedFrom reason =>
    obtain ⟨book, hbook, hs⟩ := bind_ok hok
    obtain rfl := Except.ok.inj hs
    obtain rfl := putManual_ok (mapError_ok.mp hbook)
    intro f hf
    have hfree : (listing, date) ∉ f.pending :=
      of_decide_eq_true (List.all_eq_true.mp hgood f hf)
    exact safe_store (h f hf) (fun _ => hfree) fun _ _ hmem =>
      hfree ((Fetch.erroring_sublist f).subset hmem)
  | read i first last quoted =>
    obtain ⟨f, -, hrest⟩ := bind_ok hok
    obtain ⟨f', hf', hs⟩ := bind_ok hrest
    obtain rfl := Except.ok.inj hs
    exact h.setFetch (Fetch.Safe.read hf')
  | answer i observed outcome =>
    obtain ⟨f, hf, hrest⟩ := bind_ok hok
    obtain ⟨f', hf', hs⟩ := bind_ok hrest
    obtain rfl := Except.ok.inj hs
    obtain ⟨-, hpending⟩ := Fetch.answer_pending hf'
    have hsafe := h f (mem_of_fetchAt hf)
    refine h.setFetch ⟨hpending ▸ hsafe.nodup, hpending ▸ hsafe.notManual, ?_⟩
    intro hsingle day hday
    simp only [undisturbed, hf, accepts, hf'] at hgood
    refine Bool.eq_false_iff.mpr fun hokay => ?_
    obtain ⟨row, hrow, rfl, hrowok⟩ := Book.okAt_of_row hokay
    have hall := List.all_eq_true.mp hgood row hrow
    simp [hrowok, errorsAt, hsingle, hday] at hall
  | readEvents i =>
    obtain ⟨f, hf, hrest⟩ := bind_ok hok
    obtain ⟨f', hf', hs⟩ := bind_ok hrest
    obtain rfl := Except.ok.inj hs
    obtain ⟨hcaller, hpending, herroring⟩ := Fetch.readEvents_pending hf'
    have hsafe := h f (mem_of_fetchAt hf)
    exact h.setFetch ⟨hpending ▸ hsafe.nodup, hpending ▸ hsafe.notManual,
      hcaller ▸ herroring ▸ hsafe.notOk⟩
  | storeRow i =>
    obtain ⟨f, hf, hrest⟩ := bind_ok hok
    obtain ⟨row, hrow, hs⟩ := bind_ok hrest
    obtain rfl := Except.ok.inj hs
    exact h.storeRow hf (orRefuse_ok.mp hrow) hgood
  | rebase i =>
    obtain ⟨f, hf, hrest⟩ := bind_ok hok
    obtain ⟨listing, hlisting, hs⟩ := bind_ok hrest
    obtain rfl := Except.ok.inj hs
    intro other hother
    rcases mem_set hother with rfl | hmem
    · exact Fetch.Safe.reading rfl
    · refine (h other (List.mem_of_mem_eraseIdx hmem)).congr ?_ ?_
      · exact fun day _ => congrFun (Book.manualAt_rebase s.book listing) day
      · exact fun _ day _ => congrFun (Book.okAt_rebase s.book listing) day
  | abandon i =>
    obtain ⟨f, -, hs⟩ := bind_ok hok
    obtain rfl := Except.ok.inj hs
    exact fun other hother => h other (List.mem_of_mem_eraseIdx hother)

/-! ### What a step leaves as it was -/

/-- What the one row a step stores is, where it stores one. -/
theorem step_book {s s' : System} {w : DbStep} (hok : s.step w = .ok s') :
    (s'.book.manualAt = s.book.manualAt ∧ s'.book.okAt = s.book.okAt) ∨
      (∃ row, s'.book = s.book.store row ∧ isManual row = true ∧ isOk row = true) ∨
      ∃ i f row, w = .storeRow i ∧ s.fetchAt i = .ok f ∧ f.nextRow = some row ∧
        s'.book = s.book.store row := by
  cases w with
  | collect | backfill | fetchOne =>
    obtain rfl := Except.ok.inj hok
    exact Or.inl ⟨rfl, rfl⟩
  | putManual listing date observed price sourcedFrom reason =>
    obtain ⟨book, hbook, hs⟩ := bind_ok hok
    obtain rfl := Except.ok.inj hs
    exact Or.inr (Or.inl ⟨_, putManual_ok (mapError_ok.mp hbook), rfl, rfl⟩)
  | read | answer | readEvents =>
    obtain ⟨f, -, hrest⟩ := bind_ok hok
    obtain ⟨f', -, hs⟩ := bind_ok hrest
    obtain rfl := Except.ok.inj hs
    exact Or.inl ⟨rfl, rfl⟩
  | storeRow i =>
    obtain ⟨f, hf, hrest⟩ := bind_ok hok
    obtain ⟨row, hrow, hs⟩ := bind_ok hrest
    obtain rfl := Except.ok.inj hs
    exact Or.inr (Or.inr ⟨i, f, row, rfl, hf, orRefuse_ok.mp hrow, rfl⟩)
  | rebase i =>
    obtain ⟨f, -, hrest⟩ := bind_ok hok
    obtain ⟨listing, -, hs⟩ := bind_ok hrest
    obtain rfl := Except.ok.inj hs
    exact Or.inl ⟨Book.manualAt_rebase s.book listing, Book.okAt_rebase s.book listing⟩
  | abandon i =>
    obtain ⟨f, -, hs⟩ := bind_ok hok
    obtain rfl := Except.ok.inj hs
    exact Or.inl ⟨rfl, rfl⟩

/-- No step from a safe state takes a manual row back. -/
theorem Safe.manualAt_step {s s' : System} {w : DbStep} (h : s.Safe) (hok : s.step w = .ok s')
    {day : ListingId × NaiveDate} (hday : s.book.manualAt day = true) :
    s'.book.manualAt day = true := by
  rcases step_book hok with ⟨hsame, -⟩ | ⟨row, hbook, hmanual, -⟩ | ⟨i, f, row, -, hf, hrow, hbook⟩
  · rw [hsame]
    exact hday
  · rw [hbook, Book.manualAt_store]
    split
    · exact hmanual
    · exact hday
  · obtain ⟨hpending, -⟩ := Fetch.nextRow_pending hrow
    have hother : day ≠ row.day := by
      rintro rfl
      have hnot := (h f (mem_of_fetchAt hf)).notManual row.day (hpending ▸ List.mem_cons_self)
      rw [hday] at hnot
      cases hnot
    rw [hbook, Book.manualAt_store, if_neg hother]
    exact hday

/-- No step from a safe state turns an ok row errored but a re-fetch's. -/
theorem Safe.okAt_step {s s' : System} {w : DbStep} (h : s.Safe) (hok : s.step w = .ok s')
    (hcaller : s.refetches w = false) {day : ListingId × NaiveDate} (hday : s.book.okAt day = true) :
    s'.book.okAt day = true := by
  rcases step_book hok with ⟨-, hsame⟩ | ⟨row, hbook, -, hrowok⟩ | ⟨i, f, row, rfl, hf, hrow, hbook⟩
  · rw [hsame]
    exact hday
  · rw [hbook, Book.okAt_store]
    split
    · exact hrowok
    · exact hday
  · obtain ⟨-, herroring, -⟩ := Fetch.nextRow_pending hrow
    rw [hbook, Book.okAt_store]
    split
    · rename_i heq
      by_contra hbad
      have hsingle : f.caller ≠ .single := by
        intro hs
        rw [refetches, orRefuse_ok.mp hf, Option.any_some, hs] at hcaller
        cases hcaller
      have herr : row.day ∈ f.erroring := by
        rw [herroring, if_neg hbad]
        exact List.mem_append_left _ (List.mem_singleton.mpr rfl)
      have hnot := (h f (mem_of_fetchAt hf)).notOk hsingle row.day herr
      rw [← heq, hday] at hnot
      cases hnot
    · exact hday

theorem safe_idle (book : Book) : (idle book).Safe := fun _ hf => absurd hf List.not_mem_nil

theorem run_safe {s s' : System} {steps : List DbStep} (h : s.Safe)
    (hmeets : GuardedRun.meets step undisturbed s steps = true)
    (hrun : GuardedRun.run step s steps = .ok s') : s'.Safe :=
  GuardedRun.invariant (fun _ _ _ hs hgood hok => hs.step hgood hok) h hmeets hrun

/-- In a run no step of which disturbs a fetch in flight, a manual row stays
manual whatever follows it, and no ok row turns errored but by a re-fetch. -/
theorem run_takes_nothing_back (book : Book) (past future : List DbStep) (s s' : System)
    (hpast : GuardedRun.run step (idle book) past = .ok s)
    (hfuture : GuardedRun.run step s future = .ok s')
    (hmeets : GuardedRun.meets step undisturbed (idle book) (past ++ future) = true) :
    (∀ day, s.book.manualAt day = true → s'.book.manualAt day = true) ∧
      ∀ w rest next, future = w :: rest → s.step w = .ok next → s.refetches w = false →
        ∀ day, s.book.okAt day = true → next.book.okAt day = true := by
  obtain ⟨hbefore, hafter⟩ := GuardedRun.meets_append hmeets hpast
  have hsafe := run_safe (safe_idle book) hbefore hpast
  constructor
  · intro day hday
    have hkeeps : ∀ (x : System) (w : DbStep) (x' : System),
        x.Safe ∧ x.book.manualAt day = true → x.undisturbed w = true → x.step w = .ok x' →
          x'.Safe ∧ x'.book.manualAt day = true :=
      fun x w x' hx hgood hok => ⟨hx.1.step hgood hok, hx.1.manualAt_step hok hx.2⟩
    exact (GuardedRun.invariant hkeeps ⟨hsafe, hday⟩ hafter hfuture).2
  · rintro w rest next rfl hok hcaller day hday
    exact hsafe.okAt_step hok hcaller hday

/-- A price entered by hand, and a backfill that reads past it. -/
def passedOver : List DbStep :=
  [.putManual 1 (ymd 2026 1 5) (ymd 2026 1 6) 3 "broker statement" "provider outage",
    .backfill 1, .read 0 (ymd 2026 1 5) (ymd 2026 1 6) fun _ => true]

/-- A re-fetch asks the provider for a day, which is then entered by hand. -/
def overtaken : List DbStep :=
  [.fetchOne 1, .read 0 (ymd 2026 1 5) (ymd 2026 1 5) fun _ => true,
    .putManual 1 (ymd 2026 1 5) (ymd 2026 1 6) 3 "broker statement" "provider outage"]

/-- The provider fails, and what it answered is stored. -/
def failing : List DbStep :=
  [.answer 0 (ymd 2026 1 6) fun _ => some (.error "no candle"), .readEvents 0, .storeRow 0, .rebase 0]

theorem run_takes_nothing_back_passed_over :
    ∃ s s', GuardedRun.run step (idle Book.empty) passedOver = .ok s ∧
      GuardedRun.run step s failing = .ok s' ∧
      ∀ day, s.book.manualAt day = true → s'.book.manualAt day = true := by
  have hruns : accepts (GuardedRun.run step (idle Book.empty) passedOver) (fun s =>
      accepts (GuardedRun.run step s failing) fun _ => true) = true := by
    decide
  obtain ⟨s, hs, hrest⟩ := accepts_iff.mp hruns
  obtain ⟨s', hs'⟩ := exists_ok hrest
  exact ⟨s, s', hs, hs', (run_takes_nothing_back Book.empty passedOver failing s s' hs hs'
    (by decide)).1⟩

theorem run_takes_manual_back :
    ∃ s s', GuardedRun.run step (idle Book.empty) overtaken = .ok s ∧
      GuardedRun.run step s failing = .ok s' ∧ s.book.manualAt (1, ymd 2026 1 5) = true ∧
      s'.book.manualAt (1, ymd 2026 1 5) = false ∧ s'.book.okAt (1, ymd 2026 1 5) = false := by
  have hruns : accepts (GuardedRun.run step (idle Book.empty) overtaken) (fun s =>
      accepts (GuardedRun.run step s failing) fun s' =>
        s.book.manualAt (1, ymd 2026 1 5) && !s'.book.manualAt (1, ymd 2026 1 5) &&
          !s'.book.okAt (1, ymd 2026 1 5)) = true := by
    decide
  obtain ⟨s, hs, hrest⟩ := accepts_iff.mp hruns
  obtain ⟨s', hs', hdays⟩ := accepts_iff.mp hrest
  simp only [Bool.and_eq_true, Bool.not_eq_true'] at hdays
  exact ⟨s, s', hs, hs', hdays.1.1, hdays.1.2, hdays.2⟩

end System

end ShareTracker.ClosingPrices
