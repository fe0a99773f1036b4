import ShareTracker.HeldTimeline
import ShareTracker.Drp
import ShareTracker.TradeAmounts
import ShareTracker.Calendar
import ShareTracker.Lib.GreedyMatching

/-!
The distribution calendar: each announced distribution matched to an income
row of every account that held units the day before its ex-date, the newest
ex-date first and each taking the nearest row no other has claimed. The walk
builds a maximal matching, not always the largest one.
-/
namespace ShareTracker.DistributionCalendar

def dividendMatchBeforeDays : ℤ := 15
def dividendMatchAfterDays : ℕ := 45
def dividendAmountTolerancePercent : ℚ := 2
def dividendAmountToleranceFloor : ℚ := 1

/-- A stored calendar event; a `fetched_at` that cannot be read has no date. -/
structure CalendarEventRow where
  listing : ListingId
  exDate : NaiveDate
  amountPerUnit : ℚ
  currency : CurrencyCode
  fetchedAt : Option NaiveDate
  deriving DecidableEq

/-- A reinvestment's place in the registry's running cash surplus. -/
structure DrpReinvestmentRow where
  listing : ListingId
  account : HoldingAccountId
  date : NaiveDate
  residualBroughtForward : ℚ
  residualCarriedForward : ℚ
  deriving DecidableEq

structure MissingDividendEntry where
  listing : ListingId
  account : HoldingAccountId
  exDate : NaiveDate
  unitsHeld : ℚ
  amountPerUnit : ℚ
  expectedAmount : ℚ
  currency : CurrencyCode
  expectedPaymentBy : NaiveDate
  awaitingPayment : Bool
  deriving DecidableEq

structure DividendAmountMismatch where
  incomeId : ℤ
  listing : ListingId
  account : HoldingAccountId
  exDate : NaiveDate
  datePaid : NaiveDate
  unitsHeld : ℚ
  amountPerUnit : ℚ
  expectedAmount : ℚ
  recordedAmount : ℚ
  amountDifference : ℚ
  currency : CurrencyCode
  deriving DecidableEq

inductive CalendarError where
  | overflow
  | unreadableFetchedAt (listing : ListingId) (exDate : NaiveDate)
  deriving DecidableEq

instance panicsCalendarError : Panics CalendarError := ⟨.overflow⟩

/-- What the alerts are read from, each table under its unique key. -/
structure Books where
  ledger : Ledger
  events : List CalendarEventRow
  income : List Drp.Income
  reinvestments : List DrpReinvestmentRow
  events_unique : (events.map fun e => (e.listing, e.exDate)).Nodup
  income_unique : (income.map Drp.Income.id).Nodup

/-! ### One row and one ex-date -/

/-- The dates a row can be anchored on, each with how far before the ex-date it
may fall: a payment cannot precede its own ex-date. -/
def anchors (row : Drp.Income) : List (NaiveDate × ℤ) :=
  (row.exDate.toList ++ row.entitlementDate.toList).map (fun anchor => (anchor, -dividendMatchBeforeDays)) ++
    [(row.datePaid, 0)]

/-- How far a row sits from `exDate`, the anchor on or after it first at equal
distance; none where no date of the row is inside the window. -/
def distanceFrom (row : Drp.Income) (exDate : NaiveDate) : Option (ℕ ×ₗ Bool) :=
  ((anchors row).filterMap fun anchor =>
    let days := anchor.1.dayNumber - exDate.dayNumber
    if anchor.2 ≤ days ∧ days ≤ dividendMatchAfterDays then some (toLex (days.natAbs, decide (days < 0)))
    else none).min?

namespace Books
variable (b : Books)

/-- The payments of one holder, ascending by date. -/
def payments (listing : ListingId) (account : HoldingAccountId) : List DrpReinvestmentRow :=
  StableSort.sortBy DrpReinvestmentRow.date
    (b.reinvestments.filter fun p => p.listing = listing && p.account = account)

/-- Whether the registry's surplus arrives intact across `exDate`. -/
def closesAcross (listing : ListingId) (account : HoldingAccountId) (exDate : NaiveDate) : Bool :=
  match (b.payments listing account).reverse.find? fun p => p.date < exDate,
      (b.payments listing account).find? fun p => exDate < p.date with
  | some before, some after =>
    !(after.date.dayNumber - exDate.dayNumber ≤ dividendMatchAfterDays) &&
      decide (0 < before.residualCarriedForward) &&
      decide (before.residualCarriedForward = after.residualBroughtForward)
  | _, _ => false

/-- The income rows of one holder: the dividends alone. -/
def holderRows (listing : ListingId) (account : HoldingAccountId) : List Drp.Income :=
  b.income.filter fun row =>
    row.incomeType = .dividend && row.listing = listing && row.account = account

end Books

/-! ### The walk -/

/-- What the walk has built; each claimed row stands beside the event claiming it. -/
structure MatchState where
  claimed : List (CalendarEventRow × Drp.Income)
  paymentLags : List (ListingId × ℕ)
  missing : List MissingDividendEntry
  mismatches : List DividendAmountMismatch

namespace MatchState

def start : MatchState := ⟨[], [], [], []⟩

def isClaimed (st : MatchState) (row : Drp.Income) : Bool :=
  st.claimed.any fun claim => claim.2.id = row.id

/-- The longest gap from ex-date to payment seen so far for a listing. -/
def lagOf (st : MatchState) (listing : ListingId) : Option ℕ :=
  (Keyed.get? Prod.fst st.paymentLags listing).map Prod.snd

def claim (st : MatchState) (event : CalendarEventRow) (row : Drp.Income) : MatchState :=
  let lag := min (row.datePaid.dayNumber - event.exDate.dayNumber).toNat dividendMatchAfterDays
  { st with
    claimed := (event, row) :: st.claimed
    paymentLags := Keyed.put Prod.fst st.paymentLags
      (event.listing, ((st.lagOf event.listing).map fun longest => max longest lag).getD lag) }

def expectedPaymentLagDays (st : MatchState) (listing : ListingId) : ℕ :=
  (st.lagOf listing).getD dividendMatchAfterDays

/-- A missing entry with its due date, once every match is known. -/
def due (st : MatchState) (today : NaiveDate) (entry : MissingDividendEntry) : MissingDividendEntry :=
  let dueBy := entry.exDate.addDays (st.expectedPaymentLagDays entry.listing)
  { entry with expectedPaymentBy := dueBy, awaitingPayment := decide (today ≤ dueBy) }

end MatchState

namespace Books
variable (D : DecimalRounding) (b : Books)

/-- The nearest unclaimed row, the lower id where two are equally near. -/
def matchFor (st : MatchState) (event : CalendarEventRow) (account : HoldingAccountId) :
    Option Drp.Income :=
  let found := ((b.holderRows event.listing account).filter fun row => !st.isClaimed row).filterMap
    fun row => (distanceFrom row event.exDate).map fun distance => (distance, row)
  (StableSort.sortBy (fun near => toLex (near.1, near.2.id)) found).head?.map Prod.snd

/-- The tolerance an amount may differ by. -/
def tolerance (expected : ℚ) : Attempt CalendarError ℚ := do
  let scaled ← D.op (|expected| * dividendAmountTolerancePercent)
  return max (← D.op (scaled / 100)) dividendAmountToleranceFloor

/-- The mismatch of a claimed row with the announcement, where there is one. -/
def amountCheck (event : CalendarEventRow) (account : HoldingAccountId) (units expected : ℚ)
    (row : Drp.Income) : Attempt CalendarError (List DividendAmountMismatch) := do
  if !TradeAmounts.sameCurrency row.currency event.currency then return []
  let cash ← D.op (row.frankedAmount + row.unfrankedAmount)
  let recorded ← D.op (cash + row.foreignSourceIncome)
  let difference ← D.op (recorded - expected)
  if (← tolerance D expected) < |difference| then
    return [⟨row.id, event.listing, account, event.exDate, row.datePaid, units, event.amountPerUnit,
      expected, recorded, difference, event.currency⟩]
  else return []

/-- One account that held units the day before an event's ex-date. -/
def matchHolder (event : CalendarEventRow) (st : MatchState) (held : HoldingAccountId × ℚ) :
    Attempt CalendarError MatchState := do
  let expected ← D.op (event.amountPerUnit * held.2)
  match b.matchFor st event held.1 with
  | none =>
    -- the registry's own books say nothing was distributed here
    if b.closesAcross event.listing held.1 event.exDate then return st
    return { st with
      missing := st.missing ++ [⟨event.listing, held.1, event.exDate, held.2, event.amountPerUnit,
        expected, event.currency, event.exDate, false⟩] }
  | some row =>
    let found ← amountCheck D event held.1 held.2 expected row
    return { st.claim event row with mismatches := st.mismatches ++ found }

/-- The units held in each account at the close of the day before an ex-date,
in the basis the per-unit figure came in. -/
def entitled (timeline : HeldTimeline) (event : CalendarEventRow) :
    Attempt CalendarError (List (HoldingAccountId × ℚ)) := do
  let basisAt ← Attempt.orRefuse event.fetchedAt (.unreadableFetchedAt event.listing event.exDate)
  timeline.unitsByAccountOn D event.listing event.exDate.pred basisAt

def matchEvent (timeline : HeldTimeline) (st : MatchState) (event : CalendarEventRow) :
    Attempt CalendarError MatchState := do
  let held ← entitled D timeline event
  held.foldlM (b.matchHolder D event) st

/-- `ORDER BY ex_date DESC, listing_id`. -/
def eventOrder (event : CalendarEventRow) : NaiveDateᵒᵈ ×ₗ ListingId :=
  toLex (OrderDual.toDual event.exDate, event.listing)

def matchEvents : Attempt CalendarError MatchState := do
  if b.events = [] then return .start
  let timeline ← HeldTimeline.load D b.ledger
  (StableSort.sortBy eventOrder b.events).foldlM (b.matchEvent D timeline) .start

def dbDistributionCalendar (today : NaiveDate) :
    Attempt CalendarError (List MissingDividendEntry × List DividendAmountMismatch) := do
  let st ← b.matchEvents D
  return (st.missing.map (st.due today), st.mismatches)

end Books

/-! ### What is asked of the walk -/

/-- A row an event could claim. -/
def CouldClaim (event : CalendarEventRow) (row : Drp.Income) : Prop :=
  (distanceFrom row event.exDate).isSome = true

instance decidableCouldClaim : DecidableRel CouldClaim :=
  fun event row => inferInstanceAs (Decidable ((distanceFrom row event.exDate).isSome = true))

/-- What one holder's events have claimed. -/
def MatchState.claimsOf (st : MatchState) (listing : ListingId) (account : HoldingAccountId) :
    Finset (CalendarEventRow × Drp.Income) :=
  (st.claimed.filter fun claim => claim.2.listing = listing && claim.2.account = account).toFinset

def missingOf (missing : List MissingDividendEntry) (listing : ListingId)
    (account : HoldingAccountId) : List MissingDividendEntry :=
  missing.filter fun entry => entry.listing = listing && entry.account = account

/-- Whether an account held units of the event's listing the day before it. -/
def heldFor (D : DecimalRounding) (timeline : HeldTimeline) (listing : ListingId)
    (account : HoldingAccountId) (event : CalendarEventRow) : Bool :=
  event.listing = listing &&
    (((Books.entitled D timeline event).answerD []).map Prod.fst).contains account

/-- The events of a listing for which an account held units the day before. -/
def Books.heldEvents (D : DecimalRounding) (b : Books) (listing : ListingId)
    (account : HoldingAccountId) : List CalendarEventRow :=
  b.events.filter fun event =>
    heldFor D ((HeldTimeline.load D b.ledger : Attempt CalendarError _).answerD ⟨[], b.ledger.splitsForParcel⟩)
      listing account event

namespace Books
variable (D : DecimalRounding) (b : Books) (listing : ListingId) (account : HoldingAccountId)

def heldSet : Finset CalendarEventRow := (b.heldEvents D listing account).toFinset

def rowSet : Finset Drp.Income := (b.holderRows listing account).toFinset

/-- The most of a holder's events its rows can cover. -/
def maximumMatched : ℕ :=
  GreedyMatching.maximum CouldClaim (b.heldSet D listing account) (b.rowSet listing account)

end Books

/-! ### One step -/

namespace Books
variable {D : DecimalRounding} {b : Books} {st st' : MatchState} {event : CalendarEventRow}
  {account : HoldingAccountId}

theorem mem_holderRows {listing : ListingId} {row : Drp.Income} :
    row ∈ b.holderRows listing account ↔
      row ∈ b.income ∧ row.incomeType = .dividend ∧ row.listing = listing ∧ row.account = account := by
  simp [holderRows, and_assoc]

theorem matchFor_some {row : Drp.Income} (h : b.matchFor st event account = some row) :
    row ∈ b.holderRows event.listing account ∧ st.isClaimed row = false ∧ CouldClaim event row := by
  unfold matchFor at h
  obtain ⟨near, hnear, rfl⟩ := Option.map_eq_some_iff.mp h
  have hmem := StableSort.mem_sortBy.mp (List.mem_of_head? hnear)
  obtain ⟨row, hrow, hfound⟩ := List.mem_filterMap.mp hmem
  obtain ⟨distance, hdistance, rfl⟩ := Option.map_eq_some_iff.mp hfound
  obtain ⟨hheld, hfree⟩ := List.mem_filter.mp hrow
  refine ⟨hheld, by simpa using hfree, ?_⟩
  exact Option.isSome_iff_exists.mpr ⟨distance, hdistance⟩

theorem matchFor_none (h : b.matchFor st event account = none) :
    ∀ row ∈ b.holderRows event.listing account, CouldClaim event row → st.isClaimed row = true := by
  intro row hrow hcould
  by_contra hfree
  obtain ⟨distance, hdistance⟩ := Option.isSome_iff_exists.mp hcould
  unfold matchFor at h
  have hempty := List.head?_eq_none_iff.mp (Option.map_eq_none_iff.mp h)
  have hmem : (distance, row) ∈ ((b.holderRows event.listing account).filter
      fun row => !st.isClaimed row).filterMap
        fun row => (distanceFrom row event.exDate).map fun distance => (distance, row) := by
    refine List.mem_filterMap.mpr ⟨row, List.mem_filter.mpr ⟨hrow, by simpa using hfree⟩, ?_⟩
    rw [hdistance]
    rfl
  have hnone : (distance, row) ∉ StableSort.sortBy
      (fun near : (ℕ ×ₗ Bool) × Drp.Income => toLex (near.1, near.2.id)) _ := hempty ▸ List.not_mem_nil
  exact hnone (StableSort.mem_sortBy.mpr hmem)

/-- What one holder of one event can do to the walk. -/
theorem matchHolder_cases {held : HoldingAccountId × ℚ}
    (h : (b.matchHolder D event st held).answer = .ok st') :
    (b.matchFor st event held.1 = none ∧ b.closesAcross event.listing held.1 event.exDate = true ∧
      st' = st) ∨
    (b.matchFor st event held.1 = none ∧ st'.claimed = st.claimed ∧ ∃ entry,
      entry.listing = event.listing ∧ entry.account = held.1 ∧ entry.exDate = event.exDate ∧
        st'.missing = st.missing ++ [entry]) ∨
    (∃ row, b.matchFor st event held.1 = some row ∧ st'.claimed = (event, row) :: st.claimed ∧
      st'.missing = st.missing) := by
  unfold matchHolder at h
  obtain ⟨expected, -, h⟩ := answer_bind.mp h
  split at h
  · rename_i hnone
    split at h
    · rename_i hcloses
      exact .inl ⟨hnone, hcloses, (answer_pure.mp h).symm⟩
    · obtain rfl := answer_pure.mp h
      exact .inr (.inl ⟨hnone, rfl, _, rfl, rfl, rfl, rfl⟩)
  · rename_i row hrow
    obtain ⟨found, -, h⟩ := answer_bind.mp h
    obtain rfl := answer_pure.mp h
    exact .inr (.inr ⟨row, hrow, rfl, rfl⟩)

end Books

/-! ### The walk, one holder at a time -/

/-- The walk has been through the events `done` of one holder. -/
structure Progress (b : Books) (listing : ListingId) (account : HoldingAccountId)
    (done : List CalendarEventRow) (st : MatchState) : Prop where
  matched : GreedyMatching.MaximalMatching CouldClaim done.toFinset
    (b.rowSet listing account) (st.claimsOf listing account)
  rows : ∀ claim ∈ st.claimed, claim.2 ∈ b.income
  missing : (missingOf st.missing listing account).map MissingDividendEntry.exDate =
    (done.filter fun event => event ∉ (st.claimsOf listing account).image Prod.fst).map
      CalendarEventRow.exDate

section Walk
variable {D : DecimalRounding} {b : Books} {st st' : MatchState} {event : CalendarEventRow}
  {listing : ListingId} {account : HoldingAccountId} {done : List CalendarEventRow}

theorem progress_start : Progress b listing account [] .start :=
  ⟨.empty, fun _ h => absurd h List.not_mem_nil, rfl⟩

/-- A row of the books is claimed where its number is. -/
theorem mem_image_of_isClaimed (hrows : ∀ claim ∈ st.claimed, claim.2 ∈ b.income) {row : Drp.Income}
    (hrow : row ∈ b.holderRows listing account) :
    st.isClaimed row = true ↔ row ∈ (st.claimsOf listing account).image Prod.snd := by
  obtain ⟨hincome, -, hlisting, haccount⟩ := Books.mem_holderRows.mp hrow
  unfold MatchState.isClaimed
  rw [List.any_eq_true]
  constructor
  · rintro ⟨claim, hclaim, hid⟩
    have hsame : claim.2 = row := List.inj_on_of_nodup_map b.income_unique (hrows claim hclaim) hincome
      (of_decide_eq_true hid)
    refine Finset.mem_image.mpr ⟨claim, ?_, hsame⟩
    rw [MatchState.claimsOf, List.mem_toFinset, List.mem_filter, hsame, hlisting, haccount]
    exact ⟨hclaim, by simp⟩
  · intro hmem
    obtain ⟨claim, hclaim, rfl⟩ := Finset.mem_image.mp hmem
    exact ⟨claim, (List.mem_filter.mp (List.mem_toFinset.mp hclaim)).1, by simp⟩

theorem claimsOf_of_other {row : Drp.Income} (hclaimed : st'.claimed = (event, row) :: st.claimed)
    (hother : ¬ (row.listing = listing ∧ row.account = account)) :
    st'.claimsOf listing account = st.claimsOf listing account := by
  rw [MatchState.claimsOf, hclaimed, List.filter_cons_of_neg (by simpa using hother),
    MatchState.claimsOf]

theorem claimsOf_of_own {row : Drp.Income} (hclaimed : st'.claimed = (event, row) :: st.claimed)
    (hl : row.listing = listing) (ha : row.account = account) :
    st'.claimsOf listing account = insert (event, row) (st.claimsOf listing account) := by
  rw [MatchState.claimsOf, hclaimed, List.filter_cons_of_pos (by simp [hl, ha]), List.toFinset_cons,
    MatchState.claimsOf]

variable (listing account) in
theorem claimsOf_of_same (hclaimed : st'.claimed = st.claimed) :
    st'.claimsOf listing account = st.claimsOf listing account := by
  rw [MatchState.claimsOf, hclaimed, MatchState.claimsOf]

/-- Another holder's event leaves this one's part of the walk as it stands. -/
theorem Progress.other (h : Progress b listing account done st) {held : HoldingAccountId × ℚ}
    (hother : ¬ (event.listing = listing ∧ held.1 = account))
    (hstep : (b.matchHolder D event st held).answer = .ok st') :
    Progress b listing account done st' := by
  rcases Books.matchHolder_cases hstep with ⟨-, -, rfl⟩ | ⟨-, hclaimed, entry, hl, ha, -, hmissing⟩ |
    ⟨row, hrow, hclaimed, hmissing⟩
  · exact h
  · have hclaims := claimsOf_of_same listing account hclaimed
    have hout : missingOf [entry] listing account = [] := by
      rw [← hl, ← ha] at hother
      simpa [missingOf] using hother
    have hentry : missingOf st'.missing listing account = missingOf st.missing listing account := by
      rw [missingOf, hmissing, List.filter_append]
      exact (congrArg _ hout).trans (List.append_nil _)
    exact ⟨hclaims ▸ h.matched, hclaimed ▸ h.rows, by rw [hentry, hclaims, h.missing]⟩
  · obtain ⟨hmem, -, -⟩ := Books.matchFor_some hrow
    obtain ⟨hincome, -, hl, ha⟩ := Books.mem_holderRows.mp hmem
    have hclaims := claimsOf_of_other hclaimed (hl.symm ▸ ha.symm ▸ hother)
    refine ⟨hclaims ▸ h.matched, ?_, by rw [hmissing, hclaims, h.missing]⟩
    rw [hclaimed]
    exact List.forall_mem_cons.mpr ⟨hincome, h.rows⟩

/-- The holder's own event: it takes a free row, or is reported missing. -/
theorem Progress.own (h : Progress b listing account done st) {held : HoldingAccountId × ℚ}
    (hl : event.listing = listing) (ha : held.1 = account) (hnew : event ∉ done)
    (hcloses : b.closesAcross listing account event.exDate = false)
    (hstep : (b.matchHolder D event st held).answer = .ok st') :
    Progress b listing account (done ++ [event]) st' := by
  have hfinset : (done ++ [event]).toFinset = insert event done.toFinset := by
    ext e
    simp
  have hfresh : event ∉ done.toFinset := fun hmem => hnew (List.mem_toFinset.mp hmem)
  rcases Books.matchHolder_cases hstep with ⟨-, hcl, -⟩ | ⟨hnone, hclaimed, entry, hel, hea, hed, hmissing⟩ |
    ⟨row, hrow, hclaimed, hmissing⟩
  · rw [hl, ha, hcloses] at hcl
    cases hcl
  · have hclaims := claimsOf_of_same listing account hclaimed
    have hnone' := Books.matchFor_none hnone
    rw [hl, ha] at hnone'
    have htaken : ∀ row ∈ b.rowSet listing account, CouldClaim event row →
        row ∈ (st.claimsOf listing account).image Prod.snd := by
      intro row hrow hcould
      have hmem := List.mem_toFinset.mp hrow
      exact (mem_image_of_isClaimed h.rows hmem).mp (hnone' row hmem hcould)
    have halone : event ∉ (st.claimsOf listing account).image Prod.fst := fun hmem =>
      hfresh (h.matched.fst_mem hmem)
    refine ⟨?_, hclaimed ▸ h.rows, ?_⟩
    · rw [hclaims, hfinset]
      exact h.matched.pass htaken
    · have hin : missingOf [entry] listing account = [entry] := by
        simp [missingOf, hel, hea, hl, ha]
      have hlast : ([event].filter fun e => e ∉ (st.claimsOf listing account).image Prod.fst) =
          [event] := List.filter_cons_of_pos (decide_eq_true halone)
      have hmissing' : missingOf st'.missing listing account =
          missingOf st.missing listing account ++ [entry] := by
        rw [missingOf, hmissing, List.filter_append]
        exact congrArg _ hin
      rw [hmissing', hclaims, List.filter_append, hlast, List.map_append, List.map_append, h.missing,
        List.map_singleton, List.map_singleton, hed]
  · obtain ⟨hmem, hfree, hcould⟩ := Books.matchFor_some hrow
    rw [hl, ha] at hmem
    obtain ⟨hincome, -, hrl, hra⟩ := Books.mem_holderRows.mp hmem
    have hclaims := claimsOf_of_own hclaimed hrl hra
    have hunclaimed : row ∉ (st.claimsOf listing account).image Prod.snd := fun hin =>
      Bool.false_ne_true (hfree.symm.trans ((mem_image_of_isClaimed h.rows hmem).mpr hin))
    refine ⟨?_, ?_, ?_⟩
    · rw [hclaims, hfinset]
      exact h.matched.take hfresh (List.mem_toFinset.mpr hmem) hunclaimed hcould
    · rw [hclaimed]
      exact List.forall_mem_cons.mpr ⟨hincome, h.rows⟩
    · have hkept : ∀ e ∈ done, (e ∉ (st'.claimsOf listing account).image Prod.fst ↔
          e ∉ (st.claimsOf listing account).image Prod.fst) := by
        intro e he
        have hne : e ≠ event := fun heq => hnew (heq ▸ he)
        rw [hclaims, Finset.image_insert, Finset.mem_insert, not_or]
        exact and_iff_right hne
      have hgone : ¬ (event ∉ (st'.claimsOf listing account).image Prod.fst) := by
        rw [hclaims, Finset.image_insert]
        exact not_not.mpr (Finset.mem_insert_self _ _)
      rw [hmissing, List.filter_append, List.filter_cons_of_neg (by simpa using hgone),
        List.filter_nil, List.append_nil, h.missing]
      exact congrArg _ (List.filter_congr fun e he => decide_eq_decide.mpr (hkept e he).symm)

/-- All the holders of one event, each account once. -/
theorem Progress.holders {helds : List (HoldingAccountId × ℚ)}
    (h : Progress b listing account done st) (hnodup : (helds.map Prod.fst).Nodup)
    (hnew : event ∉ done)
    (hcloses : event.listing = listing → account ∈ helds.map Prod.fst →
      b.closesAcross listing account event.exDate = false)
    (hrun : (helds.foldlM (b.matchHolder D event) st).answer = .ok st') :
    Progress b listing account
      (done ++ if event.listing = listing ∧ account ∈ helds.map Prod.fst then [event] else []) st' := by
  induction helds generalizing st with
  | nil =>
    obtain rfl := answer_pure.mp hrun
    simpa using h
  | cons held helds ih =>
    rw [List.foldlM_cons] at hrun
    obtain ⟨mid, hstep, hrun⟩ := answer_bind.mp hrun
    rw [List.map_cons, List.nodup_cons] at hnodup
    by_cases hown : event.listing = listing ∧ held.1 = account
    · obtain ⟨hl, ha⟩ := hown
      have hmem : account ∈ (held :: helds).map Prod.fst := by simp [ha]
      have hrest : account ∉ helds.map Prod.fst := ha ▸ hnodup.1
      have hmid := h.own hl ha hnew (hcloses hl hmem) hstep
      have hothers : ∀ other ∈ helds, ¬ (event.listing = listing ∧ other.1 = account) :=
        fun other hother heq => hrest (heq.2 ▸ List.mem_map_of_mem hother)
      rw [if_pos ⟨hl, hmem⟩]
      exact Attempt.answer_foldlM (fun _ hs other hother _ hs' => hs.other (hothers other hother) hs')
        hmid hrun
    · have hmid := h.other hown hstep
      have hiff : (event.listing = listing ∧ account ∈ (held :: helds).map Prod.fst) ↔
          (event.listing = listing ∧ account ∈ helds.map Prod.fst) := by
        rw [List.map_cons, List.mem_cons]
        tauto
      simp only [hiff]
      exact ih hmid hnodup.2 (fun hl hmem => hcloses hl (by simp [hmem])) hrun


theorem entitled_nodup {timeline : HeldTimeline} {helds : List (HoldingAccountId × ℚ)}
    (h : (Books.entitled D timeline event).answer = .ok helds) : (helds.map Prod.fst).Nodup := by
  unfold Books.entitled at h
  obtain ⟨basisAt, -, h⟩ := answer_bind.mp h
  exact HeldTimeline.unitsByAccountOn_nodup h

/-- The whole walk over the events, each listing's ex-date once. -/
theorem Progress.events {timeline : HeldTimeline} {events : List CalendarEventRow}
    (h : Progress b listing account done st) (hnodup : (done ++ events).Nodup)
    (hcloses : ∀ event ∈ events, heldFor D timeline listing account event = true →
      b.closesAcross listing account event.exDate = false)
    (hrun : (events.foldlM (b.matchEvent D timeline) st).answer = .ok st') :
    Progress b listing account (done ++ events.filter (heldFor D timeline listing account)) st' := by
  induction events generalizing st done with
  | nil =>
    obtain rfl := answer_pure.mp hrun
    simpa using h
  | cons event events ih =>
    rw [List.foldlM_cons] at hrun
    obtain ⟨mid, hstep, hrun⟩ := answer_bind.mp hrun
    unfold Books.matchEvent at hstep
    obtain ⟨helds, hentitled, hstep⟩ := answer_bind.mp hstep
    have hheld : heldFor D timeline listing account event = true ↔
        event.listing = listing ∧ account ∈ helds.map Prod.fst := by
      rw [heldFor, Attempt.answerD_eq hentitled]
      simp
    have hnew : event ∉ done := fun hmem =>
      (List.nodup_append.mp hnodup).2.2 event hmem event List.mem_cons_self rfl
    have hmid := h.holders (entitled_nodup hentitled) hnew
      (fun hl ha => hcloses event List.mem_cons_self (hheld.mpr ⟨hl, ha⟩)) hstep
    have hrest : ∀ e ∈ events, heldFor D timeline listing account e = true →
        b.closesAcross listing account e.exDate = false :=
      fun e he => hcloses e (List.mem_cons_of_mem event he)
    by_cases hown : event.listing = listing ∧ account ∈ helds.map Prod.fst
    · rw [if_pos hown] at hmid
      rw [List.append_cons] at hnodup
      rw [List.filter_cons_of_pos (hheld.mpr hown), List.append_cons]
      exact ih hmid hnodup hrest hrun
    · rw [if_neg hown, List.append_nil] at hmid
      have hsub : (done ++ events).Sublist (done ++ event :: events) :=
        (List.sublist_cons_self event events).append_left done
      rw [List.filter_cons_of_neg (hheld.not.mpr hown)]
      exact ih hmid (hnodup.sublist hsub) hrest hrun

end Walk

/-! ### How few are missing -/

theorem matchEvents_progress {D : DecimalRounding} {b : Books} {st : MatchState}
    {listing : ListingId} {account : HoldingAccountId}
    (hnone : ∀ event ∈ b.heldEvents D listing account,
      b.closesAcross listing account event.exDate = false)
    (h : (b.matchEvents D).answer = .ok st) :
    ∃ done, done.Perm (b.heldEvents D listing account) ∧ done.Nodup ∧
      Progress b listing account done st := by
  unfold Books.matchEvents at h
  split at h
  · rename_i hempty
    obtain rfl := answer_pure.mp h
    refine ⟨[], ?_, List.nodup_nil, progress_start⟩
    rw [Books.heldEvents, hempty, List.filter_nil]
  · obtain ⟨timeline, hload, h⟩ := answer_bind.mp h
    have hheld : b.heldEvents D listing account =
        b.events.filter (heldFor D timeline listing account) := by
      rw [Books.heldEvents, Attempt.answerD_eq hload]
    have hperm := StableSort.sortBy_perm Books.eventOrder b.events
    have hnodup : (StableSort.sortBy Books.eventOrder b.events).Nodup :=
      hperm.nodup_iff.mpr b.events_unique.of_map
    refine ⟨_, (hperm.filter _).trans (List.Perm.of_eq hheld.symm), hnodup.filter _, ?_⟩
    refine (progress_start.events hnodup ?_ h : Progress b listing account ([] ++ _) st)
    intro event hevent howned
    refine hnone event ?_
    rw [hheld]
    exact List.mem_filter.mpr ⟨hperm.mem_iff.mp hevent, howned⟩

theorem listing_of_heldFor {D : DecimalRounding} {timeline : HeldTimeline} {listing : ListingId}
    {account : HoldingAccountId} {event : CalendarEventRow}
    (h : heldFor D timeline listing account event = true) : event.listing = listing :=
  of_decide_eq_true ((Bool.and_eq_true _ _).mp h).1

theorem missingOf_due {st : MatchState} (today : NaiveDate) {listing : ListingId}
    {account : HoldingAccountId} :
    (missingOf (st.missing.map (st.due today)) listing account).map MissingDividendEntry.exDate =
      (missingOf st.missing listing account).map MissingDividendEntry.exDate := by
  rw [missingOf, List.filter_map, List.map_map]
  rfl

/-- Where no reinvestment says a distribution never happened, one holder's
missing events are those its rows leave unmatched: no row is matched twice, a
missing event finds every row it could claim claimed, and no more are missing
than the largest matching leaves but for the contested rows, nor than half. -/
theorem distribution_matching_near_maximum (D : DecimalRounding) (b : Books) (today : NaiveDate)
    (missing : List MissingDividendEntry) (mismatches : List DividendAmountMismatch)
    (h : (b.dbDistributionCalendar D today).answer = .ok (missing, mismatches))
    (listing : ListingId) (account : HoldingAccountId)
    (hnone : ∀ event ∈ b.heldEvents D listing account,
      b.closesAcross listing account event.exDate = false) :
    ∃ st, (b.matchEvents D).answer = .ok st ∧ missing = st.missing.map (st.due today) ∧
      GreedyMatching.IsMatching CouldClaim (st.claimsOf listing account) ∧
      st.claimsOf listing account ⊆ b.heldSet D listing account ×ˢ b.rowSet listing account ∧
      (∀ event ∈ b.heldSet D listing account,
        event.exDate ∈ (missingOf missing listing account).map MissingDividendEntry.exDate ↔
          event ∉ (st.claimsOf listing account).image Prod.fst) ∧
      (∀ event ∈ b.heldSet D listing account,
        event.exDate ∈ (missingOf missing listing account).map MissingDividendEntry.exDate →
          ∀ row ∈ b.rowSet listing account, CouldClaim event row →
            row ∈ (st.claimsOf listing account).image Prod.snd) ∧
      (b.heldSet D listing account).card ≤
        (missingOf missing listing account).length + b.maximumMatched D listing account ∧
      (missingOf missing listing account).length + b.maximumMatched D listing account ≤
        (b.heldSet D listing account).card + (GreedyMatching.contested CouldClaim
          (b.heldSet D listing account) (st.claimsOf listing account)).card ∧
      2 * (missingOf missing listing account).length + b.maximumMatched D listing account ≤
        2 * (b.heldSet D listing account).card := by
  unfold Books.dbDistributionCalendar at h
  obtain ⟨st, hst, h⟩ := answer_bind.mp h
  obtain ⟨rfl, rfl⟩ := Prod.mk.inj (answer_pure.mp h)
  obtain ⟨done, hperm, hnodup, hprogress⟩ := matchEvents_progress hnone hst
  have hset : done.toFinset = b.heldSet D listing account := List.toFinset_eq_of_perm _ _ hperm
  have hmatched := hprogress.matched
  rw [hset] at hmatched
  have hmissing := (missingOf_due today).trans hprogress.missing
  have hunmatched : ∀ event ∈ b.heldSet D listing account,
      event.exDate ∈ (missingOf (st.missing.map (st.due today)) listing account).map
          MissingDividendEntry.exDate ↔
        event ∉ (st.claimsOf listing account).image Prod.fst := by
    intro event hevent
    rw [hmissing]
    constructor
    · intro hmem
      obtain ⟨e, he, hdate⟩ := List.mem_map.mp hmem
      obtain ⟨he, halone⟩ := List.mem_filter.mp he
      have hsame : e = event := by
        have heheld := List.mem_filter.mp (hperm.mem_iff.mp he)
        have hheld := List.mem_filter.mp (List.mem_toFinset.mp hevent)
        exact List.inj_on_of_nodup_map b.events_unique heheld.1 hheld.1
          (Prod.ext ((listing_of_heldFor heheld.2).trans (listing_of_heldFor hheld.2).symm) hdate)
      exact hsame ▸ of_decide_eq_true halone
    · intro halone
      have hdone : event ∈ done := List.mem_toFinset.mp (hset ▸ hevent)
      exact List.mem_map_of_mem (List.mem_filter.mpr ⟨hdone, decide_eq_true halone⟩)
  have hcount : (missingOf (st.missing.map (st.due today)) listing account).length +
      (st.claimsOf listing account).card = (b.heldSet D listing account).card := by
    have hlength := congrArg List.length hmissing
    rw [List.length_map, List.length_map] at hlength
    have hfilter : (done.filter fun event => event ∉ (st.claimsOf listing account).image
        Prod.fst).toFinset = b.heldSet D listing account \ (st.claimsOf listing account).image Prod.fst := by
      ext event
      rw [← hset]
      simp
    have hsub : (st.claimsOf listing account).image Prod.fst ⊆ b.heldSet D listing account :=
      fun event => hmatched.fst_mem
    rw [hlength, ← hmatched.card_left, ← List.toFinset_card_of_nodup (hnodup.filter _), hfilter]
    exact Finset.card_sdiff_add_card_eq_card hsub
  have hhalf := hmatched.maximum_le_two_mul
  have hcontested := hmatched.maximum_le
  have hmax := GreedyMatching.card_le_maximum hmatched.toIsMatching hmatched.within
  refine ⟨st, hst, rfl, hmatched.toIsMatching, hmatched.within, hunmatched, ?_, ?_, ?_, ?_⟩
  · intro event hevent hreported
    exact hmatched.blocked event hevent ((hunmatched event hevent).mp hreported)
  · rw [Books.maximumMatched]
    omega
  · rw [Books.maximumMatched]
    omega
  · rw [Books.maximumMatched]
    omega

def monthlyEvents : List CalendarEventRow := [
  ⟨1, ymd 2024 1 1, 1, ⟨"AUD"⟩, some (ymd 2024 4 1)⟩,
  ⟨1, ymd 2024 1 31, 1, ⟨"AUD"⟩, some (ymd 2024 4 1)⟩]

def monthlyIncome : List Drp.Income := [
  ⟨1, 1, 1, ⟨"AUD"⟩, ymd 2024 2 3, none, none, false, .dividend, 100, 0, 0, 0, 0, none⟩,
  ⟨2, 1, 1, ⟨"AUD"⟩, ymd 2024 3 1, none, none, false, .dividend, 100, 0, 0, 0, 0, none⟩]

theorem monthlyEvents_unique : (monthlyEvents.map fun e => (e.listing, e.exDate)).Nodup := by decide

theorem monthlyIncome_unique : (monthlyIncome.map Drp.Income.id).Nodup := by decide

/-- A Buy of 100 units, two distributions a month apart and their two payments:
the later event takes the payment the earlier one needs. -/
def monthlyPayer : Books where
  ledger :=
    { trades := [⟨1, .buy, ymd 2023 6 1, 1, 1, 100, none⟩]
      allocations := []
      actions := []
      transfers := []
      unitScale := fun _ _ => none }
  events := monthlyEvents
  income := monthlyIncome
  reinvestments := []
  events_unique := monthlyEvents_unique
  income_unique := monthlyIncome_unique

theorem distribution_matching_monthlyPayer : ∃ missing mismatches,
    (monthlyPayer.dbDistributionCalendar halfEvenRounding (ymd 2024 4 1)).answer =
      .ok (missing, mismatches) ∧
    2 * (missingOf missing 1 1).length + monthlyPayer.maximumMatched halfEvenRounding 1 1 ≤
      2 * (monthlyPayer.heldSet halfEvenRounding 1 1).card := by
  have hrun : Checked.accepts
      (monthlyPayer.dbDistributionCalendar halfEvenRounding (ymd 2024 4 1)).answer
        (fun _ => true) = true := by
    decide +kernel
  have hnone : ∀ event ∈ monthlyPayer.heldEvents halfEvenRounding 1 1,
      monthlyPayer.closesAcross 1 1 event.exDate = false := by
    decide +kernel
  obtain ⟨⟨missing, mismatches⟩, hanswer⟩ := Checked.exists_ok hrun
  obtain ⟨st, -, -, -, -, -, -, -, -, hhalf⟩ := distribution_matching_near_maximum halfEvenRounding
    monthlyPayer (ymd 2024 4 1) missing mismatches hanswer 1 1 hnone
  exact ⟨missing, mismatches, hanswer, hhalf⟩

/-- Both events can be covered, and one of them is reported missing. -/
theorem greedy_misses_covered_event : ∃ missing mismatches,
    (monthlyPayer.dbDistributionCalendar halfEvenRounding (ymd 2024 4 1)).answer =
      .ok (missing, mismatches) ∧
    (∀ event ∈ monthlyPayer.heldEvents halfEvenRounding 1 1,
      monthlyPayer.closesAcross 1 1 event.exDate = false) ∧
    (monthlyPayer.heldSet halfEvenRounding 1 1).card = 2 ∧
    monthlyPayer.maximumMatched halfEvenRounding 1 1 = 2 ∧ (missingOf missing 1 1).length = 1 := by
  have hrun : Checked.accepts
      (monthlyPayer.dbDistributionCalendar halfEvenRounding (ymd 2024 4 1)).answer (fun out =>
        decide ((missingOf out.1 1 1).length = 1)) = true := by
    decide +kernel
  obtain ⟨⟨missing, mismatches⟩, hanswer, hlength⟩ := Checked.accepts_iff.mp hrun
  exact ⟨missing, mismatches, hanswer, by decide +kernel, by decide +kernel, by decide +kernel,
    of_decide_eq_true hlength⟩

end ShareTracker.DistributionCalendar
