import ShareTracker.DecimalArithmetic
import ShareTracker.HealthPrices
import ShareTracker.JobSchedule
import ShareTracker.Lib.EventTrace

/-!
# Price-change alerts

One run of the `price-alert` job reads everything it compares in one snapshot, sends
one message and records it only once the relay has accepted it. Any other writes come
between its steps, a step may fail, and the process may die.
-/
namespace ShareTracker.PriceAlerts
open ClosingPrices StableSort Schedule

/-! ### What one walk finds -/

/-- What the walk reads of the database. -/
structure Snapshot where
  store : HealthPrices.Store
  names : ListingId → String

structure Mover where
  listing : ListingId
  ticker : String
  name : String
  currency : CurrencyCode
  previousDate : NaiveDate
  previousPrice : ℚ
  priceDate : NaiveDate
  price : ℚ
  changePct : ℚ
  deriving DecidableEq

structure Scan where
  movers : List Mover
  skipped : List String
  deriving DecidableEq

inductive Overflow where
  | overflow
  deriving DecidableEq

instance panicsOverflow : Panics Overflow := ⟨.overflow⟩

/-- The close a row holds, where it is ok. -/
def okClose (row : ClosingPrice) : Option (NaiveDate × ℚ) :=
  match row.quote with
  | .fetched _ price => some (row.priceDate, price)
  | .manual price _ _ => some (row.priceDate, price)
  | .errored _ => none

/-- A listing's two latest ok closes, newest first. -/
def dbLatestTwoCloses (s : Snapshot) (listing : ListingId) : List (NaiveDate × ℚ) :=
  (sortBy (fun close => OrderDual.toDual close.1)
    ((s.store.book.prices.filter fun row => row.listing = listing).filterMap okClose)).take 2

def dbListingIdentity (s : Snapshot) (listing : ListingId) :
    Option (String × String × CurrencyCode) :=
  (s.store.market listing).map fun m => (m.ticker, s.names listing, m.currency)

def dateText (d : NaiveDate) : String :=
  String.ofList (Backups.yearText d.year ++
    ('-' :: Backups.padded 2 d.month ++ ('-' :: Backups.padded 2 d.day)))

def skipNote (ticker : String) (previousDate priceDate event : NaiveDate) : String :=
  ticker ++ ": " ++ dateText previousDate ++ " and " ++ dateText priceDate ++
    " are quoted in different units (a price-basis event on " ++ dateText event ++
    "), so no change was compared"

/-- The percentage, or the panic of an operation out of range. -/
def changePct (D : DecimalRounding) (price previousPrice : ℚ) : Except Overflow ℚ := do
  let change ← (D.op (price - previousPrice) : Attempt Overflow ℚ).answer
  let ratio ← (D.op (change / previousPrice) : Attempt Overflow ℚ).answer
  (D.op (ratio * 100) : Attempt Overflow ℚ).answer

inductive Finding where
  | passedOver
  | skipped (note : String)
  | moved (mover : Mover)
  deriving DecidableEq

def Finding.mover : Finding → Option Mover
  | .moved mover => some mover
  | .passedOver | .skipped _ => none

def Finding.note : Finding → Option String
  | .skipped note => some note
  | .passedOver | .moved _ => none

/-- One row of `price_alerts`. -/
structure PriceAlert where
  listing : ListingId
  priceDate : NaiveDate
  previousDate : NaiveDate
  price : ℚ
  previousPrice : ℚ
  changePct : ℚ
  thresholdPct : ℚ
  sentAt : List Char
  deriving DecidableEq

def PriceAlert.close (a : PriceAlert) : ListingId × NaiveDate := (a.listing, a.priceDate)

def Mover.close (m : Mover) : ListingId × NaiveDate := (m.listing, m.priceDate)

def alreadyAlerted (alerts : List PriceAlert) (close : ListingId × NaiveDate) : Bool :=
  alerts.any fun a => a.close = close

section Walk
variable (D : DecimalRounding) (s : Snapshot) (alerts : List PriceAlert) (threshold : ℚ)

/-- One listing's turn of the walk. -/
def finding (listing : ListingId) : Except Overflow Finding :=
  match dbLatestTwoCloses s listing with
  | [(priceDate, price), (previousDate, previousPrice)] =>
    match dbListingIdentity s listing with
    | none => .ok .passedOver
    | some (ticker, name, currency) =>
      match (s.store.book.priceBasisEvents listing).find? fun e =>
          decide (previousDate < e.date) && decide (e.date ≤ priceDate) with
      | some event => .ok (.skipped (skipNote ticker previousDate priceDate event.date))
      | none =>
        -- no percentage is definable against a zero close
        if previousPrice = 0 then .ok .passedOver
        else do
          let change ← changePct D price previousPrice
          if |change| < threshold then return .passedOver
          else if alreadyAlerted alerts (listing, priceDate) then return .passedOver
          else return .moved ⟨listing, ticker, name, currency, previousDate, previousPrice,
            priceDate, price, change⟩
  | _ => .ok .passedOver

/-- Biggest move first, by size rather than direction. -/
def scan (asOf : NaiveDate) : Except Overflow Scan := do
  let findings ← (s.store.heldListingIds asOf).mapM (finding D s alerts threshold)
  return ⟨sortBy (fun m => OrderDual.toDual |m.changePct|) (findings.filterMap Finding.mover),
    findings.filterMap Finding.note⟩

end Walk

/-! ### Runs -/

/-- A walk that was made: what it read, and what it found there. -/
structure Walk (D : DecimalRounding) where
  snapshot : Snapshot
  alerts : List PriceAlert
  threshold : ℚ
  now : UtcInstant
  scan : Scan
  found : PriceAlerts.scan D snapshot alerts threshold now.date = .ok scan

def Walk.alert {D : DecimalRounding} (w : Walk D) (m : Mover) : PriceAlert where
  listing := m.listing
  priceDate := m.priceDate
  previousDate := m.previousDate
  price := m.price
  previousPrice := m.previousPrice
  changePct := ScaledRounding.atScale 4 m.changePct
  thresholdPct := w.threshold
  sentAt := toRfc3339 w.now

/-- `ON CONFLICT(listing_id, price_date) DO NOTHING`. -/
def insertAlert (alerts : List PriceAlert) (a : PriceAlert) : List PriceAlert :=
  if alreadyAlerted alerts a.close then alerts else alerts ++ [a]

def dbRecord {D : DecimalRounding} (alerts : List PriceAlert) (w : Walk D) : List PriceAlert :=
  (w.scan.movers.map w.alert).foldl insertAlert alerts

/-- A run in flight: what it is to send, or has sent and is to record. -/
inductive Phase (D : DecimalRounding) where
  | sending (walk : Walk D)
  | recording (walk : Walk D)

/-- `delivered` lists the messages the relay took, which outlive the process. -/
structure Desk (D : DecimalRounding) where
  snapshot : Snapshot
  alerts : List PriceAlert
  inFlight : Option (Phase D)
  delivered : List (Walk D)

/-- How a send ends: the relay's answer may be lost after it took the message. -/
inductive SendResult where
  | accepted
  | refused (error : String)
  | lost (error : String)

inductive Event where
  /-- Any other writer: prices, actions, trades, listings. -/
  | written (snapshot : Snapshot)
  | started (priceAlertPct : Option ℚ) (now : UtcInstant)
  | sendEnded (result : SendResult)
  | recordEnded (error : Option String)
  | restarted

/-- What a run that ends answers. -/
inductive Answer (D : DecimalRounding) where
  | notConfigured
  | finished (walk : Walk D)
  | failed (error : String)

def joined : List String → Option String
  | [] => none
  | skipped => some ("; ".intercalate skipped)

def Answer.outcome {D : DecimalRounding} : Answer D → Jobs.JobOutcome
  | .notConfigured => .ok (some "no [email] configured, so no price alert was sent")
  | .finished walk => .ok (joined walk.scan.skipped)
  | .failed error => .error error

section Runs
variable {D : DecimalRounding}

/-- The walk, where nothing in it overflows. -/
def walkAt (d : Desk D) (threshold : ℚ) (now : UtcInstant) : Option (Walk D) :=
  match h : scan D d.snapshot d.alerts threshold now.date with
  | .ok found => some ⟨d.snapshot, d.alerts, threshold, now, found, h⟩
  | .error _ => none

/-- One step of a run or of anything beside it. The job's lock keeps a second run
from starting before the first has ended. -/
def Desk.step (d : Desk D) : Event → Desk D × Option (Answer D)
  | .written snapshot => ({ d with snapshot := snapshot }, none)
  | .started priceAlertPct now =>
    match d.inFlight, priceAlertPct with
    | none, none => (d, some .notConfigured)
    | none, some threshold =>
      match walkAt d threshold now with
      | none => (d, some (.failed (Jobs.joinFailure none)))
      | some walk =>
        if walk.scan.movers = [] then (d, some (.finished walk))
        else ({ d with inFlight := some (.sending walk) }, none)
    | some _, _ => (d, none)
  | .sendEnded result =>
    match d.inFlight with
    | some (.sending walk) =>
      match result with
      | .accepted =>
        ({ d with inFlight := some (.recording walk), delivered := d.delivered ++ [walk] }, none)
      | .refused error => ({ d with inFlight := none }, some (.failed error))
      | .lost error =>
        ({ d with inFlight := none, delivered := d.delivered ++ [walk] }, some (.failed error))
    | _ => (d, none)
  | .recordEnded error =>
    match d.inFlight with
    | some (.recording walk) =>
      match error with
      | none =>
        ({ d with inFlight := none, alerts := dbRecord d.alerts walk }, some (.finished walk))
      | some error => ({ d with inFlight := none }, some (.failed error))
    | _ => (d, none)
  | .restarted => ({ d with inFlight := none }, none)

def Desk.new (snapshot : Snapshot) : Desk D := ⟨snapshot, [], none, []⟩

abbrev Moment (D : DecimalRounding) := EventTrace.Moment (Desk D) Event (Option (Answer D))

def trace (snapshot : Snapshot) (events : List Event) : List (Moment D) :=
  EventTrace.trace Desk.step (.new snapshot) events

end Runs

/-! ### What a walk finds -/

/-- A move worth an alert: between a listing's two latest closes, quoted in one
unit, and no smaller than the threshold. -/
structure Qualifies (D : DecimalRounding) (s : Snapshot) (threshold : ℚ) (m : Mover) : Prop where
  closes : dbLatestTwoCloses s m.listing =
    [(m.priceDate, m.price), (m.previousDate, m.previousPrice)]
  identity : dbListingIdentity s m.listing = some (m.ticker, m.name, m.currency)
  basis : ∀ e ∈ s.store.book.priceBasisEvents m.listing,
    ¬ (m.previousDate < e.date ∧ e.date ≤ m.priceDate)
  nonzero : m.previousPrice ≠ 0
  change : changePct D m.price m.previousPrice = .ok m.changePct
  past : threshold ≤ |m.changePct|

/-- The two latest closes of a listing are quoted in different units. -/
def Straddles (s : Snapshot) (listing : ListingId) (note : String) : Prop :=
  ∃ priceDate price previousDate previousPrice ticker name currency, ∃ event,
    dbLatestTwoCloses s listing = [(priceDate, price), (previousDate, previousPrice)] ∧
    dbListingIdentity s listing = some (ticker, name, currency) ∧
    (s.store.book.priceBasisEvents listing).find? (fun e =>
      decide (previousDate < e.date) && decide (e.date ≤ priceDate)) = some event ∧
    note = skipNote ticker previousDate priceDate event.date

section Found
variable {D : DecimalRounding} {s : Snapshot} {alerts : List PriceAlert} {threshold : ℚ}
  {listing : ListingId}

theorem Qualifies.compares {m : Mover} (h : Qualifies D s threshold m) {d d' : NaiveDate} {p p' : ℚ}
    (hcloses : dbLatestTwoCloses s m.listing = [(d, p), (d', p')]) :
    m.priceDate = d ∧ m.price = p ∧ m.previousDate = d' ∧ m.previousPrice = p' := by
  have hsame := h.closes
  rw [hcloses] at hsame
  obtain ⟨hfirst, hrest⟩ := List.cons.inj hsame
  obtain ⟨hsecond, -⟩ := List.cons.inj hrest
  obtain ⟨hd, hp⟩ := Prod.mk.inj hfirst
  obtain ⟨hd', hp'⟩ := Prod.mk.inj hsecond
  exact ⟨hd.symm, hp.symm, hd'.symm, hp'.symm⟩

/-- What the walk can answer of one listing. -/
theorem finding_cases {found : Finding} (h : finding D s alerts threshold listing = .ok found) :
    (found = .passedOver ∧ (∀ note, ¬ Straddles s listing note) ∧
      ∀ m : Mover, m.listing = listing → Qualifies D s threshold m →
        alreadyAlerted alerts m.close = true) ∨
    (∃ note, found = .skipped note ∧ Straddles s listing note ∧
      ∀ m : Mover, m.listing = listing → ¬ Qualifies D s threshold m) ∨
    ∃ m, found = .moved m ∧ m.listing = listing ∧ Qualifies D s threshold m ∧
      alreadyAlerted alerts m.close = false ∧ ∀ note, ¬ Straddles s listing note := by
  unfold finding at h
  split at h
  · rename_i priceDate price previousDate previousPrice hcloses
    split at h
    · rename_i hidentity
      refine .inl ⟨(Except.ok.inj h).symm, ?_, ?_⟩
      · rintro note ⟨_, _, _, _, _, _, _, _, -, hsome, -⟩
        rw [hidentity] at hsome
        cases hsome
      · rintro m rfl hm
        have hsome := hm.identity
        rw [hidentity] at hsome
        cases hsome
    · rename_i ticker name currency hidentity
      split at h
      · rename_i event hevent
        refine .inr (.inl ⟨_, (Except.ok.inj h).symm, ?_, ?_⟩)
        · exact ⟨_, _, _, _, _, _, _, event, hcloses, hidentity, hevent, rfl⟩
        · rintro m rfl hm
          obtain ⟨rfl, -, rfl, -⟩ := hm.compares hcloses
          have hin := List.find?_some hevent
          rw [Bool.and_eq_true, decide_eq_true_eq, decide_eq_true_eq] at hin
          exact hm.basis event (List.mem_of_find?_eq_some hevent) hin
      · rename_i hevents
        have hbasis : ∀ e ∈ s.store.book.priceBasisEvents listing,
            ¬ (previousDate < e.date ∧ e.date ≤ priceDate) := by
          intro e he hin
          refine List.find?_eq_none.mp hevents e he ?_
          rw [Bool.and_eq_true, decide_eq_true_eq, decide_eq_true_eq]
          exact hin
        have hone : ∀ note, ¬ Straddles s listing note := by
          rintro note ⟨_, _, _, _, _, _, _, event, htwo, -, hevent, -⟩
          rw [hcloses] at htwo
          obtain ⟨hfirst, hrest⟩ := List.cons.inj htwo
          obtain ⟨hsecond, -⟩ := List.cons.inj hrest
          obtain ⟨rfl, -⟩ := Prod.mk.inj hfirst
          obtain ⟨rfl, -⟩ := Prod.mk.inj hsecond
          rw [hevents] at hevent
          cases hevent
        split at h
        · rename_i hzero
          refine .inl ⟨(Except.ok.inj h).symm, hone, ?_⟩
          rintro m rfl hm
          exact absurd ((hm.compares hcloses).2.2.2.trans hzero) hm.nonzero
        · rename_i hzero
          obtain ⟨change, hchange, h⟩ := Checked.bind_ok h
          have hsame : ∀ m : Mover, m.listing = listing → Qualifies D s threshold m →
              m.changePct = change := by
            rintro m rfl hm
            obtain ⟨-, rfl, -, rfl⟩ := hm.compares hcloses
            exact (Except.ok.inj (hchange.symm.trans hm.change)).symm
          split at h
          · rename_i hsmall
            refine .inl ⟨(Except.ok.inj h).symm, hone, fun m hl hm => ?_⟩
            exact absurd (hsame m hl hm ▸ hm.past) (not_le.mpr hsmall)
          · rename_i hpast
            split at h
            · rename_i hdone
              refine .inl ⟨(Except.ok.inj h).symm, hone, ?_⟩
              rintro m rfl hm
              rw [Mover.close, (hm.compares hcloses).1]
              exact hdone
            · rename_i hnew
              refine .inr (.inr ⟨_, (Except.ok.inj h).symm, rfl, ?_, ?_, hone⟩)
              · exact ⟨hcloses, hidentity, hbasis, hzero, hchange, not_lt.mp hpast⟩
              · exact Bool.eq_false_iff.mpr hnew
  · rename_i hcloses
    refine .inl ⟨(Except.ok.inj h).symm, ?_, ?_⟩
    · rintro note ⟨_, _, _, _, _, _, _, _, htwo, -, -⟩
      exact hcloses _ _ _ _ htwo
    · rintro m rfl hm
      exact absurd hm.closes (hcloses _ _ _ _)

theorem Qualifies.unique {m m' : Mover} (h : Qualifies D s threshold m)
    (h' : Qualifies D s threshold m') (hlisting : m.listing = m'.listing) : m = m' := by
  obtain ⟨hd, hp, hd', hp'⟩ := h.compares (hlisting ▸ h'.closes)
  have hidentity := h.identity.symm.trans (hlisting ▸ h'.identity)
  obtain ⟨ht, hrest⟩ := Prod.mk.inj (Option.some.inj hidentity)
  obtain ⟨hn, hc⟩ := Prod.mk.inj hrest
  have hchange := h.change
  rw [hp, hp', h'.change] at hchange
  obtain ⟨_, _, _, _, _, _, _, _, _⟩ := m
  obtain ⟨_, _, _, _, _, _, _, _, _⟩ := m'
  simp only at hlisting hd hp hd' hp' ht hn hc hchange
  rw [hlisting, hd, hp, hd', hp', ht, hn, hc, Except.ok.inj hchange]

theorem Straddles.unique {note note' : String} (h : Straddles s listing note)
    (h' : Straddles s listing note') : note = note' := by
  obtain ⟨_, _, _, _, _, _, _, event, hcloses, hidentity, hevent, rfl⟩ := h
  obtain ⟨_, _, _, _, _, _, _, event', hcloses', hidentity', hevent', rfl⟩ := h'
  rw [hcloses] at hcloses'
  obtain ⟨hfirst, hrest⟩ := List.cons.inj hcloses'
  obtain ⟨hsecond, -⟩ := List.cons.inj hrest
  obtain ⟨rfl, -⟩ := Prod.mk.inj hfirst
  obtain ⟨rfl, -⟩ := Prod.mk.inj hsecond
  rw [hidentity] at hidentity'
  obtain ⟨rfl, -⟩ := Prod.mk.inj (Option.some.inj hidentity')
  rw [hevent] at hevent'
  rw [Option.some.inj hevent']

section Scan
variable {asOf : NaiveDate} {r : Scan}

theorem scan_ok (h : scan D s alerts threshold asOf = .ok r) : ∃ findings,
    (s.store.heldListingIds asOf).mapM (finding D s alerts threshold) = .ok findings ∧
      r.movers = sortBy (fun m => OrderDual.toDual |m.changePct|)
        (findings.filterMap Finding.mover) ∧
      r.skipped = findings.filterMap Finding.note := by
  obtain ⟨findings, hfindings, h⟩ := Checked.bind_ok h
  obtain rfl := Except.ok.inj h
  exact ⟨findings, hfindings, rfl, rfl⟩

/-- The movers are the held listings' qualifying moves that no alert was sent of. -/
theorem mem_movers (h : scan D s alerts threshold asOf = .ok r) (m : Mover) :
    m ∈ r.movers ↔ m.listing ∈ s.store.heldListingIds asOf ∧ Qualifies D s threshold m ∧
      alreadyAlerted alerts m.close = false := by
  obtain ⟨findings, hfindings, hmovers, -⟩ := scan_ok h
  rw [hmovers, mem_sortBy, List.mem_filterMap]
  constructor
  · rintro ⟨found, hfound, hmover⟩
    obtain ⟨listing, hlisting, hturn⟩ := Checked.mem_mapM_ok hfindings hfound
    rcases finding_cases hturn with ⟨rfl, -⟩ | ⟨note, rfl, -⟩ | ⟨m', rfl, rfl, hm, hnew, -⟩
    · cases hmover
    · cases hmover
    · obtain rfl := Option.some.inj hmover
      exact ⟨hlisting, hm, hnew⟩
  · rintro ⟨hlisting, hm, hnew⟩
    obtain ⟨found, hfound, hturn⟩ := Checked.exists_mem_mapM hfindings hlisting
    rcases finding_cases hturn with ⟨-, -, hdone⟩ | ⟨note, -, -, hnone⟩ | ⟨m', rfl, hl, hm', -⟩
    · rw [hdone m rfl hm] at hnew
      cases hnew
    · exact absurd hm (hnone m rfl)
    · exact ⟨_, hfound, congrArg some (hm'.unique hm hl)⟩

/-- The notes are of the held listings whose closes straddle a basis event. -/
theorem mem_skipped (h : scan D s alerts threshold asOf = .ok r) (note : String) :
    note ∈ r.skipped ↔ ∃ listing ∈ s.store.heldListingIds asOf, Straddles s listing note := by
  obtain ⟨findings, hfindings, -, hskipped⟩ := scan_ok h
  rw [hskipped, List.mem_filterMap]
  constructor
  · rintro ⟨found, hfound, hnote⟩
    obtain ⟨listing, hlisting, hturn⟩ := Checked.mem_mapM_ok hfindings hfound
    rcases finding_cases hturn with ⟨rfl, -⟩ | ⟨note', rfl, hstraddles, -⟩ | ⟨m, rfl, -⟩
    · cases hnote
    · obtain rfl := Option.some.inj hnote
      exact ⟨listing, hlisting, hstraddles⟩
    · cases hnote
  · rintro ⟨listing, hlisting, hstraddles⟩
    obtain ⟨found, hfound, hturn⟩ := Checked.exists_mem_mapM hfindings hlisting
    rcases finding_cases hturn with ⟨-, hnone, -⟩ | ⟨note', rfl, h', -⟩ | ⟨m, -, -, -, -, hnone⟩
    · exact absurd hstraddles (hnone note)
    · exact ⟨_, hfound, congrArg some (h'.unique hstraddles)⟩
    · exact absurd hstraddles (hnone note)

theorem movers_sorted (h : scan D s alerts threshold asOf = .ok r) :
    r.movers.Pairwise fun a b => |b.changePct| ≤ |a.changePct| := by
  obtain ⟨findings, -, hmovers, -⟩ := scan_ok h
  rw [hmovers]
  exact sortBy_sorted (fun m : Mover => OrderDual.toDual |m.changePct|) _

end Scan

end Found

/-! ### The send log -/

section Log
variable {D : DecimalRounding} {alerts : List PriceAlert}

theorem alreadyAlerted_iff {close : ListingId × NaiveDate} :
    alreadyAlerted alerts close = true ↔ close ∈ alerts.map PriceAlert.close := by
  unfold alreadyAlerted
  rw [List.any_eq_true, List.mem_map]
  simp only [decide_eq_true_eq]

theorem insertAlert_grows (alerts : List PriceAlert) (a : PriceAlert) :
    alerts <+: insertAlert alerts a := by
  unfold insertAlert
  split
  · exact List.prefix_rfl
  · exact List.prefix_append alerts [a]

theorem mem_insertAlert {a b : PriceAlert} (h : b ∈ insertAlert alerts a) : b ∈ alerts ∨ b = a := by
  unfold insertAlert at h
  split at h
  · exact .inl h
  · exact (List.mem_append.mp h).imp_right List.mem_singleton.mp

theorem insertAlert_alerted (alerts : List PriceAlert) (a : PriceAlert) :
    alreadyAlerted (insertAlert alerts a) a.close = true := by
  unfold insertAlert
  split
  · assumption
  · rw [alreadyAlerted_iff, List.map_append]
    exact List.mem_append_right _ List.mem_cons_self

theorem insertAlert_nodup (h : (alerts.map PriceAlert.close).Nodup) (a : PriceAlert) :
    ((insertAlert alerts a).map PriceAlert.close).Nodup := by
  unfold insertAlert
  split
  · exact h
  · rename_i hnew
    rw [List.map_append, List.nodup_append]
    refine ⟨h, List.nodup_singleton _, fun i hi j hj heq => ?_⟩
    rw [List.map_singleton, List.mem_singleton] at hj
    exact hnew (alreadyAlerted_iff.mpr (hj ▸ heq ▸ hi))

/-- Inserting rows: the log only grows, by some of them, until it has all their closes. -/
theorem foldl_insertAlert (rows : List PriceAlert) (alerts : List PriceAlert)
    (h : (alerts.map PriceAlert.close).Nodup) :
    alerts <+: rows.foldl insertAlert alerts ∧
      ((rows.foldl insertAlert alerts).map PriceAlert.close).Nodup ∧
      (∀ a ∈ rows.foldl insertAlert alerts, a ∈ alerts ∨ a ∈ rows) ∧
      ∀ a ∈ rows, alreadyAlerted (rows.foldl insertAlert alerts) a.close = true := by
  induction rows generalizing alerts with
  | nil => exact ⟨List.prefix_rfl, h, fun a ha => .inl ha, fun a ha => absurd ha List.not_mem_nil⟩
  | cons r rows ih =>
    obtain ⟨hgrown, hnodup, hfrom, hall⟩ := ih (insertAlert alerts r) (insertAlert_nodup h r)
    refine ⟨(insertAlert_grows alerts r).trans hgrown, hnodup, fun a ha => ?_, ?_⟩
    · rcases hfrom a ha with ha | ha
      · rcases mem_insertAlert ha with ha | rfl
        · exact .inl ha
        · exact .inr List.mem_cons_self
      · exact .inr (List.mem_cons_of_mem r ha)
    · refine List.forall_mem_cons.mpr ⟨?_, hall⟩
      have hin := alreadyAlerted_iff.mp (insertAlert_alerted alerts r)
      exact alreadyAlerted_iff.mpr ((hgrown.map PriceAlert.close).subset hin)

end Log

/-! ### Over a whole run -/

section Desk
variable {D : DecimalRounding}

/-- The log is of messages delivered, and a run in flight has seen all of it. -/
structure Desk.Sound (d : Desk D) : Prop where
  rows : ∀ a ∈ d.alerts, ∃ walk ∈ d.delivered, ∃ m ∈ walk.scan.movers, a = walk.alert m
  closes_nodup : (d.alerts.map PriceAlert.close).Nodup
  current : ∀ walk, d.inFlight = some (.sending walk) ∨ d.inFlight = some (.recording walk) →
    walk.alerts = d.alerts
  worth_sending : ∀ walk, d.inFlight = some (.sending walk) → walk.scan.movers ≠ []
  sent : ∀ walk, d.inFlight = some (.recording walk) → walk ∈ d.delivered

theorem Desk.Sound.new (snapshot : Snapshot) : (Desk.new snapshot : Desk D).Sound where
  rows := fun _ ha => absurd ha List.not_mem_nil
  closes_nodup := List.nodup_nil
  current := by rintro walk (h | h) <;> cases h
  worth_sending := fun _ h => nomatch h
  sent := fun _ h => nomatch h

theorem walkAt_some {d : Desk D} {threshold : ℚ} {now : UtcInstant} {walk : Walk D}
    (h : walkAt d threshold now = some walk) : walk.alerts = d.alerts := by
  unfold walkAt at h
  split at h
  · exact (congrArg Walk.alerts (Option.some.inj h)).symm
  · cases h

/-- Nothing in flight is sound, whatever else was delivered. -/
theorem Desk.Sound.idle {d : Desk D} (h : d.Sound) (more : List (Walk D)) :
    ({ d with inFlight := none, delivered := d.delivered ++ more } : Desk D).Sound where
  rows := fun a ha => by
    obtain ⟨walk, hwalk, hrow⟩ := h.rows a ha
    exact ⟨walk, List.mem_append_left _ hwalk, hrow⟩
  closes_nodup := h.closes_nodup
  current := by rintro walk (h | h) <;> cases h
  worth_sending := fun _ h => nomatch h
  sent := fun _ h => nomatch h

/-- What a step may do to the log and to what was delivered. -/
structure Desk.Steps (d : Desk D) (e : Event) : Prop where
  sound : (d.step e).1.Sound
  kept : d.alerts <+: (d.step e).1.alerts
  delivered : (d.step e).1.delivered = d.delivered ∨ ∃ walk, walk.alerts = d.alerts ∧
    walk.scan.movers ≠ [] ∧ (d.step e).1.delivered = d.delivered ++ [walk]
  finished : ∀ walk, (d.step e).2 = some (.finished walk) → walk.alerts = d.alerts ∧
    ∀ m ∈ walk.scan.movers, alreadyAlerted (d.step e).1.alerts m.close = true

/-- A step that sends nothing and finishes nothing. -/
theorem Desk.Steps.quiet {d d' : Desk D} {e : Event} {answer : Option (Answer D)}
    (hstep : d.step e = (d', answer)) (hsound : d'.Sound) (halerts : d'.alerts = d.alerts)
    (hdelivered : d'.delivered = d.delivered) (hanswer : ∀ walk, answer ≠ some (.finished walk)) :
    d.Steps e where
  sound := by rwa [hstep]
  kept := by rw [hstep, halerts]
  delivered := .inl (by rw [hstep, hdelivered])
  finished := fun walk hwalk => by
    rw [hstep] at hwalk
    exact absurd hwalk (hanswer walk)

theorem Desk.Sound.idle_same {d : Desk D} (h : d.Sound) :
    ({ d with inFlight := none } : Desk D).Sound := by
  have hidle := h.idle []
  rwa [List.append_nil] at hidle

theorem Desk.Sound.started {d : Desk D} (h : d.Sound) (priceAlertPct : Option ℚ)
    (now : UtcInstant) : d.Steps (.started priceAlertPct now) := by
  cases hin : d.inFlight with
  | some phase =>
    have hstep : d.step (.started priceAlertPct now) = (d, none) := by
      simp only [Desk.step, hin]
    exact .quiet hstep h rfl rfl (fun _ => nofun)
  | none =>
    cases priceAlertPct with
    | none =>
      have hstep : d.step (.started none now) = (d, some .notConfigured) := by
        simp only [Desk.step, hin]
      exact .quiet hstep h rfl rfl (fun _ => nofun)
    | some threshold =>
      cases hwalk : walkAt d threshold now with
      | none =>
        have hstep : d.step (.started (some threshold) now) =
            (d, some (.failed (Jobs.joinFailure none))) := by
          simp only [Desk.step, hin, hwalk]
        exact .quiet hstep h rfl rfl (fun _ => nofun)
      | some walk =>
        by_cases hmovers : walk.scan.movers = []
        · -- nothing moved: the run is over, and it has seen the log
          have hstep : d.step (.started (some threshold) now) =
              (d, some (.finished walk)) := by
            simp only [Desk.step, hin, hwalk, hmovers, if_true]
          refine ⟨?_, ?_, .inl ?_, ?_⟩
          · rwa [hstep]
          · rw [hstep]
          · rw [hstep]
          · intro walk' hanswer
            rw [hstep] at hanswer
            obtain rfl := Answer.finished.inj (Option.some.inj hanswer)
            refine ⟨walkAt_some hwalk, fun m hm => ?_⟩
            rw [hmovers] at hm
            exact absurd hm List.not_mem_nil
        · have hstep : d.step (.started (some threshold) now) =
              ({ d with inFlight := some (.sending walk) }, none) := by
            simp only [Desk.step, hin, hwalk, hmovers, if_false]
          refine .quiet hstep ⟨h.rows, h.closes_nodup, ?_, ?_, ?_⟩ rfl rfl (fun _ => nofun)
          · rintro walk' (heq | heq)
            · obtain rfl := Phase.sending.inj (Option.some.inj heq)
              exact walkAt_some hwalk
            · cases heq
          · intro walk' heq
            obtain rfl := Phase.sending.inj (Option.some.inj heq)
            exact hmovers
          · exact fun _ heq => nomatch heq

theorem Desk.Sound.sendEnded {d : Desk D} (h : d.Sound) (result : SendResult) :
    d.Steps (.sendEnded result) := by
  cases hin : d.inFlight with
  | none =>
    have hstep : d.step (.sendEnded result) = (d, none) := by simp only [Desk.step, hin]
    exact .quiet hstep h rfl rfl (fun _ => nofun)
  | some phase =>
    cases phase with
    | recording walk =>
      have hstep : d.step (.sendEnded result) = (d, none) := by simp only [Desk.step, hin]
      exact .quiet hstep h rfl rfl (fun _ => nofun)
    | sending walk =>
      have hcurrent := h.current walk (.inl hin)
      have hworth := h.worth_sending walk hin
      cases result with
      | refused error =>
        have hstep : d.step (.sendEnded (.refused error)) =
            ({ d with inFlight := none }, some (.failed error)) := by
          simp only [Desk.step, hin]
        exact .quiet hstep h.idle_same rfl rfl (fun _ => nofun)
      | lost error =>
        have hstep : d.step (.sendEnded (.lost error)) =
            ({ d with inFlight := none, delivered := d.delivered ++ [walk] },
              some (.failed error)) := by
          simp only [Desk.step, hin]
        refine ⟨?_, ?_, .inr ⟨walk, hcurrent, hworth, ?_⟩, fun walk' hanswer => ?_⟩
        · rw [hstep]
          exact h.idle [walk]
        · rw [hstep]
        · rw [hstep]
        · rw [hstep] at hanswer
          cases hanswer
      | accepted =>
        have hstep : d.step (.sendEnded .accepted) =
            ({ d with inFlight := some (.recording walk), delivered := d.delivered ++ [walk] },
              none) := by
          simp only [Desk.step, hin]
        refine ⟨?_, ?_, .inr ⟨walk, hcurrent, hworth, ?_⟩, fun walk' hanswer => ?_⟩
        · rw [hstep]
          refine ⟨(h.idle [walk]).rows, h.closes_nodup, ?_, ?_, ?_⟩
          · rintro walk' (heq | heq)
            · cases heq
            · obtain rfl := Phase.recording.inj (Option.some.inj heq)
              exact hcurrent
          · exact fun _ heq => nomatch heq
          · intro walk' heq
            obtain rfl := Phase.recording.inj (Option.some.inj heq)
            exact List.mem_append_right _ List.mem_cons_self
        · rw [hstep]
        · rw [hstep]
        · rw [hstep] at hanswer
          cases hanswer

theorem Desk.Sound.recordEnded {d : Desk D} (h : d.Sound) (error : Option String) :
    d.Steps (.recordEnded error) := by
  cases hin : d.inFlight with
  | none =>
    have hstep : d.step (.recordEnded error) = (d, none) := by simp only [Desk.step, hin]
    exact .quiet hstep h rfl rfl (fun _ => nofun)
  | some phase =>
    cases phase with
    | sending walk =>
      have hstep : d.step (.recordEnded error) = (d, none) := by simp only [Desk.step, hin]
      exact .quiet hstep h rfl rfl (fun _ => nofun)
    | recording walk =>
      cases error with
      | some error =>
        have hstep : d.step (.recordEnded (some error)) =
            ({ d with inFlight := none }, some (.failed error)) := by
          simp only [Desk.step, hin]
        exact .quiet hstep h.idle_same rfl rfl (fun _ => nofun)
      | none =>
        have hstep : d.step (.recordEnded none) =
            ({ d with inFlight := none, alerts := dbRecord d.alerts walk },
              some (.finished walk)) := by
          simp only [Desk.step, hin]
        obtain ⟨hgrown, hnodup, hfrom, hall⟩ :=
          foldl_insertAlert (walk.scan.movers.map walk.alert) d.alerts h.closes_nodup
        refine ⟨?_, ?_, .inl ?_, fun walk' hanswer => ?_⟩
        · rw [hstep]
          refine ⟨fun a ha => ?_, hnodup, ?_, h.idle_same.worth_sending, h.idle_same.sent⟩
          · rcases hfrom a ha with ha | ha
            · exact h.rows a ha
            · obtain ⟨m, hm, rfl⟩ := List.mem_map.mp ha
              exact ⟨walk, h.sent walk hin, m, hm, rfl⟩
          · rintro walk' (heq | heq) <;> cases heq
        · rw [hstep]
          exact hgrown
        · rw [hstep]
        · rw [hstep] at hanswer ⊢
          obtain rfl := Answer.finished.inj (Option.some.inj hanswer)
          exact ⟨h.current walk (.inr hin), fun m hm => hall _ (List.mem_map_of_mem hm)⟩

theorem Desk.Sound.step {d : Desk D} (h : d.Sound) (e : Event) : d.Steps e := by
  cases e with
  | written snapshot =>
    exact .quiet rfl ⟨h.rows, h.closes_nodup, h.current, h.worth_sending, h.sent⟩ rfl rfl
      (fun _ => nofun)
  | started priceAlertPct now => exact h.started priceAlertPct now
  | sendEnded result => exact h.sendEnded result
  | recordEnded error => exact h.recordEnded error
  | restarted => exact .quiet rfl h.idle_same rfl rfl (fun _ => nofun)

end Desk

/-- What holds about every step of a run. -/
structure Kept {D : DecimalRounding} (moment : Moment D) : Prop where
  /-- A run that finishes leaves every qualifying move of what it read alerted. -/
  alerted : ∀ walk, moment.answer = some (.finished walk) →
    ∀ m : Mover, m.listing ∈ walk.snapshot.store.heldListingIds walk.now.date →
      Qualifies D walk.snapshot walk.threshold m →
        alreadyAlerted moment.after.alerts m.close = true
  /-- It names every pair it could not compare. -/
  named : ∀ walk, moment.answer = some (.finished walk) →
    ∀ listing ∈ walk.snapshot.store.heldListingIds walk.now.date, ∀ note,
      Straddles walk.snapshot listing note → note ∈ walk.scan.skipped
  /-- A message carries qualifying moves that no record is of, biggest first. -/
  sent : moment.after.delivered = moment.before.delivered ∨
    ∃ walk, moment.after.delivered = moment.before.delivered ++ [walk] ∧
      walk.scan.movers ≠ [] ∧
      walk.scan.movers.Pairwise (fun a b => |b.changePct| ≤ |a.changePct|) ∧
      ∀ m ∈ walk.scan.movers, Qualifies D walk.snapshot walk.threshold m ∧
        alreadyAlerted moment.before.alerts m.close = false
  /-- A record stays, alone of its close. -/
  stays : moment.before.alerts <+: moment.after.alerts
  alone : (moment.after.alerts.map PriceAlert.close).Nodup
  /-- A record says what a message delivered said. -/
  said : ∀ a ∈ moment.after.alerts, ∃ walk ∈ moment.after.delivered, ∃ m ∈ walk.scan.movers,
    a = walk.alert m

/-- Whatever is written beside a run, whichever of its steps fail and whenever the
process dies. -/
theorem moves_alerted_at_least_once (D : DecimalRounding) (snapshot : Snapshot)
    (events : List Event) : ∀ moment ∈ (trace snapshot events : List (Moment D)), Kept moment := by
  intro moment hmoment
  have hkeeps : ∀ (d : Desk D) (e : Event), d.Sound → (d.step e).1.Sound := fun _ e h =>
    (h.step e).sound
  have hsound : moment.before.Sound :=
    EventTrace.invariant_before hkeeps (Desk.Sound.new snapshot) hmoment
  have hsteps := hsound.step moment.event
  obtain ⟨-, hafter, hanswer⟩ := EventTrace.mem_trace hmoment
  refine ⟨?_, ?_, ?_, ?_, ?_, ?_⟩
  · intro walk hfinished m hheld hqualifies
    rw [hanswer] at hfinished
    rw [hafter]
    obtain ⟨hcurrent, hall⟩ := hsteps.finished walk hfinished
    cases hseen : alreadyAlerted moment.before.alerts m.close with
    | true =>
      have hin := alreadyAlerted_iff.mp hseen
      exact alreadyAlerted_iff.mpr ((hsteps.kept.map PriceAlert.close).subset hin)
    | false => exact hall m ((mem_movers walk.found m).mpr ⟨hheld, hqualifies, hcurrent ▸ hseen⟩)
  · intro walk _ listing hheld note hnote
    exact (mem_skipped walk.found note).mpr ⟨listing, hheld, hnote⟩
  · rw [hafter]
    rcases hsteps.delivered with hsame | ⟨walk, hcurrent, hworth, hmore⟩
    · exact .inl hsame
    · refine .inr ⟨walk, hmore, hworth, movers_sorted walk.found, fun m hm => ?_⟩
      obtain ⟨-, hqualifies, hnew⟩ := (mem_movers walk.found m).mp hm
      exact ⟨hqualifies, hcurrent ▸ hnew⟩
  · exact hafter ▸ hsteps.kept
  · exact hafter ▸ hsteps.sound.closes_nodup
  · exact hafter ▸ hsteps.sound.rows

/-! A holding that rises by eight percent between its two closes. -/

def twoCloses : List ClosingPrice := [
  ⟨1, ymd 2026 1 5, ymd 2026 1 5, .fetched 100 100⟩,
  ⟨1, ymd 2026 1 6, ymd 2026 1 6, .fetched 108 108⟩]

theorem twoCloses_days : (twoCloses.map ClosingPrice.day).Nodup := by decide

def risen : Snapshot where
  store := { HealthPrices.heldSince (ymd 2026 1 2) with
    book := { Book.empty with prices := twoCloses, days_unique := twoCloses_days } }
  names := fun _ => "ABC Holdings"

def sixthOfJanuary : UtcInstant := midnight 1 6 (by decide) (by decide)

/-- A run that sends and records. -/
def fullRun : List Event := [
  .started (some 5) sixthOfJanuary, .sendEnded .accepted, .recordEnded none]

theorem fullRun_ends : 2 < (trace risen fullRun : List (Moment halfEvenRounding)).length := by decide

theorem moves_alerted_at_least_once_rise :
    ∃ moment ∈ (trace risen fullRun : List (Moment halfEvenRounding)),
      moment.after.alerts.length = 1 ∧ Kept moment := by
  refine ⟨_, List.getElem_mem fullRun_ends, by decide +kernel, ?_⟩
  exact moves_alerted_at_least_once halfEvenRounding risen fullRun _ (List.getElem_mem fullRun_ends)

end ShareTracker.PriceAlerts
