import ShareTracker.Lib.Checked
import ShareTracker.Lib.GuardedRun
import ShareTracker.Lib.Keyed
import ShareTracker.Calendar
import ShareTracker.ParcelLedger

/-!
Where a trade's settlement date came from: stated by the body that wrote it, or
computed from the exchange's calendar, which is what the recompute job may
derive again.
-/
namespace ShareTracker.SettlementDates
open Checked

inductive SettlementDateSource where
  | computed
  | stated
  | unrecorded
  deriving DecidableEq

def SettlementDateSource.isRecomputable (s : SettlementDateSource) : Bool := s = .computed

/-- A row of the trades table, as far as its settlement is concerned. -/
structure Trade where
  id : TradeId
  tradeType : TradeType
  listing : ListingId
  date : NaiveDate
  settlementDate : NaiveDate
  source : SettlementDateSource
  deriving DecidableEq

/-- What an exchange's calendar says of a listing: no listing, one without an
exchange, or its T+n and public holidays. -/
structure Calendars where
  settlementDays : ListingId → Option (Option ℤ)
  holidays : ListingId → List NaiveDate

inductive SettlementError where
  | listingMissing (listing : ListingId)
  | dateOverflow (date : NaiveDate) (businessDays : ℤ)
  deriving DecidableEq

/-- The last date there is. -/
def lastDay : NaiveDate := ymd 262143 12 31

def isBusinessDay (holidays : List NaiveDate) (date : NaiveDate) : Bool :=
  !date.isWeekend && !holidays.contains date

/-- The loop of `add_business_days`, from where it has come to. -/
def advance (holidays : List NaiveDate) (remaining : ℤ) (result : NaiveDate) : Option NaiveDate :=
  if remaining ≤ 0 then some result
  else if _h : result < lastDay then
    advance holidays (if isBusinessDay holidays result.succ then remaining - 1 else remaining)
      result.succ
  else none
termination_by (lastDay.dayNumber - result.dayNumber).toNat
decreasing_by
  have hlt := NaiveDate.dayNumber_lt.mpr _h
  rw [NaiveDate.dayNumber_succ]
  omega

def addBusinessDays (date : NaiveDate) (businessDays : ℤ) (holidays : List NaiveDate) :
    Except SettlementError NaiveDate :=
  orRefuse (advance holidays businessDays date) (.dateOverflow date businessDays)

def autoSettlementDate (c : Calendars) (listing : ListingId) (date : NaiveDate) :
    Except SettlementError NaiveDate :=
  match c.settlementDays listing with
  | none => .error (.listingMissing listing)
  | some none => .ok date
  | some (some days) => addBusinessDays date days (c.holidays listing)

structure Settlement where
  date : NaiveDate
  source : SettlementDateSource

/-- A date its writer asserts. -/
def Settlement.asserted (date : NaiveDate) : Settlement := ⟨date, .stated⟩

/-- `Settlement::resolve_on`: a supplied date is stated, unless it is the one
already stored, which keeps its source; an omitted one is computed. -/
def resolveOn (c : Calendars) (stored : Option Trade) (listing : ListingId) (date : NaiveDate)
    (supplied : Option NaiveDate) : Except SettlementError Settlement :=
  match supplied with
  | none => do
      let computed ← autoSettlementDate c listing date
      .ok ⟨computed, .computed⟩
  | some supplied =>
    match stored with
    | some t =>
      if t.settlementDate = supplied then .ok ⟨supplied, t.source⟩
      else .ok (.asserted supplied)
    | none => .ok (.asserted supplied)

@[ext] structure Book where
  trades : List Trade
  ids_unique : (trades.map Trade.id).Nodup

/-- The body of a trade or Sell write. -/
structure TradeBody where
  tradeType : TradeType
  listing : ListingId
  date : NaiveDate
  settlementDate : Option NaiveDate

inductive Refusal where
  | settlement (why : SettlementError)
  | settlementBeforeTrade
  | tradeTypeChange
  | idTaken
  | computedElsewhere
  | notFound
  | other
  deriving DecidableEq

/-- A write of the trades table. A trade or Sell write names the row it edits or
creates, or takes the id the database assigns; `refused` is what its other
checks say. -/
inductive Write where
  | put (id : Option TradeId) (assigned : TradeId) (body : TradeBody) (refused : Bool)
  /-- A row another operation writes, never computed. -/
  | derived (row : Trade)
  | delete (id : TradeId)
  | recompute

namespace Book

def empty : Book := ⟨[], List.nodup_nil⟩

def trade? (s : Book) (id : TradeId) : Option Trade := Keyed.get? Trade.id s.trades id

def put (s : Book) (row : Trade) : Book where
  trades := Keyed.put Trade.id s.trades row
  ids_unique := Keyed.nodup_put s.ids_unique row

/-- The row a body is written as, its settlement resolved. -/
def row (body : TradeBody) (id : TradeId) (settlement : Settlement) : Trade where
  id := id
  tradeType := body.tradeType
  listing := body.listing
  date := body.date
  settlementDate := settlement.date
  source := settlement.source

def write (c : Calendars) (s : Book) (id : Option TradeId) (assigned : TradeId) (body : TradeBody)
    (refused : Bool) : Except Refusal Book := do
  refuseIf (body.settlementDate.getD body.date < body.date) .settlementBeforeTrade
  let stored := id.bind s.trade?
  let settlement ← (resolveOn c stored body.listing body.date body.settlementDate).mapError
    Refusal.settlement
  refuseIf (∃ t ∈ stored, t.tradeType ≠ body.tradeType) .tradeTypeChange
  refuseIf (id = none ∧ (s.trade? assigned).isSome = true) .idTaken
  refuseIf (refused = true) .other
  .ok (s.put (row body (id.getD assigned) settlement))

/-- What the recompute pass wants a trade's settlement date to be. -/
def wanted (c : Calendars) (t : Trade) : Except SettlementError NaiveDate :=
  if t.source.isRecomputable then autoSettlementDate c t.listing t.date else .ok t.settlementDate

def repaired (c : Calendars) (t : Trade) : Trade :=
  match wanted c t with
  | .ok date => if date = t.settlementDate then t else { t with settlementDate := date }
  | .error _ => t

theorem repaired_id (c : Calendars) (t : Trade) : (repaired c t).id = t.id := by
  rw [repaired]
  split
  · split
    · rfl
    · rfl
  · rfl

def failure (c : Calendars) (t : Trade) : Option SettlementError :=
  match wanted c t with
  | .ok _ => none
  | .error e => some e

/-- `run_recompute`: every computed date derived again, or none. -/
def runRecompute (c : Calendars) (s : Book) : Except SettlementError Book :=
  match s.trades.findSome? (failure c) with
  | some e => .error e
  | none => .ok ⟨s.trades.map (repaired c), Keyed.nodup_map s.ids_unique (repaired_id c)⟩

def step (c : Calendars) (s : Book) : Write → Except Refusal Book
  | .put id assigned body refused => s.write c id assigned body refused
  | .derived row => do
      refuseIf (row.source = .computed) .computedElsewhere
      .ok (s.put row)
  | .delete id => do
      refuseIf (s.trade? id = none) .notFound
      .ok ⟨s.trades.filter fun t => t.id ≠ id, Keyed.nodup_filter s.ids_unique _⟩
  | .recompute => (s.runRecompute c).mapError .settlement

/-- Every computed settlement date is the trade's own date advanced by T+n. -/
def Truthful (c : Calendars) (s : Book) : Prop :=
  ∀ t ∈ s.trades, t.source = .computed → autoSettlementDate c t.listing t.date = .ok t.settlementDate

/-- Whether a write that supplies the stored date of a computed trade leaves it
what the calendar computes. -/
def keepsProvenance (c : Calendars) (s : Book) : Write → Bool
  | .put id _ body _ =>
    (id.bind s.trade?).all fun t => body.settlementDate.all fun supplied =>
      !(decide (t.settlementDate = supplied) && decide (t.source = .computed)) ||
        decide (autoSettlementDate c body.listing body.date = .ok supplied)
  | _ => true

variable {c : Calendars} {s s' : Book}

/-! ### One write -/

theorem truthful_put {row : Trade} (h : s.Truthful c) :
    (s.put row).Truthful c ↔
      (row.source = .computed → autoSettlementDate c row.listing row.date = .ok row.settlementDate) := by
  constructor
  · intro hput
    exact hput row (Keyed.mem_put.mpr (.inr rfl))
  · intro hrow t ht
    rcases Keyed.mem_put.mp ht with ⟨hold, -⟩ | rfl
    · exact h t hold
    · exact hrow

/-- What a resolved settlement claims is true, but where a stored mark is kept. -/
theorem resolveOn_computed {stored : Option Trade} {listing : ListingId} {date : NaiveDate}
    {supplied : Option NaiveDate} {settlement : Settlement}
    (h : resolveOn c stored listing date supplied = .ok settlement) :
    (settlement.source = .computed → autoSettlementDate c listing date = .ok settlement.date) ↔
      ∀ t ∈ stored, ∀ given ∈ supplied, t.settlementDate = given → t.source = .computed →
        autoSettlementDate c listing date = .ok given := by
  cases supplied with
  | none =>
    obtain ⟨computed, hcomputed, h⟩ := bind_ok h
    obtain rfl := Except.ok.inj h
    constructor
    · intro _ _ _ given hgiven
      cases hgiven
    · intro _ _
      exact hcomputed
  | some given =>
    cases stored with
    | none =>
      obtain rfl := Except.ok.inj h
      constructor
      · intro _ t ht
        cases ht
      · intro _ hstated
        cases hstated
    | some t =>
      rw [resolveOn] at h
      split at h
      · rename_i heq
        obtain rfl := Except.ok.inj h
        constructor
        · rintro hkept _ ⟨⟩ _ ⟨⟩ - hsource
          exact hkept hsource
        · intro hkept hsource
          exact hkept t rfl given rfl heq hsource
      · rename_i hne
        obtain rfl := Except.ok.inj h
        constructor
        · rintro - _ ⟨⟩ _ ⟨⟩ heq
          exact absurd heq hne
        · intro _ hstated
          cases hstated

theorem keepsProvenance_put {id : Option TradeId} {assigned : TradeId} {body : TradeBody}
    {refused : Bool} : s.keepsProvenance c (.put id assigned body refused) = true ↔
      ∀ t ∈ id.bind s.trade?, ∀ given ∈ body.settlementDate, t.settlementDate = given →
        t.source = .computed → autoSettlementDate c body.listing body.date = .ok given := by
  rw [keepsProvenance]
  simp only [Option.all_eq_true, Bool.or_eq_true, Bool.not_eq_true', Bool.and_eq_false_iff,
    decide_eq_false_iff_not, decide_eq_true_eq]
  constructor
  · intro h t ht given hgiven heq hsource
    rcases h t ht given hgiven with (hne | hne) | hauto
    · exact absurd heq hne
    · exact absurd hsource hne
    · exact hauto
  · intro h t ht given hgiven
    by_cases heq : t.settlementDate = given
    · by_cases hsource : t.source = .computed
      · exact .inr (h t ht given hgiven heq hsource)
      · exact .inl (.inr hsource)
    · exact .inl (.inl heq)

theorem failure_none {t : Trade} (h : failure c t = none) : ∃ date, wanted c t = .ok date := by
  rw [failure] at h
  split at h
  · rename_i date hdate
    exact ⟨date, hdate⟩
  · cases h

theorem runRecompute_ok (h : s.runRecompute c = .ok s') :
    (∀ t ∈ s.trades, failure c t = none) ∧ s'.trades = s.trades.map (repaired c) := by
  rw [runRecompute] at h
  split at h
  · cases h
  · rename_i hnone
    obtain rfl := Except.ok.inj h
    exact ⟨fun t ht => List.findSome?_eq_none_iff.mp hnone t ht, rfl⟩

/-- A repaired trade's settlement date is what the calendar computes. -/
theorem repaired_computed {t : Trade} (h : failure c t = none)
    (hsource : (repaired c t).source = .computed) :
    autoSettlementDate c (repaired c t).listing (repaired c t).date =
      .ok (repaired c t).settlementDate := by
  obtain ⟨date, hdate⟩ := failure_none h
  have hrow : repaired c t = { t with settlementDate := date } := by
    rw [repaired, hdate]
    simp only
    split
    · rename_i heq
      rw [heq]
    · rfl
  rw [hrow] at hsource ⊢
  have hwanted : wanted c t = autoSettlementDate c t.listing t.date :=
    if_pos (decide_eq_true hsource)
  rw [← hwanted]
  exact hdate

theorem Truthful.runRecompute (h : s.runRecompute c = .ok s') : s'.Truthful c := by
  obtain ⟨hnone, htrades⟩ := runRecompute_ok h
  intro t ht
  rw [htrades] at ht
  obtain ⟨u, hu, rfl⟩ := List.mem_map.mp ht
  exact repaired_computed (hnone u hu)

/-- The recompute job changes nothing exactly where every mark is true. -/
theorem runRecompute_self_iff : s.runRecompute c = .ok s ↔ s.Truthful c := by
  constructor
  · exact Truthful.runRecompute
  · intro h
    have hwanted : ∀ t ∈ s.trades, wanted c t = .ok t.settlementDate := by
      intro t ht
      rw [wanted]
      split
      · rename_i hsource
        exact h t ht (of_decide_eq_true hsource)
      · rfl
    have hnone : s.trades.findSome? (failure c) = none := by
      rw [List.findSome?_eq_none_iff]
      intro t ht
      rw [failure, hwanted t ht]
    have hsame : s.trades.map (repaired c) = s.trades := by
      refine (List.map_congr_left fun t ht => ?_).trans (List.map_id _)
      rw [repaired, hwanted t ht]
      exact if_pos rfl
    rw [Book.runRecompute, hnone]
    exact congrArg Except.ok (Book.ext hsame)

/-- A write keeps every mark true exactly where it does not keep one past a
change of what it was computed from. -/
theorem step_truthful {w : Write} (h : s.Truthful c) (hok : s.step c w = .ok s') :
    s'.Truthful c ↔ s.keepsProvenance c w = true := by
  cases w with
  | put id assigned body refused =>
    obtain ⟨_, -, hok⟩ := bind_ok hok
    obtain ⟨settlement, hsettlement, hok⟩ := bind_ok hok
    obtain ⟨_, -, hok⟩ := bind_ok hok
    obtain ⟨_, -, hok⟩ := bind_ok hok
    obtain ⟨_, -, hok⟩ := bind_ok hok
    obtain rfl := Except.ok.inj hok
    rw [truthful_put h, keepsProvenance_put]
    exact resolveOn_computed (mapError_ok.mp hsettlement)
  | derived row =>
    obtain ⟨_, hsource, hok⟩ := bind_ok hok
    obtain rfl := Except.ok.inj hok
    rw [truthful_put h]
    exact ⟨fun _ => rfl, fun _ hcomputed => absurd hcomputed (refuseIf_ok.mp hsource)⟩
  | delete id =>
    obtain ⟨_, -, hok⟩ := bind_ok hok
    obtain rfl := Except.ok.inj hok
    exact ⟨fun _ => rfl, fun _ t ht => h t (List.mem_filter.mp ht).1⟩
  | recompute =>
    exact ⟨fun _ => rfl, fun _ => Truthful.runRecompute (mapError_ok.mp hok)⟩

/-! ### Runs -/

/-- In a run from an empty book every state's marks are true, and the recompute
job would change none of them, exactly where no write re-supplies the stored date of a
computed trade beside a date or listing that computes another. -/
theorem run_truthful_iff (c : Calendars) (ws : List Write) (s : Book)
    (hrun : GuardedRun.run (step c) empty ws = .ok s) :
    GuardedRun.meets (step c) (keepsProvenance c) empty ws = true ↔
      ∀ ws₁ ws₂ m, ws = ws₁ ++ ws₂ → GuardedRun.run (step c) empty ws₁ = .ok m →
        m.Truthful c ∧ m.runRecompute c = .ok m := by
  have hempty : empty.Truthful c := fun t ht => absurd ht List.not_mem_nil
  rw [GuardedRun.meets_iff_states (fun _ _ _ h hok => step_truthful h hok) hempty hrun]
  constructor
  · intro h ws₁ ws₂ m heq hm
    have htrue := h ws₁ ws₂ m heq hm
    exact ⟨htrue, runRecompute_self_iff.mpr htrue⟩
  · intro h ws₁ ws₂ m heq hm
    exact (h ws₁ ws₂ m heq hm).1

/-- An exchange that settles two business days on. -/
def tPlusTwo : Calendars := ⟨fun _ => some (some 2), fun _ => [ymd 2026 6 8]⟩

/-- A Buy of a Thursday, its settlement date left to the calendar, then put back
as it is read out. -/
def putBack : List Write := [
  .put none 1 ⟨.buy, 1, ymd 2026 6 4, none⟩ false,
  .put (some 1) 1 ⟨.buy, 1, ymd 2026 6 4, some (ymd 2026 6 9)⟩ false]

theorem run_truthful_putBack :
    ∃ s, GuardedRun.run (step tPlusTwo) empty putBack = .ok s ∧ s.Truthful tPlusTwo := by
  have hruns : accepts (GuardedRun.run (step tPlusTwo) empty putBack) (fun _ => true) = true := by
    decide +kernel
  obtain ⟨s, hs⟩ := exists_ok hruns
  have hmeets : GuardedRun.meets (step tPlusTwo) (keepsProvenance tPlusTwo) empty putBack = true := by
    decide +kernel
  exact ⟨s, hs, ((run_truthful_iff tPlusTwo putBack s hs).mp hmeets putBack [] s
    (List.append_nil _).symm hs).1⟩

/-- The same Buy moved a day on, its settlement date sent back unchanged: still
marked computed, and the recompute job moves it. -/
theorem run_mark_outlives_date :
    ∃ s s', GuardedRun.run (step tPlusTwo) empty [
        .put none 1 ⟨.buy, 1, ymd 2026 6 4, none⟩ false,
        .put (some 1) 1 ⟨.buy, 1, ymd 2026 6 5, some (ymd 2026 6 9)⟩ false] = .ok s ∧
      s.trades = [⟨1, .buy, 1, ymd 2026 6 5, ymd 2026 6 9, .computed⟩] ∧
      s.runRecompute tPlusTwo = .ok s' ∧
      s'.trades = [⟨1, .buy, 1, ymd 2026 6 5, ymd 2026 6 10, .computed⟩] ∧ ¬ s.Truthful tPlusTwo := by
  have hruns : accepts (GuardedRun.run (step tPlusTwo) empty [
        .put none 1 ⟨.buy, 1, ymd 2026 6 4, none⟩ false,
        .put (some 1) 1 ⟨.buy, 1, ymd 2026 6 5, some (ymd 2026 6 9)⟩ false]) (fun s =>
      decide (s.trades = [⟨1, .buy, 1, ymd 2026 6 5, ymd 2026 6 9, .computed⟩]) &&
        accepts (s.runRecompute tPlusTwo) fun s' =>
          decide (s'.trades = [⟨1, .buy, 1, ymd 2026 6 5, ymd 2026 6 10, .computed⟩])) = true := by
    decide +kernel
  obtain ⟨s, hs, hrest⟩ := accepts_iff.mp hruns
  obtain ⟨htrades, hrest⟩ := (Bool.and_eq_true _ _).mp hrest
  obtain ⟨s', hs', hmoved⟩ := accepts_iff.mp hrest
  have htrades := of_decide_eq_true htrades
  have hmoved := of_decide_eq_true hmoved
  refine ⟨s, s', hs, htrades, hs', hmoved, fun htrue => ?_⟩
  rw [runRecompute_self_iff.mpr htrue] at hs'
  obtain rfl := Except.ok.inj hs'
  rw [htrades] at hmoved
  exact absurd hmoved (by decide)

end Book

end ShareTracker.SettlementDates
