import ShareTracker.Calendar
import ShareTracker.Lib.LifoStack
import ShareTracker.ParcelLedger

/-!
The at-risk holding-period rule: which of the units entitled to a dividend are
disposed of, last in first out, before they have been held long enough to keep
its franking credits. Counts are exact rationals here.
-/
namespace ShareTracker.Franking
open LifoStack

/-- A trade in its own day's unit basis. -/
structure Event where
  sell : Bool
  date : NaiveDate
  qty : ℚ
  deriving DecidableEq

/-- What one listing's walk reads: its trades in (date, id) order. -/
structure ListingWalk where
  preference : Bool
  events : List Event
  splits : List SplitEvent
  sorted : events.Pairwise fun a b => a.date ≤ b.date
  nonneg : ∀ e ∈ events, 0 ≤ e.qty

structure HoldingPeriodTest where
  entitledUnits : ℚ
  disqualifiedUnits : ℚ
  deriving DecidableEq

/-- The portion of `credits` that cannot be claimed. -/
def HoldingPeriodTest.denied (t : HoldingPeriodTest) (credits : ℚ) : ℚ :=
  if t.entitledUnits = 0 ∨ t.disqualifiedUnits = 0 then 0
  else credits * t.disqualifiedUnits / t.entitledUnits

/-! ### Loading -/

/-- A trade that only moves beneficial ownership nowhere: a transfer's, or a
demerger's on the head listing. -/
def modellingArtifact (s : Ledger) (t : Trade) : Bool :=
  match t.provenance with
  | some (.transfer _) => true
  | some (.demergerAction id) => s.actions.all fun a => a.id ≠ id || a.listing = t.listing
  | _ => false

def tradeEvent (t : Trade) : Event := ⟨t.tradeType = .sell, t.date, t.quantity⟩

def loadedTrades (s : Ledger) (listing : ListingId) : List Trade :=
  StableSort.sortBy (fun t => toLex (t.date, t.id))
    (s.trades.filter fun t => t.listing = listing && !modellingArtifact s t)

/-- The listing's re-basing actions as announced. -/
def announced (s : Ledger) (listing : ListingId) : List SplitEvent :=
  (StableSort.sortBy (fun a => toLex (a.date, a.id))
    (s.actions.filter fun a => a.listing = listing)).filterMap CorporateAction.rebase

theorem loadedTrades_sorted (s : Ledger) (listing : ListingId) :
    ((loadedTrades s listing).map tradeEvent).Pairwise fun a b => a.date ≤ b.date := by
  rw [List.pairwise_map]
  refine (StableSort.sortBy_sorted _ _).imp ?_
  intro a b hab
  exact (Prod.Lex.le_iff.mp hab).elim le_of_lt fun h => h.1.le

/-- `HoldingWalks::load`, for one listing of a ledger whose trades are of no
negative quantities, as every write requires. A reinvestment may store none. -/
def load (s : Ledger) (hs : ∀ t ∈ s.trades, 0 ≤ t.quantity) (preference : Bool)
    (listing : ListingId) : ListingWalk where
  preference := preference
  events := (loadedTrades s listing).map tradeEvent
  splits := announced s listing
  sorted := loadedTrades_sorted s listing
  nonneg := by
    intro e he
    obtain ⟨t, ht, rfl⟩ := List.mem_map.mp he
    exact hs t (List.mem_filter.mp (StableSort.mem_sortBy.mp ht)).1

/-! ### The walk -/

/-- A parcel on the stack: when it was acquired, and whether it was held when
the shares went ex-dividend. -/
structure Tag where
  acquired : NaiveDate
  entitled : Bool
  deriving DecidableEq

/-- Whole days held, neither the day of acquisition nor of disposal counted. -/
def atRiskDays (acquired disposed : NaiveDate) : ℤ := disposed.dayNumber - acquired.dayNumber - 1

structure Walk where
  stack : List (Tag × ℚ)
  snapshotted : Bool
  entitledUnits : ℚ
  disqualifiedUnits : ℚ

namespace Walk

def start : Walk := ⟨[], false, 0, 0⟩

/-- Everything held before the first trade on or after the ex-date is entitled. -/
def snapshot (exDate date : NaiveDate) (w : Walk) : Walk :=
  if !w.snapshotted && decide (exDate ≤ date) then
    { w with
      stack := w.stack.map fun lot => ({ lot.1 with entitled := true }, lot.2)
      entitledUnits := w.entitledUnits + units w.stack
      snapshotted := true }
  else w

def disqualifies (requiredDays : ℕ) (date : NaiveDate) (tag : Tag) : Bool :=
  tag.entitled && decide (atRiskDays tag.acquired date < requiredDays)

/-- One trade, of `qty` units in the basis at the end of the window. -/
def trade (requiredDays : ℕ) (sell : Bool) (date : NaiveDate) (qty : ℚ) (w : Walk) : Walk :=
  if sell then
    let d := draw w.stack qty
    { w with
      stack := d.left
      disqualifiedUnits :=
        w.disqualifiedUnits + LifoStack.unitsWhere (disqualifies requiredDays date) d.taken }
  else { w with stack := (⟨date, false⟩, qty) :: w.stack }

end Walk

namespace ListingWalk

def requiredDays (w : ListingWalk) : ℕ := if w.preference then 90 else 45

/-- The last day on which a trade can affect the entitlement. -/
def windowEnd (w : ListingWalk) (exDate : NaiveDate) : NaiveDate := exDate.addDays w.requiredDays

/-- A trade's units re-based to the end of the window. -/
def rebased (w : ListingWalk) (windowEnd : NaiveDate) (e : Event) : ℚ :=
  splitAdjustedQuantity e.qty w.splits e.date (some windowEnd)

def walkEvent (w : ListingWalk) (exDate : NaiveDate) (state : Walk) (e : Event) : Walk :=
  (state.snapshot exDate e.date).trade w.requiredDays e.sell e.date
    (w.rebased (w.windowEnd exDate) e)

/-- A contemplated sale takes its place after the recorded trades of its day. -/
def insertSale (sale : NaiveDate × ℚ) (events : List Event) : List Event :=
  events.takeWhile (fun e => e.date ≤ sale.1) ++ ⟨true, sale.1, sale.2⟩ ::
    events.dropWhile (fun e => e.date ≤ sale.1)

/-- The events the walk takes: those in the window, with the sale where it is
contemplated there. -/
def windowEvents (w : ListingWalk) (exDate : NaiveDate) (sale : Option (NaiveDate × ℚ)) :
    List Event :=
  let events := w.events.takeWhile fun e => e.date ≤ w.windowEnd exDate
  match sale.filter fun s => s.1 ≤ w.windowEnd exDate with
  | some s => insertSale s events
  | none => events

def testWithSale (w : ListingWalk) (exDate : NaiveDate) (sale : Option (NaiveDate × ℚ)) :
    HoldingPeriodTest :=
  let final := (w.windowEvents exDate sale).foldl (w.walkEvent exDate) .start
  ⟨if final.snapshotted then final.entitledUnits else units final.stack, final.disqualifiedUnits⟩

def test (w : ListingWalk) (exDate : NaiveDate) : HoldingPeriodTest := w.testWithSale exDate none

end ListingWalk

end ShareTracker.Franking
