import ShareTracker.ParcelLedger
import ShareTracker.Fx
import ShareTracker.Lib.Keyed

/-!
The recorded corporate actions with their terms, and the guard that keeps an
event from being written behind a rollover that has already run.
-/
namespace ShareTracker.CorporateActions

abbrev Positive := { q : ℚ // 0 < q }

/-- How the registry treats a fractional entitlement. -/
inductive FractionRule where
  | exact
  | down
  | up
  | nearest
  | cashInLieu
  deriving DecidableEq

def FractionRule.rounding : FractionRule → Option Rounding
  | .exact => none
  | .down => some .down
  | .up => some .up
  | .nearest => some .nearest
  | .cashInLieu => some .cashInLieu

/-- What the head entity closed at on its last day before a demerger. -/
structure StatedClose where
  date : NaiveDate
  price : ℚ
  sourcedFrom : String
  reason : String
  deriving DecidableEq

/-- The cash side of a partial exchange. -/
structure ScripCash where
  cashPerUnit : ℚ
  marketValue : ℚ
  currency : CurrencyCode
  deriving DecidableEq

inductive ActionKind where
  | returnOfCapital (amountPerUnit : ℚ) (currency : CurrencyCode) (recordDate : Option NaiveDate)
  | shareSplit (newUnits oldUnits : Positive) (rule : FractionRule) (recordDate : Option NaiveDate)
  | bonusIssue (bonusUnits heldUnits : Positive) (rule : FractionRule)
      (recordDate : Option NaiveDate)
  | rightsIssue (rightsUnits heldUnits exercisePrice : ℚ) (currency : CurrencyCode)
      (renounceable : Bool)
  | buyBack (price dividend frankingCredit : ℚ) (marketValue : Option ℚ) (currency : CurrencyCode)
  | scripForScrip (scripListing : ListingId) (newUnits oldUnits : ℚ) (cash : Option ScripCash)
      (rule : FractionRule) (recordDate : Option NaiveDate)
  | demerger (demergedListing : ListingId) (newUnits heldUnits costBasePct : ℚ)
      (close : Option StatedClose) (rule : FractionRule) (recordDate : Option NaiveDate)
  | worthlessShares (event : String)
  deriving DecidableEq

structure ActionBody where
  listing : ListingId
  date : NaiveDate
  kind : ActionKind
  deriving DecidableEq

structure Action where
  id : ℤ
  listing : ListingId
  date : NaiveDate
  kind : ActionKind
  deriving DecidableEq

def ActionBody.row (body : ActionBody) (id : ℤ) : Action :=
  ⟨id, body.listing, body.date, body.kind⟩

/-- The kinds that restate a parcel retroactively. -/
def ActionKind.restates : ActionKind → Bool
  | .returnOfCapital .. | .shareSplit .. | .bonusIssue .. => true
  | _ => false

def ActionKind.isPayment : ActionKind → Bool
  | .returnOfCapital .. => true
  | _ => false

/-- The terms with a demerger's stated close taken out. -/
def ActionKind.blankClose : ActionKind → ActionKind
  | .demerger listing new held pct _ rule recordDate =>
    .demerger listing new held pct none rule recordDate
  | kind => kind

def ActionKind.isDemerger : ActionKind → Bool
  | .demerger .. => true
  | _ => false

/-- Whether a write changes a demerger's stated close and nothing else of it. -/
def statedCloseOnly (stored : Action) (written : ActionBody) : Bool :=
  stored.kind.isDemerger && written.kind.isDemerger && stored.listing = written.listing &&
    stored.date = written.date && stored.kind ≠ written.kind &&
    stored.kind.blankClose = written.kind.blankClose

/-- A listing's AMIT election: none, its whole history, or from a year on. -/
inductive Amit where
  | no
  | always
  | since (date : NaiveDate)
  deriving DecidableEq

def amitInTaxYear (amit : Amit) (taxYear : ℤ) : Bool :=
  match amit with
  | .no => false
  | .always => true
  | .since date => taxYearFor date ≤ taxYear

/-- The facts an action is written against. -/
structure Facts where
  actions : List Action
  trades : List Trade
  /-- The rights issues that rights sales name. -/
  rightsSales : List ℤ
  amit : ListingId → Amit
  ids_unique : (actions.map Action.id).Nodup

inductive WriteError where
  | referencedByTrade
  | returnOfCapitalOnAmit
  | backDatedOverRollover (rollovers : List (NaiveDate × Option Provenance))
  | alreadyExists
  | allocationsExceedParcel
  | unrepresentableRebasedQuantity
  | paymentCurrencyMismatch
  deriving DecidableEq

/-- The operations that carry a parcel's cost base away as a stored figure. -/
def isRollover (t : Trade) : Bool :=
  t.tradeType = .sell && match t.provenance with
    | some (.transfer _) | some (.scripAction _) | some (.demergerAction _) => true
    | _ => false

/-- The action whose own group a rollover's Sell belongs to. -/
def rolloverAction (t : Trade) : Option ℤ :=
  match t.provenance with
  | some (.scripAction id) | some (.demergerAction id) => some id
  | _ => none

namespace Facts

def action? (s : Facts) (id : ℤ) : Option Action :=
  Keyed.get? Action.id s.actions id

def referenced (s : Facts) (id : ℤ) : Bool :=
  s.trades.any (fun t => t.provenance.any fun p => p.action = some id) || s.rightsSales.contains id

def rollovers (s : Facts) : List Trade := s.trades.filter isRollover

/-- `COALESCE(scrip_action_id, demerger_action_id, -1) <> exclude`. -/
def counted (exclude : ℤ) (t : Trade) : Bool := (rolloverAction t).getD (-1) ≠ exclude

/-- The rollovers of a listing on or after a date, newest first. -/
def rolloversAfter (s : Facts) (listing : ListingId) (date : NaiveDate) (exclude : ℤ) :
    List (NaiveDate × Option Provenance) :=
  let found := s.rollovers.filter fun t =>
    t.listing = listing && decide (date ≤ t.date) && counted exclude t
  (StableSort.sortBy (fun t => toLex (OrderDual.toDual t.date, OrderDual.toDual t.id)) found).map
    fun t => (t.date, t.provenance)

def put (s : Facts) (row : Action) : Facts :=
  { s with
    actions := Keyed.put Action.id s.actions row
    ids_unique := Keyed.nodup_put s.ids_unique row }

/-- `PUT /corporate_actions/:id`, or a create at the id `assigned` by the
database. `later` is whatever the checks over the written state refuse: its
quantities, its allocations and its payment currencies. -/
def write (later : Facts → Facts → Option WriteError) (s : Facts) (id : Option ℤ) (assigned : ℤ)
    (body : ActionBody) : Except WriteError Facts :=
  let stored := id.bind s.action?
  let amitYear := amitInTaxYear (s.amit body.listing) (taxYearFor body.date)
  let rollovers := s.rolloversAfter body.listing body.date (id.getD 0)
  if id.any s.referenced && !stored.any (fun old => statedCloseOnly old body) then
    .error .referencedByTrade
  else if body.kind.isPayment && amitYear then .error .returnOfCapitalOnAmit
  else if body.kind.restates && rollovers ≠ [] then .error (.backDatedOverRollover rollovers)
  else if id = none ∧ (s.action? assigned).isSome then .error .alreadyExists
  else
    let written := s.put (body.row (id.getD assigned))
    match later s written with
    | some e => .error e
    | none => .ok written

end Facts

/-- An event of a rollover's source listing, dated on or before it. -/
def Behind (t : Trade) (a : Action) : Prop :=
  a.kind.restates = true ∧ a.listing = t.listing ∧ a.date ≤ t.date

/-- The events behind a rollover, with their terms. -/
def Facts.eventsBehind (s : Facts) (t : Trade) : Set Action :=
  { a | a ∈ s.actions ∧ Behind t a }

/-- Neither the row replaced nor, where the guard does not count the rollover,
the row written is an event behind it, unless they are the same row. -/
def Facts.LeavesBehind (s : Facts) (id : Option ℤ) (row : Action) : Prop :=
  ∀ t ∈ s.rollovers,
    ((∃ old, s.action? row.id = some old ∧ Behind t old) ∨
      Facts.counted (id.getD 0) t = false ∧ Behind t row) → s.action? row.id = some row

section Guard

theorem action?_eq_some {s : Facts} {id : ℤ} {a : Action} :
    s.action? id = some a ↔ a ∈ s.actions ∧ a.id = id := Keyed.get?_eq_some s.ids_unique

theorem mem_put {s : Facts} {row a : Action} :
    a ∈ (s.put row).actions ↔ (a ∈ s.actions ∧ a.id ≠ row.id) ∨ a = row := Keyed.mem_put

/-- What an accepted write says of the guard, and the rows it leaves. -/
theorem write_ok {later : Facts → Facts → Option WriteError} {s s' : Facts} {id : Option ℤ}
    {assigned : ℤ} {body : ActionBody} (h : s.write later id assigned body = .ok s') :
    s' = s.put (body.row (id.getD assigned)) ∧
      ∀ t ∈ s.rollovers, Behind t (body.row (id.getD assigned)) →
        Facts.counted (id.getD 0) t = false := by
  unfold Facts.write at h
  simp only at h
  split at h
  · cases h
  split at h
  · cases h
  split at h
  · cases h
  rename_i hguard
  split at h
  · cases h
  split at h
  · cases h
  refine ⟨(Except.ok.inj h).symm, ?_⟩
  rintro t ht ⟨hrestates, hlisting, hdate⟩
  by_contra hcounted
  refine hguard ?_
  have hmem : (t.date, t.provenance) ∈ s.rolloversAfter body.listing body.date (id.getD 0) := by
    refine List.mem_map.mpr ⟨t, StableSort.mem_sortBy.mpr (List.mem_filter.mpr ⟨ht, ?_⟩), rfl⟩
    have hlisting' : t.listing = body.listing := hlisting.symm
    have hdate' : body.date ≤ t.date := hdate
    simp [hlisting', hdate', Bool.eq_true_of_not_eq_false hcounted]
  rw [Bool.and_eq_true]
  exact ⟨hrestates, decide_eq_true (List.ne_nil_of_mem hmem)⟩

end Guard

/-- An accepted write leaves the events behind every rollover as they were
exactly where it replaces none of them. -/
theorem write_keeps_eventsBehind (later : Facts → Facts → Option WriteError) (s s' : Facts)
    (id : Option ℤ) (assigned : ℤ) (body : ActionBody)
    (h : s.write later id assigned body = .ok s') :
    (∀ t ∈ s.rollovers, s'.eventsBehind t = s.eventsBehind t) ↔
      s.LeavesBehind id (body.row (id.getD assigned)) := by
  obtain ⟨rfl, hguard⟩ := write_ok h
  generalize body.row (id.getD assigned) = row at hguard
  constructor
  · intro hsame t ht hdisturbed
    rcases hdisturbed with ⟨old, hold, hbehind⟩ | ⟨-, hbehind⟩
    · -- the replaced event is still there, so it is the row written
      obtain ⟨hmem, hid⟩ := action?_eq_some.mp hold
      have hkept : old ∈ (s.put row).eventsBehind t := by
        rw [hsame t ht]
        exact ⟨hmem, hbehind⟩
      rcases mem_put.mp hkept.1 with ⟨-, hne⟩ | rfl
      · exact absurd hid hne
      · exact hold
    · have hstored : row ∈ s.eventsBehind t := by
        rw [← hsame t ht]
        exact ⟨mem_put.mpr (Or.inr rfl), hbehind⟩
      exact action?_eq_some.mpr ⟨hstored.1, rfl⟩
  · intro hleaves t ht
    ext a
    constructor
    · rintro ⟨ha, hbehind⟩
      rcases mem_put.mp ha with ⟨ha, -⟩ | rfl
      · exact ⟨ha, hbehind⟩
      · have hstored := hleaves t ht (Or.inr ⟨hguard t ht hbehind, hbehind⟩)
        exact ⟨(action?_eq_some.mp hstored).1, hbehind⟩
    · rintro ⟨ha, hbehind⟩
      refine ⟨mem_put.mpr ?_, hbehind⟩
      by_cases hid : a.id = row.id
      · have hstored := hleaves t ht (Or.inl ⟨a, action?_eq_some.mpr ⟨ha, hid⟩, hbehind⟩)
        have hrow := action?_eq_some.mpr ⟨ha, hid⟩
        rw [hrow] at hstored
        exact Or.inr (Option.some_inj.mp hstored)
      · exact Or.inl ⟨ha, hid⟩

/-- A return of capital with 100 units transferred out after it. -/
def transferred : Facts where
  actions := [⟨1, 1, ymd 2024 3 1,
    .returnOfCapital (1 / 2) ⟨"AUD"⟩ none⟩]
  trades := [
    ⟨1, .buy, ymd 2024 1 2, 1, 1, 100, none⟩,
    ⟨2, .sell, ymd 2024 6 3, 1, 1, 100,
      some (.transfer 9)⟩,
    ⟨3, .buy, ymd 2024 6 3, 1, 2, 100,
      some (.transfer 9)⟩]
  rightsSales := []
  amit := fun _ => .no
  ids_unique := by decide

/-- The same payment, dated after the transfer. -/
def laterPayment : ActionBody :=
  ⟨1, ymd 2024 7 1,
    .returnOfCapital (1 / 2) ⟨"AUD"⟩ none⟩

theorem write_keeps_eventsBehind_create :
    (∀ t ∈ transferred.rollovers,
        (transferred.put (laterPayment.row 2)).eventsBehind t = transferred.eventsBehind t) ↔
      transferred.LeavesBehind none (laterPayment.row 2) :=
  write_keeps_eventsBehind (fun _ _ => none) transferred (transferred.put (laterPayment.row 2)) none
    2 laterPayment rfl

/-- An edit moves the payment out from behind the transfer. -/
theorem write_moves_eventsBehind : ∃ s', transferred.write (fun _ _ => none) (some 1) 0 laterPayment =
      .ok s' ∧ ¬ ∀ t ∈ transferred.rollovers, s'.eventsBehind t = transferred.eventsBehind t := by
  refine ⟨transferred.put (laterPayment.row 1), rfl, fun hsame => ?_⟩
  have hclosing : transferred.trades.get ⟨1, by decide⟩ ∈ transferred.rollovers := by decide
  have hbehind : Behind (transferred.trades.get ⟨1, by decide⟩)
      (transferred.actions.get ⟨0, by decide⟩) := ⟨rfl, rfl, by decide⟩
  have hkept : transferred.actions.get ⟨0, by decide⟩ ∈
      (transferred.put (laterPayment.row 1)).eventsBehind (transferred.trades.get ⟨1, by decide⟩) := by
    rw [hsame _ hclosing]
    exact ⟨List.get_mem _ _, hbehind⟩
  have hgone : transferred.actions.get ⟨0, by decide⟩ ∉
      (transferred.put (laterPayment.row 1)).actions := by
    decide
  exact hgone hkept.1

end ShareTracker.CorporateActions
