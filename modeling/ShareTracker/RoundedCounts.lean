import ShareTracker.Lib.Checked
import ShareTracker.Lib.Keyed
import ShareTracker.ParcelLedger
import ShareTracker.Rerounding

/-!
The stored per-parcel counts of a listing's rounded share splits and bonus
issues: the recompute that writes them, the triggers that mark a listing for it
and the writes that settle what they marked.
-/
namespace ShareTracker.RoundedCounts

/-! ### Tables -/

/-- A trade, as the recompute reads it. -/
structure TradeRow where
  id : TradeId
  tradeType : TradeType
  listing : ListingId
  date : NaiveDate
  settled : NaiveDate
  quantity : ℚ
  account : HoldingAccountId
  deriving DecidableEq

inductive Kind where
  | shareSplit (newUnits oldUnits : {q : ℚ // 0 < q})
  | bonusIssue (bonusUnits heldUnits : {q : ℚ // 0 < q})
  | other
  deriving DecidableEq

structure ActionRow where
  id : ℤ
  listing : ListingId
  date : NaiveDate
  /-- The register's record date, if one is recorded. -/
  recordDate : Option NaiveDate
  kind : Kind
  /-- `FractionRule::rounding`: nothing for `Exact`. -/
  rounding : Option Rounding
  deriving DecidableEq

namespace ActionRow

def event (a : ActionRow) : Option SplitEvent :=
  match a.kind with
  | .shareSplit new old => some (.shareSplit a.date new old new.2 old.2)
  | .bonusIssue bonus held => some (.bonusIssue a.date bonus held bonus.2 held.2)
  | .other => none

def order (a : ActionRow) : NaiveDate ×ₗ ℤ := toLex (a.date, a.id)

/-- A share split or bonus issue whose fraction rule is not `Exact`. -/
def rounded (a : ActionRow) : Bool := a.event.isSome && a.rounding.isSome

end ActionRow

/-- `corporate_action_parcel_counts`. -/
structure CountRow where
  action : ℤ
  count : ParcelCount
  deriving DecidableEq

def CountRow.key (r : CountRow) : ℤ × TradeId := (r.action, r.count.tradeId)

structure Db where
  trades : List TradeRow
  allocations : List ParcelAllocation
  accountScale : HoldingAccountId → Option ℕ
  /-- An override of the account's scale, which may lift it. -/
  unitScales : HoldingAccountId → ListingId → Option (Option ℕ)
  overrides : ℤ → HoldingAccountId → Option ℚ
  actions : List ActionRow
  counts : List CountRow
  /-- `rounding_dirty`. -/
  dirty : List ListingId

inductive RoundError where
  | overflow
  | holding (action : ℤ) (account : HoldingAccountId) (source : RoundingError)
  deriving DecidableEq

instance : Panics RoundError := ⟨.overflow⟩

/-! ### What the recompute reads -/

/-- One sale's allocation from a parcel. -/
structure Sale where
  sale : TradeId
  units : UnitsAt
  /-- When the units left the register. -/
  settled : NaiveDate

namespace Db

def trade? (s : Db) (id : TradeId) : Option TradeRow := Keyed.get? TradeRow.id s.trades id

/-- The listing's share splits and bonus issues, `ORDER BY date, id`. -/
def splitActions (s : Db) (listing : ListingId) : List ActionRow :=
  StableSort.sortBy ActionRow.order
    (s.actions.filter fun a => a.listing = listing && a.event.isSome)

/-- `db_parcels`. -/
def parcels (s : Db) (listing : ListingId) : List TradeRow :=
  StableSort.sortBy (fun t => toLex (t.date, t.id))
    (s.trades.filter fun t => t.listing = listing && t.tradeType.isAcquisition)

/-- `db_sales`, of one parcel. -/
def sales (s : Db) (parcel : TradeId) : List Sale :=
  (StableSort.sortBy ParcelAllocation.sale (s.allocations.filter fun a => a.purchase = parcel)).filterMap
    fun a => (s.trade? a.sale).map fun t => ⟨a.sale, ⟨a.quantity, t.date⟩, t.settled⟩

/-- `db_unit_scale`. -/
def unitScale (s : Db) (account : HoldingAccountId) (listing : ListingId) : Option ℕ :=
  (s.unitScales account listing).getD (s.accountScale account)

/-- `db_priors`. -/
def prior (s : Db) (action : ℤ) (parcel : TradeId) : Option Prior :=
  (Keyed.get? CountRow.key s.counts (action, parcel)).map fun r => r.count.prior

end Db

/-- The facts one listing's recompute reads, the stored counts apart. -/
structure Facts where
  parcels : List TradeRow
  sales : TradeId → List Sale
  scale : HoldingAccountId → Option ℕ
  received : ℤ → HoldingAccountId → Option ℚ

def Db.facts (s : Db) (listing : ListingId) : Facts :=
  ⟨s.parcels listing, s.sales, fun account => s.unitScale account listing, s.overrides⟩

/-! ### One action -/

/-- An action of the pass, with the counts computed for it. -/
structure Done where
  action : ActionRow
  counts : List ParcelCount

/-- The action as it re-bases one parcel: by its stored count where it has one. -/
def Done.eventFor (d : Done) (parcel : TradeId) : Option SplitEvent :=
  d.action.event.map fun event =>
    match d.counts.find? fun c => c.tradeId = parcel with
    | some c =>
      if h : 0 < c.after ∧ 0 < c.before then
        { event with
          newUnits := c.after
          oldUnits := c.before
          newUnits_pos := h.1
          oldUnits_pos := h.2 }
      else event
    | none => event

/-- A parcel as it stood immediately before an action. -/
structure Stood where
  parcel : TradeRow
  units : ℚ
  exact : Option Fraction
  /-- Its sales still on the register at the record date, by Sell. -/
  pending : List (TradeId × Fraction)

def Stood.before (p : Stood) (prior : Option Prior) : Option ParcelBefore :=
  if h : 0 < p.units then
    some {
      tradeId := p.parcel.id
      acquired := p.parcel.date
      units := p.units
      -- a product of positive terms is positive
      exact := p.exact.filter fun f => 0 < f.num
      prior := prior
      units_pos := h
      exact_pos := by
        intro f hf
        exact of_decide_eq_true (Option.filter_eq_some_iff.mp hf).2 }
  else none

/-- Whether units settled at a date were on the register at the record date. -/
def ActionRow.registered (a : ActionRow) (settled : NaiveDate) : Bool :=
  a.recordDate.all fun d => settled ≤ d

def toFraction (terms : ℚ × ℚ) : Option Fraction :=
  if h : 0 < terms.2 then some ⟨terms.1, terms.2, h⟩ else none

section Pass
variable (D : DecimalRounding)

/-- `split_adjusted_quantity` to the basis after every event. -/
def adjustedQuantity (u : AcquiredUnits) (splits : List SplitEvent) (acquired : NaiveDate) :
    Attempt RoundError ℚ := do
  let (new, old) ← D.splitTerms splits acquired none
  if new = old then D.printed u.value
  else match ← AcquiredUnits.timesRatio D u new old with
    | some (num, den) => D.printed (num / den)
    | none => D.mulDiv (← AcquiredUnits.get D u) new old

/-- `split_adjusted_fraction` and `rebased_fraction`, likewise. -/
def adjustedFraction (u : AcquiredUnits) (splits : List SplitEvent) (since : NaiveDate) :
    Attempt RoundError (Option Fraction) := do
  let (new, old) ← D.splitTerms splits since none
  return (← AcquiredUnits.timesRatio D u new old).bind toFraction

/-- A straddling sale's units in the basis before the action. -/
def pendingUnits (splits : List SplitEvent) (sale : Sale) : Attempt RoundError Fraction := do
  match ← adjustedFraction D (.new sale.units.quantity.value) splits sale.units.basis with
  | some f => return f
  | none =>
    let units ← adjustedQuantity D (.new sale.units.quantity.value) splits sale.units.basis
    return .whole units

/-- What remained of a parcel before the action, as a count and exactly. -/
def unitsBefore (splits : List SplitEvent) (remaining : AcquiredUnits) (acquired : NaiveDate) :
    Attempt RoundError (ℚ × Option Fraction) := do
  if ← AcquiredUnits.lt D .zero remaining then
    let units ← adjustedQuantity D remaining splits acquired
    return (units, ← adjustedFraction D remaining splits acquired)
  else return (0, none)

def stand (F : Facts) (done : List Done) (a : ActionRow) (parcel : TradeRow) :
    Attempt RoundError Stood := do
  let splits := done.filterMap (·.eventFor parcel.id)
  let soldBefore := (F.sales parcel.id).filter fun sale => sale.units.basis < a.date
  let sold ← D.soldInAcquiredUnits splits parcel.date (.new parcel.quantity)
    (soldBefore.map (·.units))
  let remaining ← AcquiredUnits.sub D (.new parcel.quantity) sold
  let before ← unitsBefore D splits remaining parcel.date
  let straddling := soldBefore.filter fun sale => !a.registered sale.settled
  let pending ← straddling.mapM fun sale => do
    return (sale.sale, ← pendingUnits D splits sale)
  return ⟨parcel, before.1, before.2, pending⟩

def standAll (F : Facts) (done : List Done) (a : ActionRow) :
    List TradeRow → Except RoundError (List Stood)
  | [] => .ok []
  | parcel :: rest => do
      let p ← (stand D F done a parcel).answer
      return p :: (← standAll F done a rest)

end Pass

/-- What is rounded at once: a holding, or a settlement obligation of its own. -/
structure Task where
  account : HoldingAccountId
  parcels : List Stood
  pending : List (TradeId × Fraction)
  rule : Rounding
  received : Option ℚ

def sumFractions (fractions : List Fraction) : Fraction :=
  ⟨(Fraction.overCommonDenominator fractions).1.sum, Fraction.commonDenominator fractions,
    Fraction.commonDenominator_pos fractions⟩

/-- Each straddling Sell's units as one exact count. -/
def delivered (pending : List (TradeId × Fraction)) : List Fraction :=
  (StableSort.sortBy id (pending.map Prod.fst).dedup).map fun sale =>
    sumFractions ((pending.filter fun p => p.1 = sale).map Prod.snd)

def holdingTask (F : Facts) (a : ActionRow) (rule : Rounding) (registered : List Stood)
    (account : HoldingAccountId) : Task :=
  let parcels := registered.filter fun p => p.parcel.account = account
  ⟨account, parcels, parcels.flatMap (·.pending), rule, F.received a.id account⟩

def obligationTask (rule : Rounding) (p : Stood) : Task :=
  ⟨p.parcel.account, [p], [], rule.forObligation, none⟩

/-- The holdings of an action, by account, then the obligations. -/
def tasks (F : Facts) (a : ActionRow) (rule : Rounding) (stood : List Stood) : List Task :=
  let registered := stood.filter fun p => a.registered p.parcel.settled
  let obligations := stood.filter fun p => !a.registered p.parcel.settled
  (StableSort.sortBy id (registered.map fun p => p.parcel.account).dedup).map
      (holdingTask F a rule registered) ++
    obligations.map (obligationTask rule)

def ratioOf (e : SplitEvent) : Ratio := ⟨e.newUnits, e.oldUnits, e.newUnits_pos, e.oldUnits_pos⟩

/-- A task's counts; an unconstrained holding has no grid to round onto. -/
def Task.round (t : Task) (action : ℤ) (ratio : Ratio) (scale : HoldingAccountId → Option ℕ)
    (prior : TradeId → Option Prior) : Except RoundError (List ParcelCount) :=
  match scale t.account with
  | none => .ok []
  | some scale =>
    let parcels := t.parcels.filterMap fun p => p.before (prior p.parcel.id)
    (if t.pending.isEmpty then roundHolding parcels ratio scale t.rule t.received
    else roundRegisteredHolding parcels ⟨delivered t.pending⟩ ratio scale t.rule
      t.received).mapError (.holding action t.account)

def roundTasks (action : ℤ) (ratio : Ratio) (scale : HoldingAccountId → Option ℕ)
    (prior : TradeId → Option Prior) : List Task → Except RoundError (List ParcelCount)
  | [] => .ok []
  | t :: rest => do
      let counts ← t.round action ratio scale prior
      return counts ++ (← roundTasks action ratio scale prior rest)

/-! ### The recompute -/

section Recompute
variable (D : DecimalRounding)

def roundAction (F : Facts) (done : List Done) (a : ActionRow) (event : SplitEvent)
    (rule : Rounding) (prior : TradeId → Option Prior) : Except RoundError (List ParcelCount) := do
  let stood ← standAll D F done a (F.parcels.filter fun p => p.date < a.date)
  roundTasks a.id (ratioOf event) F.scale prior (tasks F a rule stood)

/-- What should be stored of the actions, in order, after those `done`. -/
def desired (F : Facts) (prior : ℤ → TradeId → Option Prior) (done : List Done) :
    List ActionRow → Except RoundError (List CountRow)
  | [] => .ok []
  | a :: rest =>
    match a.event, a.rounding with
    | some event, some rule => do
        let counts ← roundAction D F done a event rule (prior a.id)
        return counts.map (CountRow.mk a.id) ++
          (← desired F prior (done ++ [⟨a, counts⟩]) rest)
    | _, _ => desired F prior (done ++ [⟨a, []⟩]) rest

/-- Bring the stored rows of the actions into line with `rows`. -/
def reconcile (s : Db) (actions : List ℤ) (rows : List CountRow) : Db :=
  { s with
    counts :=
      (s.counts.filterMap fun r =>
        if r.action ∈ actions then Keyed.get? CountRow.key rows r.key else some r) ++
      (StableSort.sortBy (fun r => toLex r.key) rows).filter fun r =>
        Keyed.get? CountRow.key s.counts r.key = none }

/-- `db_recompute_listing`. -/
def recompute (s : Db) (listing : ListingId) : Except RoundError Db := do
  let actions := s.splitActions listing
  let rows ← desired D (s.facts listing) s.prior [] actions
  return reconcile s (actions.map ActionRow.id) rows

/-! ### Triggers and writes -/

namespace Db

def hasRounded (s : Db) (listing : ListingId) : Bool :=
  s.actions.any fun a => a.listing = listing && a.rounded

/-- Mark the listings that have a rounded share split or bonus issue. -/
def mark (s : Db) (listings : List ListingId) : Db :=
  { s with dirty := s.dirty ++ listings.filter s.hasRounded }

end Db

/-- A row written or deleted. -/
inductive RowOp where
  | putTrade (t : TradeRow)
  | deleteTrade (id : TradeId)
  | insertAllocation (a : ParcelAllocation)
  | deleteAllocation (sale purchase : TradeId)
  | setAccountScale (account : HoldingAccountId) (scale : Option ℕ)
  | putUnitScale (account : HoldingAccountId) (listing : ListingId) (scale : Option ℕ)
  | deleteUnitScale (account : HoldingAccountId) (listing : ListingId)
  | putOverride (action : ℤ) (account : HoldingAccountId) (received : ℚ)
  | deleteOverride (action : ℤ) (account : HoldingAccountId)
  /-- A count the exchange and demerger record of a replacement parcel. -/
  | insertCount (r : CountRow)
  /-- An action written; `changed` is whether anything else of it differs. -/
  | putAction (a : ActionRow) (changed : Bool)
  | deleteAction (id : ℤ)

inductive Refusal where
  | round (e : RoundError)
  | foreignKey
  | uniqueKey
  /-- The checks the recomputed counts must pass. -/
  | unsettled (listing : ListingId)
  | crossListing
  deriving DecidableEq

namespace Db

def action? (s : Db) (id : ℤ) : Option ActionRow := Keyed.get? ActionRow.id s.actions id

def putTrade (s : Db) (t : TradeRow) : Db :=
  let written := { s with trades := Keyed.put TradeRow.id s.trades t }
  match s.trade? t.id with
  | none => written.mark [t.listing]
  | some old => if old = t then written else written.mark [old.listing, t.listing]

def deleteTrade (s : Db) (id : TradeId) : Except Refusal Db := do
  Checked.refuseIf (∃ a ∈ s.allocations, a.sale = id ∨ a.purchase = id) .foreignKey
  let deleted := { s with
    trades := s.trades.filter fun t => t.id ≠ id
    counts := s.counts.filter fun r => r.count.tradeId ≠ id }
  return deleted.mark ((s.trade? id).toList.map TradeRow.listing)

def insertAllocation (s : Db) (a : ParcelAllocation) : Except Refusal Db := do
  Checked.refuseIf ((s.trade? a.sale).isNone ∨ (s.trade? a.purchase).isNone) .foreignKey
  let inserted := { s with allocations := s.allocations ++ [a] }
  return inserted.mark ((s.trade? a.purchase).toList.map TradeRow.listing)

def deleteAllocation (s : Db) (sale purchase : TradeId) : Db :=
  let deleted := s.allocations.filter fun a => a.sale = sale ∧ a.purchase = purchase
  let kept := { s with
    allocations := s.allocations.filter fun a => ¬ (a.sale = sale ∧ a.purchase = purchase) }
  kept.mark (deleted.flatMap fun a => (s.trade? a.purchase).toList.map TradeRow.listing)

def setAccountScale (s : Db) (account : HoldingAccountId) (scale : Option ℕ) : Db :=
  if s.accountScale account = scale then s
  else
    let written := { s with accountScale := Function.update s.accountScale account scale }
    written.mark ((s.trades.filter fun t => t.account = account).map TradeRow.listing)

def setUnitScale (s : Db) (account : HoldingAccountId) (listing : ListingId)
    (scale : Option (Option ℕ)) : Db :=
  let written := { s with
    unitScales := Function.update s.unitScales account
      (Function.update (s.unitScales account) listing scale) }
  written.mark [listing]

/-- The counts stored for one holding of an action, dropped. -/
def releaseHolding (s : Db) (action : ℤ) (account : HoldingAccountId) : Db :=
  { s with
    counts := s.counts.filter fun r =>
      ¬ (r.action = action ∧ ∃ t ∈ s.trades, t.id = r.count.tradeId ∧ t.account = account) }

/-- An override of a rounded share split or bonus issue marks, and releases the
holding it is of; one of another action does neither. -/
def setOverride (s : Db) (action : ℤ) (account : HoldingAccountId) (received : Option ℚ) : Db :=
  let written := { s with
    overrides := Function.update s.overrides action
      (Function.update (s.overrides action) account received)
    dirty := s.dirty ++ ((s.action? action).toList.filter ActionRow.rounded).map ActionRow.listing }
  if (s.action? action).any ActionRow.rounded then written.releaseHolding action account else written

def insertCount (s : Db) (r : CountRow) : Except Refusal Db := do
  let a ← Checked.orRefuse (s.action? r.action) .foreignKey
  Checked.refuseIf (a.event.isSome) .foreignKey
  Checked.refuseIf (Keyed.get? CountRow.key s.counts r.key).isSome .uniqueKey
  return { s with counts := s.counts ++ [r] }

/-- An edit of the action's own terms drops its stored counts. -/
def putAction (s : Db) (a : ActionRow) (changed : Bool) : Db :=
  let stored := (s.action? a.id).toList
  { s with
    actions := Keyed.put ActionRow.id s.actions a
    counts :=
      if ∃ old ∈ stored, old ≠ a ∨ changed then s.counts.filter fun r => r.action ≠ a.id
      else s.counts
    dirty := s.dirty ++
      if a.rounded || stored.any ActionRow.rounded then stored.map ActionRow.listing ++ [a.listing]
      else [] }

def deleteAction (s : Db) (id : ℤ) : Db :=
  { s with
    actions := s.actions.filter fun a => a.id ≠ id
    counts := s.counts.filter fun r => r.action ≠ id
    overrides := Function.update s.overrides id fun _ => none
    dirty := s.dirty ++ ((s.action? id).toList.filter ActionRow.rounded).map ActionRow.listing }

def apply (s : Db) : RowOp → Except Refusal Db
  | .putTrade t => .ok (s.putTrade t)
  | .deleteTrade id => s.deleteTrade id
  | .insertAllocation a => s.insertAllocation a
  | .deleteAllocation sale purchase => .ok (s.deleteAllocation sale purchase)
  | .setAccountScale account scale => .ok (s.setAccountScale account scale)
  | .putUnitScale account listing scale => .ok (s.setUnitScale account listing (some scale))
  | .deleteUnitScale account listing =>
    .ok (if (s.unitScales account listing).isNone then s else s.setUnitScale account listing none)
  | .putOverride action account received => .ok (s.setOverride action account (some received))
  | .deleteOverride action account =>
    .ok (if (s.overrides action account).isNone then s else s.setOverride action account none)
  | .insertCount r => s.insertCount r
  | .putAction a changed => .ok (s.putAction a changed)
  | .deleteAction id => .ok (s.deleteAction id)

/-- Every draw is on a parcel of the sale's own listing, as the write paths check. -/
def sameListing (s : Db) : Bool :=
  s.allocations.all fun a =>
    (s.trade? a.sale).map TradeRow.listing = (s.trade? a.purchase).map TradeRow.listing

end Db

section Settle
variable (checks : Db → ListingId → Bool)

/-- `settle_listing`, with the checks on the state it leaves. -/
def settleListing (s : Db) (listing : ListingId) : Except Refusal Db := do
  let s ← (recompute D s listing).mapError .round
  Checked.refuseIf (checks s listing = false) (.unsettled listing)
  return s

def settleAll (s : Db) : List ListingId → Except Refusal Db
  | [] => .ok s
  | listing :: rest => do
      let s ← settleListing D checks s listing
      settleAll s rest

/-- `db_settle`. -/
def dbSettle (s : Db) : Except Refusal Db := do
  let s ← settleAll D checks s (StableSort.sortBy id s.dirty.dedup)
  return { s with dirty := [] }

def applyAll (s : Db) : List RowOp → Except Refusal Db
  | [] => .ok s
  | op :: ops => do
      let s ← s.apply op
      applyAll s ops

/-- A write: its rows, then what they marked settled, then the commit. -/
def write (s : Db) (ops : List RowOp) : Except Refusal Db := do
  let s ← applyAll s ops
  let s ← dbSettle D checks s
  Checked.refuseIf (s.sameListing = false) .crossListing
  return s

def run (s : Db) : List (List RowOp) → Except Refusal Db
  | [] => .ok s
  | ops :: writes => do
      let s ← write D checks s ops
      run s writes

end Settle

end Recompute

/-- A new database. -/
def Db.empty : Db := ⟨[], [], fun _ => none, fun _ _ => none, fun _ _ => none, [], [], []⟩

end ShareTracker.RoundedCounts
