import ShareTracker.ParcelSources
import ShareTracker.CostBase
import ShareTracker.Calendar
import ShareTracker.DecimalArithmetic
import ShareTracker.Drp
import ShareTracker.Lib.GuardedRun

/-!
The trades table with every write that inserts or rewrites a row of it. A trade
entered by hand and every Sell pass `checkAmounts`; the parcels an operation
writes are inserted as they are, on what the operation itself has checked. The
clock is part of the state, and each write comes some days after the last.
-/
namespace ShareTracker.TradeDesk
open Checked TradeAmounts ParcelSources CorporateActions

structure Row where
  id : TradeId
  tradeType : TradeType
  provenance : Option Provenance
  listing : ListingId
  account : HoldingAccountId
  figures : AmountsCheck
  settlementComputed : Bool
  deriving DecidableEq

/-- An acquisition an operation writes: settled on its date, its costs in its
own currency and none of them GST. -/
structure NewParcel where
  provenance : Option Provenance
  date : NaiveDate
  listing : ListingId
  account : HoldingAccountId
  quantity : ℚ
  currency : CurrencyCode
  averagePrice : ℚ
  brokerage : ℚ
  fxRate : ℚ

def NewParcel.figures (p : NewParcel) : AmountsCheck where
  quantity := p.quantity
  averagePrice := p.averagePrice
  brokerage := p.brokerage
  gstOnBrokerage := 0
  fxRate := p.fxRate
  date := p.date
  settlementDate := p.date
  currency := p.currency
  brokerageCurrency := p.currency

/-- A reinvestment is a `DRP`; every other parcel a `Buy`, with its link. The
write gives the row its id. -/
def NewParcel.row (p : NewParcel) : Row where
  id := 0
  tradeType := if p.provenance.isSome then .buy else .drp
  provenance := p.provenance
  listing := p.listing
  account := p.account
  figures := p.figures
  settlementComputed := false

def reinvestedParcel (t : Drp.DrpTrade) : NewParcel where
  provenance := none
  date := t.date
  listing := t.listing
  account := t.account
  quantity := t.quantity
  currency := t.currency
  averagePrice := t.averagePrice
  brokerage := 0
  fxRate := t.fxRate

/-- An action as recorded: its terms have the signs required of them. -/
abbrev Recorded := { a : Action // termsPositive a.kind = true }

/-- The imported monthly rates; none is stored that is not positive. -/
structure ImportedRates extends FxRates where
  positive : ∀ key, ∀ r ∈ rates key, 0 < r

structure Desk where
  today : NaiveDate
  trades : List Row
  statements : List EssStatement
  actions : List Recorded
  plan : Drp.Register
  vestable : ∀ e ∈ statements, e.Vestable today

/-- What a write reads of the tables outside. -/
structure Surroundings where
  listingCurrency : ListingId → CurrencyCode
  rates : ImportedRates
  /-- The days from a trade's date to the one its market settles it on. -/
  settlesAfter : ListingId → NaiveDate → ℕ
  /-- Whether a parcel's units are allocated, adjusted or behind rights. -/
  drawnOn : TradeId → Bool

inductive Refusal where
  | amounts (e : AmountsError)
  | statement (e : StatementError)
  | inheritance (e : InheritanceError)
  | plan (e : Drp.WriteError)
  | fx (e : FxError)
  /-- Arithmetic the source panics on: the request fails and writes nothing. -/
  | overflow
  | operationTrade
  | allocationNotPositive
  | allocationMismatch
  | parcelMissing
  | notAnAcquisition
  | listingMismatch
  | sameAccount
  | nothingToTransfer
  | feeMarketPriceMissing
  | actionNotFound
  | wrongAction
  | termsNotPositive
  | alreadyApplied
  | tradedOnOrAfter
  | nothingHeld
  | unrepresentableQuantity
  | nonPositiveUnits
  | nonPositiveFxRate
  | negativeRightsCost
  | rightsCostOnNonRenounceableOffer
  | beforeRecordDate
  | exceedsEntitlement
  | unrepresentableCostBase
  | statementNotFound
  | alreadyVested
  | nothingToVest
  deriving DecidableEq

namespace Desk

/-- Every stored trade. -/
def rows (s : Desk) : List Row :=
  s.trades ++ s.plan.trades.map fun t => { (reinvestedParcel t).row with id := t.id }

def row? (s : Desk) (id : TradeId) : Option Row := s.rows.find? fun r => r.id = id

def figures (s : Desk) : List AmountsCheck := s.trades.map Row.figures

def action? (s : Desk) (id : ℤ) : Option Recorded := s.actions.find? fun a => a.val.id = id

def statement? (s : Desk) (id : ℤ) : Option EssStatement := Keyed.get? EssStatement.id s.statements id

/-- Whether an operation's own link is on a stored trade. -/
def applied (s : Desk) (p : Provenance) : Bool := s.trades.any fun r => r.provenance = some p

theorem le_addDays (d : NaiveDate) (n : ℕ) : d ≤ d.addDays n := by
  rw [← NaiveDate.dayNumber_strictMono.le_iff_le, NaiveDate.dayNumber_addDays]
  omega

theorem vestable_later (s : Desk) (days : ℕ) : ∀ e ∈ s.statements, e.Vestable (s.today.addDays days) :=
  fun e he => (s.vestable e he).later (le_addDays s.today days)

/-- Days pass before the next write. -/
def tick (s : Desk) (days : ℕ) : Desk :=
  { s with
    today := s.today.addDays days
    vestable := s.vestable_later days }

/-! ### Trades and Sells entered by hand -/

structure TradeBody where
  tradeType : TradeType
  listing : ListingId
  account : HoldingAccountId
  date : NaiveDate
  settlementDate : Option NaiveDate
  averagePrice : ℚ
  quantity : ℚ
  currency : CurrencyCode
  brokerage : ℚ
  gstOnBrokerage : ℚ
  brokerageIncludesGst : Bool
  brokerageCurrency : CurrencyCode
  fxRate : ℚ
  /-- The parcels a Sell draws on, with the units drawn. -/
  allocations : List (TradeId × ℚ)

def TradeBody.figures (b : TradeBody) (settlement : NaiveDate) : AmountsCheck where
  quantity := b.quantity
  averagePrice := b.averagePrice
  brokerage := (resolveBrokerage b.brokerageIncludesGst b.brokerage b.gstOnBrokerage).1
  gstOnBrokerage := (resolveBrokerage b.brokerageIncludesGst b.brokerage b.gstOnBrokerage).2
  fxRate := b.fxRate
  date := b.date
  settlementDate := settlement
  currency := b.currency
  brokerageCurrency := b.brokerageCurrency

/-- `Settlement::resolve_on`: the date supplied, or the market's. -/
def TradeBody.settlement (b : TradeBody) (env : Surroundings) : NaiveDate :=
  b.settlementDate.getD (b.date.addDays (env.settlesAfter b.listing b.date))

def TradeBody.row (b : TradeBody) (provenance : Option Provenance) (env : Surroundings) : Row where
  id := 0
  tradeType := b.tradeType
  provenance := provenance
  listing := b.listing
  account := b.account
  figures := b.figures (b.settlement env)
  settlementComputed := b.settlementDate.isNone

/-- The shared core of every Sell. -/
def TradeBody.checkSell (b : TradeBody) (today : NaiveDate) (env : Surroundings) :
    Except Refusal Unit := do
  refuseIf (∃ a ∈ b.allocations, a.2 ≤ 0) .allocationNotPositive
  refuseIf ((b.allocations.map Prod.snd).sum ≠ b.quantity) .allocationMismatch
  (checkAmounts today (b.figures (b.settlement env))).mapError .amounts

/-- A Buy is checked before its settlement is resolved, a Sell after. -/
def TradeBody.check (b : TradeBody) (today : NaiveDate) (env : Surroundings) : Except Refusal Unit :=
  if b.tradeType = .sell then b.checkSell today env
  else (checkAmounts today (b.figures (b.settlementDate.getD b.date))).mapError .amounts

/-- A row under a new id of the sequence, which no reinvestment has. -/
def insertRow (s : Desk) (draft : Row) : Desk :=
  { s with
    trades := s.trades ++ [{ draft with id := s.plan.lastTrade + 1 }]
    plan := s.plan.noteTrade (s.plan.lastTrade + 1) }

def insertRows (s : Desk) (drafts : List Row) : Desk := drafts.foldl insertRow s

/-- A row stored at an id of its own, in place of the row it replaces. -/
def storeRow (s : Desk) (id : TradeId) (draft : Row) : Except Refusal Desk := do
  let plan ← (s.plan.writeTrade id).mapError .plan
  return { s with trades := Keyed.put Row.id s.trades { draft with id }, plan }

/-- A trade created, or edited where no operation wrote it. -/
def putTrade (s : Desk) (id : Option TradeId) (body : TradeBody) (env : Surroundings) :
    Except Refusal Desk := do
  body.check s.today env
  refuseIf (∃ r ∈ s.trades, some r.id = id ∧ r.provenance.isSome = true) .operationTrade
  s.storeRow (id.getD (s.plan.lastTrade + 1)) (body.row none env)

/-- The rows a delete or an undo removes. -/
def deleteTrades (s : Desk) (gone : List TradeId) : Desk :=
  { s with trades := s.trades.filter fun r => r.id ∉ gone }

/-- Computed settlement dates brought up to the calendar. -/
def resettle (env : Surroundings) (r : Row) : Row :=
  if r.settlementComputed then
    { r with
      figures :=
        { r.figures with
          settlementDate := r.figures.date.addDays (env.settlesAfter r.listing r.figures.date) } }
  else r

def recomputeSettlements (s : Desk) (env : Surroundings) : Desk :=
  { s with trades := s.trades.map (resettle env) }

/-! ### Sells of operations -/

/-- `closing_sell_body`: the whole of its allocations at one price, without costs. -/
def closingSell (date : NaiveDate) (listing : ListingId) (account : HoldingAccountId) (price : ℚ)
    (currency : CurrencyCode) (fxRate : ℚ) (allocations : List (TradeId × ℚ)) : TradeBody where
  tradeType := .sell
  listing := listing
  account := account
  date := date
  settlementDate := some date
  averagePrice := price
  quantity := (allocations.map Prod.snd).sum
  currency := currency
  brokerage := 0
  gstOnBrokerage := 0
  brokerageIncludesGst := false
  brokerageCurrency := currency
  fxRate := fxRate
  allocations := allocations

/-- The Sell of a buy-back participation, a worthless-shares recognition or a
cash-in-lieu payment, with the figures the operation gives it. -/
def operationSell (s : Desk) (provenance : Provenance) (body : TradeBody) (env : Surroundings) :
    Except Refusal Desk := do
  body.checkSell s.today env
  return s.insertRow (body.row (some provenance) env)

/-! ### Rollovers -/

/-- An open parcel consumed: the units of the date drawn, the same units as
acquired, and what the adjustments take off their cost base. -/
structure Drawn where
  parcel : TradeId
  quantity : ℚ
  units : Positive
  reductions : List ℚ

/-- The cost base the units carry, floored at nil after each reduction. -/
def carriedCostBase (c : AmountsCheck) (units : ℚ) (reductions : List ℚ) : ℚ :=
  FlooredWalk.final id (if 0 < c.quantity then proratedInitialCost c.costBase units c.quantity else 0)
    reductions

/-- A consumed parcel beside what its units carry. -/
def carry (s : Desk) (d : Drawn) : Except Refusal (Row × ℚ) := do
  let source ← orRefuse (s.row? d.parcel) .parcelMissing
  refuseIf (source.tradeType.isAcquisition = false) .notAnAcquisition
  let cost ← orRefuse (TradeAmounts.checked (carriedCostBase source.figures d.units.val d.reductions))
    .overflow
  return (source, cost)

/-- `insert_replacement_buy`: the cost base on the brokerage column, at the
source parcel's currency and rate. -/
def replacementBuy (source : Row) (provenance : Provenance) (date : NaiveDate) (listing : ListingId)
    (account : HoldingAccountId) (quantity costBase : ℚ) : NewParcel where
  provenance := some provenance
  date := date
  listing := listing
  account := account
  quantity := quantity
  currency := source.figures.currency
  averagePrice := 0
  brokerage := costBase
  fxRate := source.figures.fxRate

structure TransferBody where
  id : ℤ
  listing : ListingId
  date : NaiveDate
  fromAccount : HoldingAccountId
  toAccount : HoldingAccountId
  allocations : List Drawn
  feeAllocations : List (TradeId × ℚ)
  feeMarketPrice : Option ℚ
  feeFxRate : Option ℚ

def draws (parcels : List Drawn) : List (TradeId × ℚ) := parcels.map fun d => (d.parcel, d.quantity)

def transferIn (s : Desk) (body : TransferBody) (d : Drawn) : Except Refusal NewParcel := do
  let carried ← s.carry d
  refuseIf (carried.1.listing ≠ body.listing) .listingMismatch
  return replacementBuy carried.1 (.transfer body.id) body.date body.listing body.toAccount d.quantity
    carried.2

/-- The network fee's Sell, where a fee was paid in units. -/
def feeSale (body : TransferBody) (today : NaiveDate) (env : Surroundings) :
    Except Refusal (List TradeBody) :=
  if body.feeAllocations = [] then .ok []
  else do
    let price ← orRefuse (body.feeMarketPrice.filter fun p => 0 < p) .feeMarketPriceMissing
    let currency := env.listingCurrency body.listing
    let rate ← body.feeFxRate.elim
      ((env.rates.resolveRate currency body.date .none).mapError .fx) .ok
    let sell := closingSell body.date body.listing body.fromAccount price currency rate
      body.feeAllocations
    sell.checkSell today env
    return [sell]

def transfer (s : Desk) (body : TransferBody) (env : Surroundings) : Except Refusal Desk := do
  refuseIf (body.fromAccount = body.toAccount) .sameAccount
  refuseIf (body.allocations = []) .nothingToTransfer
  let ins ← body.allocations.mapM (s.transferIn body)
  let sell := closingSell body.date body.listing body.fromAccount 0
    (env.listingCurrency body.listing) 1 (draws body.allocations)
  sell.checkSell s.today env
  let fee ← feeSale body s.today env
  return s.insertRows
    (sell.row (some (.transfer body.id)) env :: ins.map NewParcel.row ++
      fee.map fun b => b.row none env)

section Substitution
variable (D : DecimalRounding)

/-- A `checked_` operation, given the exact result. -/
def checkedOp (q : ℚ) : Option ℚ := if D.inRange q then some (D.round q) else none

def checkedRebasedQuantity (units new old : ℚ) : Option ℚ :=
  match checkedOp D (units * new) with
  | some product => checkedOp D (product / old)
  | none => (checkedOp D (units / old)).bind fun divided => checkedOp D (divided * new)

/-- The units a parcel becomes: its share of the holding's rounded count, where
the registry rounds, and otherwise the ratio's. -/
def becomes (d : Drawn) (rounded : Option Positive) (new old : ℚ) : Option ℚ :=
  rounded.elim (checkedRebasedQuantity D d.quantity new old) fun count => some count.val

/-- The terms of a scrip-for-scrip exchange. -/
structure Terms where
  listing : ListingId
  newUnits : ℚ
  oldUnits : ℚ
  cash : Option ScripCash

def exchangeTerms : ActionKind → Option Terms
  | .scripForScrip listing newUnits oldUnits cash _ _ => some ⟨listing, newUnits, oldUnits, cash⟩
  | _ => none

/-- The scrip side's part of a carried cost base. -/
def Terms.carries (t : Terms) (cost : ℚ) : ℚ :=
  t.cash.elim cost fun c =>
    (apportion cost (c.cashPerUnit * t.oldUnits)
      (c.cashPerUnit * t.oldUnits + c.marketValue * t.newUnits)).rest

/-- A parcel consumed, with its rounded count where its holding was rounded. -/
structure Replaced where
  drawn : Drawn
  rounded : Option Positive

def exchanged (s : Desk) (action : Action) (t : Terms) (p : Replaced) :
    Except Refusal NewParcel := do
  let carried ← s.carry p.drawn
  let quantity ← orRefuse (becomes D p.drawn p.rounded t.newUnits t.oldUnits) .unrepresentableQuantity
  return replacementBuy carried.1 (.scripAction action.id) action.date t.listing carried.1.account
    quantity (t.carries carried.2)

/-- What both substitutions refuse before they read a parcel. -/
def checkSubstitution (s : Desk) (action : Action) (provenance : Provenance)
    (parcels : List Replaced) : Except Refusal Unit := do
  refuseIf (s.applied provenance = true) .alreadyApplied
  refuseIf (∃ r ∈ s.rows, r.listing = action.listing ∧ action.date ≤ r.figures.date) .tradedOnOrAfter
  refuseIf (parcels = []) .nothingHeld

/-- `DEFAULT_HOLDING_ACCOUNT_ID`. -/
def defaultAccount : HoldingAccountId := 1

/-- The rate a closing Sell is recorded at: a nil price converts nothing. -/
def sellRate (env : Surroundings) (currency : CurrencyCode) (date : NaiveDate) (nil : Bool) :
    Except Refusal ℚ :=
  match env.rates.resolveRate currency date .none with
  | .ok rate => .ok rate
  | .error e => if nil then .ok 1 else .error (.fx e)

def exchange (s : Desk) (actionId : ℤ) (parcels : List Replaced) (env : Surroundings) :
    Except Refusal Desk := do
  let action ← orRefuse (s.action? actionId) .actionNotFound
  let t ← orRefuse (exchangeTerms action.val.kind) .wrongAction
  s.checkSubstitution action.val (.scripAction actionId) parcels
  let replacements ← parcels.mapM (s.exchanged D action.val t)
  let price := t.cash.elim 0 fun c => c.cashPerUnit
  let currency := t.cash.elim (env.listingCurrency action.val.listing) fun c => c.currency
  let rate ← sellRate env currency action.val.date (price = 0)
  let sell := closingSell action.val.date action.val.listing defaultAccount price currency rate
    (draws (parcels.map Replaced.drawn))
  sell.checkSell s.today env
  return s.insertRows
    (sell.row (some (.scripAction actionId)) env :: replacements.map NewParcel.row)

/-- The terms of a demerger. -/
structure DemergerTerms where
  listing : ListingId
  newUnits : ℚ
  heldUnits : ℚ
  costBasePct : ℚ

def demergerTerms : ActionKind → Option DemergerTerms
  | .demerger listing newUnits heldUnits costBasePct _ _ _ =>
    some ⟨listing, newUnits, heldUnits, costBasePct⟩
  | _ => none

/-- The head parcel and the one spun off from it. -/
def demerged (s : Desk) (action : Action) (t : DemergerTerms) (p : Replaced) :
    Except Refusal (NewParcel × NewParcel) := do
  let carried ← s.carry p.drawn
  let quantity ← orRefuse (becomes D p.drawn p.rounded t.newUnits t.heldUnits)
    .unrepresentableQuantity
  let parts := apportion carried.2 t.costBasePct 100
  return (replacementBuy carried.1 (.demergerAction action.id) action.date action.listing
      carried.1.account p.drawn.quantity parts.rest,
    replacementBuy carried.1 (.demergerAction action.id) action.date t.listing carried.1.account
      quantity parts.share)

def demerge (s : Desk) (actionId : ℤ) (parcels : List Replaced) (env : Surroundings) :
    Except Refusal Desk := do
  let action ← orRefuse (s.action? actionId) .actionNotFound
  let t ← orRefuse (demergerTerms action.val.kind) .wrongAction
  s.checkSubstitution action.val (.demergerAction actionId) parcels
  let replacements ← parcels.mapM (s.demerged D action.val t)
  let sell := closingSell action.val.date action.val.listing defaultAccount 0
    (env.listingCurrency action.val.listing) 1 (draws (parcels.map Replaced.drawn))
  sell.checkSell s.today env
  return s.insertRows
    (sell.row (some (.demergerAction actionId)) env ::
      replacements.flatMap fun p => [p.1.row, p.2.row])

end Substitution

/-! ### Parcels from a record -/

structure ExerciseBody where
  date : NaiveDate
  units : ℚ
  rightsCost : Option ℚ
  fxRate : Option ℚ
  account : HoldingAccountId

/-- The terms of a rights issue an exercise reads. -/
structure RightsTerms where
  exercisePrice : ℚ
  currency : CurrencyCode
  renounceable : Bool

def rightsTerms : ActionKind → Option RightsTerms
  | .rightsIssue _ _ exercisePrice currency renounceable =>
    some ⟨exercisePrice, currency, renounceable⟩
  | _ => none

/-- A rights exercise; whether the units are within the entitlement comes with it. -/
def exercise (s : Desk) (actionId : ℤ) (body : ExerciseBody) (entitled : Bool) (env : Surroundings) :
    Except Refusal Desk := do
  refuseIf (body.units ≤ 0) .nonPositiveUnits
  refuseIf (∃ r ∈ body.fxRate, r ≤ 0) .nonPositiveFxRate
  let rightsCost := body.rightsCost.getD 0
  refuseIf (rightsCost < 0) .negativeRightsCost
  let action ← orRefuse (s.action? actionId) .actionNotFound
  let t ← orRefuse (rightsTerms action.val.kind) .wrongAction
  refuseIf (t.renounceable = false ∧ 0 < rightsCost) .rightsCostOnNonRenounceableOffer
  refuseIf (body.date < action.val.date) .beforeRecordDate
  refuseIf (entitled = false) .exceedsEntitlement
  let cost ← orRefuse (checkedCostBase [.product t.exercisePrice body.units, .amount rightsCost])
    .unrepresentableCostBase
  let rate ← body.fxRate.elim (sellRate env t.currency body.date (cost = 0)) .ok
  let parcel : NewParcel :=
    { provenance := some (.rightsAction actionId)
      date := body.date
      listing := action.val.listing
      account := body.account
      quantity := body.units
      currency := t.currency
      averagePrice := t.exercisePrice
      brokerage := rightsCost
      fxRate := rate }
  return s.insertRow parcel.row

theorem vestable_put {s : Desk} {e : EssStatement} (h : e.Vestable s.today) :
    ∀ e' ∈ Keyed.put EssStatement.id s.statements e, e'.Vestable s.today := by
  intro e' he'
  rcases Keyed.mem_put.mp he' with ⟨hold, -⟩ | rfl
  · exact s.vestable e' hold
  · exact h

theorem vestable_filter (s : Desk) (id : ℤ) :
    ∀ e ∈ s.statements.filter (fun e => e.id ≠ id), e.Vestable s.today :=
  fun e he => s.vestable e (List.mem_filter.mp he).1

def recordStatement (s : Desk) (e : EssStatement) (h : e.Vestable s.today) : Desk :=
  { s with
    statements := Keyed.put EssStatement.id s.statements e
    vestable := vestable_put h }

/-- The stored statement, where its vest exists. -/
def vested (s : Desk) (id : ℤ) : Option EssStatement :=
  if s.applied (.essVest id) then s.statement? id else none

def putStatement (s : Desk) (e : EssStatement) (env : Surroundings) : Except Refusal Desk := do
  let checks ← (answered (e.check s.today (some (env.listingCurrency e.listing)) (s.vested e.id))).mapError
    .statement
  return s.recordStatement e (EssStatement.vestable_of_check checks.property)

def deleteStatement (s : Desk) (id : ℤ) : Desk :=
  { s with
    statements := s.statements.filter fun e => e.id ≠ id
    vestable := s.vestable_filter id }

/-- The cost-base-reset Buy of a statement. -/
def vest (s : Desk) (id : ℤ) (env : Surroundings) : Except Refusal Desk := do
  let e ← orRefuse (s.statement? id) .statementNotFound
  refuseIf (s.applied (.essVest id) = true) .alreadyVested
  refuseIf (e.pricesShares = false) .nothingToVest
  let rate ← e.fxRate.elim ((env.rates.resolveRate e.currency e.taxingPointDate .none).mapError .fx) .ok
  let parcel : NewParcel :=
    { provenance := some (.essVest id)
      date := e.taxingPointDate
      listing := e.listing
      account := e.account
      quantity := e.quantity
      currency := e.currency
      averagePrice := e.marketValuePerShare
      brokerage := 0
      fxRate := rate }
  return s.insertRow parcel.row

/-- The Buy an inheritance wrote. -/
def inheritedBuy (s : Desk) (id : ℤ) : Option TradeId :=
  (s.trades.find? fun r => r.provenance = some (.inheritance id)).map Row.id

/-- An inheritance recorded, or edited: an edit rewrites its Buy where it stands. -/
def putInheritance (s : Desk) (i : Inheritance) (env : Surroundings) : Except Refusal Desk := do
  (i.validate s.today).mapError .inheritance
  refuseIf (∃ buy ∈ s.inheritedBuy i.id, env.drawnOn buy = true) (.inheritance .parcelDrawnOn)
  let total ← orRefuse i.totalCostBase (.inheritance .unrepresentableCostBase)
  let parcel : NewParcel :=
    { provenance := some (.inheritance i.id)
      date := i.dateOfDeath
      listing := i.listing
      account := i.account
      quantity := i.quantity
      currency := i.currency
      averagePrice := 0
      brokerage := total
      fxRate := i.fxRate }
  s.storeRow ((s.inheritedBuy i.id).getD (s.plan.lastTrade + 1)) parcel.row

/-! ### Actions and the reinvestment plan -/

def putAction (s : Desk) (a : Action) : Except Refusal Desk := do
  let positive ← ensure (termsPositive a.kind = true) .termsNotPositive
  return { s with actions := s.actions.filter (fun r => r.val.id ≠ a.id) ++ [⟨a, positive.down⟩] }

def deleteAction (s : Desk) (id : ℤ) : Desk :=
  { s with actions := s.actions.filter fun r => r.val.id ≠ id }

end Desk

/-- The cash a reinvestment has: the distribution's and what was brought forward. -/
def available (plan : Drp.Register) (income : ℤ) (body : Drp.ReinvestBody) : Option ℚ :=
  (plan.income income).bind fun i => (plan.enrolment i).map fun period =>
    i.netCashReceived + plan.broughtForward period (body.date.getD i.datePaid)

/-- The date a reinvestment is recorded at. -/
def reinvestedOn (plan : Drp.Register) (income : ℤ) (body : Drp.ReinvestBody) : Option NaiveDate :=
  (plan.income income).map fun i => body.date.getD i.datePaid

namespace Desk

/-- A reinvestment: the same bound on the cost base as `checkAmounts`'. -/
def reinvest (s : Desk) (income : ℤ) (body : Drp.ReinvestBody) (env : Drp.Surroundings) :
    Except Refusal Desk := do
  refuseIf (∃ a ∈ available s.plan income body, representable a = false) .overflow
  let plan ← (s.plan.reinvest income body
    { env with unrepresentableCost := fun price units => !representable (price * units) }).mapError .plan
  return { s with plan }

inductive Write where
  | putTrade (id : Option TradeId) (body : TradeBody)
  | deleteTrades (gone : List TradeId)
  | recomputeSettlements
  | operationSell (provenance : Provenance) (body : TradeBody)
  | transfer (body : TransferBody)
  | exchange (action : ℤ) (parcels : List Replaced)
  | demerge (action : ℤ) (parcels : List Replaced)
  | exercise (action : ℤ) (body : ExerciseBody) (entitled : Bool)
  | putStatement (e : EssStatement)
  | deleteStatement (id : ℤ)
  | vest (id : ℤ)
  | putInheritance (i : Inheritance)
  | putAction (a : Action)
  | deleteAction (id : ℤ)
  | reinvest (income : ℤ) (body : Drp.ReinvestBody) (env : Drp.Surroundings)
  | unreinvest (income : ℤ) (env : Drp.Surroundings)
  | recordIncome (body : Drp.Income)
  | deleteIncome (id : ℤ)
  | writePeriod (p : Drp.DrpEnrolment)
  | deletePeriod (id : ℤ)

/-- The plan's own writes that reinvest nothing. -/
def withPlan (s : Desk) (plan : Except Drp.WriteError Drp.Register) : Except Refusal Desk := do
  let plan ← plan.mapError .plan
  return { s with plan }

def write (D : DecimalRounding) (s : Desk) (env : Surroundings) : Write → Except Refusal Desk
  | .putTrade id body => s.putTrade id body env
  | .deleteTrades gone => .ok (s.deleteTrades gone)
  | .recomputeSettlements => .ok (s.recomputeSettlements env)
  | .operationSell provenance body => s.operationSell provenance body env
  | .transfer body => s.transfer body env
  | .exchange action parcels => s.exchange D action parcels env
  | .demerge action parcels => s.demerge D action parcels env
  | .exercise action body entitled => s.exercise action body entitled env
  | .putStatement e => s.putStatement e env
  | .deleteStatement id => .ok (s.deleteStatement id)
  | .vest id => s.vest id env
  | .putInheritance i => s.putInheritance i env
  | .putAction a => s.putAction a
  | .deleteAction id => .ok (s.deleteAction id)
  | .reinvest income body plan => s.reinvest income body plan
  | .unreinvest income plan => s.withPlan (s.plan.unreinvest income plan)
  | .recordIncome body => s.withPlan (s.plan.recordIncome body)
  | .deleteIncome id => s.withPlan (s.plan.deleteIncome id)
  | .writePeriod p => s.withPlan (s.plan.writePeriod p)
  | .deletePeriod id => s.withPlan (s.plan.deletePeriod id)

/-- A write, some days after the one before. -/
structure Entry where
  days : ℕ
  env : Surroundings
  write : Write

def step (D : DecimalRounding) (s : Desk) (e : Entry) : Except Refusal Desk :=
  (s.tick e.days).write D e.env e.write

abbrev run (D : DecimalRounding) : Desk → List Entry → Except Refusal Desk := GuardedRun.run (step D)

/-- The empty database on a day. -/
def empty (today : NaiveDate) : Desk where
  today := today
  trades := []
  statements := []
  actions := []
  plan := .empty
  vestable := fun _ h => absurd h List.not_mem_nil

end Desk

end ShareTracker.TradeDesk
