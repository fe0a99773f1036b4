import ShareTracker.Substitutions
import ShareTracker.OpenParcels
import ShareTracker.Lib.BoundedSearch

/-!
AMMA statements and the rows that attribute them to parcels. A row's parcel is
of its statement's own holding, or a rollover carried units of that holding into
it; the row is checked against the statement when it is written.
-/
namespace ShareTracker.Amit
open Checked Performance

/-! ### Chains of rollovers -/

/-- How deep a chain of rollovers a walk follows. -/
def maxRolloverDepth : ℕ := 10

section Chains
variable (b : Book)

/-- The group that created a parcel, where it is a replacement. -/
def groupCreating (id : TradeId) : Option Group := (b.trade? id).bind TradeRow.group

/-- The parcels a group consumed. -/
def groupSources (group : Group) : List TradeId :=
  (b.rollovers.filter fun r => r.group = group).flatMap fun r => r.moved.map Moved.parcel

def groupReplacements (group : Group) : List TradeId :=
  (b.rollovers.filter fun r => r.group = group).flatMap fun r => r.buys.map TradeRow.id

/-- The groups whose closing Sell consumed part of a parcel. -/
def groupsConsuming (id : TradeId) : List Group :=
  (b.rollovers.filter fun r => r.moved.any fun m => m.parcel = id).map Rollover.group

def sources (id : TradeId) : List TradeId := (groupCreating b id).elim [] (groupSources b)

/-- Every parcel whose units a chain of at most `depth` rollovers carried into this one. -/
def sourceAncestors (depth : ℕ) (id : TradeId) : List TradeId :=
  StableSort.sortBy (fun i => i) (BoundedSearch.search (sources b) depth [id] [id])

/-- Whether the parcel holds units a rollover carried out of the holding. -/
def tracesBackTo (depth : ℕ) (id : TradeId) (holding : HoldingKey) : Bool :=
  (sourceAncestors b depth id).any fun a => (b.trade? a).any fun t => t.holding = holding

/-- What rollovers took out of a parcel. -/
def carriedOut (id : TradeId) : List Valuation.Allocation :=
  b.rollovers.flatMap fun r =>
    (r.moved.filter fun m => m.parcel = id).map fun m => ⟨m.parcel, m.units, r.date⟩

/-- What was gone from a parcel before `date`. -/
def goneBefore (id : TradeId) (date : NaiveDate) : List Valuation.Allocation :=
  b.allocations.filter fun a => a.purchaseTradeId = id ∧ a.saleDate < date

/-- The parcel's units left beside the given allocations, as acquired. -/
def unitsBeside (t : TradeRow) (sales : List Valuation.Allocation) : ℚ :=
  max (t.quantity - Valuation.soldInAcquiredUnits (b.splits t.listing) t.parcel sales) 0

end Chains

/-! ### Rows -/

structure AmmaStatement where
  id : ℤ
  listing : ListingId
  taxYearEndDate : NaiveDate
  unitsHeld : ℚ
  dateReceived : NaiveDate
  australianInterest : ℚ
  australianDividendsUnfranked : ℚ
  frankedDividends : ℚ
  frankingCredits : ℚ
  netRent : ℚ
  foreignIncome : ℚ
  foreignTaxCredits : ℚ
  foreignTaxCreditsCapitalGains : ℚ
  otherIncome : ℚ
  cgtDiscountGains : ℚ
  cgtIndexationGains : ℚ
  cgtOtherGains : ℚ
  capitalLossesApplied : ℚ
  taxDeferredAmount : ℚ
  taxFreeAmount : ℚ
  costBaseAdjustment : ℚ
  tfnWithholdingTax : ℚ
  currency : CurrencyCode
  holdingAccount : HoldingAccountId
  deriving DecidableEq

namespace AmmaStatement

def holding (st : AmmaStatement) : HoldingKey := (st.listing, st.holdingAccount)

/-- The figures that may not be negative; the signed cost-base amount is not among them. -/
def amounts (st : AmmaStatement) : List (String × ℚ) :=
  [("units_held", st.unitsHeld),
    ("australian_interest", st.australianInterest),
    ("australian_dividends_unfranked", st.australianDividendsUnfranked),
    ("franked_dividends", st.frankedDividends),
    ("franking_credits", st.frankingCredits),
    ("net_rent", st.netRent),
    ("foreign_income", st.foreignIncome),
    ("foreign_tax_credits", st.foreignTaxCredits),
    ("foreign_tax_credits_capital_gains", st.foreignTaxCreditsCapitalGains),
    ("other_income", st.otherIncome),
    ("cgt_discount_gains", st.cgtDiscountGains),
    ("cgt_indexation_gains", st.cgtIndexationGains),
    ("cgt_other_gains", st.cgtOtherGains),
    ("capital_losses_applied", st.capitalLossesApplied),
    ("tax_deferred_amount", st.taxDeferredAmount),
    ("tax_free_amount", st.taxFreeAmount),
    ("tfn_withholding_tax", st.tfnWithholdingTax)]

def negativeAmount (st : AmmaStatement) : Option String :=
  (st.amounts.find? fun a => a.2 < 0).map Prod.fst

end AmmaStatement

structure AdjustmentBody where
  statement : ℤ
  trade : TradeId
  quantity : ℚ

structure Adjustment where
  id : ℤ
  statement : ℤ
  trade : TradeId
  quantity : ℚ
  deriving DecidableEq

/-- The statement and the parcel a row puts together. -/
def Adjustment.pair (a : Adjustment) : ℤ × TradeId := (a.statement, a.trade)

inductive Refusal where
  | trade (e : Performance.Refusal)
  | quantityBelowAmitAdjustment
  | negativeAmount (field : String)
  | notFinancialYearEnd (date : NaiveDate)
  | capitalGainsTaxWithoutGains (tax : ℚ)
  | currencyNotListings (statement listing : CurrencyCode)
  | referenced
  | rowNotFound
  | tradeNotBuyOrDrp
  | listingMismatch
  | holdingAccountMismatch
  | quantityExceedsTrade
  | unitsCarriedIntoReplacement (adjustable : ℚ) (replacements : List TradeId)
  | quantityExceedsUnitsHeldInYear (heldInYear : ℚ)
  | duplicateParcel
  | statementNotFound
  | alreadyGenerated
  | nothingHeld
  deriving DecidableEq

/-- The trades, the statements and the rows; `lastRow` is the last row id issued. -/
structure Desk where
  book : Book
  statements : List AmmaStatement
  rows : List Adjustment
  lastRow : ℤ

namespace Desk

def empty : Desk := ⟨.empty, [], [], 0⟩

def statement? (s : Desk) (id : ℤ) : Option AmmaStatement :=
  Keyed.get? AmmaStatement.id s.statements id

/-- Whether a row names the parcel. -/
def adjusted (s : Desk) (id : TradeId) : Bool := s.rows.any fun a => a.trade = id

/-- The rows of a parcel with what their statements state, as the cost base reads them. -/
def reductionRows (s : Desk) (id : TradeId) : List AmitAdjustment :=
  (s.rows.filter fun a => a.trade = id).filterMap fun a =>
    (s.statement? a.statement).map fun st =>
      ⟨st.id, st.taxYearEndDate, a.quantity, st.costBaseAdjustment⟩

/-! ### Writes -/

/-- What a statement's own figures must satisfy. -/
def checkStatement (st : AmmaStatement) (listingCurrency : Option CurrencyCode) :
    Except Refusal Unit := do
  st.negativeAmount.elim (.ok ()) fun field => .error (.negativeAmount field)
  refuseIf ((st.taxYearEndDate.month, st.taxYearEndDate.day) ≠ (6, 30))
    (.notFinancialYearEnd st.taxYearEndDate)
  refuseIf (st.foreignTaxCreditsCapitalGains ≠ 0 ∧ st.cgtDiscountGains = 0 ∧
      st.cgtIndexationGains = 0 ∧ st.cgtOtherGains = 0)
    (.capitalGainsTaxWithoutGains st.foreignTaxCreditsCapitalGains)
  listingCurrency.elim (.ok ()) fun listing =>
    refuseIf (listing ≠ st.currency) (.currencyNotListings st.currency listing)

/-- A statement created or edited. -/
def putStatement (s : Desk) (st : AmmaStatement) (listingCurrency : Option CurrencyCode) :
    Except Refusal Desk := do
  checkStatement st listingCurrency
  return { s with statements := Keyed.put AmmaStatement.id s.statements st }

def deleteStatement (s : Desk) (id : ℤ) : Except Refusal Desk := do
  refuseIf (s.statement? id = none) .statementNotFound
  refuseIf (∃ a ∈ s.rows, a.statement = id) .referenced
  return { s with statements := s.statements.filter fun st => st.id ≠ id }

/-- The checks of a row: `id` is none where the database assigns it. -/
def checkRow (s : Desk) (id : Option ℤ) (body : AdjustmentBody) : Except Refusal Unit := do
  let t ← orRefuse (s.book.trade? body.trade) .rowNotFound
  refuseIf (t.isSell = true) .tradeNotBuyOrDrp
  let st ← orRefuse (s.statement? body.statement) .rowNotFound
  refuseIf (t.holding ≠ st.holding ∧
      tracesBackTo s.book maxRolloverDepth body.trade st.holding = false)
    (if t.listing ≠ st.listing then .listingMismatch else .holdingAccountMismatch)
  refuseIf (t.quantity < body.quantity) .quantityExceedsTrade
  let carried := carriedOut s.book body.trade
  let adjustable := unitsBeside s.book t carried
  refuseIf (carried ≠ [] ∧ adjustable < body.quantity)
    (.unitsCarriedIntoReplacement adjustable
      (StableSort.sortBy (fun i => i)
        ((groupsConsuming s.book body.trade).flatMap (groupReplacements s.book)).dedup))
  let gone := goneBefore s.book body.trade (fyStart st.taxYearEndDate)
  let heldInYear := unitsBeside s.book t gone
  refuseIf (gone ≠ [] ∧ heldInYear < body.quantity) (.quantityExceedsUnitsHeldInYear heldInYear)
  refuseIf (∃ a ∈ s.rows, a.statement = body.statement ∧ a.trade = body.trade ∧ some a.id ≠ id)
    .duplicateParcel

def putRow (s : Desk) (id : ℤ) (body : AdjustmentBody) : Except Refusal Desk := do
  s.checkRow (some id) body
  return { s with
    rows := Keyed.put Adjustment.id s.rows ⟨id, body.statement, body.trade, body.quantity⟩
    lastRow := max s.lastRow id }

def insertRow (s : Desk) (body : AdjustmentBody) : Except Refusal Desk := do
  s.checkRow none body
  return { s with
    rows := s.rows ++ [⟨s.lastRow + 1, body.statement, body.trade, body.quantity⟩]
    lastRow := s.lastRow + 1 }

def deleteRow (s : Desk) (id : ℤ) : Desk :=
  { s with rows := s.rows.filter fun a => a.id ≠ id }

/-- The rows generated for a statement, each through the ordinary insert; which
parcels they cover is the answer of its placement. -/
def generate (s : Desk) (statement : ℤ) (replace : Bool) (placed : List (TradeId × ℚ)) :
    Except Refusal Desk := do
  refuseIf (s.statement? statement = none) .statementNotFound
  refuseIf (replace = false ∧ ∃ a ∈ s.rows, a.statement = statement) .alreadyGenerated
  refuseIf (placed = []) .nothingHeld
  let cleared : Desk := { s with rows := s.rows.filter fun a => a.statement ≠ statement }
  placed.foldlM (fun s p => s.insertRow ⟨statement, p.1, p.2⟩) cleared

/-- What the rows refuse of a write to the trades. -/
def checkTrade (s : Desk) : Book.Write → Except Refusal Unit
  | .putTrade row _ => do
      refuseIf (s.adjusted row.1.id = true ∧
          ∃ t ∈ s.book.trade? row.1.id, t.listing ≠ row.1.listing)
        (.trade .listingChangeReferenced)
      refuseIf (s.adjusted row.1.id = true ∧
          ∃ t ∈ s.book.trade? row.1.id, t.account ≠ row.1.account)
        (.trade .accountChangeReferenced)
      refuseIf (∃ a ∈ s.rows, a.trade = row.1.id ∧ row.1.quantity < a.quantity)
        .quantityBelowAmitAdjustment
  | .deleteTrade id => refuseIf (s.adjusted id = true) (.trade .referenced)
  | .undo group =>
    refuseIf (∃ r ∈ s.book.rollovers, r.group = group ∧ ∃ t ∈ r.buys, s.adjusted t.id = true)
      (.trade .referenced)
  | _ => .ok ()

def writeTrades (s : Desk) (w : Book.Write) : Except Refusal Desk := do
  s.checkTrade w
  let book ← (s.book.step w).mapError .trade
  return { s with book }

inductive Write where
  | trades (w : Book.Write)
  | putStatement (st : AmmaStatement) (listingCurrency : Option CurrencyCode)
  | deleteStatement (id : ℤ)
  | putRow (id : ℤ) (body : AdjustmentBody)
  | insertRow (body : AdjustmentBody)
  | deleteRow (id : ℤ)
  | generate (statement : ℤ) (replace : Bool) (placed : List (TradeId × ℚ))

def step (s : Desk) : Write → Except Refusal Desk
  | .trades w => s.writeTrades w
  | .putStatement st listingCurrency => s.putStatement st listingCurrency
  | .deleteStatement id => s.deleteStatement id
  | .putRow id body => s.putRow id body
  | .insertRow body => s.insertRow body
  | .deleteRow id => .ok (s.deleteRow id)
  | .generate statement replace placed => s.generate statement replace placed

abbrev run : Desk → List Write → Except Refusal Desk := GuardedRun.run step

end Desk
end ShareTracker.Amit
