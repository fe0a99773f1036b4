import ShareTracker.ParcelLedger
import ShareTracker.Lib.CarriedBalance
import ShareTracker.Lib.Keyed
import ShareTracker.Lib.Checked

/-!
Dividend reinvestment: the distributions, the trades they are reinvested in,
and the enrolment periods that decide where a reinvestment's leftover cash
sits. Money is exact rationals here.
-/
namespace ShareTracker.Drp
open Checked

/-- What becomes of the cash left over after a reinvestment. -/
inductive ResidualHandling where
  | carryForward
  | payOut
  deriving DecidableEq

structure DrpEnrolment where
  id : ℤ
  listing : ListingId
  account : HoldingAccountId
  enrolmentDate : NaiveDate
  unenrolmentDate : Option NaiveDate
  residualHandling : ResidualHandling
  deriving DecidableEq

inductive IncomeType where
  | dividend
  | employmentIncome
  | otherIncome
  deriving DecidableEq

/-- A distribution: the fields a reinvestment reads, and its link. -/
structure Income where
  id : ℤ
  listing : ListingId
  account : HoldingAccountId
  currency : CurrencyCode
  datePaid : NaiveDate
  exDate : Option NaiveDate
  entitlementDate : Option NaiveDate
  trustIncome : Bool
  incomeType : IncomeType
  frankedAmount : ℚ
  unfrankedAmount : ℚ
  foreignSourceIncome : ℚ
  foreignTaxPaid : ℚ
  tfnWithholdingTax : ℚ
  reinvestmentTrade : Option TradeId
  deriving DecidableEq

def Income.trustEntitlementDate (i : Income) : Option NaiveDate :=
  if i.trustIncome then i.entitlementDate else none

def Income.exOrPayDate (i : Income) : NaiveDate :=
  (i.exDate.or i.trustEntitlementDate).getD i.datePaid

def Income.grossCashIncome (i : Income) : ℚ :=
  i.frankedAmount + i.unfrankedAmount + i.foreignSourceIncome

def Income.netCashReceived (i : Income) : ℚ :=
  i.grossCashIncome - i.foreignTaxPaid - i.tfnWithholdingTax

/-- A reinvestment trade. `computed` is no column: whether the units were
worked out from the cash, not stated. -/
structure DrpTrade where
  id : TradeId
  listing : ListingId
  account : HoldingAccountId
  date : NaiveDate
  quantity : ℚ
  averagePrice : ℚ
  currency : CurrencyCode
  fxRate : ℚ
  residualBroughtForward : ℚ
  residualCarriedForward : ℚ
  residualPaidOut : ℚ
  computed : Bool
  deriving DecidableEq

def DrpTrade.leftover (t : DrpTrade) : ℚ := t.residualCarriedForward + t.residualPaidOut

def DrpTrade.cost (t : DrpTrade) : ℚ := t.quantity * t.averagePrice

/-! ### Where a leftover sits -/

inductive ChainPosition where
  | tail
  | followed
  deriving DecidableEq

structure ResidualSplit where
  carriedForward : ℚ
  paidOut : ℚ
  deriving DecidableEq

namespace DrpEnrolment

def refunds (p : DrpEnrolment) (position : ChainPosition) : Bool :=
  match p.residualHandling with
  | .payOut => true
  | .carryForward => position = .tail && p.unenrolmentDate.isSome

def residualSplit (p : DrpEnrolment) (leftover : ℚ) (position : ChainPosition) : ResidualSplit :=
  if p.refunds position then ⟨0, leftover⟩ else ⟨leftover, 0⟩

theorem residualSplit_sum (p : DrpEnrolment) (leftover : ℚ) (position : ChainPosition) :
    (p.residualSplit leftover position).carriedForward +
      (p.residualSplit leftover position).paidOut = leftover := by
  unfold residualSplit
  split
  · exact zero_add leftover
  · exact add_zero leftover

/-- Whether a date lies in the half-open period. -/
def during (p : DrpEnrolment) (date : NaiveDate) : Bool :=
  p.enrolmentDate ≤ date && p.unenrolmentDate.all fun stop => decide (date < stop)

/-- Whether two periods of a holding share a day. -/
def overlaps (p q : DrpEnrolment) : Bool :=
  p.listing = q.listing && p.account = q.account &&
    (q.unenrolmentDate.all fun stop => decide (p.enrolmentDate < stop)) &&
      p.unenrolmentDate.all fun stop => decide (q.enrolmentDate < stop)

end DrpEnrolment

/-- A reinvestment beside the distribution that funded it. -/
structure Payment where
  trade : DrpTrade
  income : Income
  deriving DecidableEq

/-- The order the cash moved in. -/
def Payment.rank (r : Payment) : NaiveDate ×ₗ TradeId := toLex (r.trade.date, r.trade.id)

def DrpEnrolment.covers (p : DrpEnrolment) (r : Payment) : Bool :=
  r.trade.listing = p.listing && r.trade.account = p.account && p.during r.income.exOrPayDate

def DrpTrade.put (t : DrpTrade) (split : ResidualSplit) : DrpTrade :=
  { t with residualCarriedForward := split.carriedForward, residualPaidOut := split.paidOut }

/-! ### The tables -/

structure Register where
  incomes : List Income
  trades : List DrpTrade
  periods : List DrpEnrolment
  /-- The last id the trades' sequence has issued. -/
  lastTrade : TradeId
  incomes_unique : (incomes.map Income.id).Nodup
  trades_unique : (trades.map DrpTrade.id).Nodup
  trades_known : ∀ t ∈ trades, t.id ≤ lastTrade
  periods_unique : (periods.map DrpEnrolment.id).Nodup

namespace Register

/-- The join of the reinvestments with the distributions linked to them. -/
def payments (s : Register) : List Payment :=
  ((s.trades ×ˢ s.incomes).map fun r => ⟨r.1, r.2⟩).filter fun r =>
    r.income.reinvestmentTrade = some r.trade.id

/-- `PERIOD_TRADES_FROM_WHERE`, in payment order. -/
def periodTrades (s : Register) (p : DrpEnrolment) : List Payment :=
  StableSort.sortBy Payment.rank (s.payments.filter p.covers)

/-- The place the walk gives a trade: the last of it has no successor. -/
def position (walk : List Payment) (t : DrpTrade) : ChainPosition :=
  if walk.getLast?.any fun r => r.trade.id = t.id then .tail else .followed

def resplit (p : DrpEnrolment) (walk : List Payment) (t : DrpTrade) : DrpTrade :=
  if walk.any fun r => r.trade.id = t.id then t.put (p.residualSplit t.leftover (position walk t))
  else t

theorem resplit_id (p : DrpEnrolment) (walk : List Payment) (t : DrpTrade) :
    (resplit p walk t).id = t.id := by
  unfold resplit
  split
  · rfl
  · rfl

def recomputeResiduals (s : Register) (p : DrpEnrolment) : Register :=
  { s with
    trades := s.trades.map (resplit p (s.periodTrades p))
    trades_unique := Keyed.nodup_map s.trades_unique (resplit_id p _)
    trades_known := by
      intro t ht
      obtain ⟨u, hu, rfl⟩ := List.mem_map.mp ht
      exact (resplit_id p _ u).symm ▸ s.trades_known u hu }

def income (s : Register) (id : ℤ) : Option Income := Keyed.get? Income.id s.incomes id

def putIncome (s : Register) (i : Income) : Register :=
  { s with
    incomes := Keyed.put Income.id s.incomes i
    incomes_unique := Keyed.nodup_put s.incomes_unique i }

def dropIncome (s : Register) (id : ℤ) : Register :=
  { s with
    incomes := s.incomes.filter fun i => i.id ≠ id
    incomes_unique := Keyed.nodup_filter s.incomes_unique _ }

def putPeriod (s : Register) (p : DrpEnrolment) : Register :=
  { s with
    periods := Keyed.put DrpEnrolment.id s.periods p
    periods_unique := Keyed.nodup_put s.periods_unique p }

def dropPeriod (s : Register) (id : ℤ) : Register :=
  { s with
    periods := s.periods.filter fun p => p.id ≠ id
    periods_unique := Keyed.nodup_filter s.periods_unique _ }

/-- `NewParcel::insert`: the row takes the next id of the sequence. -/
def insertTrade (s : Register) (draft : DrpTrade) : Register :=
  { s with
    trades := s.trades ++ [{ draft with id := s.lastTrade + 1 }]
    lastTrade := s.lastTrade + 1
    trades_unique := by
      rw [List.map_append, List.nodup_append]
      refine ⟨s.trades_unique, List.nodup_singleton _, ?_⟩
      intro a ha b hb
      obtain ⟨t, ht, rfl⟩ := List.mem_map.mp ha
      rw [List.map_singleton, List.mem_singleton] at hb
      rw [hb]
      exact ne_of_lt (Int.lt_add_one_of_le (s.trades_known t ht))
    trades_known := by
      intro t ht
      rcases List.mem_append.mp ht with ht | ht
      · exact (s.trades_known t ht).trans (lt_add_one _).le
      · rw [List.mem_singleton.mp ht] }

def dropTrade (s : Register) (id : TradeId) : Register :=
  { s with
    trades := s.trades.filter fun t => t.id ≠ id
    trades_unique := Keyed.nodup_filter s.trades_unique _
    trades_known := fun t ht => s.trades_known t (List.mem_filter.mp ht).1 }

/-- `UPDATE income SET reinvestment_trade_id = … WHERE id = …`. -/
def linkIncome (s : Register) (id : ℤ) (link : Option TradeId) : Register :=
  { s with
    incomes := s.incomes.map fun i => if i.id = id then { i with reinvestmentTrade := link } else i
    incomes_unique := Keyed.nodup_map s.incomes_unique fun i => by split <;> rfl }

/-- A trade of another type stored at an id. -/
def noteTrade (s : Register) (id : TradeId) : Register :=
  { s with
    lastTrade := max s.lastTrade id
    trades_known := fun t ht => (s.trades_known t ht).trans (le_max_left _ _) }

end Register

/-! ### The writes -/

/-- Units a statement prints, to `scale` decimals. -/
structure StatedUnits where
  mantissa : ℤ
  scale : ℕ

def StatedUnits.value (u : StatedUnits) : ℚ := u.mantissa / 10 ^ u.scale

def StatedUnits.step (u : StatedUnits) : ℚ := 1 / 10 ^ u.scale

structure ReinvestBody where
  reinvestmentPrice : ℚ
  units : Option StatedUnits
  fxRate : Option ℚ
  date : Option NaiveDate

/-- What a write reads of the tables outside the plan. -/
structure Surroundings where
  listingCurrency : ListingId → CurrencyCode
  backDated : ListingId → NaiveDate → Bool
  unrepresentableCost : ℚ → ℚ → Bool
  tooFine : HoldingAccountId → ListingId → ℚ → Bool
  beyondRange : ListingId → Bool
  consumed : TradeId → Bool

inductive WriteError where
  | db
  | incomeNotFound
  | notEnrolled (account : HoldingAccountId) (listing : ListingId) (date : NaiveDate)
  | alreadyReinvested
  | notADistribution
  | currencyMismatch (distribution listing : CurrencyCode)
  | nonPositivePrice
  | nonPositiveUnits
  | nonPositiveFxRate
  | unitsCashMismatch (cost available : ℚ)
  | unrepresentableCostBase
  | notReinvested
  | reinvestmentConsumed
  | reinvestmentNotChainTail
  | laterReinvestmentExists (date later : NaiveDate)
  | backDatedOverWholeHolding
  | unrepresentableRebasedQuantity
  | unitScale
  | emptyPeriod
  | overlap
  | coversReinvestment
  | periodNotFound
  | reinvestedIncome (field : Option String)
  | reinvestedTrade
  deriving DecidableEq

/-- The units an amount of cash bought, and what it left over. -/
structure Allotment where
  quantity : ℚ
  leftover : ℚ
  computed : Bool

def allot (env : Surroundings) (body : ReinvestBody) (available : ℚ) :
    Except WriteError Allotment :=
  match body.units with
  | some units => do
      let cost := body.reinvestmentPrice * units.value
      refuseIf (env.unrepresentableCost body.reinvestmentPrice units.value) .unrepresentableCostBase
      refuseIf (units.step * body.reinvestmentPrice ≤ |available - cost|)
        (.unitsCashMismatch cost available)
      -- a whole number is an exact allotment; a figure to decimals is printed rounded
      .ok ⟨units.value, if units.scale = 0 then max (available - cost) 0 else 0, false⟩
  | none =>
    let quantity : ℚ := ⌊available / body.reinvestmentPrice⌋
    .ok ⟨quantity, available - quantity * body.reinvestmentPrice, true⟩

namespace Register

/-- The enrolment period a distribution was paid under. -/
def enrolment (s : Register) (i : Income) : Option DrpEnrolment :=
  s.periods.find? fun p => p.listing = i.listing && p.account = i.account && p.during i.exOrPayDate

/-- What the last reinvestment up to a date leaves for the one after it. -/
def broughtForward (s : Register) (p : DrpEnrolment) (date : NaiveDate) : ℚ :=
  match ((s.periodTrades p).filter fun r => r.trade.date ≤ date).getLast? with
  | some prior => (p.residualSplit prior.trade.leftover .followed).carriedForward
  | none => 0

def later (s : Register) (p : DrpEnrolment) (date : NaiveDate) : Option Payment :=
  (s.periodTrades p).find? fun r => date < r.trade.date

/-- The parcel a reinvestment creates; the insert gives it its id. -/
def parcel (income : Income) (currency : CurrencyCode) (date : NaiveDate) (body : ReinvestBody)
    (allotment : Allotment) (broughtForward : ℚ) (split : ResidualSplit) : DrpTrade where
  id := 0
  listing := income.listing
  account := income.account
  date := date
  quantity := allotment.quantity
  averagePrice := body.reinvestmentPrice
  currency := currency
  fxRate := body.fxRate.getD 1
  residualBroughtForward := broughtForward
  residualCarriedForward := split.carriedForward
  residualPaidOut := split.paidOut
  computed := allotment.computed

/-- The parcel inserted and the distribution linked to it. -/
def join (s : Register) (id : ℤ) (draft : DrpTrade) : Register :=
  (s.insertTrade draft).linkIncome id (some (s.lastTrade + 1))

/-- `execute`, the write behind `POST /income/:id/reinvest`. -/
def reinvest (s : Register) (id : ℤ) (body : ReinvestBody) (env : Surroundings) :
    Except WriteError Register := do
  refuseIf (body.reinvestmentPrice ≤ 0) .nonPositivePrice
  refuseIf (body.fxRate.any fun r => decide (r ≤ 0)) .nonPositiveFxRate
  refuseIf (body.units.any fun u => decide (u.value ≤ 0)) .nonPositiveUnits
  let income ← orRefuse (s.income id) .incomeNotFound
  refuseIf income.reinvestmentTrade.isSome .alreadyReinvested
  refuseIf (income.incomeType ≠ .dividend) .notADistribution
  let period ← orRefuse (s.enrolment income)
    (.notEnrolled income.account income.listing income.exOrPayDate)
  let currency := env.listingCurrency income.listing
  refuseIf (income.currency ≠ currency) (.currencyMismatch income.currency currency)
  let date := body.date.getD income.datePaid
  refuseIf (env.backDated income.listing date) .backDatedOverWholeHolding
  (s.later period date).elim (.ok ()) fun r => .error (.laterReinvestmentExists date r.trade.date)
  let broughtForward := s.broughtForward period date
  let allotment ← allot env body (income.netCashReceived + broughtForward)
  let split := period.residualSplit allotment.leftover .tail
  refuseIf (env.tooFine income.account income.listing allotment.quantity) .unitScale
  let draft := parcel income currency date body allotment broughtForward split
  refuseIf (env.beyondRange income.listing) .unrepresentableRebasedQuantity
  .ok ((s.join id draft).recomputeResiduals period)

/-- A later reinvestment of the same holding, in payment order. -/
def hasLater (s : Register) (trade : DrpTrade) : Bool :=
  s.trades.any fun t => t.listing = trade.listing && t.account = trade.account &&
    (trade.date < t.date || (t.date = trade.date && trade.id < t.id))

def unreinvest (s : Register) (id : ℤ) (env : Surroundings) : Except WriteError Register := do
  let income ← orRefuse (s.income id) .incomeNotFound
  let tradeId ← orRefuse income.reinvestmentTrade .notReinvested
  refuseIf (env.consumed tradeId) .reinvestmentConsumed
  let trade ← orRefuse (Keyed.get? DrpTrade.id s.trades tradeId) .db
  refuseIf (s.hasLater trade) .reinvestmentNotChainTail
  .ok ((s.linkIncome id none).dropTrade tradeId)

/-- An enrolment period created or replaced. -/
def writePeriod (s : Register) (p : DrpEnrolment) : Except WriteError Register := do
  refuseIf (p.unenrolmentDate.any fun stop => decide (stop ≤ p.enrolmentDate)) .emptyPeriod
  refuseIf (s.periods.any fun q => q.id ≠ p.id && p.overlaps q) .overlap
  .ok ((s.putPeriod p).recomputeResiduals p)

def deletePeriod (s : Register) (id : ℤ) : Except WriteError Register := do
  let period ← orRefuse (Keyed.get? DrpEnrolment.id s.periods id) .periodNotFound
  refuseIf (s.periodTrades period ≠ []) .coversReinvestment
  .ok (s.dropPeriod id)

/-- The fields a link freezes, each with whether the body moves it. -/
def frozen (existing income : Income) : List (String × Bool) :=
  [("listing_id", existing.listing ≠ income.listing),
    ("holding_account_id", existing.account ≠ income.account),
    ("currency", existing.currency ≠ income.currency),
    ("date_paid", existing.datePaid ≠ income.datePaid),
    ("ex_date", existing.exDate ≠ income.exDate),
    ("entitlement_date", existing.entitlementDate ≠ income.entitlementDate),
    ("trust_income", existing.trustIncome ≠ income.trustIncome),
    ("franked_amount", existing.frankedAmount ≠ income.frankedAmount),
    ("unfranked_amount", existing.unfrankedAmount ≠ income.unfrankedAmount),
    ("foreign_source_income", existing.foreignSourceIncome ≠ income.foreignSourceIncome),
    ("foreign_tax_paid", existing.foreignTaxPaid ≠ income.foreignTaxPaid),
    ("tfn_withholding_tax", existing.tfnWithholdingTax ≠ income.tfnWithholdingTax),
    ("income_type", existing.incomeType ≠ income.incomeType)]

def movedField (existing income : Income) : Option String :=
  if existing.reinvestmentTrade.isSome then
    ((frozen existing income).find? Prod.snd).map Prod.fst
  else none

/-- A distribution created or edited; the link is not the body's to state. -/
def recordIncome (s : Register) (body : Income) : Except WriteError Register :=
  let existing := s.income body.id
  match existing.bind fun e => movedField e body with
  | some field => .error (.reinvestedIncome (some field))
  | none => .ok (s.putIncome { body with reinvestmentTrade := existing.bind Income.reinvestmentTrade })

def deleteIncome (s : Register) (id : ℤ) : Except WriteError Register := do
  let income ← orRefuse (s.income id) .incomeNotFound
  refuseIf income.reinvestmentTrade.isSome (.reinvestedIncome none)
  .ok (s.dropIncome id)

/-- Any other trade's own write. -/
def writeTrade (s : Register) (id : TradeId) : Except WriteError Register := do
  refuseIf (s.trades.any fun t => decide (t.id = id)) .reinvestedTrade
  .ok (s.noteTrade id)

end Register

inductive Write where
  | recordIncome (body : Income)
  | deleteIncome (id : ℤ)
  | writeTrade (id : TradeId)
  | reinvest (income : ℤ) (body : ReinvestBody) (env : Surroundings)
  | unreinvest (income : ℤ) (env : Surroundings)
  | writePeriod (p : DrpEnrolment)
  | deletePeriod (id : ℤ)

namespace Register

def step (s : Register) : Write → Except WriteError Register
  | .recordIncome body => s.recordIncome body
  | .deleteIncome id => s.deleteIncome id
  | .writeTrade id => s.writeTrade id
  | .reinvest id body env => s.reinvest id body env
  | .unreinvest id env => s.unreinvest id env
  | .writePeriod p => s.writePeriod p
  | .deletePeriod id => s.deletePeriod id

def empty : Register :=
  ⟨[], [], [], 0, List.nodup_nil, List.nodup_nil, fun _ h => absurd h List.not_mem_nil, List.nodup_nil⟩

/-- The register a sequence of accepted writes reaches. -/
def run (s : Register) : List Write → Except WriteError Register
  | [] => .ok s
  | w :: ws =>
    match s.step w with
    | .ok s' => s'.run ws
    | .error e => .error e

end Register

end ShareTracker.Drp
