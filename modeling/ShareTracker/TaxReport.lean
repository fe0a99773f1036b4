import ShareTracker.DisposalSchedule
import ShareTracker.TaxSummary

/-!
The annual tax report of one financial year, and the years its picker offers.
-/
namespace ShareTracker.TaxReport
open Checked IncomeRows ParcelSources TaxSummary Disposals

def minTaxYear : ℤ := 1900

def maxTaxYear : ℤ := 2999

/-- A year the report can be asked for. -/
structure TaxYear where
  year : ℤ
  min_le : minTaxYear ≤ year
  le_max : year ≤ maxTaxYear

/-- A parcel with what the walk of its events reads. -/
structure WalkedParcel where
  row : ParcelRow
  amitEvents : List AmitReductionEvent
  rocEvents : List RocEvent
  splits : List SplitEvent
  sales : List UnitsConsumed

/-- What the report and its picker read, on one snapshot. -/
structure Portfolio where
  tradeDates : List NaiveDate
  records : Records
  disposals : ReportData
  /-- The parcels carrying a reduction. -/
  parcels : List WalkedParcel
  openingCapitalLoss : ℚ
  /-- A listing's ticker as at a date. -/
  ticker : ListingId → NaiveDate → String
  /-- One table of rates behind every figure. -/
  one_fx : disposals.fx = records.fx

inductive ReportError where
  | outOfRange (taxYear : ℤ)
  | fx (e : FxError)
  | realised (e : Disposals.ReportError)
  | walk (e : ShareTracker.ReportError)

namespace TaxYear

def new (taxYear : ℤ) : Except ReportError TaxYear :=
  if h : minTaxYear ≤ taxYear ∧ taxYear ≤ maxTaxYear then .ok ⟨taxYear, h.1, h.2⟩
  else .error (.outOfRange taxYear)

/-- 1 July to 30 June. -/
def period (y : TaxYear) : NaiveDate × NaiveDate := (ymd (y.year - 1) 7 1, ymd y.year 6 30)

end TaxYear

/-! ### The CGT summary -/

/-- A year's buckets with more in them. -/
def bump (taxYear : ℤ) (f : GrossBuckets → GrossBuckets) (buckets : YearBuckets) : YearBuckets :=
  buckets.insert taxYear (f (bucketAt buckets taxYear))

def bumpRealised (buckets : YearBuckets) (d : RealisedGainLoss) : YearBuckets :=
  let r := d.atTheCent
  bump (taxYearFor r.saleDate) (fun b =>
    { b with
      discountEligible := b.discountEligible + r.discountEligibleGain
      other := b.other + r.nonDiscountableGain
      losses := b.losses + r.capitalLoss }) buckets

/-- A statement's discounted gains are halved already, so they are grossed up. -/
def bumpAmma (fx : FxRates) (buckets : YearBuckets) (a : Amit.AmmaStatement) :
    Except FxError YearBuckets := do
  let discountNet ← audValue fx a.cgtDiscountGains a.currency a.taxYearEndDate
  let indexation ← audValue fx a.cgtIndexationGains a.currency a.taxYearEndDate
  let other ← audValue fx a.cgtOtherGains a.currency a.taxYearEndDate
  let grossedUp := discountNet * 2
  return bump (taxYearFor a.taxYearEndDate) (fun b =>
    { b with
      discountEligible := b.discountEligible + grossedUp
      ammaDiscountGrossedUp := b.ammaDiscountGrossedUp + grossedUp
      other := b.other + (indexation + other) }) buckets

def bumpEvent (buckets : YearBuckets) (gain : EventGain) : YearBuckets :=
  bump gain.taxYear (fun b =>
    { b with
      discountEligible := b.discountEligible + if gain.discountEligible then gain.amount else 0
      other := b.other + if gain.discountEligible then 0 else gain.amount
      e10 := b.e10 + if gain.kind = .e10 then gain.amount else 0
      g1 := b.g1 + if gain.kind = .g1 then gain.amount else 0
      c2 := b.c2 + if gain.kind = .c2 then gain.amount else 0 }) buckets

structure CgtSummaryYear where
  taxYear : ℤ
  shortTermGains : ℚ
  longTermGains : ℚ
  ammaDiscountGainsGrossedUp : ℚ
  lossesAppliedOther : ℚ
  netOtherGain : ℚ
  lossesAppliedDiscount : ℚ
  netDiscountEligibleGain : ℚ
  cgtConcessionAmount : ℚ
  netCapitalGain : ℚ
  capitalLossesThisYear : ℚ
  capitalLossBroughtForward : ℚ
  capitalLossCarriedForward : ℚ
  cgtEventE10Gain : ℚ
  cgtEventG1Gain : ℚ
  cgtEventC2Gain : ℚ
  taxpayerBasis : String
  deriving DecidableEq

/-- The worksheet of a year's row; the distribution component is taken out of
the long-term gains. -/
def cgtSummary (ammaGrossedUp : ℚ) (y : NetCapitalGainYear) : CgtSummaryYear :=
  let amma := toCents ammaGrossedUp
  { taxYear := y.taxYear
    shortTermGains := y.otherGains
    longTermGains := y.discountEligibleGains - amma
    ammaDiscountGainsGrossedUp := amma
    lossesAppliedOther := y.otherGains - y.netOtherGain
    netOtherGain := y.netOtherGain
    lossesAppliedDiscount := y.discountEligibleGains - y.netDiscountEligibleGain
    netDiscountEligibleGain := y.netDiscountEligibleGain
    cgtConcessionAmount := y.cgtDiscount
    netCapitalGain := y.netCapitalGain
    capitalLossesThisYear := y.capitalLosses
    capitalLossBroughtForward := y.capitalLossBroughtForward
    capitalLossCarriedForward := y.capitalLossCarriedForward
    cgtEventE10Gain := y.cgtEventE10Gain
    cgtEventG1Gain := y.cgtEventG1Gain
    cgtEventC2Gain := y.cgtEventC2Gain
    taxpayerBasis := y.taxpayerBasis }

namespace Portfolio
variable (p : Portfolio)

def nonDisposalGains : Except ReportError (List EventGain) := do
  let gains ← (p.parcels.mapM fun w =>
    parcelGains p.records.fx w.row w.amitEvents w.rocEvents w.splits w.sales).mapError .walk
  return gains.flatten

def grossBuckets (realised : List RealisedGainLoss) : Except ReportError YearBuckets := do
  let buckets := realised.foldl bumpRealised ∅
  let buckets ← (p.records.amma.foldlM (bumpAmma p.records.fx) buckets).mapError .fx
  return (← p.nonDisposalGains).foldl bumpEvent buckets

def dbRealisedGains : Except ReportError (List RealisedGainLoss) :=
  p.disposals.computeRealisedGains.mapError .realised

/-- The years of the CGT side: the series up to the year in progress. -/
def dbCgtYears (today : NaiveDate) : Except ReportError (List ℤ) := do
  let realised ← p.dbRealisedGains
  let buckets ← p.grossBuckets realised
  return (netYears buckets p.openingCapitalLoss (taxYearFor today)).map (·.taxYear)

def dbCgtSummaryYear (today : NaiveDate) (taxYear : ℤ) (realised : List RealisedGainLoss) :
    Except ReportError (Option CgtSummaryYear) := do
  let buckets ← p.grossBuckets realised
  let years := netYears buckets p.openingCapitalLoss (taxYearFor today)
  return (years.find? fun y => y.taxYear = taxYear).map
    (cgtSummary (bucketAt buckets taxYear).ammaDiscountGrossedUp)

end Portfolio

/-! ### The income sections -/

/-- Nothing to declare on the Australian side. -/
def isForeignOnly (i : Income) : Bool :=
  [i.frankedAmount, i.unfrankedAmount, i.frankingCredits, i.licCapitalGainAmount,
    i.conduitForeignIncome, i.tfnWithholdingTax].all fun amount => amount = 0

/-- The holding-period result of a franked row. -/
structure FrankingAlert where
  status : String
  creditsDenied : ℚ

structure TrustIncomeRow where
  incomeId : ℤ
  listing : ListingId
  ticker : String
  datePaid : NaiveDate
  entitlementDate : Option NaiveDate
  frankedAmountAud : ℚ
  unfrankedAmountAud : ℚ
  conduitForeignIncomeAud : ℚ
  foreignSourceIncomeAud : ℚ
  taxDeferredAmount : Option ℚ
  tfnWithholdingTaxAud : ℚ
  frankingCreditsAud : ℚ
  frankingStatus : String
  frankingCreditsDeniedAud : ℚ

structure AmmaStatementRow where
  ammaStatementId : ℤ
  listing : ListingId
  ticker : String
  taxYearEndDate : NaiveDate
  australianInterestAud : ℚ
  australianDividendsUnfrankedAud : ℚ
  frankedDividendsAud : ℚ
  frankingCreditsAud : ℚ
  netRentAud : ℚ
  foreignIncomeAud : ℚ
  foreignTaxCreditsAud : ℚ
  foreignTaxCreditsCapitalGainsAud : ℚ
  otherIncomeAud : ℚ
  cgtDiscountGainsAud : ℚ
  cgtIndexationGainsAud : ℚ
  cgtOtherGainsAud : ℚ
  capitalLossesAppliedAud : ℚ
  taxDeferredAmount : ℚ
  taxFreeAmount : ℚ
  tfnWithholdingTaxAud : ℚ

structure DividendIncomeRow where
  incomeId : ℤ
  listing : ListingId
  ticker : String
  datePaid : NaiveDate
  exDate : Option NaiveDate
  frankedAmountAud : ℚ
  unfrankedAmountAud : ℚ
  conduitForeignIncomeAud : ℚ
  frankingCreditsAud : ℚ
  licCapitalGainDeductionAud : ℚ
  tfnWithholdingTaxAud : ℚ
  frankingStatus : String
  frankingCreditsDeniedAud : ℚ

/-- A row that only states its cash: remuneration, or ordinary income. -/
structure CashIncomeRow where
  incomeId : ℤ
  listing : ListingId
  ticker : String
  datePaid : NaiveDate
  amountAud : ℚ

inductive ForeignIncomeKind where
  | dividendOrTrust
  | amma
  | interest
  | essMemo
  deriving DecidableEq

structure ForeignIncomeRow where
  kind : ForeignIncomeKind
  listing : Option ListingId
  ticker : Option String
  date : NaiveDate
  amountAud : ℚ
  foreignTaxPaidAud : ℚ

structure ForeignIncomeSubtotal where
  amountAud : ℚ := 0
  foreignTaxPaidAud : ℚ := 0

namespace ForeignIncomeSubtotal

def add (t : ForeignIncomeSubtotal) (r : ForeignIncomeRow) : ForeignIncomeSubtotal :=
  ⟨t.amountAud + toCents r.amountAud, t.foreignTaxPaidAud + toCents r.foreignTaxPaidAud⟩

def plus (s t : ForeignIncomeSubtotal) : ForeignIncomeSubtotal :=
  ⟨s.amountAud + t.amountAud, s.foreignTaxPaidAud + t.foreignTaxPaidAud⟩

end ForeignIncomeSubtotal

structure ForeignIncomeTotals where
  nonAmma : ForeignIncomeSubtotal := {}
  amma : ForeignIncomeSubtotal := {}
  total : ForeignIncomeSubtotal := {}

/-- The memo rows are in no total. -/
def ForeignIncomeTotals.of (rows : List ForeignIncomeRow) : ForeignIncomeTotals :=
  let nonAmma := (rows.filter fun r => r.kind = .dividendOrTrust ∨ r.kind = .interest).foldl .add {}
  let amma := (rows.filter fun r => r.kind = .amma).foldl .add {}
  ⟨nonAmma, amma, nonAmma.plus amma⟩

structure InterestIncomeRow where
  interestIncomeId : ℤ
  datePaid : NaiveDate
  source : Option String
  amountAud : ℚ
  foreignSource : Bool
  foreignTaxPaidAud : ℚ
  tfnWithholdingTaxAud : ℚ

structure EssIncomeRow where
  essStatementId : ℤ
  listing : ListingId
  ticker : String
  taxingPointDate : NaiveDate
  taxedUpfrontEligibleAud : ℚ
  taxedUpfrontNotEligibleAud : ℚ
  deferralDiscountAud : ℚ
  pre2009CessationDiscountAud : ℚ
  foreignSourceDiscountAud : ℚ
  tfnWithholdingAud : ℚ

structure DeductionRow where
  investmentExpenseId : ℤ
  dateIncurred : NaiveDate
  expenseType : ExpenseType
  amountAud : ℚ
  listing : Option ListingId
  ticker : Option String
  destination : DeductionDestination
  atoLabel : String
  description : Option String

structure IncomeSections where
  trustIncome : List TrustIncomeRow := []
  ammaStatements : List AmmaStatementRow := []
  dividends : List DividendIncomeRow := []
  employmentIncome : List CashIncomeRow := []
  otherIncome : List CashIncomeRow := []
  foreignIncome : List ForeignIncomeRow := []
  foreignIncomeTotals : ForeignIncomeTotals := {}
  interest : List InterestIncomeRow := []
  ess : List EssIncomeRow := []
  deductions : List DeductionRow := []

namespace IncomeSections

def finalise (s : IncomeSections) : IncomeSections :=
  let foreignIncome := StableSort.sortBy ForeignIncomeRow.date s.foreignIncome
  { s with
    trustIncome := StableSort.sortBy TrustIncomeRow.datePaid s.trustIncome
    dividends := StableSort.sortBy DividendIncomeRow.datePaid s.dividends
    employmentIncome := StableSort.sortBy CashIncomeRow.datePaid s.employmentIncome
    otherIncome := StableSort.sortBy CashIncomeRow.datePaid s.otherIncome
    foreignIncome
    foreignIncomeTotals := .of foreignIncome
    interest := StableSort.sortBy InterestIncomeRow.datePaid s.interest
    ess := StableSort.sortBy EssIncomeRow.taxingPointDate s.ess
    deductions := StableSort.sortBy DeductionRow.dateIncurred s.deductions }

/-- A row is printed in one of the tables. -/
def HasRows (s : IncomeSections) : Prop :=
  s.trustIncome ≠ [] ∨ s.ammaStatements ≠ [] ∨ s.dividends ≠ [] ∨ s.employmentIncome ≠ [] ∨
    s.otherIncome ≠ [] ∨ s.foreignIncome ≠ [] ∨ s.interest ≠ [] ∨ s.ess ≠ [] ∨ s.deductions ≠ []

def pushForeign (rows : List ForeignIncomeRow) (s : IncomeSections) : IncomeSections :=
  { s with foreignIncome := s.foreignIncome ++ rows }

end IncomeSections

/-- The rows of a financial year by the date they are assessed on. -/
def ofYear {α : Type} (date : α → NaiveDate) (taxYear : ℤ) (rows : List α) : List α :=
  rows.filter fun a => taxYearFor (date a) = taxYear

namespace Portfolio
variable (p : Portfolio)

/-- The table a row prints in, and its foreign part beside it. -/
def pushIncome (alerts : ℤ → Option FrankingAlert) (out : IncomeSections) (i : Income) :
    Except FxError IncomeSections := do
  let assessed := i.assessmentDate
  let ticker := p.ticker i.listing assessed
  let aud (amount : ℚ) := audValue p.records.fx amount i.currency assessed
  let franked ← aud i.frankedAmount
  let unfranked ← aud i.unfrankedAmount
  let foreign ← aud i.foreignSourceIncome
  let foreignTax ← aud i.foreignTaxPaid
  let credits ← aud i.frankingCredits
  let lic ← aud (licCapitalGainDeduction i)
  let tfn ← aud i.tfnWithholdingTax
  let conduit ← aud i.conduitForeignIncome
  let cash : CashIncomeRow := ⟨i.id, i.listing, ticker, i.datePaid, unfranked⟩
  let denied := (alerts i.id).elim 0 FrankingAlert.creditsDenied
  let status := (alerts i.id).elim "entitled" FrankingAlert.status
  let out :=
    if i.incomeType = .employmentIncome then
      { out with employmentIncome := out.employmentIncome ++ [cash] }
    else if i.incomeType = .otherIncome then { out with otherIncome := out.otherIncome ++ [cash] }
    else if i.trustIncome then
      { out with
        trustIncome := out.trustIncome ++ [
          ⟨i.id, i.listing, ticker, i.datePaid, i.entitlementDate, franked, unfranked, conduit,
            foreign, i.taxDeferredAmount, tfn, credits - denied, status, denied⟩] }
    else if isForeignOnly i then out
    else
      { out with
        dividends := out.dividends ++ [
          ⟨i.id, i.listing, ticker, i.datePaid, i.exDate, franked, unfranked, conduit,
            credits - denied, lic, tfn, status, denied⟩] }
  return out.pushForeign (if 0 < foreign ∨ 0 < foreignTax then
    [⟨.dividendOrTrust, some i.listing, some ticker, assessed, foreign, foreignTax⟩] else [])

def pushAmma (out : IncomeSections) (a : Amit.AmmaStatement) : Except FxError IncomeSections := do
  let d := a.taxYearEndDate
  let ticker := p.ticker a.listing d
  let aud (amount : ℚ) := audValue p.records.fx amount a.currency d
  let row : AmmaStatementRow := {
    ammaStatementId := a.id, listing := a.listing, ticker, taxYearEndDate := d
    australianInterestAud := ← aud a.australianInterest
    australianDividendsUnfrankedAud := ← aud a.australianDividendsUnfranked
    frankedDividendsAud := ← aud a.frankedDividends
    frankingCreditsAud := ← aud a.frankingCredits
    netRentAud := ← aud a.netRent
    foreignIncomeAud := ← aud a.foreignIncome
    foreignTaxCreditsAud := ← aud a.foreignTaxCredits
    foreignTaxCreditsCapitalGainsAud := ← aud a.foreignTaxCreditsCapitalGains
    otherIncomeAud := ← aud a.otherIncome
    cgtDiscountGainsAud := ← aud a.cgtDiscountGains
    cgtIndexationGainsAud := ← aud a.cgtIndexationGains
    cgtOtherGainsAud := ← aud a.cgtOtherGains
    capitalLossesAppliedAud := ← aud a.capitalLossesApplied
    taxDeferredAmount := a.taxDeferredAmount
    taxFreeAmount := a.taxFreeAmount
    tfnWithholdingTaxAud := ← aud a.tfnWithholdingTax }
  let claimable := (apportionCapitalGainsForeignTax row.foreignTaxCreditsCapitalGainsAud
    row.cgtDiscountGainsAud row.cgtIndexationGainsAud row.cgtOtherGainsAud).1
  let foreign := row.foreignIncomeAud
  let foreignTax := row.foreignTaxCreditsAud
  return { out with ammaStatements := out.ammaStatements ++ [row] }.pushForeign
    (if 0 < foreign ∨ 0 < foreignTax ∨ 0 < claimable then
      [⟨.amma, some a.listing, some ticker, d, foreign, foreignTax + claimable⟩] else [])

def pushInterest (out : IncomeSections) (i : InterestIncome) : Except FxError IncomeSections := do
  let amount ← audValue p.records.fx i.amount i.currency i.datePaid
  let foreignTax ← audValue p.records.fx i.foreignTaxPaid i.currency i.datePaid
  let tfn ← audValue p.records.fx i.tfnWithholdingTax i.currency i.datePaid
  let row : InterestIncomeRow :=
    ⟨i.id, i.datePaid, i.source, amount, i.foreignSource, foreignTax, tfn⟩
  return { out with interest := out.interest ++ [row] }.pushForeign
    (if i.foreignSource then [⟨.interest, none, none, i.datePaid, amount, foreignTax⟩] else [])

def pushEss (out : IncomeSections) (e : EssStatement) : Except FxError IncomeSections := do
  let fx := p.records.fx
  let d := e.taxingPointDate
  let ticker := p.ticker e.listing d
  let foreign ← audLabel fx e e.audForeignSourceDiscount e.foreignSourceDiscount
  let row : EssIncomeRow := {
    essStatementId := e.id, listing := e.listing, ticker, taxingPointDate := d
    taxedUpfrontEligibleAud := ← audLabel fx e e.audTaxedUpfrontEligible e.taxedUpfrontEligible
    taxedUpfrontNotEligibleAud :=
      ← audLabel fx e e.audTaxedUpfrontNotEligible e.taxedUpfrontNotEligible
    deferralDiscountAud := ← audLabel fx e e.audDeferralDiscount e.deferralDiscount
    pre2009CessationDiscountAud :=
      ← audLabel fx e e.audPre2009CessationDiscount e.pre2009CessationDiscount
    foreignSourceDiscountAud := foreign
    tfnWithholdingAud := ← fx.toAud e.tfnWithholding e.currency d (essFxOverride e) }
  return { out with ess := out.ess ++ [row] }.pushForeign
    (if 0 < foreign then [⟨.essMemo, some e.listing, some ticker, d, foreign, 0⟩] else [])

/-- A deduction at the cent, as the summary's own lines are. -/
def pushDeduction (out : IncomeSections) (x : InvestmentExpense) :
    Except FxError IncomeSections := do
  let destination := TaxSummary.destination p.records x.listing x.expenseType.isDebtDeduction
  let amount ← audValue p.records.fx x.amount x.currency x.dateIncurred
  return { out with
    deductions := out.deductions ++ [
      { investmentExpenseId := x.id, dateIncurred := x.dateIncurred, expenseType := x.expenseType
        amountAud := toCents amount, listing := x.listing
        ticker := x.listing.map fun id => p.ticker id x.dateIncurred
        destination, atoLabel := destination.atoLabel, description := x.description }] }

/-- The statements are read by the bounds of the period, the other rows by
their financial year. -/
def incomeSection (alerts : ℤ → Option FrankingAlert) (y : TaxYear) :
    Except FxError IncomeSections := do
  let r := p.records
  let out ← (ofYear Income.assessmentDate y.year (assessableCashIncome r)).foldlM
    (p.pushIncome alerts) {}
  let out ← (r.amma.filter fun a =>
    y.period.1 ≤ a.taxYearEndDate ∧ a.taxYearEndDate ≤ y.period.2).foldlM p.pushAmma out
  let out ← (ofYear InterestIncome.datePaid y.year r.interest).foldlM p.pushInterest out
  let out ← (ofYear EssStatement.taxingPointDate y.year r.ess).foldlM p.pushEss out
  let out ← (ofYear InvestmentExpense.dateIncurred y.year r.expenses).foldlM p.pushDeduction out
  return out.finalise

end Portfolio

/-! ### The report and its picker -/

structure TaxSummaryLine where
  field : String
  atoLabel : String
  value : Value

def summaryLines (s : TaxYearSummary) : List TaxSummaryLine :=
  columns.map fun c => ⟨c.1, c.2.1, c.2.2 s⟩

structure Report where
  taxYear : ℤ
  period : NaiveDate × NaiveDate
  disposals : DisposalsSection
  cgtSummary : Option CgtSummaryYear
  income : IncomeSections
  taxSummary : List TaxSummaryLine

/-- The report has something to show. -/
def Report.HasContent (r : Report) : Prop :=
  r.disposals.listings ≠ [] ∨ r.cgtSummary ≠ none ∨ r.income.HasRows ∨ r.taxSummary ≠ []

namespace Portfolio
variable (p : Portfolio)

def dbTaxReport (today : NaiveDate) (alerts : ℤ → Option FrankingAlert) (taxYear : ℤ) :
    Except ReportError Report := do
  let y ← TaxYear.new taxYear
  let realised ← p.dbRealisedGains
  let disposals ← (p.disposals.disposalsSection p.ticker y.year realised).mapError .realised
  let cgtSummary ← p.dbCgtSummaryYear today y.year realised
  let income ← (p.incomeSection alerts y).mapError .fx
  let summaries ← (dbTaxSummaryOn p.records).mapError .fx
  return {
    taxYear := y.year
    period := y.period
    disposals
    cgtSummary
    income
    taxSummary := ((summaries.find? fun s => s.taxYear = y.year).map summaryLines).getD [] }

/-- The distinct dates of the picker's union. -/
def recordedDates : List NaiveDate :=
  (p.tradeDates ++ p.records.interest.map InterestIncome.datePaid ++
    p.records.amma.map Amit.AmmaStatement.taxYearEndDate ++
      p.records.ess.map EssStatement.taxingPointDate ++
        p.records.expenses.map InvestmentExpense.dateIncurred).dedup

/-- The years the picker offers: every dated fact's and the CGT side's own, up
to the year in progress. -/
def dbTaxReportYears (today : NaiveDate) : Except ReportError (List ℤ) := do
  let cgtYears ← p.dbCgtYears today
  let years := ((p.recordedDates ++ p.records.income.map Income.assessmentDate).map taxYearFor ++
    cgtYears).filter fun y => (minTaxYear ≤ y ∧ y ≤ maxTaxYear) ∧ y ≤ taxYearFor today
  return (years.insertionSort (· ≤ ·)).dedup

end Portfolio

/-! ### What the picker covers -/

theorem TaxYear.mem_period (y : TaxYear) (d : NaiveDate) :
    y.period.1 ≤ d ∧ d ≤ y.period.2 ↔ taxYearFor d = y.year := by
  have hd := d.day_le.trans (daysInMonth_le d.year d.month)
  have hd₀ := d.day_pos
  have hm := d.month_le
  have hm₀ := d.month_pos
  have hjune : d.month = 6 → d.day ≤ 30 := by
    intro h
    simpa [daysInMonth, h] using d.day_le
  simp only [TaxYear.period, ymd, daysInMonth, NaiveDate.le_def, NaiveDate.key, taxYearFor]
  norm_num
  split <;> omega

theorem ofYear_nil {α : Type} {date : α → NaiveDate} {taxYear : ℤ} {rows : List α}
    (h : ∀ a ∈ rows, taxYearFor (date a) ≠ taxYear) : ofYear date taxYear rows = [] := by
  apply List.filter_eq_nil_iff.mpr
  intro a ha
  simpa using h a ha

theorem not_hasRows_finalise : ¬ (IncomeSections.finalise {}).HasRows := by
  simp [IncomeSections.HasRows, IncomeSections.finalise, StableSort.sortBy]

/-- A year with an income, statement or deduction row has a row assessed in it. -/
theorem assessed_of_hasRows {p : Portfolio} {alerts : ℤ → Option FrankingAlert} {y : TaxYear}
    {out : IncomeSections} (h : p.incomeSection alerts y = .ok out) (hrows : out.HasRows) :
    Assessed p.records y.year := by
  by_contra hnone
  have hdate : ∀ d ∈ assessedDates p.records, taxYearFor d ≠ y.year := fun d hd he =>
    hnone ⟨d, hd, he⟩
  have hincome : ofYear Income.assessmentDate y.year (assessableCashIncome p.records) = [] := ofYear_nil
    fun i hi => hdate _ (mem_assessedDates.mpr (.inl ⟨i, hi, rfl⟩))
  have hinterest : ofYear InterestIncome.datePaid y.year p.records.interest = [] := ofYear_nil
    fun i hi => hdate _ (mem_assessedDates.mpr (.inr (.inl ⟨i, hi, rfl⟩)))
  have hamma : (p.records.amma.filter fun a =>
      y.period.1 ≤ a.taxYearEndDate ∧ a.taxYearEndDate ≤ y.period.2) = [] := by
    apply List.filter_eq_nil_iff.mpr
    intro a ha
    rw [decide_eq_true_eq, y.mem_period]
    exact hdate _ (mem_assessedDates.mpr (.inr (.inr (.inl ⟨a, ha, rfl⟩))))
  have hess : ofYear EssStatement.taxingPointDate y.year p.records.ess = [] := ofYear_nil
    fun e he => hdate _ (mem_assessedDates.mpr (.inr (.inr (.inr (.inl ⟨e, he, rfl⟩)))))
  have hexpenses : ofYear InvestmentExpense.dateIncurred y.year p.records.expenses = [] := ofYear_nil
    fun x hx => hdate _ (mem_assessedDates.mpr (.inr (.inr (.inr (.inr ⟨x, hx, rfl⟩)))))
  unfold Portfolio.incomeSection at h
  dsimp only at h
  rw [hincome, hinterest, hamma, hess, hexpenses] at h
  cases h
  exact not_hasRows_finalise hrows

/-- A year with a printed disposal has a realised one. -/
theorem realised_of_disposals {data : ReportData} {ticker : ListingId → NaiveDate → String}
    {taxYear : ℤ} {all : List RealisedGainLoss} {out : DisposalsSection}
    (h : data.disposalsSection ticker taxYear all = .ok out) (hrows : out.listings ≠ []) :
    ∃ d ∈ all, taxYearFor d.saleDate = taxYear := by
  by_contra hnone
  have hnil : (all.filter fun d => taxYearFor d.saleDate = taxYear) = [] := by
    apply List.filter_eq_nil_iff.mpr
    intro d hd
    rw [decide_eq_true_eq]
    exact fun he => hnone ⟨d, hd, he⟩
  unfold ReportData.disposalsSection at h
  rw [hnil] at h
  cases h
  exact hrows rfl

section Buckets
variable {buckets : YearBuckets} {y : ℤ}

theorem mem_bump {taxYear : ℤ} {f : GrossBuckets → GrossBuckets} :
    y ∈ bump taxYear f buckets ↔ y = taxYear ∨ y ∈ buckets := AList.mem_insert buckets

theorem saleDate_atTheCent (d : RealisedGainLoss) : d.atTheCent.saleDate = d.saleDate := by
  unfold RealisedGainLoss.atTheCent
  split <;> rfl

theorem mem_foldl_bumpRealised {l : List RealisedGainLoss} :
    y ∈ l.foldl bumpRealised buckets ↔ y ∈ buckets ∨ ∃ d ∈ l, taxYearFor d.saleDate = y := by
  induction l generalizing buckets with
  | nil => simp
  | cons d l ih =>
    rw [List.foldl_cons, ih, bumpRealised, mem_bump, saleDate_atTheCent]
    constructor
    · rintro ((rfl | hy) | ⟨e, he, hey⟩)
      · exact .inr ⟨d, List.mem_cons_self, rfl⟩
      · exact .inl hy
      · exact .inr ⟨e, List.mem_cons_of_mem _ he, hey⟩
    · rintro (hy | ⟨e, he, hey⟩)
      · exact .inl (.inr hy)
      · rcases List.mem_cons.mp he with rfl | he
        · exact .inl (.inl hey.symm)
        · exact .inr ⟨e, he, hey⟩

theorem mem_foldlM_bumpAmma {fx : FxRates} {l : List Amit.AmmaStatement} {out : YearBuckets}
    (h : l.foldlM (bumpAmma fx) buckets = .ok out) (hy : y ∈ buckets) : y ∈ out := by
  induction l generalizing buckets with
  | nil =>
    cases h
    exact hy
  | cons a l ih =>
    rw [List.foldlM_cons] at h
    obtain ⟨mid, hstep, hrest⟩ := bind_ok h
    obtain ⟨discountNet, -, hstep⟩ := bind_ok hstep
    obtain ⟨indexation, -, hstep⟩ := bind_ok hstep
    obtain ⟨other, -, hstep⟩ := bind_ok hstep
    cases hstep
    exact ih hrest (mem_bump.mpr (.inr hy))

theorem mem_foldl_bumpEvent {l : List EventGain} (hy : y ∈ buckets) :
    y ∈ l.foldl bumpEvent buckets := by
  induction l generalizing buckets with
  | nil => exact hy
  | cons gain l ih => exact ih (mem_bump.mpr (.inr hy))

/-- Every realised disposal has its year in the buckets. -/
theorem mem_grossBuckets {p : Portfolio} {realised : List RealisedGainLoss}
    (h : p.grossBuckets realised = .ok buckets) {d : RealisedGainLoss} (hd : d ∈ realised) :
    taxYearFor d.saleDate ∈ buckets := by
  obtain ⟨withAmma, hamma, h⟩ := bind_ok h
  obtain ⟨gains, -, h⟩ := bind_ok h
  cases h
  apply mem_foldl_bumpEvent
  refine mem_foldlM_bumpAmma (mapError_ok.mp hamma) ?_
  exact mem_foldl_bumpRealised.mpr (.inr ⟨d, hd, rfl⟩)

/-- A year with a bucket has a row of the series. -/
theorem netYears_of_bucket {opening : ℚ} {through : ℤ} (hy : y ∈ buckets) :
    ∃ r ∈ netYears buckets opening through, r.taxYear = y :=
  netYearsFrom_covers (seriesYears_ascending buckets through)
    (mem_seriesYears.mpr ⟨firstYear_le hy, le_lastYear hy⟩) (.inl hy)

end Buckets

section Years
variable {p : Portfolio} {today : NaiveDate}

theorem mem_years_of_sort {l : List ℤ} {y : ℤ} : y ∈ (l.insertionSort (· ≤ ·)).dedup ↔ y ∈ l := by
  rw [List.mem_dedup, List.mem_insertionSort]

/-- The picker answers wherever the CGT side does. -/
theorem exists_years {cgtYears : List ℤ} (h : p.dbCgtYears today = .ok cgtYears) :
    ∃ years, p.dbTaxReportYears today = .ok years := by
  unfold Portfolio.dbTaxReportYears
  rw [h]
  exact ⟨_, rfl⟩

theorem mem_years {cgtYears years : List ℤ} (hcgt : p.dbCgtYears today = .ok cgtYears)
    (h : p.dbTaxReportYears today = .ok years) {y : ℤ} :
    y ∈ years ↔
      (y ∈ cgtYears ∨ ∃ d, (d ∈ p.recordedDates ∨ ∃ i ∈ p.records.income, i.assessmentDate = d) ∧
        taxYearFor d = y) ∧ (minTaxYear ≤ y ∧ y ≤ maxTaxYear) ∧ y ≤ taxYearFor today := by
  unfold Portfolio.dbTaxReportYears at h
  rw [hcgt] at h
  cases h
  rw [mem_years_of_sort, List.mem_filter, decide_eq_true_eq]
  simp only [List.mem_append, List.mem_map, or_comm]

/-- Every assessed row's date is in the union. -/
theorem recorded_of_assessed {d : NaiveDate} (h : d ∈ assessedDates p.records) :
    d ∈ p.recordedDates ∨ ∃ i ∈ p.records.income, i.assessmentDate = d := by
  simp only [Portfolio.recordedDates, List.mem_dedup, List.mem_append, List.mem_map]
  rcases mem_assessedDates.mp h with ⟨i, hi, rfl⟩ | h | h | h | h
  · exact .inr ⟨i, (List.mem_filter.mp hi).1, rfl⟩
  · exact .inl (.inl (.inl (.inl (.inr h))))
  · exact .inl (.inl (.inl (.inr h)))
  · exact .inl (.inl (.inr h))
  · exact .inl (.inr h)

/-- The CGT side's years are those of the series the summary is picked from. -/
theorem dbCgtYears_ok {realised : List RealisedGainLoss} (hr : p.dbRealisedGains = .ok realised)
    {buckets : YearBuckets} (hb : p.grossBuckets realised = .ok buckets) :
    p.dbCgtYears today =
      .ok ((netYears buckets p.openingCapitalLoss (taxYearFor today)).map (·.taxYear)) := by
  unfold Portfolio.dbCgtYears
  rw [hr]
  change (p.grossBuckets realised >>= fun buckets => Except.ok
    ((netYears buckets p.openingCapitalLoss (taxYearFor today)).map NetCapitalGainYear.taxYear)) = _
  rw [hb]
  rfl

theorem year_of_summary {realised : List RealisedGainLoss} {taxYear : ℤ} {row : CgtSummaryYear}
    (h : p.dbCgtSummaryYear today taxYear realised = .ok (some row)) :
    ∃ buckets, p.grossBuckets realised = .ok buckets ∧
      taxYear ∈ (netYears buckets p.openingCapitalLoss (taxYearFor today)).map
        NetCapitalGainYear.taxYear := by
  obtain ⟨buckets, hb, h⟩ := bind_ok h
  refine ⟨buckets, hb, ?_⟩
  obtain ⟨y, hfind, -⟩ := Option.map_eq_some_iff.mp (Except.ok.inj h)
  have hy : y.taxYear = taxYear := by simpa using List.find?_some hfind
  exact List.mem_map.mpr ⟨y, List.mem_of_find?_eq_some hfind, hy⟩

theorem summary_of_year {realised : List RealisedGainLoss} (hr : p.dbRealisedGains = .ok realised)
    {cgtYears : List ℤ} (h : p.dbCgtYears today = .ok cgtYears) {y : ℤ} (hy : y ∈ cgtYears) :
    ∃ row, p.dbCgtSummaryYear today y realised = .ok (some row) ∧ row.taxYear = y := by
  obtain ⟨realised', hr', h⟩ := bind_ok h
  rw [hr] at hr'
  cases hr'
  obtain ⟨buckets, hb, h⟩ := bind_ok h
  cases h
  obtain ⟨r, hmem, rfl⟩ := List.mem_map.mp hy
  have hsome : ((netYears buckets p.openingCapitalLoss (taxYearFor today)).find?
      fun y => y.taxYear = r.taxYear).isSome = true :=
    List.find?_isSome.mpr ⟨r, hmem, by simp⟩
  obtain ⟨found, hfound⟩ := Option.isSome_iff_exists.mp hsome
  refine ⟨cgtSummary (bucketAt buckets r.taxYear).ammaDiscountGrossedUp found, ?_,
    by simpa [cgtSummary] using List.find?_some hfound⟩
  unfold Portfolio.dbCgtSummaryYear
  rw [hb]
  change Except.ok (((netYears buckets p.openingCapitalLoss (taxYearFor today)).find?
    fun y => y.taxYear = r.taxYear).map _) = _
  rw [hfound]
  rfl

/-- A report with content has its year among the CGT side's or among the dated rows'. -/
theorem year_of_content {alerts : ℤ → Option FrankingAlert} {taxYear : ℤ} {report : Report}
    (h : p.dbTaxReport today alerts taxYear = .ok report) (hcontent : report.HasContent) :
    (minTaxYear ≤ taxYear ∧ taxYear ≤ maxTaxYear) ∧ ∃ cgtYears,
      p.dbCgtYears today = .ok cgtYears ∧ (taxYear ∈ cgtYears ∨ Assessed p.records taxYear) := by
  obtain ⟨y, hnew, h⟩ := bind_ok h
  obtain ⟨realised, hrealised, h⟩ := bind_ok h
  obtain ⟨disposals, hdisposals, h⟩ := bind_ok h
  obtain ⟨cgtRow, hcgt, h⟩ := bind_ok h
  obtain ⟨income, hincome, h⟩ := bind_ok h
  obtain ⟨summaries, hsummaries, h⟩ := bind_ok h
  cases h
  have hyear : y.year = taxYear := by
    unfold TaxYear.new at hnew
    split at hnew
    · cases hnew
      rfl
    · cases hnew
  subst hyear
  obtain ⟨buckets, hbuckets, hpick⟩ := bind_ok hcgt
  refine ⟨⟨y.min_le, y.le_max⟩, _, dbCgtYears_ok hrealised hbuckets, ?_⟩
  rcases hcontent with hrows | hrow | hrows | hlines
  · left
    obtain ⟨d, hd, hyear⟩ := realised_of_disposals (mapError_ok.mp hdisposals) hrows
    have hmem := mem_grossBuckets hbuckets hd
    rw [hyear] at hmem
    obtain ⟨r, hr, hry⟩ := netYears_of_bucket hmem
    exact List.mem_map.mpr ⟨r, hr, hry⟩
  · left
    obtain ⟨row, rfl⟩ := Option.ne_none_iff_exists'.mp hrow
    obtain ⟨buckets', hbuckets', hmem⟩ := year_of_summary hcgt
    rw [hbuckets] at hbuckets'
    cases hbuckets'
    exact hmem
  · right
    exact assessed_of_hasRows (mapError_ok.mp hincome) hrows
  · right
    cases hfind : summaries.find? fun s => s.taxYear = y.year with
    | none =>
      simp only [hfind] at hlines
      exact absurd rfl hlines
    | some s =>
      have hs : s.taxYear = y.year := by simpa using List.find?_some hfind
      rw [← hs]
      exact assessed_of_summary (mapError_ok.mp hsummaries) (List.mem_of_find?_eq_some hfind)

end Years

/-- The picker offers every year the report has content for, in order, and
every year of the CGT side has its summary. -/
theorem year_picker_complete (p : Portfolio) (today : NaiveDate) :
    (∀ alerts taxYear report, p.dbTaxReport today alerts taxYear = .ok report →
      report.HasContent → taxYear ≤ taxYearFor today →
        ∃ years, p.dbTaxReportYears today = .ok years ∧ taxYear ∈ years) ∧
    (∀ years, p.dbTaxReportYears today = .ok years → years.Pairwise (· < ·)) ∧
    ∀ realised cgtYears, p.dbRealisedGains = .ok realised → p.dbCgtYears today = .ok cgtYears →
      ∀ y ∈ cgtYears, ∃ row, p.dbCgtSummaryYear today y realised = .ok (some row) ∧
        row.taxYear = y := by
  refine ⟨?_, ?_, ?_⟩
  · intro alerts taxYear report hreport hcontent hcurrent
    obtain ⟨hrange, cgtYears, hcgt, hyear⟩ := year_of_content hreport hcontent
    obtain ⟨years, hyears⟩ := exists_years hcgt
    refine ⟨years, hyears, (mem_years hcgt hyears).mpr ⟨?_, hrange, hcurrent⟩⟩
    refine hyear.imp_right ?_
    rintro ⟨d, hd, rfl⟩
    exact ⟨d, recorded_of_assessed hd, rfl⟩
  · intro years hyears
    obtain ⟨cgtYears, -, h⟩ := bind_ok hyears
    cases h
    exact ascending_of_sort _
  · intro realised cgtYears hrealised hcgt y hy
    exact summary_of_year hrealised hcgt hy

def noRates : FxRates := ⟨fun _ => none⟩

theorem no_trades_unique : (([] : List SellInfo).map SellInfo.id).Nodup := List.nodup_nil

theorem no_buys_unique : (([] : List Buy).map Buy.id).Nodup := List.nodup_nil

theorem no_allocations_unique : (([] : List Allocation).map Allocation.id).Nodup := List.nodup_nil

/-- Interest of 12 dollars paid on 15 August 2023, and nothing else on record. -/
def interestOnly : Portfolio where
  tradeDates := []
  records := {
    income := []
    interest := [⟨1, ymd 2023 8 15, none, 12, 0, false, 0, ⟨"AUD"⟩⟩]
    amma := [], ess := [], essIneligibleYears := [], expenses := []
    listings := fun _ => none
    fx := noRates
    walks := fun _ _ => ⟨0, 0⟩ }
  disposals := {
    sells := [], scripActions := [], buys := [], allocations := [], rightsSales := []
    rightsAllocations := []
    cbaReduction := fun _ => []
    rocEvents := fun _ => []
    splits := fun _ _ => []
    fx := noRates
    sells_unique := no_trades_unique
    buys_unique := no_buys_unique
    allocations_unique := no_allocations_unique }
  parcels := []
  openingCapitalLoss := 0
  ticker := fun _ _ => ""
  one_fx := rfl

theorem year_picker_complete_interest : ∃ report years,
    interestOnly.dbTaxReport (ymd 2025 3 1) (fun _ => none) 2024 = .ok report ∧
      report.income.interest.length = 1 ∧
      interestOnly.dbTaxReportYears (ymd 2025 3 1) = .ok years ∧ 2024 ∈ years := by
  have hok : accepts (interestOnly.dbTaxReport (ymd 2025 3 1) (fun _ => none) 2024)
      (fun r => r.income.interest.length = 1) = true := by decide
  obtain ⟨report, hreport, hrow⟩ := accepts_iff.mp hok
  have hrow := of_decide_eq_true hrow
  have hcontent : report.HasContent := by
    refine .inr (.inr (.inl (.inr (.inr (.inr (.inr (.inr (.inr (.inl ?_)))))))))
    rintro h
    rw [h] at hrow
    cases hrow
  obtain ⟨years, hyears, hmem⟩ := (year_picker_complete interestOnly (ymd 2025 3 1)).1 _ _ _
    hreport hcontent (by decide)
  exact ⟨report, years, hreport, hrow, hyears, hmem⟩

end ShareTracker.TaxReport
