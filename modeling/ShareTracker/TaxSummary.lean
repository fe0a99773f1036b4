import ShareTracker.AmitAdjustments
import ShareTracker.Franking
import ShareTracker.IncomeRows
import ShareTracker.ParcelSources
import ShareTracker.NetYears
import ShareTracker.Lib.Tally

/-!
The tax summary: every assessable-income, deduction and offset line of a
financial year, folded from the rows assessed in it.
-/
namespace ShareTracker.TaxSummary
open Checked IncomeRows ParcelSources

/-! ### Rows -/

structure InterestIncome where
  id : ℤ
  datePaid : NaiveDate
  source : Option String
  amount : ℚ
  tfnWithholdingTax : ℚ
  foreignSource : Bool
  foreignTaxPaid : ℚ
  currency : CurrencyCode
  deriving DecidableEq

inductive ExpenseType where
  | loanInterest
  | managementFee
  | adviceFee
  | accountKeepingFee
  | subscription
  | other
  deriving DecidableEq

/-- Interest on borrowed money. -/
def ExpenseType.isDebtDeduction (t : ExpenseType) : Bool := t = .loanInterest

structure InvestmentExpense where
  id : ℤ
  dateIncurred : NaiveDate
  expenseType : ExpenseType
  amount : ℚ
  currency : CurrencyCode
  listing : Option ListingId
  description : Option String
  deriving DecidableEq

structure ListingFacts where
  election : CorporateActions.Amit
  currency : CurrencyCode

/-- The tax-return question a deduction is claimed at. -/
inductive DeductionDestination where
  | trustDistributions
  | foreignIncome
  | foreignDebt
  | dividendAndInterest
  deriving DecidableEq

def DeductionDestination.atoLabel : DeductionDestination → String
  | .trustDistributions => "13Y"
  | .foreignIncome => "20M"
  | .foreignDebt => "D15"
  | .dividendAndInterest => "D7 / D8"

/-- The tables the summary reads. -/
structure Records where
  income : List Income
  interest : List InterestIncome
  amma : List Amit.AmmaStatement
  ess : List EssStatement
  /-- The years recorded as failing the income test of the scheme's reduction. -/
  essIneligibleYears : List ℤ
  expenses : List InvestmentExpense
  listings : ListingId → Option ListingFacts
  fx : FxRates
  /-- The holding-period walk of a listing for an ex-date. -/
  walks : ListingId → NaiveDate → Franking.HoldingPeriodTest

section Read
variable (r : Records)

/-- An AMIT's year has its statement, its cash rows are not assessed. -/
def amitYear (listing : ListingId) (taxYear : ℤ) : Bool :=
  (r.listings listing).any fun l => CorporateActions.amitInTaxYear l.election taxYear

def assessableCashIncome : List Income :=
  r.income.filter fun i => !amitYear r i.listing (taxYearFor i.assessmentDate)

/-- The question an expense is claimed at, by what the listing's rows say of
its income. -/
def destination (listing : Option ListingId) (debtDeduction : Bool) : DeductionDestination :=
  match listing.bind fun id => (r.listings id).map fun facts => (id, facts) with
  | none => .dividendAndInterest
  | some (id, facts) =>
    let rows := r.income.filter fun i => i.listing = id
    if facts.election ≠ .no ∨ rows.any (·.trustIncome) = true then .trustDistributions
    else if rows.any (fun i => decide (0 < i.foreignSourceIncome)) = true ∨
        rows = [] ∧ facts.currency.isAud = false then
      if debtDeduction then .foreignDebt else .foreignIncome
    else .dividendAndInterest

end Read

/-! ### Lines -/

structure TaxYearSummary where
  taxYear : ℤ
  dividendsAssessable : ℚ := 0
  interestIncome : ℚ := 0
  foreignInterestIncome : ℚ := 0
  foreignSourceIncome : ℚ := 0
  licCapitalGainDeduction : ℚ := 0
  trustIncomeUnfranked : ℚ := 0
  trustFrankedDistributions : ℚ := 0
  ammaAustralianInterest : ℚ := 0
  ammaDividendsUnfranked : ℚ := 0
  ammaFrankedDividends : ℚ := 0
  ammaNetRent : ℚ := 0
  ammaForeignIncome : ℚ := 0
  ammaOtherIncome : ℚ := 0
  ammaCgtDiscountGains : ℚ := 0
  ammaCgtIndexationGains : ℚ := 0
  ammaCgtOtherGains : ℚ := 0
  ammaCapitalLossesApplied : ℚ := 0
  frankingCredits : ℚ := 0
  dividendFrankingCredits : ℚ := 0
  frankingCreditsDenied : ℚ := 0
  foreignTaxOffsets : ℚ := 0
  foreignTaxOffsetExcess : ℚ := 0
  foreignTaxOffsetsCgtDiscountReduction : ℚ := 0
  tfnWithholdingTax : ℚ := 0
  essDiscountAssessable : ℚ := 0
  essTaxedUpfrontReduction : ℚ := 0
  essForeignSourceDiscount : ℚ := 0
  employmentIncome : ℚ := 0
  otherIncome : ℚ := 0
  grossAssessableInvestmentIncome : ℚ := 0
  deductionsLoanInterest : ℚ := 0
  deductionsManagementFee : ℚ := 0
  deductionsAdviceFee : ℚ := 0
  deductionsAccountKeepingFee : ℚ := 0
  deductionsSubscription : ℚ := 0
  deductionsOther : ℚ := 0
  deductionsTrustDistributions : ℚ := 0
  deductionsForeignIncome : ℚ := 0
  deductionsForeignDebt : ℚ := 0
  deductionsDividendAndInterest : ℚ := 0
  deductionsTotal : ℚ := 0
  netAssessableInvestmentIncome : ℚ := 0
  taxpayerBasis : String := ShareTracker.taxpayerBasis
  deriving DecidableEq, Repr

/-- A printed value. -/
inductive Value where
  | year (taxYear : ℤ)
  | money (amount : ℚ)
  | text (content : String)
  deriving DecidableEq

/-- The printed columns: the field, its label of the return, and the value. -/
def columns : List (String × String × (TaxYearSummary → Value)) := [
  ("tax_year", "ato_labels_2026", fun s => .year s.taxYear),
  ("dividends_assessable", "11S + 11T", fun s => .money s.dividendsAssessable),
  ("interest_income", "10L", fun s => .money s.interestIncome),
  ("foreign_interest_income", "20E + 20M", fun s => .money s.foreignInterestIncome),
  ("foreign_source_income", "20E + 20M", fun s => .money s.foreignSourceIncome),
  ("lic_capital_gain_deduction", "D8", fun s => .money s.licCapitalGainDeduction),
  ("trust_income_unfranked", "13U", fun s => .money s.trustIncomeUnfranked),
  ("trust_franked_distributions", "13C", fun s => .money s.trustFrankedDistributions),
  ("amma_australian_interest", "13U", fun s => .money s.ammaAustralianInterest),
  ("amma_dividends_unfranked", "13U", fun s => .money s.ammaDividendsUnfranked),
  ("amma_franked_dividends", "13C", fun s => .money s.ammaFrankedDividends),
  ("amma_net_rent", "13U", fun s => .money s.ammaNetRent),
  ("amma_foreign_income", "20E + 20M", fun s => .money s.ammaForeignIncome),
  ("amma_other_income", "13U", fun s => .money s.ammaOtherIncome),
  ("amma_cgt_discount_gains", "18 (working)", fun s => .money s.ammaCgtDiscountGains),
  ("amma_cgt_indexation_gains", "18 (working)", fun s => .money s.ammaCgtIndexationGains),
  ("amma_cgt_other_gains", "18 (working)", fun s => .money s.ammaCgtOtherGains),
  ("amma_capital_losses_applied", "", fun s => .money s.ammaCapitalLossesApplied),
  ("franking_credits", "11U / 13Q", fun s => .money s.frankingCredits),
  ("dividend_franking_credits", "11U", fun s => .money s.dividendFrankingCredits),
  ("franking_credits_denied", "", fun s => .money s.frankingCreditsDenied),
  ("foreign_tax_offsets", "20O", fun s => .money s.foreignTaxOffsets),
  ("foreign_tax_offset_excess", "", fun s => .money s.foreignTaxOffsetExcess),
  ("foreign_tax_offsets_cgt_discount_reduction", "", fun s => .money s.foreignTaxOffsetsCgtDiscountReduction),
  ("tfn_withholding_tax", "10M / 11V / 13R / 12C", fun s => .money s.tfnWithholdingTax),
  ("ess_discount_assessable", "12B", fun s => .money s.essDiscountAssessable),
  ("ess_taxed_upfront_reduction", "", fun s => .money s.essTaxedUpfrontReduction),
  ("ess_foreign_source_discount", "12A", fun s => .money s.essForeignSourceDiscount),
  ("employment_income", "", fun s => .money s.employmentIncome),
  ("other_income", "24", fun s => .money s.otherIncome),
  ("gross_assessable_investment_income", "", fun s => .money s.grossAssessableInvestmentIncome),
  ("deductions_loan_interest", "", fun s => .money s.deductionsLoanInterest),
  ("deductions_management_fee", "", fun s => .money s.deductionsManagementFee),
  ("deductions_advice_fee", "", fun s => .money s.deductionsAdviceFee),
  ("deductions_account_keeping_fee", "", fun s => .money s.deductionsAccountKeepingFee),
  ("deductions_subscription", "", fun s => .money s.deductionsSubscription),
  ("deductions_other", "", fun s => .money s.deductionsOther),
  ("deductions_trust_distributions", "13Y", fun s => .money s.deductionsTrustDistributions),
  ("deductions_foreign_income", "20M", fun s => .money s.deductionsForeignIncome),
  ("deductions_foreign_debt", "D15", fun s => .money s.deductionsForeignDebt),
  ("deductions_dividend_and_interest", "D7 / D8", fun s => .money s.deductionsDividendAndInterest),
  ("deductions_total", "", fun s => .money s.deductionsTotal),
  ("net_assessable_investment_income", "", fun s => .money s.netAssessableInvestmentIncome),
  ("taxpayer_basis", "", fun s => .text s.taxpayerBasis)]

/-- The rows so far, one a year. -/
abbrev Summaries := List (ℤ × TaxYearSummary)

/-- What a row adds to the lines of its year. -/
structure Line where
  add : TaxYearSummary → TaxYearSummary
  taxYear_add : ∀ s, (add s).taxYear = s.taxYear

def zeroSummary (taxYear : ℤ) : TaxYearSummary := { taxYear }

/-- A year's row, made on its first use. -/
def yearEntry (taxYear : ℤ) (line : Line) (map : Summaries) : Summaries :=
  Tally.adjust (zeroSummary taxYear) taxYear line.add map

/-- A year's row that an earlier pass made; the source has no case without one. -/
def amendYear (taxYear : ℤ) (line : Line) (map : Summaries) : Summaries :=
  map.map fun e => if e.1 = taxYear then (e.1, line.add e.2) else e

/-- One pass: every row adds its line to the year it is dated in. -/
def accumulate {α : Type} (date : α → NaiveDate) (line : α → Except FxError Line) (rows : List α)
    (map : Summaries) : Except FxError Summaries :=
  rows.foldlM (fun map a => do return yearEntry (taxYearFor (date a)) (← line a) map) map

section Passes
variable (fx : FxRates)

def audValue (amount : ℚ) (currency : CurrencyCode) (date : NaiveDate) : Except FxError ℚ :=
  fx.toAud amount currency date .none

/-- Half the statement's capital gain amount is deductible. -/
def licCapitalGainDeduction (i : Income) : ℚ := i.licCapitalGainAmount / 2

/-- Distributions and dividends; remuneration and ordinary income each have a
line of their own. -/
def incomeLine (i : Income) : Except FxError Line := do
  let aud (amount : ℚ) := audValue fx amount i.currency i.assessmentDate
  let franked ← aud i.frankedAmount
  let unfranked ← aud i.unfrankedAmount
  let foreignIncome ← aud i.foreignSourceIncome
  let foreignTax ← aud i.foreignTaxPaid
  let tfn ← aud i.tfnWithholdingTax
  let credits ← aud i.frankingCredits
  let lic ← aud (licCapitalGainDeduction i)
  return {
    add := fun s =>
      if i.incomeType = .employmentIncome then
        { s with employmentIncome := s.employmentIncome + unfranked }
      else if i.incomeType = .otherIncome then
        { s with otherIncome := s.otherIncome + unfranked }
      else
        { s with
          trustIncomeUnfranked := s.trustIncomeUnfranked + if i.trustIncome then unfranked else 0
          trustFrankedDistributions :=
            s.trustFrankedDistributions + if i.trustIncome then franked else 0
          dividendsAssessable :=
            s.dividendsAssessable + if i.trustIncome then 0 else franked + unfranked
          dividendFrankingCredits :=
            s.dividendFrankingCredits + if i.trustIncome then 0 else credits
          foreignSourceIncome := s.foreignSourceIncome + foreignIncome
          licCapitalGainDeduction := s.licCapitalGainDeduction + lic
          frankingCredits := s.frankingCredits + credits
          foreignTaxOffsets := s.foreignTaxOffsets + foreignTax
          tfnWithholdingTax := s.tfnWithholdingTax + tfn }
    taxYear_add := fun _ => by split_ifs <;> rfl }

/-- A foreign source moves the interest and its tax to the foreign lines. -/
def interestLine (i : InterestIncome) : Except FxError Line := do
  let amount ← audValue fx i.amount i.currency i.datePaid
  let tfn ← audValue fx i.tfnWithholdingTax i.currency i.datePaid
  let foreignTax ← audValue fx i.foreignTaxPaid i.currency i.datePaid
  return {
    add := fun s =>
      { s with
        foreignInterestIncome := s.foreignInterestIncome + if i.foreignSource then amount else 0
        foreignTaxOffsets := s.foreignTaxOffsets + if i.foreignSource then foreignTax else 0
        interestIncome := s.interestIncome + if i.foreignSource then 0 else amount
        tfnWithholdingTax := s.tfnWithholdingTax + tfn }
    taxYear_add := fun _ => rfl }

/-- The foreign tax on a statement's gains that the discount leaves claimable,
and what it takes off. -/
def apportionCapitalGainsForeignTax (foreignTax discountGains indexationGains otherGains : ℚ) :
    ℚ × ℚ :=
  let assessable := discountGains + indexationGains + otherGains
  let grossedUp := discountGains * 2 + indexationGains + otherGains
  if foreignTax = 0 ∨ grossedUp = 0 then (foreignTax, 0)
  else
    let claimable := foreignTax * assessable / grossedUp
    (claimable, foreignTax - claimable)

def ammaLine (a : Amit.AmmaStatement) : Except FxError Line := do
  let aud (amount : ℚ) := audValue fx amount a.currency a.taxYearEndDate
  let interest ← aud a.australianInterest
  let unfranked ← aud a.australianDividendsUnfranked
  let franked ← aud a.frankedDividends
  let credits ← aud a.frankingCredits
  let rent ← aud a.netRent
  let foreignIncome ← aud a.foreignIncome
  let foreignTax ← aud a.foreignTaxCredits
  let foreignTaxGains ← aud a.foreignTaxCreditsCapitalGains
  let other ← aud a.otherIncome
  let discount ← aud a.cgtDiscountGains
  let indexation ← aud a.cgtIndexationGains
  let otherGains ← aud a.cgtOtherGains
  let losses ← aud a.capitalLossesApplied
  let tfn ← aud a.tfnWithholdingTax
  let (claimable, reduced) :=
    apportionCapitalGainsForeignTax foreignTaxGains discount indexation otherGains
  return {
    add := fun s =>
      { s with
        ammaAustralianInterest := s.ammaAustralianInterest + interest
        ammaDividendsUnfranked := s.ammaDividendsUnfranked + unfranked
        ammaFrankedDividends := s.ammaFrankedDividends + franked
        ammaNetRent := s.ammaNetRent + rent
        ammaForeignIncome := s.ammaForeignIncome + foreignIncome
        ammaOtherIncome := s.ammaOtherIncome + other
        ammaCgtDiscountGains := s.ammaCgtDiscountGains + discount
        ammaCgtIndexationGains := s.ammaCgtIndexationGains + indexation
        ammaCgtOtherGains := s.ammaCgtOtherGains + otherGains
        ammaCapitalLossesApplied := s.ammaCapitalLossesApplied + losses
        frankingCredits := s.frankingCredits + credits
        foreignTaxOffsets := s.foreignTaxOffsets + foreignTax + claimable
        foreignTaxOffsetsCgtDiscountReduction :=
          s.foreignTaxOffsetsCgtDiscountReduction + reduced
        tfnWithholdingTax := s.tfnWithholdingTax + tfn }
    taxYear_add := fun _ => rfl }

def essFxOverride (e : EssStatement) : FxOverride := e.fxRate.elim .none .fallback

/-- A discount label: the employer's own AUD figure where one is stated. -/
def audLabel (e : EssStatement) (stated : Option ℚ) (label : ℚ) : Except FxError ℚ :=
  stated.elim (fx.toAud label e.currency e.taxingPointDate (essFxOverride e)) .ok

def essEligible (e : EssStatement) : Except FxError ℚ :=
  audLabel fx e e.audTaxedUpfrontEligible e.taxedUpfrontEligible

def essLine (e : EssStatement) : Except FxError Line := do
  let eligible ← essEligible fx e
  let notEligible ← audLabel fx e e.audTaxedUpfrontNotEligible e.taxedUpfrontNotEligible
  let deferral ← audLabel fx e e.audDeferralDiscount e.deferralDiscount
  let pre2009 ← audLabel fx e e.audPre2009CessationDiscount e.pre2009CessationDiscount
  let foreignSource ← audLabel fx e e.audForeignSourceDiscount e.foreignSourceDiscount
  let tfn ← fx.toAud e.tfnWithholding e.currency e.taxingPointDate (essFxOverride e)
  return {
    add := fun s =>
      { s with
        essDiscountAssessable :=
          s.essDiscountAssessable + (eligible + notEligible + deferral + pre2009)
        essForeignSourceDiscount := s.essForeignSourceDiscount + foreignSource
        tfnWithholdingTax := s.tfnWithholdingTax + tfn }
    taxYear_add := fun _ => rfl }

def essReductionCapAud : ℚ := 1000

/-- What the yearly reduction takes off the assessable discount. -/
def reductionLine (eligibleTotal : ℚ) : Line :=
  let reduction := min eligibleTotal essReductionCapAud
  { add := fun s =>
      if 0 < reduction then
        { s with
          essTaxedUpfrontReduction := reduction
          essDiscountAssessable := s.essDiscountAssessable - reduction }
      else s
    taxYear_add := fun _ => by split_ifs <;> rfl }

/-- The discounts first, then each year's reduction of its eligible total. -/
def accumulateEss (rows : List EssStatement) (ineligible : List ℤ) (map : Summaries) :
    Except FxError Summaries := do
  let map ← accumulate EssStatement.taxingPointDate (essLine fx) rows map
  let eligible ← rows.foldlM (fun totals e => do
    let x ← essEligible fx e
    return Tally.adjust 0 (taxYearFor e.taxingPointDate) (· + x) totals) ([] : List (ℤ × ℚ))
  return eligible.foldl (fun map e =>
    if e.1 ∈ ineligible then map else amendYear e.1 (reductionLine e.2) map) map

/-- An expense, rounded before the two cuts it lands on. -/
def expenseLine (r : Records) (x : InvestmentExpense) : Except FxError Line := do
  let amount := toCents (← audValue fx x.amount x.currency x.dateIncurred)
  let kind (k : ExpenseType) : ℚ := if x.expenseType = k then amount else 0
  let question (d : DeductionDestination) : ℚ :=
    if destination r x.listing x.expenseType.isDebtDeduction = d then amount else 0
  return {
    add := fun s =>
      { s with
        deductionsLoanInterest := s.deductionsLoanInterest + kind .loanInterest
        deductionsManagementFee := s.deductionsManagementFee + kind .managementFee
        deductionsAdviceFee := s.deductionsAdviceFee + kind .adviceFee
        deductionsAccountKeepingFee := s.deductionsAccountKeepingFee + kind .accountKeepingFee
        deductionsSubscription := s.deductionsSubscription + kind .subscription
        deductionsOther := s.deductionsOther + kind .other
        deductionsTrustDistributions :=
          s.deductionsTrustDistributions + question .trustDistributions
        deductionsForeignIncome := s.deductionsForeignIncome + question .foreignIncome
        deductionsForeignDebt := s.deductionsForeignDebt + question .foreignDebt
        deductionsDividendAndInterest :=
          s.deductionsDividendAndInterest + question .dividendAndInterest
        deductionsTotal := s.deductionsTotal + amount }
    taxYear_add := fun _ => rfl }

end Passes

/-! ### Adjustments -/

structure FrankedDividend where
  incomeId : ℤ
  taxYear : ℤ
  listing : ListingId
  exDate : NaiveDate
  creditsAud : ℚ
  trustIncome : Bool
  deriving DecidableEq

def frankedDividend (fx : FxRates) (i : Income) : Except FxError FrankedDividend := do
  return ⟨i.id, taxYearFor i.assessmentDate, i.listing, i.exOrPayDate,
    ← audValue fx i.frankingCredits i.currency i.assessmentDate, i.trustIncome⟩

/-- The rows with attached credits, and the credits of every year, the
statements' own with them. -/
def frankedDividends (r : Records) : Except FxError (List FrankedDividend × List (ℤ × ℚ)) := do
  let dividends := (← (assessableCashIncome r).mapM (frankedDividend r.fx)).filter
    fun d => 0 < d.creditsAud
  let statements ← r.amma.mapM fun a => do
    return (taxYearFor a.taxYearEndDate, ← audValue r.fx a.frankingCredits a.currency a.taxYearEndDate)
  let attached := (dividends.map fun d => (d.taxYear, d.creditsAud)) ++ statements
  return (dividends, attached.foldl (fun t e => Tally.adjust 0 e.1 (· + e.2) t) [])

def smallShareholderThresholdAud : ℚ := 5000

def denialLine (d : FrankedDividend) (denied : ℚ) : Line where
  add s :=
    { s with
      frankingCredits := s.frankingCredits - denied
      frankingCreditsDenied := s.frankingCreditsDenied + denied
      dividendFrankingCredits := s.dividendFrankingCredits - if d.trustIncome then 0 else denied }
  taxYear_add := fun _ => rfl

/-- The credits on units sold too soon are denied in a year above the threshold. -/
def applyFrankingDenials (walks : ListingId → NaiveDate → Franking.HoldingPeriodTest)
    (dividends : List FrankedDividend) (attached : List (ℤ × ℚ)) (map : Summaries) : Summaries :=
  dividends.foldl (fun map d =>
    let denied := (walks d.listing d.exDate).denied d.creditsAud
    if Tally.read 0 d.taxYear attached < smallShareholderThresholdAud ∨ denied ≤ 0 then map
    else amendYear d.taxYear (denialLine d denied) map) map

def fitoDeMinimisAud : ℚ := 1000

def deMinimisLine : Line where
  add s :=
    if fitoDeMinimisAud < s.foreignTaxOffsets then
      { s with
        foreignTaxOffsetExcess := s.foreignTaxOffsets - fitoDeMinimisAud
        foreignTaxOffsets := fitoDeMinimisAud }
    else s
  taxYear_add := fun _ => by split_ifs <;> rfl

/-- The totals are of the figures as shown. -/
def totalLine : Line where
  add s :=
    let gross := toCents s.dividendsAssessable + toCents s.interestIncome
      + toCents s.foreignInterestIncome + toCents s.foreignSourceIncome
      + toCents s.trustIncomeUnfranked + toCents s.trustFrankedDistributions
      + toCents s.ammaAustralianInterest + toCents s.ammaDividendsUnfranked
      + toCents s.ammaFrankedDividends + toCents s.ammaNetRent + toCents s.ammaForeignIncome
      + toCents s.ammaOtherIncome + toCents s.otherIncome + toCents s.dividendFrankingCredits
    { s with
      grossAssessableInvestmentIncome := gross
      netAssessableInvestmentIncome := gross - s.deductionsTotal }
  taxYear_add := fun _ => rfl

/-- The same line over every year. -/
def everyYear (line : Line) (map : Summaries) : Summaries := map.map fun e => (e.1, line.add e.2)

def applyFitoDeMinimis (map : Summaries) : Summaries := everyYear deMinimisLine map

def totalAssessableIncome (map : Summaries) : Summaries := everyYear totalLine map

def dbTaxSummaryOn (r : Records) : Except FxError (List TaxYearSummary) := do
  let (dividends, attached) ← frankedDividends r
  let map ← accumulate Income.assessmentDate (incomeLine r.fx) (assessableCashIncome r) []
  let map ← accumulate InterestIncome.datePaid (interestLine r.fx) r.interest map
  let map ← accumulate Amit.AmmaStatement.taxYearEndDate (ammaLine r.fx) r.amma map
  let map ← accumulateEss r.fx r.ess r.essIneligibleYears map
  let map ← accumulate InvestmentExpense.dateIncurred (expenseLine r.fx r) r.expenses map
  let map := totalAssessableIncome (applyFitoDeMinimis
    (applyFrankingDenials r.walks dividends attached map))
  return StableSort.sortBy TaxYearSummary.taxYear (map.map Prod.snd)

/-! ### Every row is dated -/

/-- Every row is filed under its own year, and only under years of `P`. -/
structure Dated (P : ℤ → Prop) (map : Summaries) : Prop where
  keyed : ∀ e ∈ map, e.2.taxYear = e.1
  known : ∀ e ∈ map, P e.1

namespace Dated
variable {P : ℤ → Prop} {map : Summaries}

theorem yearEntry (h : Dated P map) {taxYear : ℤ} (hy : P taxYear) (line : Line) :
    Dated P (yearEntry taxYear line map) := by
  constructor
  · intro e he
    rcases Tally.mem_adjust he with hold | ⟨hk, a, ha, hval⟩
    · exact h.keyed e hold
    · rw [hval, line.taxYear_add, hk]
      rcases ha with rfl | ha
      · rfl
      · exact h.keyed _ ha
  · intro e he
    rcases Tally.mem_adjust he with hold | ⟨hk, -, -, -⟩
    · exact h.known e hold
    · rw [hk]
      exact hy

/-- Rewriting rows under their own keys keeps them dated. -/
theorem rewritten (h : Dated P map) {f : ℤ × TaxYearSummary → ℤ × TaxYearSummary}
    (hf : ∀ e, (f e).1 = e.1 ∧ (f e).2.taxYear = e.2.taxYear) : Dated P (map.map f) := by
  constructor <;> intro e he <;> obtain ⟨e, hmem, rfl⟩ := List.mem_map.mp he
  · rw [(hf e).1, (hf e).2]
    exact h.keyed e hmem
  · rw [(hf e).1]
    exact h.known e hmem

theorem amendYear (h : Dated P map) (taxYear : ℤ) (line : Line) :
    Dated P (amendYear taxYear line map) := by
  apply h.rewritten
  intro e
  split
  · exact ⟨rfl, line.taxYear_add e.2⟩
  · exact ⟨rfl, rfl⟩

theorem everyYear (h : Dated P map) (line : Line) : Dated P (everyYear line map) := by
  apply h.rewritten
  intro e
  exact ⟨rfl, line.taxYear_add e.2⟩

/-- A fold of amendments keeps the rows dated. -/
theorem amended {β : Type} (h : Dated P map) {f : Summaries → β → Summaries}
    (hf : ∀ map b, Dated P map → Dated P (f map b)) (l : List β) : Dated P (l.foldl f map) := by
  induction l generalizing map with
  | nil => exact h
  | cons b l ih => exact ih (hf map b h)

theorem accumulate {α : Type} {date : α → NaiveDate} {line : α → Except FxError Line}
    {rows : List α} (h : Dated P map) (hP : ∀ a ∈ rows, P (taxYearFor (date a))) {map' : Summaries}
    (hok : accumulate date line rows map = .ok map') : Dated P map' := by
  unfold TaxSummary.accumulate at hok
  induction rows generalizing map with
  | nil =>
    cases hok
    exact h
  | cons a rows ih =>
    rw [List.foldlM_cons] at hok
    obtain ⟨map₁, hstep, hrest⟩ := bind_ok hok
    obtain ⟨l, -, hline⟩ := bind_ok hstep
    cases hline
    refine ih (h.yearEntry (hP a List.mem_cons_self) l) ?_ hrest
    intro b hb
    exact hP b (List.mem_cons_of_mem _ hb)

theorem accumulateEss {fx : FxRates} {rows : List EssStatement} {ineligible : List ℤ}
    (h : Dated P map) (hP : ∀ e ∈ rows, P (taxYearFor e.taxingPointDate)) {map' : Summaries}
    (hok : accumulateEss fx rows ineligible map = .ok map') : Dated P map' := by
  obtain ⟨map₁, hpass, hok⟩ := bind_ok hok
  obtain ⟨eligible, -, hok⟩ := bind_ok hok
  cases hok
  refine (h.accumulate hP hpass).amended ?_ eligible
  intro map e he
  split
  · exact he
  · exact he.amendYear _ _

theorem applyFrankingDenials (h : Dated P map)
    (walks : ListingId → NaiveDate → Franking.HoldingPeriodTest) (dividends : List FrankedDividend)
    (attached : List (ℤ × ℚ)) : Dated P (applyFrankingDenials walks dividends attached map) := by
  refine h.amended ?_ dividends
  intro map d hd
  dsimp only
  split
  · exact hd
  · exact hd.amendYear _ _

end Dated

/-- The dates the rows are assessed on. -/
def assessedDates (r : Records) : List NaiveDate :=
  (assessableCashIncome r).map Income.assessmentDate ++ r.interest.map InterestIncome.datePaid ++
    r.amma.map Amit.AmmaStatement.taxYearEndDate ++ r.ess.map EssStatement.taxingPointDate ++
      r.expenses.map InvestmentExpense.dateIncurred

theorem mem_assessedDates {r : Records} {d : NaiveDate} : d ∈ assessedDates r ↔
    (∃ i ∈ assessableCashIncome r, i.assessmentDate = d) ∨ (∃ i ∈ r.interest, i.datePaid = d) ∨
      (∃ a ∈ r.amma, a.taxYearEndDate = d) ∨ (∃ e ∈ r.ess, e.taxingPointDate = d) ∨
        ∃ x ∈ r.expenses, x.dateIncurred = d := by
  simp only [assessedDates, List.mem_append, List.mem_map, or_assoc]

/-- The financial year has a row assessed in it. -/
def Assessed (r : Records) (taxYear : ℤ) : Prop := ∃ d ∈ assessedDates r, taxYearFor d = taxYear

/-- A year with a summary row has a row of the records assessed in it. -/
theorem assessed_of_summary {r : Records} {rows : List TaxYearSummary} (h : dbTaxSummaryOn r = .ok rows)
    {s : TaxYearSummary} (hs : s ∈ rows) : Assessed r s.taxYear := by
  obtain ⟨⟨dividends, attached⟩, -, h⟩ := bind_ok h
  obtain ⟨map₁, hincome, h⟩ := bind_ok h
  obtain ⟨map₂, hinterest, h⟩ := bind_ok h
  obtain ⟨map₃, hamma, h⟩ := bind_ok h
  obtain ⟨map₄, hess, h⟩ := bind_ok h
  obtain ⟨map₅, hexpenses, h⟩ := bind_ok h
  cases h
  have hdated : Dated (Assessed r) map₅ := by
    have hnil : Dated (Assessed r) [] := ⟨by simp, by simp⟩
    have h₁ := hnil.accumulate (fun i hi => ⟨_, mem_assessedDates.mpr (.inl ⟨i, hi, rfl⟩), rfl⟩) hincome
    have h₂ := h₁.accumulate
      (fun i hi => ⟨_, mem_assessedDates.mpr (.inr (.inl ⟨i, hi, rfl⟩)), rfl⟩) hinterest
    have h₃ := h₂.accumulate
      (fun a ha => ⟨_, mem_assessedDates.mpr (.inr (.inr (.inl ⟨a, ha, rfl⟩))), rfl⟩) hamma
    have h₄ := h₃.accumulateEss
      (fun e he => ⟨_, mem_assessedDates.mpr (.inr (.inr (.inr (.inl ⟨e, he, rfl⟩)))), rfl⟩) hess
    exact h₄.accumulate
      (fun x hx => ⟨_, mem_assessedDates.mpr (.inr (.inr (.inr (.inr ⟨x, hx, rfl⟩)))), rfl⟩) hexpenses
  have hfinal := ((hdated.applyFrankingDenials r.walks dividends attached).everyYear
    deMinimisLine).everyYear totalLine
  obtain ⟨e, he, rfl⟩ := List.mem_map.mp (StableSort.mem_sortBy.mp hs)
  rw [hfinal.keyed e he]
  exact hfinal.known e he

end ShareTracker.TaxSummary
