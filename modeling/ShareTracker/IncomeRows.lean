import ShareTracker.Drp
import ShareTracker.Decimal

/-!
An income row with everything it states, and what its own write checks.
-/
namespace ShareTracker.IncomeRows
open Checked Drp

structure Income extends Drp.Income where
  frankingCredits : ℚ
  licCapitalGainAmount : ℚ
  /-- A memo part of the unfranked amount. -/
  conduitForeignIncome : ℚ
  /-- The buy-back Sell the row was created with. -/
  buybackTrade : Option TradeId
  amountPerSecurity : Option ℚ
  securitiesHeld : Option ℚ
  taxDeferredAmount : Option ℚ
  deriving DecidableEq

inductive UpsertError where
  | negativeAmount (field : String)
  | nonDistributionComponent (kind : IncomeType) (field : String)
  | suppliedAlone
  | productMismatch (product : ℚ)
  | entitlementDateOnNonTrust
  | licAmountOnTrust
  | taxDeferredOnNonTrust
  | taxDeferredNegative
  | buyBackIncome
  | reinvestedIncome (field : String)
  | amitNonTrust
  | amitNotionalComponent (field : String)
  | amitTaxDeferred
  | frankingCreditWithoutDividend (credits : ℚ)
  | frankingCreditAboveMaximum (credits franked ceiling : ℚ)
  | conduitExceedsUnfranked (cfi unfranked : ℚ)
  deriving DecidableEq

/-! ### The largest credit a company can attach -/

def thirtyPercentRateFrom : NaiveDate := ymd 2001 7 1

/-- The slack for a statement's own rounding. -/
def tolerance (maximum : ℚ) : ℚ := max (maximum * (5 / 1000)) (1 / 100)

def maximumFrankingCredit (frankedAmount : ℚ) : ℚ := toCents (frankedAmount * 30 / 70)

def creditCeiling (frankedAmount : ℚ) (paidOn : NaiveDate) : Option ℚ :=
  let maximum := maximumFrankingCredit frankedAmount
  if thirtyPercentRateFrom ≤ paidOn then some (toCents (maximum + tolerance maximum)) else none

def creditAboveCeiling (frankedAmount frankingCredits : ℚ) (paidOn : NaiveDate) : Option ℚ :=
  (creditCeiling frankedAmount paidOn).filter fun ceiling => ceiling < frankingCredits

namespace Income

/-- The date whose financial year the row is assessed in. -/
def assessmentDate (i : Income) : NaiveDate := i.trustEntitlementDate.getD i.datePaid

/-- The first field of a list that holds what it may not. -/
def firstField (fields : List (String × Bool)) : Option String :=
  (fields.find? Prod.snd).map Prod.fst

def negativeAmount (i : Income) : Option String := firstField
  [("franked_amount", i.frankedAmount < 0),
    ("unfranked_amount", i.unfrankedAmount < 0),
    ("foreign_source_income", i.foreignSourceIncome < 0),
    ("foreign_tax_paid", i.foreignTaxPaid < 0),
    ("tfn_withholding_tax", i.tfnWithholdingTax < 0),
    ("franking_credits", i.frankingCredits < 0),
    ("lic_capital_gain_amount", i.licCapitalGainAmount < 0),
    ("conduit_foreign_income", i.conduitForeignIncome < 0),
    ("amount_per_security", i.amountPerSecurity.any fun v => v < 0),
    ("securities_held", i.securitiesHeld.any fun v => v < 0)]

/-- What a row that is no payment of the holding carries beside its cash. -/
def nonDistributionComponent (i : Income) : Option String :=
  if i.incomeType = .dividend then none
  else firstField
    [("trust_income", i.trustIncome),
      ("franked_amount", i.frankedAmount ≠ 0),
      ("franking_credits", i.frankingCredits ≠ 0),
      ("foreign_source_income", i.foreignSourceIncome ≠ 0),
      ("foreign_tax_paid", i.foreignTaxPaid ≠ 0),
      ("tfn_withholding_tax", i.tfnWithholdingTax ≠ 0),
      ("lic_capital_gain_amount", i.licCapitalGainAmount ≠ 0),
      ("conduit_foreign_income", i.conduitForeignIncome ≠ 0),
      ("tax_deferred_amount", i.taxDeferredAmount.isSome),
      ("amount_per_security", i.amountPerSecurity.isSome),
      ("securities_held", i.securitiesHeld.isSome),
      ("ex_date", i.exDate.isSome),
      ("entitlement_date", i.entitlementDate.isSome)]

/-- What the per-share figures fail to reconcile with. -/
def perShareError (i : Income) : Option UpsertError :=
  match i.amountPerSecurity, i.securitiesHeld with
  | none, none => none
  | some amount, some held =>
    let product := toCents (amount * held)
    if product ≠ i.grossCashIncome then some (.productMismatch product) else none
  | _, _ => some .suppliedAlone

/-- The first figure of a reinvested distribution that an edit moves. -/
def frozenField (existing written : Income) : Option String :=
  if existing.reinvestmentTrade.isNone then none
  else firstField
    [("listing_id", existing.listing ≠ written.listing),
      ("holding_account_id", existing.account ≠ written.account),
      ("currency", existing.currency ≠ written.currency),
      ("date_paid", existing.datePaid ≠ written.datePaid),
      ("ex_date", existing.exDate ≠ written.exDate),
      ("entitlement_date", existing.entitlementDate ≠ written.entitlementDate),
      ("trust_income", existing.trustIncome ≠ written.trustIncome),
      ("franked_amount", existing.frankedAmount ≠ written.frankedAmount),
      ("unfranked_amount", existing.unfrankedAmount ≠ written.unfrankedAmount),
      ("foreign_source_income", existing.foreignSourceIncome ≠ written.foreignSourceIncome),
      ("foreign_tax_paid", existing.foreignTaxPaid ≠ written.foreignTaxPaid),
      ("tfn_withholding_tax", existing.tfnWithholdingTax ≠ written.tfnWithholdingTax),
      ("income_type", existing.incomeType ≠ written.incomeType)]

/-- What a row of an AMIT year may not be or carry. -/
def checkAmitYear (i : Income) : Except UpsertError Unit := do
  refuseIf (i.trustIncome = false) .amitNonTrust
  refuseIf (i.frankingCredits ≠ 0) (.amitNotionalComponent "franking_credits")
  refuseIf (i.conduitForeignIncome ≠ 0) (.amitNotionalComponent "conduit_foreign_income")
  refuseIf (i.taxDeferredAmount.isSome = true) .amitTaxDeferred

def checkAmit (amitYear : Bool) (i : Income) : Except UpsertError Unit :=
  if amitYear then i.checkAmitYear else .ok ()

/-- A company's credit needs a franked dividend and is bounded by it. -/
def checkCredit (i : Income) : Except UpsertError Unit := do
  refuseIf (i.trustIncome = false ∧ 0 < i.frankingCredits ∧ i.frankedAmount = 0)
    (.frankingCreditWithoutDividend i.frankingCredits)
  refuseIf (i.trustIncome = false ∧ 0 < i.frankingCredits ∧
      (creditAboveCeiling i.frankedAmount i.frankingCredits i.datePaid).isSome = true)
    (.frankingCreditAboveMaximum i.frankingCredits i.frankedAmount
      ((creditAboveCeiling i.frankedAmount i.frankingCredits i.datePaid).getD 0))

/-- The checks of a written row, beside the row stored at its id. -/
def check (existing : Option Income) (amitYear : Bool) (i : Income) : Except UpsertError Unit := do
  refuseSome (i.negativeAmount.map .negativeAmount)
  refuseSome (i.nonDistributionComponent.map (.nonDistributionComponent i.incomeType))
  refuseSome i.perShareError
  refuseIf (i.entitlementDate.isSome = true ∧ i.trustIncome = false) .entitlementDateOnNonTrust
  refuseIf (i.trustIncome = true ∧ i.licCapitalGainAmount ≠ 0) .licAmountOnTrust
  refuseIf (i.taxDeferredAmount.isSome = true ∧ i.trustIncome = false) .taxDeferredOnNonTrust
  refuseIf (∃ v ∈ i.taxDeferredAmount, v < 0) .taxDeferredNegative
  refuseIf (∃ e ∈ existing, e.buybackTrade.isSome = true) .buyBackIncome
  refuseSome ((existing.bind fun e => e.frozenField i).map .reinvestedIncome)
  i.checkAmit amitYear
  i.checkCredit
  refuseIf (i.unfrankedAmount < i.conduitForeignIncome)
    (.conduitExceedsUnfranked i.conduitForeignIncome i.unfrankedAmount)

/-- The row as it is stored: the links are not the body's to write. -/
def stored (existing : Option Income) (i : Income) : Income :=
  { i with
    reinvestmentTrade := existing.bind fun e => e.reinvestmentTrade
    buybackTrade := none }

/-- Trust income with no notional component and no tax-deferred amount: what a
row of an AMIT year has to be. -/
def cashOnly (i : Income) : Bool :=
  i.trustIncome && decide (i.frankingCredits = 0) && decide (i.conduitForeignIncome = 0) &&
    i.taxDeferredAmount.isNone

theorem cashOnly_of_checkAmitYear {i : Income} (h : i.checkAmitYear = .ok ()) : i.cashOnly = true := by
  unfold checkAmitYear at h
  obtain ⟨_, htrust, h⟩ := bind_ok h
  obtain ⟨_, hcredits, h⟩ := bind_ok h
  obtain ⟨_, hconduit, h⟩ := bind_ok h
  have htrust := Bool.eq_true_of_not_eq_false (refuseIf_ok.mp htrust)
  have hdeferred := refuseIf_ok.mp h
  simp only [cashOnly, htrust, not_not.mp (refuseIf_ok.mp hcredits),
    not_not.mp (refuseIf_ok.mp hconduit), Option.not_isSome_iff_eq_none.mp hdeferred,
    Option.isNone_none, decide_true, Bool.and_self]

/-- A row accepted into an AMIT year is cash only. -/
theorem cashOnly_of_check {existing : Option Income} {amitYear : Bool} {i : Income}
    (h : check existing amitYear i = .ok ()) (hyear : amitYear = true) : i.cashOnly = true := by
  unfold check at h
  obtain ⟨_, -, h⟩ := bind_ok h
  obtain ⟨_, -, h⟩ := bind_ok h
  obtain ⟨_, -, h⟩ := bind_ok h
  obtain ⟨_, -, h⟩ := bind_ok h
  obtain ⟨_, -, h⟩ := bind_ok h
  obtain ⟨_, -, h⟩ := bind_ok h
  obtain ⟨_, -, h⟩ := bind_ok h
  obtain ⟨_, -, h⟩ := bind_ok h
  obtain ⟨_, -, h⟩ := bind_ok h
  obtain ⟨_, hamit, -⟩ := bind_ok h
  rw [checkAmit, if_pos hyear] at hamit
  exact cashOnly_of_checkAmitYear hamit

end Income
end ShareTracker.IncomeRows
