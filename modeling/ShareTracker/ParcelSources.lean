import ShareTracker.TradeAmounts
import ShareTracker.CorporateActions

/-!
The records parcels are written from, with the checks made where they are
recorded: employee share scheme statements, inheritances and the terms of
corporate actions.
-/
namespace ShareTracker.ParcelSources
open Checked TradeAmounts CorporateActions

/-! ### Employee share scheme statements -/

structure EssStatement where
  id : ℤ
  listing : ListingId
  account : HoldingAccountId
  taxingPointDate : NaiveDate
  quantity : ℚ
  marketValuePerShare : ℚ
  taxedUpfrontEligible : ℚ
  taxedUpfrontNotEligible : ℚ
  deferralDiscount : ℚ
  pre2009CessationDiscount : ℚ
  foreignSourceDiscount : ℚ
  tfnWithholding : ℚ
  currency : CurrencyCode
  fxRate : Option ℚ
  audTaxedUpfrontEligible : Option ℚ
  audTaxedUpfrontNotEligible : Option ℚ
  audDeferralDiscount : Option ℚ
  audPre2009CessationDiscount : Option ℚ
  audForeignSourceDiscount : Option ℚ
  deriving DecidableEq

inductive StatementError where
  | negativeAmount (field : String)
  | preCgtTaxingPoint
  | futureTaxingPoint
  | foreignSourceExceedsDiscounts (label : String)
  | unrepresentableMarketValue
  | discountExceedsMarketValue (discount marketValue : ℚ)
  | audOverrideOnAudStatement
  | fxRateNotPositive
  | fxRateOnAudStatement
  | currencyNotListings (listing : CurrencyCode)
  | vested
  deriving DecidableEq

namespace EssStatement

def amounts (s : EssStatement) : List (String × Option ℚ) :=
  [("quantity", some s.quantity),
    ("market_value_per_share", some s.marketValuePerShare),
    ("taxed_upfront_eligible", some s.taxedUpfrontEligible),
    ("taxed_upfront_not_eligible", some s.taxedUpfrontNotEligible),
    ("deferral_discount", some s.deferralDiscount),
    ("pre_2009_cessation_discount", some s.pre2009CessationDiscount),
    ("foreign_source_discount", some s.foreignSourceDiscount),
    ("tfn_withholding", some s.tfnWithholding),
    ("aud_taxed_upfront_eligible", s.audTaxedUpfrontEligible),
    ("aud_taxed_upfront_not_eligible", s.audTaxedUpfrontNotEligible),
    ("aud_deferral_discount", s.audDeferralDiscount),
    ("aud_pre_2009_cessation_discount", s.audPre2009CessationDiscount),
    ("aud_foreign_source_discount", s.audForeignSourceDiscount)]

def negativeAmount (s : EssStatement) : Option String :=
  (s.amounts.find? fun a => a.2.any fun v => decide (v < 0)).map Prod.fst

def discountLabels (s : EssStatement) : ℚ :=
  s.taxedUpfrontEligible + s.taxedUpfrontNotEligible + s.deferralDiscount + s.pre2009CessationDiscount

/-- The overrides beside the labels they stand for. -/
def overrides (s : EssStatement) : List (Option ℚ × ℚ) :=
  [(s.audTaxedUpfrontEligible, s.taxedUpfrontEligible),
    (s.audTaxedUpfrontNotEligible, s.taxedUpfrontNotEligible),
    (s.audDeferralDiscount, s.deferralDiscount),
    (s.audPre2009CessationDiscount, s.pre2009CessationDiscount)]

/-- The labels in AUD, where the overrides pin them: one without an override has to be nil. -/
def audDiscountLabels (s : EssStatement) : Option ℚ :=
  (s.overrides.mapM fun (o : Option ℚ × ℚ) => o.1.or (if o.2 = 0 then some 0 else none)).map List.sum

/-- Whether the statement prices shares for a vest. -/
def pricesShares (s : EssStatement) : Bool := 0 < s.quantity && 0 < s.marketValuePerShare

def marketValue (s : EssStatement) : Option ℚ :=
  checkedCostBase [.product s.marketValuePerShare s.quantity]

def checkMarketValue (s : EssStatement) : Except StatementError Unit :=
  if s.pricesShares then do
    let marketValue ← orRefuse s.marketValue .unrepresentableMarketValue
    refuseIf (toCents marketValue < toCents s.discountLabels)
      (.discountExceedsMarketValue s.discountLabels marketValue)
  else .ok ()

def validate (today : NaiveDate) (s : EssStatement) : Except StatementError Unit := do
  refuseSome (s.negativeAmount.map .negativeAmount)
  refuseIf (s.taxingPointDate < cgtStart) .preCgtTaxingPoint
  refuseIf (today < s.taxingPointDate) .futureTaxingPoint
  refuseIf (s.discountLabels < s.foreignSourceDiscount)
    (.foreignSourceExceedsDiscounts "foreign_source_discount")
  refuseIf (∃ f ∈ s.audForeignSourceDiscount, ∃ d ∈ s.audDiscountLabels, d < f)
    (.foreignSourceExceedsDiscounts "aud_foreign_source_discount")
  s.checkMarketValue

def hasOverride (s : EssStatement) : Bool :=
  s.audTaxedUpfrontEligible.isSome || s.audTaxedUpfrontNotEligible.isSome ||
    s.audDeferralDiscount.isSome || s.audPre2009CessationDiscount.isSome ||
      s.audForeignSourceDiscount.isSome

/-- The fields a vest Buy is written from. -/
def vestSideUnchanged (old s : EssStatement) : Bool :=
  old.listing = s.listing && old.account = s.account && old.taxingPointDate = s.taxingPointDate &&
    old.quantity = s.quantity && old.marketValuePerShare = s.marketValuePerShare &&
      old.currency = s.currency && old.fxRate = s.fxRate

/-- The checks of a statement's write: `listingCurrency` is its listing's, and
`vested` the stored statement where its vest exists. -/
def check (today : NaiveDate) (listingCurrency : Option CurrencyCode) (vested : Option EssStatement)
    (s : EssStatement) : Except StatementError Unit := do
  s.validate today
  refuseIf (s.hasOverride = true ∧ s.currency.isAud = true) .audOverrideOnAudStatement
  refuseIf (∃ r ∈ s.fxRate, r ≤ 0) .fxRateNotPositive
  refuseIf (s.fxRate.isSome = true ∧ s.currency.isAud = true) .fxRateOnAudStatement
  refuseSome ((listingCurrency.filter fun l => l ≠ s.currency).map .currencyNotListings)
  refuseIf (∃ old ∈ vested, old.vestSideUnchanged s = false) .vested

/-- What a recorded statement promises a vest of it. -/
structure Vestable (today : NaiveDate) (s : EssStatement) : Prop where
  cgt : cgtStart ≤ s.taxingPointDate
  notFuture : s.taxingPointDate ≤ today
  fxRate : ∀ r ∈ s.fxRate, 0 < r
  representable : s.pricesShares = true → representable (s.marketValuePerShare * s.quantity) = true

theorem Vestable.later {today today' : NaiveDate} {s : EssStatement} (h : s.Vestable today)
    (hle : today ≤ today') : s.Vestable today' := { h with notFuture := h.notFuture.trans hle }

theorem representable_of_checkMarketValue {s : EssStatement} (h : s.checkMarketValue = .ok ())
    (hprices : s.pricesShares = true) : representable (s.marketValuePerShare * s.quantity) = true := by
  rw [checkMarketValue, if_pos hprices] at h
  obtain ⟨v, hv, -⟩ := bind_ok h
  obtain ⟨hrep, hsum⟩ := checkedCostBase_some (orRefuse_ok.mp hv)
  rw [hsum, List.map_singleton, List.sum_singleton] at hrep
  exact hrep

theorem vestable_of_check {today : NaiveDate} {listingCurrency : Option CurrencyCode}
    {vested : Option EssStatement} {s : EssStatement}
    (h : s.check today listingCurrency vested = .ok ()) : s.Vestable today := by
  unfold check at h
  obtain ⟨_, hvalid, h⟩ := bind_ok h
  obtain ⟨_, -, h⟩ := bind_ok h
  obtain ⟨_, hfx, -⟩ := bind_ok h
  unfold validate at hvalid
  obtain ⟨_, -, hvalid⟩ := bind_ok hvalid
  obtain ⟨_, hcgt, hvalid⟩ := bind_ok hvalid
  obtain ⟨_, hfuture, hvalid⟩ := bind_ok hvalid
  obtain ⟨_, -, hvalid⟩ := bind_ok hvalid
  obtain ⟨_, -, hvalid⟩ := bind_ok hvalid
  exact
    { cgt := not_lt.mp (refuseIf_ok.mp hcgt)
      notFuture := not_lt.mp (refuseIf_ok.mp hfuture)
      fxRate := fun r hr => not_le.mp fun hle => refuseIf_ok.mp hfx ⟨r, hr, hle⟩
      representable := representable_of_checkMarketValue hvalid }

end EssStatement

/-! ### Inheritances -/

inductive CostBaseRule where
  | deceasedCostBase
  | marketValueAtDeath
  deriving DecidableEq

structure Inheritance where
  id : ℤ
  listing : ListingId
  account : HoldingAccountId
  quantity : ℚ
  dateOfDeath : NaiveDate
  costBaseRule : CostBaseRule
  costBase : ℚ
  lprExpenditure : ℚ
  lprExpenditureDate : Option NaiveDate
  deceasedAcquisitionDate : Option NaiveDate
  currency : CurrencyCode
  fxRate : ℚ
  deriving DecidableEq

inductive InheritanceError where
  | quantityNotPositive
  | negativeAmount
  | fxRateNotPositive
  | deathPreCgt
  | deathInFuture
  | deceasedAcquisitionPreCgt
  | deceasedAcquisitionAfterDeath
  | ruleAcquisitionDateMismatch
  | lprExpenditureOnForeignParcel
  | lprExpenditureDateMismatch
  | lprExpenditureBeforeDeath
  | parcelDrawnOn
  | unrepresentableCostBase
  deriving DecidableEq

namespace Inheritance

def checkRule (i : Inheritance) : Except InheritanceError Unit :=
  match i.costBaseRule, i.deceasedAcquisitionDate with
  | .deceasedCostBase, some acquired => do
      refuseIf (acquired < cgtStart) .deceasedAcquisitionPreCgt
      refuseIf (i.dateOfDeath < acquired) .deceasedAcquisitionAfterDeath
  | .marketValueAtDeath, none => .ok ()
  | _, _ => .error .ruleAcquisitionDateMismatch

def checkExpenditure (i : Inheritance) : Except InheritanceError Unit :=
  match i.lprExpenditureDate with
  | some incurred => do
      refuseIf (i.lprExpenditure = 0) .lprExpenditureDateMismatch
      refuseIf (incurred < i.dateOfDeath) .lprExpenditureBeforeDeath
  | none => refuseIf (i.lprExpenditure ≠ 0) .lprExpenditureDateMismatch

def validate (today : NaiveDate) (i : Inheritance) : Except InheritanceError Unit := do
  refuseIf (i.quantity ≤ 0) .quantityNotPositive
  refuseIf (i.costBase < 0 ∨ i.lprExpenditure < 0) .negativeAmount
  refuseIf (i.fxRate ≤ 0) .fxRateNotPositive
  refuseIf (i.dateOfDeath < cgtStart) .deathPreCgt
  refuseIf (today < i.dateOfDeath) .deathInFuture
  i.checkRule
  refuseIf (i.lprExpenditure ≠ 0 ∧ i.currency.isAud = false) .lprExpenditureOnForeignParcel
  i.checkExpenditure

/-- What the inherited parcel carries: the first element with the personal representative's costs. -/
def totalCostBase (i : Inheritance) : Option ℚ :=
  checkedCostBase [.amount i.costBase, .amount i.lprExpenditure]

/-- What the checks promise the parcel. -/
structure Recordable (today : NaiveDate) (i : Inheritance) : Prop where
  quantity : 0 < i.quantity
  costBase : 0 ≤ i.costBase
  lprExpenditure : 0 ≤ i.lprExpenditure
  fxRate : 0 < i.fxRate
  cgt : cgtStart ≤ i.dateOfDeath
  notFuture : i.dateOfDeath ≤ today

theorem recordable_of_validate {today : NaiveDate} {i : Inheritance}
    (h : i.validate today = .ok ()) : i.Recordable today := by
  unfold validate at h
  obtain ⟨_, hquantity, h⟩ := bind_ok h
  obtain ⟨_, hamounts, h⟩ := bind_ok h
  obtain ⟨_, hfx, h⟩ := bind_ok h
  obtain ⟨_, hcgt, h⟩ := bind_ok h
  obtain ⟨_, hfuture, -⟩ := bind_ok h
  obtain ⟨hcost, hlpr⟩ := not_or.mp (refuseIf_ok.mp hamounts)
  exact
    { quantity := not_le.mp (refuseIf_ok.mp hquantity)
      costBase := not_lt.mp hcost
      lprExpenditure := not_lt.mp hlpr
      fxRate := not_le.mp (refuseIf_ok.mp hfx)
      cgt := not_lt.mp (refuseIf_ok.mp hcgt)
      notFuture := not_lt.mp (refuseIf_ok.mp hfuture) }

theorem totalCostBase_some {i : Inheritance} {total : ℚ} (h : i.totalCostBase = some total) :
    representable total = true ∧ total = i.costBase + i.lprExpenditure := by
  obtain ⟨hrep, hsum⟩ := checkedCostBase_some h
  refine ⟨hrep, hsum.trans ?_⟩
  simp [Term.figure]

end Inheritance

/-! ### The terms of corporate actions -/

/-- The signs a body's terms are required to have. -/
def termsPositive : ActionKind → Bool
  | .rightsIssue rightsUnits heldUnits exercisePrice _ _ =>
    0 < rightsUnits && 0 < heldUnits && 0 < exercisePrice
  | .scripForScrip _ newUnits oldUnits cash _ _ =>
    0 < newUnits && 0 < oldUnits && cash.all fun c => 0 < c.cashPerUnit && 0 < c.marketValue
  | .demerger _ newUnits heldUnits costBasePct _ _ _ =>
    0 < newUnits && 0 < heldUnits && 0 < costBasePct && costBasePct < 100
  | _ => true

/-- A figure's share of `num / den`, and what is left of it. -/
structure Apportioned where
  share : ℚ
  rest : ℚ

def apportion (whole num den : ℚ) : Apportioned := ⟨whole * num / den, whole - whole * num / den⟩

theorem apportion_nonneg {whole num den : ℚ} (hwhole : 0 ≤ whole) (hnum : 0 ≤ num) (hle : num ≤ den)
    (hden : 0 < den) : 0 ≤ (apportion whole num den).share ∧ 0 ≤ (apportion whole num den).rest := by
  refine ⟨div_nonneg (mul_nonneg hwhole hnum) hden.le, ?_⟩
  have hshare : whole * num / den ≤ whole := by
    rw [div_le_iff₀ hden]
    exact mul_le_mul_of_nonneg_left hle hwhole
  exact sub_nonneg.mpr hshare

theorem apportion_sum (whole num den : ℚ) :
    (apportion whole num den).share + (apportion whole num den).rest = whole :=
  add_sub_cancel _ _

end ShareTracker.ParcelSources
