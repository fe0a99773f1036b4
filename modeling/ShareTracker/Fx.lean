import ShareTracker.TaxYear

/-! Conversion to AUD at the monthly reference rates. -/
namespace ShareTracker

structure CurrencyCode where
  code : String
  deriving DecidableEq

/-- Case-insensitive, as the stored codes are compared. -/
def CurrencyCode.isAud (c : CurrencyCode) : Bool :=
  c.code.toList.map Char.toUpper == ['A', 'U', 'D']

structure RateMonth where
  year : ℤ
  month : ℕ
  deriving DecidableEq

def RateMonth.of (date : NaiveDate) : RateMonth := ⟨date.year, date.month⟩

/-- A record's own rate: no rate, one used only where no monthly rate was
imported, or one that wins over the monthly rate. -/
inductive FxOverride where
  | none
  | fallback (rate : ℚ)
  | spot (rate : ℚ)
  deriving DecidableEq

def FxOverride.fromTrade (fxRate : ℚ) (spotFxRate : Option ℚ) : FxOverride :=
  match spotFxRate with
  | some rate => .spot rate
  | .none => .fallback fxRate

inductive FxError where
  | missingRate (currency : CurrencyCode) (month : RateMonth)
  deriving DecidableEq

def pickRate (atoRate : Option ℚ) (currency : CurrencyCode) (month : RateMonth)
    (manual : FxOverride) : Except FxError ℚ :=
  match manual, atoRate with
  | .spot rate, _ => .ok rate
  | _, some rate => .ok rate
  | .fallback rate, .none => .ok rate
  | .none, .none => .error (.missingRate currency month)

def applyRate (amount rate : ℚ) : ℚ := if rate = 1 then amount else amount / rate

/-- The imported rates, foreign units per AUD. -/
structure FxRates where
  rates : CurrencyCode × RateMonth → Option ℚ

namespace FxRates

def resolveRate (fx : FxRates) (currency : CurrencyCode) (date : NaiveDate) (manual : FxOverride) :
    Except FxError ℚ :=
  if currency.isAud then .ok 1
  else pickRate (fx.rates (currency, .of date)) currency (.of date) manual

def toAud (fx : FxRates) (amount : ℚ) (currency : CurrencyCode) (date : NaiveDate)
    (manual : FxOverride) : Except FxError ℚ := do
  return applyRate amount (← fx.resolveRate currency date manual)

theorem toAud_of_isAud (fx : FxRates) {currency : CurrencyCode} (h : currency.isAud)
    (amount : ℚ) (date : NaiveDate) (manual : FxOverride) :
    fx.toAud amount currency date manual = .ok amount := by
  simp only [toAud, resolveRate, h, if_true]
  rfl

end FxRates

end ShareTracker
