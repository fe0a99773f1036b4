import ShareTracker.Fx
import ShareTracker.Decimal
import ShareTracker.Lib.Checked

/-! The rules a trade's core figures follow where a trade is entered by hand. -/
namespace ShareTracker.TradeAmounts
open Checked

/-- The start of CGT. -/
def cgtStart : NaiveDate := ymd 1985 9 20

/-- `Decimal::MAX`. -/
def maxDecimal : ℚ := 79228162514264337593543950335

def representable (q : ℚ) : Bool := |q| ≤ maxDecimal

theorem representable_iff {q : ℚ} (h : 0 ≤ q) : representable q = true ↔ q ≤ maxDecimal := by
  rw [representable, decide_eq_true_eq, abs_of_nonneg h]

/-- A result, where it can be stored. -/
def checked (q : ℚ) : Option ℚ := if representable q then some q else none

theorem checked_eq_some {q r : ℚ} : checked q = some r ↔ representable q = true ∧ q = r := by
  unfold checked
  split
  · rename_i h
    exact ⟨fun hr => ⟨h, Option.some.inj hr⟩, fun hr => congrArg some hr.2⟩
  · rename_i h
    exact ⟨nofun, fun hr => absurd hr.1 h⟩

/-- One of the figures a cost base sums. -/
inductive Term where
  | product (price units : ℚ)
  | amount (value : ℚ)

def Term.value : Term → Option ℚ
  | .product price units => checked (price * units)
  | .amount value => some value

def Term.figure : Term → ℚ
  | .product price units => price * units
  | .amount value => value

theorem Term.figure_of_value {t : Term} {v : ℚ} (h : t.value = some v) : t.figure = v := by
  cases t with
  | product price units => exact (checked_eq_some.mp h).2
  | amount value => exact Option.some.inj h

def checkedSum (total : ℚ) : List Term → Option ℚ
  | [] => some total
  | t :: ts => do
      let value ← t.value
      let total ← checked (total + value)
      checkedSum total ts

/-- The sum of the terms, where it and every step to it can be stored. -/
def checkedCostBase (terms : List Term) : Option ℚ := checkedSum 0 terms

theorem checkedSum_some {terms : List Term} {total v : ℚ} (ht : representable total = true)
    (h : checkedSum total terms = some v) :
    representable v = true ∧ v = total + (terms.map Term.figure).sum := by
  induction terms generalizing total with
  | nil =>
    obtain rfl : total = v := Option.some.inj h
    exact ⟨ht, by simp⟩
  | cons t ts ih =>
    rw [checkedSum] at h
    obtain ⟨value, hvalue, h⟩ := Option.bind_eq_some_iff.mp h
    obtain ⟨next, hnext, h⟩ := Option.bind_eq_some_iff.mp h
    obtain ⟨hrep, rfl⟩ := checked_eq_some.mp hnext
    obtain ⟨hv, hsum⟩ := ih hrep h
    refine ⟨hv, hsum.trans ?_⟩
    rw [List.map_cons, List.sum_cons, Term.figure_of_value hvalue, add_assoc]

theorem checkedCostBase_some {terms : List Term} {v : ℚ} (h : checkedCostBase terms = some v) :
    representable v = true ∧ v = (terms.map Term.figure).sum := by
  obtain ⟨hv, hsum⟩ := checkedSum_some (by decide) h
  exact ⟨hv, hsum.trans (zero_add _)⟩

/-- Figures none of which is negative add up where the whole can be stored. -/
theorem checkedSum_of_representable {terms : List Term} {total : ℚ} (ht : 0 ≤ total)
    (hterms : ∀ t ∈ terms, 0 ≤ t.figure)
    (h : representable (total + (terms.map Term.figure).sum) = true) :
    checkedSum total terms = some (total + (terms.map Term.figure).sum) := by
  induction terms generalizing total with
  | nil => simp [checkedSum]
  | cons t ts ih =>
    have hhead := hterms t List.mem_cons_self
    have htail : 0 ≤ (ts.map Term.figure).sum :=
      List.sum_nonneg fun q hq => by
        obtain ⟨u, hu, rfl⟩ := List.mem_map.mp hq
        exact hterms u (List.mem_cons_of_mem t hu)
    rw [List.map_cons, List.sum_cons, ← add_assoc] at h ⊢
    have hbound : total + t.figure + (ts.map Term.figure).sum ≤ maxDecimal :=
      (representable_iff (add_nonneg (add_nonneg ht hhead) htail)).mp h
    have hvalue : t.value = some t.figure := by
      cases t with
      | product price units =>
        refine checked_eq_some.mpr ⟨(representable_iff hhead).mpr ?_, rfl⟩
        simp only [Term.figure] at *
        linarith
      | amount value => rfl
    have hnext : checked (total + t.figure) = some (total + t.figure) :=
      checked_eq_some.mpr ⟨(representable_iff (add_nonneg ht hhead)).mpr (by linarith), rfl⟩
    rw [checkedSum, hvalue, Option.bind_eq_bind, Option.bind_some, hnext, Option.bind_some]
    exact ih (add_nonneg ht hhead) (fun u hu => hterms u (List.mem_cons_of_mem t hu)) h

/-- The core figures of a trade. -/
structure AmountsCheck where
  quantity : ℚ
  averagePrice : ℚ
  brokerage : ℚ
  gstOnBrokerage : ℚ
  fxRate : ℚ
  date : NaiveDate
  settlementDate : NaiveDate
  currency : CurrencyCode
  brokerageCurrency : CurrencyCode
  deriving DecidableEq

inductive AmountsError where
  | quantityNotPositive
  | priceNegative
  | brokerageNegative
  | gstNegative
  | brokerageCurrencyMismatch
  | fxRateNotPositive
  | settlementBeforeTrade
  | preCgtDate
  | futureDate
  | unrepresentable
  deriving DecidableEq

/-- `eq_ignore_ascii_case`. -/
def sameCurrency (a b : CurrencyCode) : Bool :=
  a.code.toList.map Char.toUpper = b.code.toList.map Char.toUpper

theorem sameCurrency_self (a : CurrencyCode) : sameCurrency a a = true := decide_eq_true rfl

def AmountsCheck.terms (c : AmountsCheck) : List Term :=
  [.product c.averagePrice c.quantity, .amount c.brokerage, .amount c.gstOnBrokerage]

/-- Price times quantity, with the costs. -/
def AmountsCheck.costBase (c : AmountsCheck) : ℚ :=
  c.averagePrice * c.quantity + c.brokerage + c.gstOnBrokerage

theorem AmountsCheck.terms_sum (c : AmountsCheck) : (c.terms.map Term.figure).sum = c.costBase := by
  simp only [terms, List.map_cons, List.map_nil, List.sum_cons, List.sum_nil, Term.figure, costBase]
  ring

def checkAmounts (today : NaiveDate) (c : AmountsCheck) : Except AmountsError Unit := do
  refuseIf (c.quantity ≤ 0) .quantityNotPositive
  refuseIf (c.averagePrice < 0) .priceNegative
  refuseIf (c.brokerage < 0) .brokerageNegative
  refuseIf (c.gstOnBrokerage < 0) .gstNegative
  refuseIf (sameCurrency c.currency c.brokerageCurrency = false) .brokerageCurrencyMismatch
  refuseIf (c.fxRate ≤ 0) .fxRateNotPositive
  refuseIf (c.settlementDate < c.date) .settlementBeforeTrade
  refuseIf (c.date < cgtStart) .preCgtDate
  refuseIf (today < c.date) .futureDate
  refuseIf (checkedCostBase c.terms = none) .unrepresentable

/-- The rules but for the quantity's. -/
structure AmountsCheck.Sane (today : NaiveDate) (c : AmountsCheck) : Prop where
  price : 0 ≤ c.averagePrice
  brokerage : 0 ≤ c.brokerage
  gst : 0 ≤ c.gstOnBrokerage
  brokerageCurrency : sameCurrency c.currency c.brokerageCurrency = true
  fxRate : 0 < c.fxRate
  settlement : c.date ≤ c.settlementDate
  cgt : cgtStart ≤ c.date
  notFuture : c.date ≤ today
  representable : representable c.costBase = true

theorem AmountsCheck.Sane.later {today today' : NaiveDate} {c : AmountsCheck} (h : c.Sane today)
    (hle : today ≤ today') : c.Sane today' := { h with notFuture := h.notFuture.trans hle }

/-- The check passes exactly the figures that follow the rules. -/
theorem checkAmounts_ok {today : NaiveDate} {c : AmountsCheck} :
    checkAmounts today c = .ok () ↔ 0 < c.quantity ∧ c.Sane today := by
  unfold checkAmounts
  constructor
  · intro h
    obtain ⟨_, hquantity, h⟩ := bind_ok h
    obtain ⟨_, hprice, h⟩ := bind_ok h
    obtain ⟨_, hbrokerage, h⟩ := bind_ok h
    obtain ⟨_, hgst, h⟩ := bind_ok h
    obtain ⟨_, hcurrency, h⟩ := bind_ok h
    obtain ⟨_, hfx, h⟩ := bind_ok h
    obtain ⟨_, hsettlement, h⟩ := bind_ok h
    obtain ⟨_, hcgt, h⟩ := bind_ok h
    obtain ⟨_, hfuture, h⟩ := bind_ok h
    obtain ⟨v, hv⟩ := Option.ne_none_iff_exists'.mp (refuseIf_ok.mp h)
    obtain ⟨hrep, hsum⟩ := checkedCostBase_some hv
    exact ⟨not_le.mp (refuseIf_ok.mp hquantity),
      { price := not_lt.mp (refuseIf_ok.mp hprice)
        brokerage := not_lt.mp (refuseIf_ok.mp hbrokerage)
        gst := not_lt.mp (refuseIf_ok.mp hgst)
        brokerageCurrency := Bool.eq_true_of_not_eq_false (refuseIf_ok.mp hcurrency)
        fxRate := not_le.mp (refuseIf_ok.mp hfx)
        settlement := not_lt.mp (refuseIf_ok.mp hsettlement)
        cgt := not_lt.mp (refuseIf_ok.mp hcgt)
        notFuture := not_lt.mp (refuseIf_ok.mp hfuture)
        representable := c.terms_sum ▸ hsum ▸ hrep }⟩
  · rintro ⟨hquantity, h⟩
    have hterms : ∀ t ∈ c.terms, 0 ≤ t.figure := by
      intro t ht
      simp only [AmountsCheck.terms, List.mem_cons, List.not_mem_nil, or_false] at ht
      rcases ht with rfl | rfl | rfl
      · exact mul_nonneg h.price hquantity.le
      · exact h.brokerage
      · exact h.gst
    have hsum : checkedCostBase c.terms = some (0 + (c.terms.map Term.figure).sum) := by
      refine checkedSum_of_representable le_rfl hterms ?_
      rw [c.terms_sum, zero_add]
      exact h.representable
    rw [refuseIf, if_neg (not_le.mpr hquantity), refuseIf, if_neg (not_lt.mpr h.price), refuseIf,
      if_neg (not_lt.mpr h.brokerage), refuseIf, if_neg (not_lt.mpr h.gst), refuseIf,
      if_neg (by rw [h.brokerageCurrency]; decide), refuseIf, if_neg (not_le.mpr h.fxRate), refuseIf,
      if_neg (not_lt.mpr h.settlement), refuseIf, if_neg (not_lt.mpr h.cgt), refuseIf,
      if_neg (not_lt.mpr h.notFuture), refuseIf, if_neg (by rw [hsum]; nofun)]
    rfl

/-- A brokerage entered with its GST, split. -/
def splitGstInclusive (amount : ℚ) : ℚ × ℚ := (amount - toCents (amount / 11), toCents (amount / 11))

def resolveBrokerage (includesGst : Bool) (brokerage gstOnBrokerage : ℚ) : ℚ × ℚ :=
  if includesGst then splitGstInclusive brokerage else (brokerage, gstOnBrokerage)

end ShareTracker.TradeAmounts
