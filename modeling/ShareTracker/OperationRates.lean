import ShareTracker.TradeRules
import ShareTracker.IncomeRows

/-!
The rate every operation stores on the trades it creates. A rate is the
fallback a report converts at where the month has none imported, so a stored
one that was neither stated nor looked up converts at parity. Three of the
seven operations leave it at 1: a buy-back participation and a reinvestment in
every month, an inheritance only in a month with a rate of its own.
-/
namespace ShareTracker.TradeDesk
open Checked TradeAmounts ParcelSources CorporateActions

/-! ### The operations -/

structure ParticipationBody where
  date : NaiveDate
  units : ℚ
  allocations : List (TradeId × ℚ)
  fxRate : Option ℚ
  account : HoldingAccountId

structure BuyBackTerms where
  price : ℚ
  dividend : ℚ
  frankingCredit : ℚ
  marketValue : Option ℚ
  currency : CurrencyCode

def buyBackTerms : ActionKind → Option BuyBackTerms
  | .buyBack price dividend credit marketValue currency =>
    some ⟨price, dividend, credit, marketValue, currency⟩
  | _ => none

/-- The capital proceeds of a unit: never below its market value, the dividend excluded. -/
def BuyBackTerms.proceedsPerUnit (t : BuyBackTerms) : ℚ :=
  max t.price (t.marketValue.getD t.price) - t.dividend

/-- An inheritance as a request states it: no rate stands for 1. -/
structure InheritanceBody where
  recorded : Inheritance
  stated : Option ℚ

def InheritanceBody.row (body : InheritanceBody) : Inheritance :=
  { body.recorded with fxRate := body.stated.getD 1 }

/-- The date the parcel's cost base converts at. -/
def conversionDate (i : Inheritance) : NaiveDate := i.deceasedAcquisitionDate.getD i.dateOfDeath

inductive Refused where
  | desk (e : Refusal)
  | beforeBuyBackDate
  | frankingCreditAboveMaximum (credits franked ceiling : ℚ)
  | currencyNotListings (inheritance listing : CurrencyCode)
  | missingFxRate (currency : CurrencyCode) (month : RateMonth)
  deriving DecidableEq

/-- A non-AUD inheritance at the default rate needs one imported for its month. -/
def checkConvertible (env : Surroundings) (i : Inheritance) : Except Refused Unit :=
  if i.currency.isAud = true ∨ i.fxRate ≠ 1 then .ok ()
  else
    match env.rates.resolveRate i.currency (conversionDate i) .none with
    | .ok _ => .ok ()
    | .error _ => .error (.missingFxRate i.currency (.of (conversionDate i)))

namespace Desk

inductive Operation where
  | participate (action : ℤ) (body : ParticipationBody)
  | exercise (action : ℤ) (body : ExerciseBody) (entitled : Bool)
  | vest (statement : ℤ)
  | inherit (body : InheritanceBody)
  | reinvest (income : ℤ) (body : Drp.ReinvestBody) (plan : Drp.Surroundings)
  | exchange (action : ℤ) (parcels : List Replaced)
  | transfer (body : TransferBody)

/-- The Sell of a participation: its dividend component is an income row. -/
def participationSell (action : Action) (t : BuyBackTerms) (body : ParticipationBody) : TradeBody where
  tradeType := .sell
  listing := action.listing
  account := body.account
  date := body.date
  settlementDate := some body.date
  averagePrice := t.proceedsPerUnit
  quantity := body.units
  currency := t.currency
  brokerage := 0
  gstOnBrokerage := 0
  brokerageIncludesGst := false
  brokerageCurrency := t.currency
  fxRate := body.fxRate.getD 1
  allocations := body.allocations

def participate (s : Desk) (actionId : ℤ) (body : ParticipationBody) (env : Surroundings) :
    Except Refused Desk := do
  refuseIf (body.units ≤ 0) (.desk .nonPositiveUnits)
  let action ← orRefuse (s.action? actionId) (.desk .actionNotFound)
  let t ← orRefuse (buyBackTerms action.val.kind) (.desk .wrongAction)
  refuseIf (body.date < action.val.date) .beforeBuyBackDate
  let franked := t.dividend * body.units
  let credits := t.frankingCredit * body.units
  (IncomeRows.creditAboveCeiling franked credits body.date).elim (.ok ()) fun ceiling =>
    .error (.frankingCreditAboveMaximum credits franked ceiling)
  (s.operationSell (.buybackAction actionId) (participationSell action.val t body) env).mapError .desk

def inherit (s : Desk) (body : InheritanceBody) (env : Surroundings) : Except Refused Desk := do
  let i := body.row
  (i.validate s.today).mapError fun e => .desk (.inheritance e)
  let listing := env.listingCurrency i.listing
  refuseIf (listing ≠ i.currency) (.currencyNotListings i.currency listing)
  checkConvertible env i
  (s.putInheritance i env).mapError .desk

def perform (D : DecimalRounding) (s : Desk) (env : Surroundings) : Operation → Except Refused Desk
  | .participate action body => s.participate action body env
  | .exercise action body entitled => (s.exercise action body entitled env).mapError .desk
  | .vest statement => (s.vest statement env).mapError .desk
  | .inherit body => s.inherit body env
  | .reinvest income body plan => (s.reinvest income body plan).mapError .desk
  | .exchange action parcels => (s.exchange D action parcels env).mapError .desk
  | .transfer body => (s.transfer body env).mapError .desk

/-- The trades a write creates: those under ids the sequence had not issued. -/
def created (s s' : Desk) : List Row := s'.rows.filter fun r => s.plan.lastTrade < r.id

/-! ### The rates a created trade may carry -/

/-- A rate stated for the trade, or the month's own. -/
def statedOrImported (env : Surroundings) (stated : Option ℚ) (currency : CurrencyCode)
    (date : NaiveDate) (rate : ℚ) : Prop :=
  stated = some rate ∨ env.rates.rates (currency, .of date) = some rate

/-- The rate of a consumed parcel of the same currency. -/
def carriedFrom (s : Desk) (parcels : List Drawn) (r : Row) (rate : ℚ) : Prop :=
  ∃ d ∈ parcels, ∃ source ∈ s.row? d.parcel,
    source.figures.currency = r.figures.currency ∧ source.figures.fxRate = rate

/-- Where a created trade may have its rate from. -/
def Rated (s : Desk) (env : Surroundings) (r : Row) (rate : ℚ) : Operation → Prop
  | .participate _ body => statedOrImported env body.fxRate r.figures.currency r.figures.date rate
  | .exercise _ body _ => statedOrImported env body.fxRate r.figures.currency r.figures.date rate
  | .vest statement => statedOrImported env ((s.statement? statement).bind EssStatement.fxRate)
      r.figures.currency r.figures.date rate
  | .inherit body => statedOrImported env body.stated r.figures.currency (conversionDate body.row) rate
  | .reinvest _ body _ => statedOrImported env body.fxRate r.figures.currency r.figures.date rate
  | .exchange _ parcels =>
    if r.tradeType = .sell then statedOrImported env none r.figures.currency r.figures.date rate
    else s.carriedFrom (parcels.map Replaced.drawn) r rate
  | .transfer body =>
    if r.tradeType = .sell then
      statedOrImported env body.feeFxRate r.figures.currency r.figures.date rate
    else s.carriedFrom body.allocations r rate

/-- A foreign trade with an amount carries such a rate, and whatever rates are
imported later, a report that falls back converts it at such a rate too. -/
def Honest (s : Desk) (env : Surroundings) (op : Operation) (r : Row) : Prop :=
  r.figures.currency.isAud = true ∨ r.figures.costBase = 0 ∨
    s.Rated env r r.figures.fxRate op ∧
      ∀ (later : FxRates) (date : NaiveDate) (rate : ℚ),
        later.resolveRate r.figures.currency date (.fallback r.figures.fxRate) = .ok rate →
          later.rates (r.figures.currency, .of date) = some rate ∨ s.Rated env r rate op

/-- Whether leaving the rate out does no harm. -/
def rateGiven (env : Surroundings) (stated : Option ℚ) (currency : CurrencyCode)
    (date : NaiveDate) : Bool :=
  currency.isAud || stated.isSome || env.rates.rates (currency, .of date) = some 1

/-- The condition on an accepted operation: a buy-back participation, a
reinvestment or a new inheritance states its rate, or needs none. -/
def statesRate (s : Desk) (env : Surroundings) : Operation → Bool
  | .participate action body =>
    (s.action? action).all fun a => (buyBackTerms a.val.kind).all fun t =>
      t.proceedsPerUnit * body.units = 0 || rateGiven env body.fxRate t.currency body.date
  | .inherit body =>
    (s.inheritedBuy body.recorded.id).isSome ||
      (body.recorded.costBase + body.recorded.lprExpenditure = 0 ||
        rateGiven env body.stated body.recorded.currency (conversionDate body.recorded))
  | .reinvest income body plan =>
    (s.plan.income income).all fun i =>
      (body.units.isNone && (available s.plan income body).all fun cash =>
          ⌊cash / body.reinvestmentPrice⌋ = 0) ||
        rateGiven env body.fxRate (plan.listingCurrency i.listing) (body.date.getD i.datePaid)
  | .exercise .. | .vest _ | .exchange .. | .transfer _ => true


/-! ### Where each rate comes from -/

section Rates
variable {env : Surroundings} {currency : CurrencyCode} {date : NaiveDate} {rate : ℚ}

theorem resolveRate_ok {rates : FxRates} (h : rates.resolveRate currency date .none = .ok rate) :
    currency.isAud = true ∨ rates.rates (currency, .of date) = some rate := by
  unfold FxRates.resolveRate at h
  split at h
  · rename_i haud
    exact .inl haud
  · right
    cases hrate : rates.rates (currency, .of date) with
    | none =>
      rw [hrate] at h
      cases h
    | some stored =>
      rw [hrate] at h
      exact congrArg some (Except.ok.inj h)

theorem sellRate_ok {nil : Bool} (h : sellRate env currency date nil = .ok rate) :
    currency.isAud = true ∨ nil = true ∨ env.rates.rates (currency, .of date) = some rate := by
  unfold sellRate at h
  split at h
  · rename_i r hr
    obtain rfl := Except.ok.inj h
    exact (resolveRate_ok hr).imp id .inr
  · split at h
    · rename_i hnil
      exact .inr (.inl hnil)
    · cases h

/-- A rate left to the default is one the trade may carry where the month's is 1. -/
theorem statedOrImported_default {stated : Option ℚ} :
    statedOrImported env stated currency date (stated.getD 1) ↔
      stated.isSome = true ∨ env.rates.rates (currency, .of date) = some 1 := by
  cases stated with
  | none => simp [statedOrImported]
  | some r => simp [statedOrImported]

theorem rateGiven_iff {stated : Option ℚ} :
    rateGiven env stated currency date = true ↔
      currency.isAud = true ∨ statedOrImported env stated currency date (stated.getD 1) := by
  rw [statedOrImported_default, rateGiven]
  simp [or_assoc]

end Rates

/-- A trade's own fallback is the one rate a report can fall back to. -/
theorem honest_iff {s : Desk} {env : Surroundings} {op : Operation} {r : Row} :
    s.Honest env op r ↔ r.figures.currency.isAud = true ∨ r.figures.costBase = 0 ∨
      s.Rated env r r.figures.fxRate op := by
  by_cases haud : r.figures.currency.isAud = true
  · exact iff_of_true (.inl haud) (.inl haud)
  refine or_congr_right (or_congr_right (and_iff_left_of_imp fun hrated later date rate h => ?_))
  unfold FxRates.resolveRate at h
  rw [if_neg haud] at h
  cases hlater : later.rates (r.figures.currency, .of date) with
  | none =>
    rw [hlater] at h
    exact .inr (Except.ok.inj h ▸ hrated)
  | some imported =>
    rw [hlater] at h
    exact .inl (congrArg some (Except.ok.inj h))

/-! ### What each operation writes -/

section Written
variable {D : DecimalRounding} {s s' : Desk} {env : Surroundings}

theorem participate_ok {actionId : ℤ} {body : ParticipationBody}
    (hok : s.participate actionId body env = .ok s') :
    ∃ action t, s.action? actionId = some action ∧ buyBackTerms action.val.kind = some t ∧
      s' = s.insertRow ((participationSell action.val t body).row (some (.buybackAction actionId))
        env) := by
  obtain ⟨_, -, hok⟩ := bind_ok hok
  obtain ⟨action, haction, hok⟩ := bind_ok hok
  obtain ⟨t, hterms, hok⟩ := bind_ok hok
  obtain ⟨_, -, hok⟩ := bind_ok hok
  obtain ⟨_, -, hok⟩ := bind_ok hok
  obtain ⟨_, -, hsell⟩ := bind_ok (mapError_ok.mp hok)
  exact ⟨action, t, orRefuse_ok.mp haction, orRefuse_ok.mp hterms, (Except.ok.inj hsell).symm⟩

theorem exercise_ok {actionId : ℤ} {body : ExerciseBody} {entitled : Bool}
    (hok : s.exercise actionId body entitled env = .ok s') :
    ∃ p : NewParcel, s' = s.insertRow p.row ∧ p.date = body.date ∧
      (p.currency.isAud = true ∨ p.figures.costBase = 0 ∨
        statedOrImported env body.fxRate p.currency body.date p.fxRate) := by
  unfold exercise at hok
  obtain ⟨_, -, hok⟩ := bind_ok hok
  obtain ⟨_, -, hok⟩ := bind_ok hok
  obtain ⟨_, -, hok⟩ := bind_ok hok
  obtain ⟨action, -, hok⟩ := bind_ok hok
  obtain ⟨t, -, hok⟩ := bind_ok hok
  obtain ⟨_, -, hok⟩ := bind_ok hok
  obtain ⟨_, -, hok⟩ := bind_ok hok
  obtain ⟨_, -, hok⟩ := bind_ok hok
  obtain ⟨cost, hsum, hok⟩ := bind_ok hok
  obtain ⟨rate, hrate, hok⟩ := bind_ok hok
  obtain rfl := Except.ok.inj hok
  refine ⟨_, rfl, rfl, ?_⟩
  cases hstated : body.fxRate with
  | some r =>
    rw [hstated] at hrate
    exact .inr (.inr (.inl (congrArg some (Except.ok.inj hrate))))
  | none =>
    rw [hstated] at hrate
    rcases sellRate_ok hrate with haud | hnil | himported
    · exact .inl haud
    · -- the sum the code takes for nil is the parcel's own cost base
      obtain ⟨-, hcosts⟩ := checkedCostBase_some (orRefuse_ok.mp hsum)
      refine .inr (.inl ?_)
      rw [of_decide_eq_true hnil] at hcosts
      simpa [Term.figure, NewParcel.figures, AmountsCheck.costBase] using hcosts.symm
    · exact .inr (.inr (.inr himported))

theorem vest_ok {statement : ℤ} (hok : s.vest statement env = .ok s') :
    ∃ p : NewParcel, s' = s.insertRow p.row ∧ (p.currency.isAud = true ∨
      statedOrImported env ((s.statement? statement).bind EssStatement.fxRate) p.currency p.date
        p.fxRate) := by
  unfold vest at hok
  obtain ⟨e, he, hok⟩ := bind_ok hok
  obtain ⟨_, -, hok⟩ := bind_ok hok
  obtain ⟨_, -, hok⟩ := bind_ok hok
  obtain ⟨rate, hrate, hok⟩ := bind_ok hok
  obtain rfl := Except.ok.inj hok
  refine ⟨_, rfl, ?_⟩
  rw [orRefuse_ok.mp he, Option.bind_some]
  cases hstated : e.fxRate with
  | some r =>
    rw [hstated] at hrate
    exact .inr (.inl (congrArg some (Except.ok.inj hrate)))
  | none =>
    rw [hstated] at hrate
    exact (resolveRate_ok (mapError_ok.mp hrate)).imp id .inr

theorem inherit_ok {body : InheritanceBody} (hok : s.inherit body env = .ok s') :
    ∃ p : NewParcel, p.currency = body.recorded.currency ∧ p.fxRate = body.stated.getD 1 ∧
      p.figures.costBase = body.recorded.costBase + body.recorded.lprExpenditure ∧
      s.storeRow ((s.inheritedBuy body.recorded.id).getD (s.plan.lastTrade + 1)) p.row = .ok s' := by
  obtain ⟨_, -, hok⟩ := bind_ok hok
  obtain ⟨_, -, hok⟩ := bind_ok hok
  obtain ⟨_, -, hok⟩ := bind_ok hok
  have hok := mapError_ok.mp hok
  obtain ⟨_, -, hok⟩ := bind_ok hok
  obtain ⟨_, -, hok⟩ := bind_ok hok
  obtain ⟨total, htotal, hok⟩ := bind_ok hok
  obtain ⟨-, rfl⟩ := Inheritance.totalCostBase_some (orRefuse_ok.mp htotal)
  refine ⟨_, rfl, rfl, ?_, hok⟩
  simp [NewParcel.figures, AmountsCheck.costBase, InheritanceBody.row]

theorem carry_source {d : Drawn} {carried : Row × ℚ} (hok : s.carry d = .ok carried) :
    s.row? d.parcel = some carried.1 := by
  unfold carry at hok
  obtain ⟨source, hsource, hok⟩ := bind_ok hok
  obtain ⟨_, -, hok⟩ := bind_ok hok
  obtain ⟨_, -, hok⟩ := bind_ok hok
  obtain rfl := Except.ok.inj hok
  exact orRefuse_ok.mp hsource

theorem exchange_ok {actionId : ℤ} {parcels : List Replaced}
    (hok : s.exchange D actionId parcels env = .ok s') :
    ∃ (sell : Row) (buys : List Row), s' = s.insertRows (sell :: buys) ∧ sell.tradeType = .sell ∧
      (sell.figures.currency.isAud = true ∨ sell.figures.costBase = 0 ∨
        statedOrImported env none sell.figures.currency sell.figures.date sell.figures.fxRate) ∧
      ∀ r ∈ buys, r.tradeType = .buy ∧
        s.carriedFrom (parcels.map Replaced.drawn) r r.figures.fxRate := by
  unfold exchange at hok
  obtain ⟨action, -, hok⟩ := bind_ok hok
  obtain ⟨t, -, hok⟩ := bind_ok hok
  obtain ⟨_, -, hok⟩ := bind_ok hok
  obtain ⟨ns, hns, hok⟩ := bind_ok hok
  obtain ⟨rate, hrate, hok⟩ := bind_ok hok
  obtain ⟨_, -, hok⟩ := bind_ok hok
  obtain rfl := Except.ok.inj hok
  refine ⟨_, _, rfl, rfl, ?_, ?_⟩
  · rcases sellRate_ok hrate with haud | hnil | himported
    · exact .inl haud
    · have hprice := of_decide_eq_true hnil
      refine .inr (.inl ?_)
      simp [TradeBody.row, TradeBody.figures, closingSell, resolveBrokerage, AmountsCheck.costBase, hprice]
    · exact .inr (.inr (.inr himported))
  · intro r hr
    obtain ⟨n, hn, rfl⟩ := List.mem_map.mp hr
    obtain ⟨p, hp, hexchanged⟩ := mem_mapM_ok hns hn
    obtain ⟨carried, hcarry, hexchanged⟩ := bind_ok hexchanged
    obtain ⟨_, -, hexchanged⟩ := bind_ok hexchanged
    obtain rfl := Except.ok.inj hexchanged
    exact ⟨rfl, p.drawn, List.mem_map_of_mem hp, carried.1, carry_source hcarry, rfl, rfl⟩

theorem feeSale_rated {body : TransferBody} {today : NaiveDate} {fee : List TradeBody}
    (hok : feeSale body today env = .ok fee) :
    ∀ b ∈ fee, b.tradeType = .sell ∧ (b.currency.isAud = true ∨
      statedOrImported env body.feeFxRate b.currency b.date b.fxRate) := by
  unfold feeSale at hok
  split at hok
  · obtain rfl := Except.ok.inj hok
    exact fun b hb => absurd hb List.not_mem_nil
  · obtain ⟨price, -, hok⟩ := bind_ok hok
    obtain ⟨rate, hrate, hok⟩ := bind_ok hok
    obtain ⟨_, -, hok⟩ := bind_ok hok
    obtain rfl := Except.ok.inj hok
    intro b hb
    rw [List.mem_singleton.mp hb]
    refine ⟨rfl, ?_⟩
    cases hstated : body.feeFxRate with
    | some r =>
      rw [hstated] at hrate
      exact .inr (.inl (congrArg some (Except.ok.inj hrate)))
    | none =>
      rw [hstated] at hrate
      exact (resolveRate_ok (mapError_ok.mp hrate)).imp id .inr

theorem transfer_ok {body : TransferBody} (hok : s.transfer body env = .ok s') :
    ∃ (sell : Row) (buys fees : List Row), s' = s.insertRows (sell :: buys ++ fees) ∧
      sell.figures.costBase = 0 ∧
      (∀ r ∈ buys, r.tradeType = .buy ∧ s.carriedFrom body.allocations r r.figures.fxRate) ∧
      ∀ r ∈ fees, r.tradeType = .sell ∧ (r.figures.currency.isAud = true ∨
        statedOrImported env body.feeFxRate r.figures.currency r.figures.date r.figures.fxRate) := by
  unfold transfer at hok
  obtain ⟨_, -, hok⟩ := bind_ok hok
  obtain ⟨_, -, hok⟩ := bind_ok hok
  obtain ⟨ins, hins, hok⟩ := bind_ok hok
  obtain ⟨_, -, hok⟩ := bind_ok hok
  obtain ⟨fee, hfee, hok⟩ := bind_ok hok
  obtain rfl := Except.ok.inj hok
  refine ⟨_, _, _, rfl, ?_, ?_, ?_⟩
  · simp [TradeBody.row, TradeBody.figures, closingSell, resolveBrokerage, AmountsCheck.costBase]
  · intro r hr
    obtain ⟨p, hp, rfl⟩ := List.mem_map.mp hr
    obtain ⟨d, hd, hin⟩ := mem_mapM_ok hins hp
    obtain ⟨carried, hcarry, hin⟩ := bind_ok hin
    obtain ⟨_, -, hin⟩ := bind_ok hin
    obtain rfl := Except.ok.inj hin
    exact ⟨rfl, d, hd, carried.1, carry_source hcarry, rfl, rfl⟩
  · intro r hr
    obtain ⟨b, hb, rfl⟩ := List.mem_map.mp hr
    exact feeSale_rated hfee b hb

end Written

/-! ### Ids the sequence has issued -/

def Numbered (s : Desk) : Prop := ∀ r ∈ s.trades, r.id ≤ s.plan.lastTrade

theorem Numbered.withPlan {s : Desk} (hs : s.Numbered) {plan : Drp.Register}
    (hle : s.plan.lastTrade ≤ plan.lastTrade) : ({ s with plan } : Desk).Numbered :=
  fun r hr => (hs r hr).trans hle

theorem lastTrade_insertRow (s : Desk) (draft : Row) :
    (s.insertRow draft).plan.lastTrade = s.plan.lastTrade + 1 :=
  max_eq_right (lt_add_one _).le

theorem Numbered.insertRow {s : Desk} (hs : s.Numbered) (draft : Row) :
    (s.insertRow draft).Numbered := by
  intro r hr
  rw [lastTrade_insertRow]
  rcases List.mem_append.mp hr with hr | hr
  · exact (hs r hr).trans (lt_add_one _).le
  · rw [List.mem_singleton.mp hr]

theorem Numbered.insertRows {s : Desk} (hs : s.Numbered) (drafts : List Row) :
    (s.insertRows drafts).Numbered := by
  unfold Desk.insertRows
  induction drafts generalizing s with
  | nil => exact hs
  | cons d ds ih => exact ih (hs.insertRow d)

theorem Numbered.storeRow {s s' : Desk} (hs : s.Numbered) {id : TradeId} {draft : Row}
    (hok : s.storeRow id draft = .ok s') : s'.Numbered := by
  unfold Desk.storeRow at hok
  obtain ⟨plan, hplan, hok⟩ := bind_ok hok
  obtain rfl := Except.ok.inj hok
  have hplan := mapError_ok.mp hplan
  unfold Drp.Register.writeTrade at hplan
  obtain ⟨_, -, hplan⟩ := bind_ok hplan
  obtain rfl := Except.ok.inj hplan
  intro r hr
  rcases Keyed.mem_put.mp hr with ⟨hold, -⟩ | rfl
  · exact (hs r hold).trans (le_max_left _ _)
  · exact le_max_right _ _

theorem lastTrade_reinvest {s s' : Drp.Register} {id : ℤ} {body : Drp.ReinvestBody}
    {env : Drp.Surroundings} (h : s.reinvest id body env = .ok s') : s.lastTrade ≤ s'.lastTrade := by
  obtain ⟨_, _, _, -, -, -, -, -, rfl⟩ := Drp.Register.reinvest_ok h
  exact (lt_add_one _).le

theorem Numbered.plan_ok {s s' : Desk} (hs : s.Numbered) {plan : Except Drp.WriteError Drp.Register}
    (hle : ∀ p, plan = .ok p → s.plan.lastTrade ≤ p.lastTrade) (hok : s.withPlan plan = .ok s') :
    s'.Numbered := by
  unfold Desk.withPlan at hok
  obtain ⟨p, hp, hok⟩ := bind_ok hok
  obtain rfl := Except.ok.inj hok
  exact hs.withPlan (hle p (mapError_ok.mp hp))

theorem Numbered.write {D : DecimalRounding} {s s' : Desk} {env : Surroundings} {w : Write}
    (hs : s.Numbered) (hok : s.write D env w = .ok s') : s'.Numbered := by
  cases w with
  | putTrade id body =>
    obtain ⟨_, -, hok⟩ := bind_ok hok
    obtain ⟨_, -, hok⟩ := bind_ok hok
    exact hs.storeRow hok
  | deleteTrades gone =>
    obtain rfl := Except.ok.inj hok
    exact fun r hr => hs r (List.mem_filter.mp hr).1
  | recomputeSettlements =>
    obtain rfl := Except.ok.inj hok
    intro r hr
    obtain ⟨q, hq, rfl⟩ := List.mem_map.mp hr
    have hid : (resettle env q).id = q.id := by
      unfold resettle
      split <;> rfl
    exact hid ▸ hs q hq
  | operationSell provenance body =>
    obtain ⟨_, -, hok⟩ := bind_ok hok
    obtain rfl := Except.ok.inj hok
    exact hs.insertRow _
  | transfer body =>
    obtain ⟨_, -, hok⟩ := bind_ok hok
    obtain ⟨_, -, hok⟩ := bind_ok hok
    obtain ⟨_, -, hok⟩ := bind_ok hok
    obtain ⟨_, -, hok⟩ := bind_ok hok
    obtain ⟨_, -, hok⟩ := bind_ok hok
    obtain rfl := Except.ok.inj hok
    exact hs.insertRows _
  | exchange action parcels =>
    obtain ⟨_, -, hok⟩ := bind_ok hok
    obtain ⟨_, -, hok⟩ := bind_ok hok
    obtain ⟨_, -, hok⟩ := bind_ok hok
    obtain ⟨_, -, hok⟩ := bind_ok hok
    obtain ⟨_, -, hok⟩ := bind_ok hok
    obtain ⟨_, -, hok⟩ := bind_ok hok
    obtain rfl := Except.ok.inj hok
    exact hs.insertRows _
  | demerge action parcels =>
    obtain ⟨_, -, hok⟩ := bind_ok hok
    obtain ⟨_, -, hok⟩ := bind_ok hok
    obtain ⟨_, -, hok⟩ := bind_ok hok
    obtain ⟨_, -, hok⟩ := bind_ok hok
    obtain ⟨_, -, hok⟩ := bind_ok hok
    obtain rfl := Except.ok.inj hok
    exact hs.insertRows _
  | exercise action body entitled =>
    obtain ⟨p, rfl, -⟩ := exercise_ok hok
    exact hs.insertRow _
  | putStatement e =>
    obtain ⟨_, -, hok⟩ := bind_ok hok
    obtain rfl := Except.ok.inj hok
    exact hs
  | deleteStatement id =>
    obtain rfl := Except.ok.inj hok
    exact hs
  | vest id =>
    obtain ⟨p, rfl, -⟩ := vest_ok hok
    exact hs.insertRow _
  | putInheritance i =>
    obtain ⟨_, -, hok⟩ := bind_ok hok
    obtain ⟨_, -, hok⟩ := bind_ok hok
    obtain ⟨_, -, hok⟩ := bind_ok hok
    exact hs.storeRow hok
  | putAction a =>
    obtain ⟨_, -, hok⟩ := bind_ok hok
    obtain rfl := Except.ok.inj hok
    exact hs
  | deleteAction id =>
    obtain rfl := Except.ok.inj hok
    exact hs
  | reinvest income body plan =>
    obtain ⟨_, -, hok⟩ := bind_ok hok
    obtain ⟨p, hp, hok⟩ := bind_ok hok
    obtain rfl := Except.ok.inj hok
    exact hs.withPlan (lastTrade_reinvest (mapError_ok.mp hp))
  | unreinvest income plan =>
    refine hs.plan_ok (fun p hp => ?_) hok
    obtain ⟨_, -, hp⟩ := bind_ok hp
    obtain ⟨_, -, hp⟩ := bind_ok hp
    obtain ⟨_, -, hp⟩ := bind_ok hp
    obtain ⟨_, -, hp⟩ := bind_ok hp
    obtain ⟨_, -, hp⟩ := bind_ok hp
    obtain rfl := Except.ok.inj hp
    exact le_rfl
  | recordIncome body =>
    refine hs.plan_ok (fun p hp => ?_) hok
    unfold Drp.Register.recordIncome at hp
    dsimp only at hp
    split at hp
    · cases hp
    · obtain rfl := Except.ok.inj hp
      exact le_rfl
  | deleteIncome id =>
    refine hs.plan_ok (fun p hp => ?_) hok
    obtain ⟨_, -, hp⟩ := bind_ok hp
    obtain ⟨_, -, hp⟩ := bind_ok hp
    obtain rfl := Except.ok.inj hp
    exact le_rfl
  | writePeriod q =>
    refine hs.plan_ok (fun p hp => ?_) hok
    obtain ⟨_, -, hp⟩ := bind_ok hp
    obtain ⟨_, -, hp⟩ := bind_ok hp
    obtain rfl := Except.ok.inj hp
    exact le_rfl
  | deletePeriod id =>
    refine hs.plan_ok (fun p hp => ?_) hok
    obtain ⟨_, -, hp⟩ := bind_ok hp
    obtain ⟨_, -, hp⟩ := bind_ok hp
    obtain rfl := Except.ok.inj hp
    exact le_rfl

theorem numbered_empty (start : NaiveDate) : (empty start).Numbered :=
  fun _ h => absurd h List.not_mem_nil

theorem numbered_run {D : DecimalRounding} {s s' : Desk} {es : List Entry} (hs : s.Numbered)
    (hrun : run D s es = .ok s') : s'.Numbered := by
  induction es generalizing s with
  | nil =>
    obtain rfl : s = s' := Except.ok.inj hrun
    exact hs
  | cons e es ih =>
    obtain ⟨m, hm, hrest⟩ := GuardedRun.run_cons.mp hrun
    have htick : (s.tick e.days).Numbered := hs
    exact ih (htick.write hm) hrest

/-! ### The trades created -/

section Created
variable {s s' : Desk} {good : Row → Prop}

/-- Rows beyond an id, as rows are inserted past it. -/
theorem insertRows_beyond {bound : TradeId} (hgood : ∀ r id, good { r with id } ↔ good r)
    (hbound : bound ≤ s.plan.lastTrade) (drafts : List Row) :
    (∀ r ∈ (s.insertRows drafts).trades, bound < r.id → good r) ↔
      (∀ r ∈ s.trades, bound < r.id → good r) ∧ ∀ d ∈ drafts, good d := by
  unfold Desk.insertRows
  induction drafts generalizing s with
  | nil => simp
  | cons d ds ih =>
    have hnext : bound ≤ (s.insertRow d).plan.lastTrade := by
      rw [lastTrade_insertRow]
      exact hbound.trans (lt_add_one _).le
    have hrow : (∀ r ∈ (s.insertRow d).trades, bound < r.id → good r) ↔
        (∀ r ∈ s.trades, bound < r.id → good r) ∧ good d := by
      refine (List.forall_mem_append).trans (and_congr_right fun _ => ?_)
      rw [List.forall_mem_singleton, hgood]
      exact ⟨fun h => h (Int.lt_add_one_of_le hbound), fun h _ => h⟩
    rw [List.foldl_cons, ih hnext, hrow, List.forall_mem_cons, and_assoc]

theorem created_insertRows (hs : s.Numbered) (hgood : ∀ r id, good { r with id } ↔ good r)
    (drafts : List Row) :
    (∀ r ∈ s.created (s.insertRows drafts), good r) ↔ ∀ d ∈ drafts, good d := by
  have hold : ∀ r ∈ s.trades, s.plan.lastTrade < r.id → good r :=
    fun r hr hlt => absurd hlt (not_lt.mpr (hs r hr))
  have hplan : ∀ t ∈ (s.insertRows drafts).plan.trades, ¬ s.plan.lastTrade < t.id := by
    intro t ht
    rw [(s.insertRows_frame drafts).2.2] at ht
    exact not_lt.mpr (s.plan.trades_known t ht)
  have hbeyond := (insertRows_beyond hgood le_rfl drafts).trans (and_iff_right hold)
  rw [← hbeyond]
  constructor
  · intro h r hr hlt
    exact h r (List.mem_filter.mpr ⟨List.mem_append_left _ hr, decide_eq_true hlt⟩)
  · intro h r hr
    obtain ⟨hmem, hlt⟩ := List.mem_filter.mp hr
    have hlt := of_decide_eq_true hlt
    rcases List.mem_append.mp hmem with hmem | hmem
    · exact h r hmem hlt
    · obtain ⟨t, ht, rfl⟩ := List.mem_map.mp hmem
      exact absurd hlt (hplan t ht)

/-- A row stored at a new id is created, one stored at an issued id is not. -/
theorem created_storeRow (hs : s.Numbered) (hgood : ∀ r id, good { r with id } ↔ good r)
    {id : Option TradeId} (hid : ∀ i ∈ id, i ≤ s.plan.lastTrade) {draft : Row}
    (hok : s.storeRow (id.getD (s.plan.lastTrade + 1)) draft = .ok s') :
    (∀ r ∈ s.created s', good r) ↔ id.isSome = true ∨ good draft := by
  unfold storeRow at hok
  obtain ⟨plan, hplan, hok⟩ := bind_ok hok
  obtain rfl := Except.ok.inj hok
  have hplan := mapError_ok.mp hplan
  unfold Drp.Register.writeTrade at hplan
  obtain ⟨_, -, hplan⟩ := bind_ok hplan
  obtain rfl := Except.ok.inj hplan
  have hmem : ∀ r, r ∈ s.created { s with
      trades := Keyed.put Row.id s.trades { draft with id := id.getD (s.plan.lastTrade + 1) }
      plan := s.plan.noteTrade (id.getD (s.plan.lastTrade + 1)) } ↔
        r = { draft with id := id.getD (s.plan.lastTrade + 1) } ∧
          s.plan.lastTrade < id.getD (s.plan.lastTrade + 1) := by
    intro r
    refine List.mem_filter.trans ?_
    rw [decide_eq_true_eq]
    constructor
    · rintro ⟨hr, hlt⟩
      rcases List.mem_append.mp hr with hr | hr
      · rcases Keyed.mem_put.mp hr with ⟨hold, -⟩ | rfl
        · exact absurd hlt (not_lt.mpr (hs r hold))
        · exact ⟨rfl, hlt⟩
      · obtain ⟨t, ht, rfl⟩ := List.mem_map.mp hr
        exact absurd hlt (not_lt.mpr (s.plan.trades_known t ht))
    · rintro ⟨rfl, hlt⟩
      exact ⟨List.mem_append_left _ (Keyed.mem_put.mpr (.inr rfl)), hlt⟩
  have hall : (∀ r ∈ s.created { s with
      trades := Keyed.put Row.id s.trades { draft with id := id.getD (s.plan.lastTrade + 1) }
      plan := s.plan.noteTrade (id.getD (s.plan.lastTrade + 1)) }, good r) ↔
        (s.plan.lastTrade < id.getD (s.plan.lastTrade + 1) → good draft) := by
    constructor
    · intro h hlt
      exact (hgood _ _).mp (h _ ((hmem _).mpr ⟨rfl, hlt⟩))
    · intro h r hr
      obtain ⟨rfl, hlt⟩ := (hmem r).mp hr
      exact (hgood _ _).mpr (h hlt)
  refine hall.trans ?_
  cases id with
  | none => simp
  | some i =>
    have hle : ¬ s.plan.lastTrade < i := not_lt.mpr (hid i rfl)
    simp [hle]

end Created

theorem row_resplit (p : Drp.DrpEnrolment) (walk : List Drp.Payment) (t : Drp.DrpTrade) :
    (reinvestedParcel (Drp.Register.resplit p walk t)).row = (reinvestedParcel t).row := by
  unfold Drp.Register.resplit
  split
  · rfl
  · rfl

/-- What a reinvestment creates: one parcel, at the rate stated or at 1. -/
theorem reinvest_ok {s s' : Desk} {income : ℤ} {body : Drp.ReinvestBody} {plan : Drp.Surroundings}
    (hs : s.Numbered) (hok : s.reinvest income body plan = .ok s') :
    ∃ (i : Drp.Income) (cash quantity : ℚ) (p : NewParcel), s.plan.income income = some i ∧
      available s.plan income body = some cash ∧ 0 < body.reinvestmentPrice ∧
      ((∃ u ∈ body.units, quantity = u.value ∧ 0 < u.value) ∨
        body.units = none ∧ quantity = ⌊cash / body.reinvestmentPrice⌋) ∧
      p.currency = plan.listingCurrency i.listing ∧ p.date = body.date.getD i.datePaid ∧
      p.fxRate = body.fxRate.getD 1 ∧ p.figures.costBase = body.reinvestmentPrice * quantity ∧
      ∀ r, r ∈ s.created s' ↔ r = { p.row with id := s.plan.lastTrade + 1 } := by
  unfold reinvest at hok
  obtain ⟨_, -, hok⟩ := bind_ok hok
  obtain ⟨after, hplan, hok⟩ := bind_ok hok
  obtain rfl := Except.ok.inj hok
  have hplan := mapError_ok.mp hplan
  obtain ⟨hprice, -, hunits⟩ := reinvest_checked hplan
  obtain ⟨i, period, a, hincome, -, hperiod, -, hallot, rfl⟩ := Drp.Register.reinvest_ok hplan
  have hcash : available s.plan income body =
      some (i.netCashReceived + s.plan.broughtForward period (body.date.getD i.datePaid)) := by
    rw [available, hincome, Option.bind_some, hperiod, Option.map_some]
  refine ⟨i, _, a.quantity, reinvestedParcel (Drp.Register.parcel i (plan.listingCurrency i.listing)
    (body.date.getD i.datePaid) body a (s.plan.broughtForward period (body.date.getD i.datePaid))
    (period.residualSplit a.leftover .tail)), hincome, hcash, hprice, ?_, rfl, rfl, rfl, ?_, ?_⟩
  · rcases allot_cases hallot with ⟨u, hu, hquantity, -⟩ | ⟨hu, hquantity, -⟩
    · exact .inl ⟨u, hu, hquantity, hunits u hu⟩
    · exact .inr ⟨hu, hquantity⟩
  · simp [reinvestedParcel, NewParcel.figures, AmountsCheck.costBase, Drp.Register.parcel]
  · intro r
    rw [created, List.mem_filter, decide_eq_true_eq]
    constructor
    · rintro ⟨hr, hlt⟩
      rcases List.mem_append.mp hr with hr | hr
      · exact absurd hlt (not_lt.mpr (hs r hr))
      · obtain ⟨t, ht, rfl⟩ := List.mem_map.mp hr
        obtain ⟨u, hu, rfl⟩ := List.mem_map.mp ht
        rw [row_resplit, Drp.Register.resplit_id] at *
        rcases (@Drp.Register.mem_join_trades _ _ i _ _).mp hu with hold | rfl
        · exact absurd hlt (not_lt.mpr (s.plan.trades_known u hold))
        · rfl
    · rintro rfl
      refine ⟨List.mem_append_right _ (List.mem_map.mpr ⟨_, List.mem_map_of_mem
        ((@Drp.Register.mem_join_trades _ _ i _ _).mpr (.inr rfl)), ?_⟩), lt_add_one _⟩
      rw [row_resplit, Drp.Register.resplit_id]
      rfl

/-! ### The condition -/

section Condition
variable {D : DecimalRounding} {s s' : Desk} {env : Surroundings}

theorem participate_rated (hs : s.Numbered) {actionId : ℤ} {body : ParticipationBody}
    (hok : s.participate actionId body env = .ok s') :
    (∀ r ∈ s.created s', s.Honest env (.participate actionId body) r) ↔
      s.statesRate env (.participate actionId body) = true := by
  obtain ⟨action, t, haction, hterms, rfl⟩ := participate_ok hok
  refine (created_insertRows hs (fun _ _ => Iff.rfl) [_]).trans ?_
  have hcost : ((participationSell action.val t body).row (some (.buybackAction actionId))
      env).figures.costBase = t.proceedsPerUnit * body.units := by
    simp [TradeBody.row, TradeBody.figures, participationSell, resolveBrokerage, AmountsCheck.costBase]
  rw [List.forall_mem_singleton, honest_iff, hcost, statesRate, haction, Option.all_some, hterms,
    Option.all_some, Bool.or_eq_true, decide_eq_true_eq, rateGiven_iff]
  exact or_left_comm

theorem exercise_rated (hs : s.Numbered) {actionId : ℤ} {body : ExerciseBody} {entitled : Bool}
    (hok : s.exercise actionId body entitled env = .ok s') :
    ∀ r ∈ s.created s', s.Honest env (.exercise actionId body entitled) r := by
  obtain ⟨p, rfl, hdate, hrated⟩ := exercise_ok hok
  refine (created_insertRows hs (fun _ _ => Iff.rfl) [p.row]).mpr (List.forall_mem_singleton.mpr ?_)
  rw [← hdate] at hrated
  exact honest_iff.mpr hrated

theorem vest_rated (hs : s.Numbered) {statement : ℤ} (hok : s.vest statement env = .ok s') :
    ∀ r ∈ s.created s', s.Honest env (.vest statement) r := by
  obtain ⟨p, rfl, hrated⟩ := vest_ok hok
  refine (created_insertRows hs (fun _ _ => Iff.rfl) [p.row]).mpr (List.forall_mem_singleton.mpr ?_)
  exact honest_iff.mpr (hrated.imp id .inr)

/-- The Buy an inheritance wrote has an id the sequence has issued. -/
theorem inheritedBuy_issued (hs : s.Numbered) (id : ℤ) :
    ∀ buy ∈ s.inheritedBuy id, buy ≤ s.plan.lastTrade := by
  intro buy hbuy
  obtain ⟨r, hr, rfl⟩ := Option.map_eq_some_iff.mp hbuy
  exact hs r (List.mem_of_find?_eq_some hr)

theorem inherit_rated (hs : s.Numbered) {body : InheritanceBody}
    (hok : s.inherit body env = .ok s') :
    (∀ r ∈ s.created s', s.Honest env (.inherit body) r) ↔
      s.statesRate env (.inherit body) = true := by
  obtain ⟨p, hcurrency, hrate, hcost, hstore⟩ := inherit_ok hok
  refine (created_storeRow hs (fun _ _ => Iff.rfl) (inheritedBuy_issued hs _) hstore).trans ?_
  rw [statesRate, Bool.or_eq_true, Bool.or_eq_true, decide_eq_true_eq, rateGiven_iff]
  refine or_congr_right (honest_iff.trans ?_)
  change p.currency.isAud = true ∨ p.figures.costBase = 0 ∨
    statedOrImported env body.stated p.currency (conversionDate body.recorded) p.fxRate ↔ _
  rw [hcost, hcurrency, hrate]
  exact or_left_comm

theorem reinvest_rated (hs : s.Numbered) {income : ℤ} {body : Drp.ReinvestBody}
    {plan : Drp.Surroundings} (hok : s.reinvest income body plan = .ok s') :
    (∀ r ∈ s.created s', s.Honest env (.reinvest income body plan) r) ↔
      s.statesRate env (.reinvest income body plan) = true := by
  obtain ⟨i, cash, quantity, p, hincome, hcash, hprice, hquantity, hcurrency, hdate, hrate, hcost,
    hcreated⟩ := reinvest_ok hs hok
  have hnil : p.figures.costBase = 0 ↔ (body.units.isNone && (available s.plan income body).all
      fun cash => ⌊cash / body.reinvestmentPrice⌋ = 0) = true := by
    rw [hcost, mul_eq_zero, or_iff_right hprice.ne', hcash, Option.all_some, Bool.and_eq_true,
      decide_eq_true_eq]
    rcases hquantity with ⟨u, hu, rfl, hpos⟩ | ⟨hu, rfl⟩
    · rw [Option.mem_def.mp hu]
      exact iff_of_false hpos.ne' fun h => Bool.false_ne_true h.1
    · rw [hu, Int.cast_eq_zero]
      exact (and_iff_right rfl).symm
  have hone : (∀ r ∈ s.created s', s.Honest env (.reinvest income body plan) r) ↔
      s.Honest env (.reinvest income body plan) p.row := by
    constructor
    · intro h
      have hrow := h { p.row with id := s.plan.lastTrade + 1 } ((hcreated _).mpr rfl)
      exact hrow
    · intro h r hr
      rw [(hcreated r).mp hr]
      exact h
  rw [hone, honest_iff, statesRate, hincome, Option.all_some, Bool.or_eq_true, rateGiven_iff, ← hnil]
  change p.currency.isAud = true ∨ p.figures.costBase = 0 ∨
    statedOrImported env body.fxRate p.currency p.date p.fxRate ↔ _
  rw [hcurrency, hdate, hrate]
  exact or_left_comm

theorem exchange_rated (hs : s.Numbered) {actionId : ℤ} {parcels : List Replaced}
    (hok : s.exchange D actionId parcels env = .ok s') :
    ∀ r ∈ s.created s', s.Honest env (.exchange actionId parcels) r := by
  obtain ⟨sell, buys, rfl, htype, hsell, hbuys⟩ := exchange_ok hok
  refine (created_insertRows hs (fun _ _ => Iff.rfl) _).mpr (List.forall_mem_cons.mpr ⟨?_, ?_⟩)
  · refine honest_iff.mpr (hsell.imp id (Or.imp id fun h => ?_))
    rw [Rated, if_pos htype]
    exact h
  · intro r hr
    obtain ⟨hbuy, hcarried⟩ := hbuys r hr
    refine honest_iff.mpr (.inr (.inr ?_))
    rw [Rated, if_neg (by rw [hbuy]; decide)]
    exact hcarried

theorem transfer_rated (hs : s.Numbered) {body : TransferBody} (hok : s.transfer body env = .ok s') :
    ∀ r ∈ s.created s', s.Honest env (.transfer body) r := by
  obtain ⟨sell, buys, fees, rfl, hsell, hbuys, hfees⟩ := transfer_ok hok
  refine (created_insertRows hs (fun _ _ => Iff.rfl) _).mpr (List.forall_mem_append.mpr
    ⟨List.forall_mem_cons.mpr ⟨honest_iff.mpr (.inr (.inl hsell)), ?_⟩, ?_⟩)
  · intro r hr
    obtain ⟨hbuy, hcarried⟩ := hbuys r hr
    refine honest_iff.mpr (.inr (.inr ?_))
    rw [Rated, if_neg (by rw [hbuy]; decide)]
    exact hcarried
  · intro r hr
    obtain ⟨htype, hrated⟩ := hfees r hr
    refine honest_iff.mpr (hrated.imp id fun h => .inr ?_)
    rw [Rated, if_pos htype]
    exact h

end Condition

/-- On a reachable desk, every trade an accepted operation creates has a rate
stated for it or imported for its month, and is converted by a report at such a
rate or the month's own, exactly where the operation states its rate or is not
one of the three that leave it at 1. -/
theorem created_trades_rated (D : DecimalRounding) (start : NaiveDate) (es : List Entry) (s s' : Desk)
    (hrun : run D (empty start) es = .ok s) (env : Surroundings) (op : Operation)
    (hok : s.perform D env op = .ok s') :
    (∀ r ∈ s.created s', s.Honest env op r) ↔ s.statesRate env op = true := by
  have hs : s.Numbered := numbered_run (numbered_empty start) hrun
  cases op with
  | participate actionId body => exact participate_rated hs hok
  | exercise actionId body entitled => exact iff_of_true (exercise_rated hs (mapError_ok.mp hok)) rfl
  | vest statement => exact iff_of_true (vest_rated hs (mapError_ok.mp hok)) rfl
  | inherit body => exact inherit_rated hs hok
  | reinvest income body plan => exact reinvest_rated hs (mapError_ok.mp hok)
  | exchange actionId parcels => exact iff_of_true (exchange_rated hs (mapError_ok.mp hok)) rfl
  | transfer body => exact iff_of_true (transfer_rated hs (mapError_ok.mp hok)) rfl

/-! ### A US buy-back -/

def usdBuy : TradeBody :=
  { buyHundred with
    currency := ⟨"USD"⟩
    brokerageCurrency := ⟨"USD"⟩
    fxRate := 13 / 20 }

def usdBuyBack : Action where
  id := 1
  listing := 1
  date := ymd 2025 3 3
  kind := .buyBack 5 0 0 none ⟨"USD"⟩

def tendered : List Entry := entries [.putTrade none usdBuy, .putAction usdBuyBack]

def tender (rate : Option ℚ) : Operation := .participate 1 ⟨ymd 2025 3 10, 10, [(1, 10)], rate, 1⟩

theorem created_trades_rated_stated : ∃ s s',
    run halfEvenRounding (empty (ymd 2025 4 1)) tendered = .ok s ∧
      s.perform halfEvenRounding settlesInTwo (tender (some (3 / 5))) = .ok s' ∧
      ∀ r ∈ s.created s', s.Honest settlesInTwo (tender (some (3 / 5))) r := by
  have hrun : accepts (run halfEvenRounding (empty (ymd 2025 4 1)) tendered) (fun s =>
      s.statesRate settlesInTwo (tender (some (3 / 5))) &&
        accepts (s.perform halfEvenRounding settlesInTwo (tender (some (3 / 5)))) fun _ => true) = true := by
    decide +kernel
  obtain ⟨s, hs, hall⟩ := accepts_iff.mp hrun
  obtain ⟨hstates, hok⟩ := (Bool.and_eq_true _ _).mp hall
  obtain ⟨s', hs'⟩ := exists_ok hok
  exact ⟨s, s', hs, hs', (created_trades_rated halfEvenRounding (ymd 2025 4 1) tendered s s' hs
    settlesInTwo (tender (some (3 / 5))) hs').mpr hstates⟩

/-- Ten units tendered for US$50 with no rate stated and none imported: the Sell
is stored at 1, and fifty dollars are fifty dollars. -/
theorem participation_invents_parity : ∃ s s',
    run halfEvenRounding (empty (ymd 2025 4 1)) tendered = .ok s ∧
      s.perform halfEvenRounding settlesInTwo (tender none) = .ok s' ∧
      ∃ r ∈ s.created s', r.figures.currency = ⟨"USD"⟩ ∧ r.figures.costBase = 50 ∧
        r.figures.fxRate = 1 ∧ settlesInTwo.rates.rates (⟨"USD"⟩, .of r.figures.date) = none ∧
        settlesInTwo.rates.toAud 50 r.figures.currency r.figures.date
          (.fallback r.figures.fxRate) = .ok 50 ∧
        ¬ s.Honest settlesInTwo (tender none) r := by
  have hrun : accepts (run halfEvenRounding (empty (ymd 2025 4 1)) tendered) (fun s =>
      accepts (s.perform halfEvenRounding settlesInTwo (tender none)) fun s' =>
        (s.created s').any fun r => decide (r.figures.currency = ⟨"USD"⟩) &&
          (decide (r.figures.costBase = 50) && decide (r.figures.fxRate = 1))) = true := by
    decide +kernel
  obtain ⟨s, hs, hok⟩ := accepts_iff.mp hrun
  obtain ⟨s', hs', hcreated⟩ := accepts_iff.mp hok
  obtain ⟨r, hr, hrow⟩ := List.any_eq_true.mp hcreated
  simp only [Bool.and_eq_true, decide_eq_true_eq] at hrow
  obtain ⟨hcurrency, hcost, hrate⟩ := hrow
  have haud : (⟨"USD"⟩ : CurrencyCode).isAud = false := by decide
  refine ⟨s, s', hs, hs', r, hr, hcurrency, hcost, hrate, rfl, ?_, ?_⟩
  · rw [hcurrency, hrate]
    rfl
  · rw [honest_iff, hcurrency, haud, hcost, hrate]
    rintro (h | h | h | h)
    · cases h
    · norm_num at h
    · cases h
    · cases h

end Desk

end ShareTracker.TradeDesk
