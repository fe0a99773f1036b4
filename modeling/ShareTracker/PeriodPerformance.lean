import ShareTracker.HealthPrices
import ShareTracker.MoneyWeighted
import ShareTracker.PerformanceLegs

/-!
How the portfolio's AUD value changed between two dates: the performance report
run at both, each holding's return split into capital growth, FX movement and
income, and the money-weighted return of the window's flows. Figures are exact here.
-/
namespace ShareTracker.Performance
open ShareTracker.Valuation MoneyWeighted HealthPrices

/-! ### The report's rows -/

/-- `round_dp(4)`. -/
def roundDp4 (x : ℚ) : ℚ := (ScaledRounding.halfEven (x * 10 ^ 4) : ℚ) / 10 ^ 4

/-- A row of the report: a holding's, or the portfolio's. -/
structure HoldingPerformance where
  holding : Option HoldingKey
  quantityHeld : Option ℚ
  invested : ℚ
  proceeds : ℚ
  income : ℚ
  marketValue : Option ℚ
  totalReturn : Option ℚ
  totalReturnPct : Option ℚ
  moneyWeightedReturnPct : Option ℚ
  incomeYieldPct : Option ℚ

section Rows
variable (A : RateArithmetic)

def buildRow (holding : Option HoldingKey) (quantityHeld marketValue : Option ℚ) (isOpen : Bool)
    (acc : Acc) (asOf : NaiveDate) : HoldingPerformance :=
  let valued := !isOpen || marketValue.isSome
  let totalReturn :=
    if valued then some (acc.proceeds + acc.income + marketValue.getD 0 - acc.invested) else none
  let flows := acc.flows ++ (marketValue.map fun mv => (asOf, mv)).toList
  { holding, quantityHeld, marketValue, totalReturn
    invested := acc.invested
    proceeds := acc.proceeds
    income := acc.income
    totalReturnPct := totalReturn.bind fun tr =>
      if 0 < acc.invested then some (roundDp4 (tr / acc.invested * 100)) else none
    moneyWeightedReturnPct :=
      if valued then (A.moneyWeightedAnnualReturn flows).map fun r => roundDp4 (r * 100) else none
    incomeYieldPct := marketValue.bind fun mv =>
      if 0 < mv then some (roundDp4 (acc.trailingIncome / mv * 100)) else none }

/-- What a holding is worth at AUD prices, where it is open and has one. -/
def valueOf (prices : ListingId → Option ℚ) (k : HoldingKey) (acc : Acc) : Option ℚ :=
  if 0 < acc.quantity then (prices k.1).map fun p => acc.quantity * p else none

def holdingRow (prices : ListingId → Option ℚ) (asOf : NaiveDate) (e : HoldingKey × Acc) :
    HoldingPerformance :=
  buildRow A (some e.1) (some e.2.quantity) (valueOf prices e.1 e.2) (decide (0 < e.2.quantity))
    e.2 asOf

/-- The value of every open holding, known where each of them has a price. -/
def overallValue (prices : ListingId → Option ℚ) (held : List (HoldingKey × Acc)) : Option ℚ :=
  let opened := held.filter fun e => 0 < e.2.quantity
  if opened = [] then none
  else opened.foldl (fun total e => total.bind fun t => (valueOf prices e.1 e.2).map (t + ·)) (some 0)

/-- One row a holding, ascending, and the portfolio's. -/
def dbPerformance (r : Records) (prices : ListingId → Option ℚ) (asOf : NaiveDate) :
    Except FxError (List HoldingPerformance) := do
  match ← r.accumulate asOf with
  | none => return []
  | some s =>
    let held := StableSort.sortBy (fun e : HoldingKey × Acc => toLex e.1) s.holdings
    return held.map (holdingRow A prices asOf) ++
      [buildRow A none none (overallValue prices held) (held.any fun e => decide (0 < e.2.quantity))
        s.overall asOf]

end Rows

/-- Every external cash flow up to a date. -/
def overallFlows (r : Records) (asOf : NaiveDate) : Except FxError (List Flow) := do
  return (← r.accumulate asOf).elim [] fun s => s.overall.flows

/-! ### The window -/

structure HoldingPeriod where
  holding : HoldingKey
  openingMarketValue : ℚ
  closingMarketValue : ℚ
  purchases : ℚ
  saleProceeds : ℚ
  income : ℚ
  capitalGrowth : ℚ
  fxMovement : ℚ
  totalReturn : ℚ

structure CurrencyFx where
  currency : CurrencyCode
  fxMovement : ℚ
  rates : Option (ℚ × ℚ)
  provisional : Bool

structure PeriodPerformance where
  openingMarketValue : ℚ
  closingMarketValue : ℚ
  purchases : ℚ
  saleProceeds : ℚ
  income : ℚ
  capitalGrowth : ℚ
  fxMovement : ℚ
  totalReturn : ℚ
  totalReturnPct : Option ℚ
  moneyWeightedReturnPct : Option ℚ
  realisedCapitalGain : ℚ
  provisional : Bool
  priceCarriedForward : Bool
  holdingExcluded : Bool
  excludedHoldings : List ExcludedHolding
  holdings : List HoldingPeriod
  fxByCurrency : List CurrencyFx

inductive PeriodError where
  | notAPeriod (from_ to_ : NaiveDate)
  | valuation (error : ValuationError)
  | fx (error : FxError)

/-- What one read transaction sees: the trades and income, the prices beside
them, and the rows of the realised gains. -/
structure Snapshot where
  book : Book
  store : Store
  gains : List (NaiveDate × ℚ)
  parcels_eq : store.parcels = (book.trades.filter fun t => !t.isSell).map TradeRow.parcel
  allocations_eq : store.allocations = book.allocations
  splits_eq : store.book.splits = book.splits

def Snapshot.records (x : Snapshot) : Records := x.book.records x.store.fx

/-- A date's valuations, or none where nothing was held. -/
def valuationsOrEmpty (s : Store) (clocks : Clocks) (now : Instant) (date : NaiveDate) :
    Except ValuationError StoredValuations :=
  if s.heldMarkets date = [] then .ok ⟨[], []⟩ else (s.valuing clocks now date).valuationsOfMarkets date

def valuationOf (v : StoredValuations) (listing : ListingId) : Option ListingValuation :=
  v.valuations.find? fun row => row.listing = listing

def pricesOf (v : StoredValuations) (listing : ListingId) : Option ℚ :=
  (valuationOf v listing).map ListingValuation.audPrice

/-- The holdings left out at either end, each listing once. -/
def excludedAt (opening closing : StoredValuations) : List ExcludedHolding :=
  (opening.excluded ++ closing.excluded).foldl
    (fun seen x => if seen.any fun y => decide (y.listing = x.listing) then seen else seen ++ [x]) []

def rowOf (rows : List HoldingPerformance) (k : HoldingKey) : Option HoldingPerformance :=
  rows.find? fun row => row.holding = some k

/-- The holdings with a row at either end, ascending. -/
def endpointKeys (opening closing : List HoldingPerformance) : List HoldingKey :=
  StableSort.sortBy (fun k : HoldingKey => toLex k)
    ((opening ++ closing).filterMap HoldingPerformance.holding).dedup

/-- One holding's FX movement, towards its currency's. -/
structure Contribution where
  currency : CurrencyCode
  movement : ℚ
  rates : ℚ × ℚ
  provisional : Bool

structure CurrencyAcc where
  total : ℚ
  rates : Option (ℚ × ℚ)
  ratesSet : Bool
  provisional : Bool

def CurrencyAcc.default : CurrencyAcc := ⟨0, none, false, false⟩

def CurrencyAcc.add (c : Contribution) (acc : CurrencyAcc) : CurrencyAcc where
  total := acc.total + c.movement
  rates := if acc.ratesSet && acc.rates ≠ some c.rates then none else some c.rates
  ratesSet := true
  provisional := acc.provisional || c.provisional

/-- The closing exposure at the closing rate, less it at the opening rate. -/
def fxContribution (fx : FxRates) (opening closing : StoredValuations) (from_ : NaiveDate)
    (k : HoldingKey) (units : ℚ) : Except FxError (Option Contribution) :=
  if units = 0 then return none
  else
    match valuationOf closing k.1 with
    | none => return none
    | some valTo =>
      if valTo.currency.isAud then return none
      else do
        let rateFrom ←
          match valuationOf opening k.1 with
          | some valFrom => .ok valFrom.rate
          | none => resolveValuationRate fx valTo.currency from_
        let exposure := units * valTo.nativePrice
        return some ⟨valTo.currency,
          applyRate exposure valTo.rate.rate - applyRate exposure rateFrom.rate,
          (rateFrom.rate, valTo.rate.rate), rateFrom.provisional || valTo.rate.provisional⟩

/-- One holding's turn of the loop, from its rows at the two ends. -/
def holdingPeriod (k : HoldingKey) (f t : Option HoldingPerformance)
    (contribution : Option Contribution) : HoldingPeriod :=
  let v0 := (f.bind HoldingPerformance.marketValue).getD 0
  let v1 := (t.bind HoldingPerformance.marketValue).getD 0
  let purchases := t.elim 0 HoldingPerformance.invested - f.elim 0 HoldingPerformance.invested
  let saleProceeds := t.elim 0 HoldingPerformance.proceeds - f.elim 0 HoldingPerformance.proceeds
  let income := t.elim 0 HoldingPerformance.income - f.elim 0 HoldingPerformance.income
  let totalReturn := v1 - v0 + saleProceeds + income - purchases
  let fxMovement := contribution.elim 0 Contribution.movement
  ⟨k, v0, v1, purchases, saleProceeds, income, totalReturn - fxMovement - income, fxMovement,
    totalReturn⟩

def attributeHolding (fx : FxRates) (opening closing : StoredValuations) (from_ : NaiveDate)
    (perfFrom perfTo : List HoldingPerformance) (k : HoldingKey) :
    Except FxError (HoldingPeriod × Option Contribution) := do
  let f := rowOf perfFrom k
  let t := rowOf perfTo k
  let units := (t.bind HoldingPerformance.quantityHeld).getD 0
  let contribution ← fxContribution fx opening closing from_ k units
  return (holdingPeriod k f t contribution, contribution)

def currencyAccs (contributions : List Contribution) : List (CurrencyCode × CurrencyAcc) :=
  contributions.foldl (fun t c => Tally.adjust .default c.currency (CurrencyAcc.add c) t) []

def byCurrency (contributions : List Contribution) : List CurrencyFx :=
  (StableSort.sortBy (fun e => e.1.code) (currencyAccs contributions)).map fun e =>
    ⟨e.1, e.2.total, e.2.rates, e.2.provisional⟩

/-- The external flows of the window, between the values at its two ends. -/
def windowFlows (from_ to_ : NaiveDate) (opening closing : ℚ) (external : List Flow) : List Flow :=
  external.filter (fun f => from_ < f.1) ++ (if opening ≠ 0 then [(from_, -opening)] else []) ++
    if closing ≠ 0 then [(to_, closing)] else []

section Compute
variable (A : RateArithmetic) (clocks : Clocks) (now : Instant) (x : Snapshot)

def assemble (from_ to_ : NaiveDate) (valuedFrom valuedTo : StoredValuations)
    (attributed : List (HoldingPeriod × Option Contribution)) (external : List Flow) :
    PeriodPerformance :=
  let holdings := attributed.map Prod.fst
  let contributions := attributed.filterMap Prod.snd
  let sum (figure : HoldingPeriod → ℚ) : ℚ := (holdings.map figure).sum
  let opening := sum HoldingPeriod.openingMarketValue
  let closing := sum HoldingPeriod.closingMarketValue
  let totalReturn := sum HoldingPeriod.totalReturn
  let valuations := valuedFrom.valuations ++ valuedTo.valuations
  let excludedHoldings := excludedAt valuedFrom valuedTo
  { holdings, excludedHoldings, totalReturn
    openingMarketValue := opening
    closingMarketValue := closing
    purchases := sum HoldingPeriod.purchases
    saleProceeds := sum HoldingPeriod.saleProceeds
    income := sum HoldingPeriod.income
    capitalGrowth := totalReturn - sum HoldingPeriod.fxMovement - sum HoldingPeriod.income
    fxMovement := sum HoldingPeriod.fxMovement
    totalReturnPct := if 0 < opening then some (roundDp4 (totalReturn / opening * 100)) else none
    moneyWeightedReturnPct :=
      (A.moneyWeightedAnnualReturn (windowFlows from_ to_ opening closing external)).map fun r =>
        roundDp4 (r * 100)
    realisedCapitalGain :=
      ((x.gains.filter fun g => from_ < g.1 ∧ g.1 ≤ to_).map Prod.snd).sum
    provisional := (valuations.any fun v => v.rate.provisional) ||
      contributions.any Contribution.provisional
    priceCarriedForward := valuations.any ListingValuation.priceCarriedForward
    holdingExcluded := !excludedHoldings.isEmpty
    fxByCurrency := byCurrency contributions }

def compute (from_ to_ : NaiveDate) : Except PeriodError PeriodPerformance := do
  Checked.refuseIf (to_ ≤ from_) (.notAPeriod from_ to_)
  let valuedFrom ← (valuationsOrEmpty x.store clocks now from_).mapError .valuation
  let valuedTo ← (valuationsOrEmpty x.store clocks now to_).mapError .valuation
  let perfFrom ← (dbPerformance A x.records (pricesOf valuedFrom) from_).mapError .fx
  let perfTo ← (dbPerformance A x.records (pricesOf valuedTo) to_).mapError .fx
  let attributed ← ((endpointKeys perfFrom perfTo).mapM
    (attributeHolding x.store.fx valuedFrom valuedTo from_ perfFrom perfTo)).mapError .fx
  let external ← (overallFlows x.records to_).mapError .fx
  return assemble A x from_ to_ valuedFrom valuedTo attributed external

end Compute

/-! ### The flows of an accumulation -/

section Flows

/-- The external flows of the dates kept. -/
def flowSum (keep : NaiveDate → Bool) (acc : Acc) : ℚ :=
  ((acc.flows.filter fun f => keep f.1).map Prod.snd).sum

theorem flowSum_snoc (keep : NaiveDate → Bool) (flows : List Flow) (date : NaiveDate) (amount : ℚ) :
    (((flows ++ [(date, amount)]).filter fun f => keep f.1).map Prod.snd).sum =
      ((flows.filter fun f => keep f.1).map Prod.snd).sum + if keep date then amount else 0 := by
  rw [List.filter_append, List.map_append, List.sum_append]
  by_cases hkeep : keep date = true <;> simp [hkeep]

/-- What a trade, and an income row, moves in or out of the portfolio. -/
def Records.tradeNet (r : Records) (t : TradeRow) : ℚ :=
  if t.isSell then r.external t else if t.group = none then -r.cost t else 0

def Records.incomeNet (r : Records) (i : Drp.Income) : ℚ :=
  if i.incomeType = .employmentIncome then 0 else r.received i

/-- What the records of the dates kept move in, less what they move out. -/
def Records.windowNet (r : Records) (keep : NaiveDate → Bool) : ℚ :=
  ((r.trades.filter fun t => keep t.date).map r.tradeNet).sum +
    ((r.income.filter fun i => keep i.datePaid).map r.incomeNet).sum

variable {r : Records} {asOf : NaiveDate} {keep : NaiveDate → Bool}

theorem acquire_flows {s s' : Records.Acquisitions} {t : TradeRow} (h : r.acquire asOf s t = .ok s') :
    flowSum keep s'.report.overall = flowSum keep s.report.overall +
      if keep t.date then (if t.group = none then -r.cost t else 0) else 0 := by
  unfold Records.acquire at h
  obtain ⟨cost, hcost, h⟩ := Checked.bind_ok h
  have hc : r.cost t = cost := by rw [Records.cost, hcost]; rfl
  cases hg : t.group with
  | some g =>
    rw [hg] at h
    obtain rfl := Except.ok.inj h
    simp [Accumulated.post]
  | none =>
    rw [hg] at h
    obtain rfl := Except.ok.inj h
    rw [if_pos rfl, hc]
    exact flowSum_snoc keep s.report.overall.flows t.date (-cost)

theorem dispose_flows {costs : List (Group × ℚ)} {s s' : Accumulated} {t : TradeRow}
    (h : r.dispose costs s t = .ok s') :
    flowSum keep s'.overall = flowSum keep s.overall + if keep t.date then r.external t else 0 := by
  unfold Records.external
  rcases Records.dispose_cases h with ⟨g, hg, hprice, rfl⟩ | ⟨g, hg, -, rfl⟩ | ⟨hg, rfl⟩
  · rw [hg, if_neg (Option.some_ne_none g), Records.cash, if_pos hprice, ite_self, add_zero]
    rfl
  · rw [hg, if_neg (Option.some_ne_none g)]
    exact flowSum_snoc keep s.overall.flows t.date (r.cash t)
  · rw [hg, if_pos rfl]
    exact flowSum_snoc keep s.overall.flows t.date (r.net t)

theorem receive_flows {s s' : Accumulated} {i : Drp.Income} (h : r.receive asOf s i = .ok s') :
    flowSum keep s'.overall =
      flowSum keep s.overall + if keep i.datePaid then r.incomeNet i else 0 := by
  unfold Records.receive at h
  unfold Records.incomeNet
  split at h
  · rename_i hwork
    obtain rfl := Except.ok.inj h
    rw [if_pos hwork, ite_self, add_zero]
  · rename_i hwork
    obtain ⟨cash, hcash, h⟩ := Checked.bind_ok h
    have hc : r.received i = cash := by rw [Records.received, hcash]; rfl
    obtain rfl := Except.ok.inj h
    rw [if_neg hwork, hc]
    exact flowSum_snoc keep s.overall.flows i.datePaid cash

/-- A figure moves over a loop by what each turn moves it by. -/
theorem foldlM_sum {σ α : Type} {step : σ → α → Except FxError σ} (m : σ → ℚ) (moves : α → ℚ)
    (hstep : ∀ s a s', step s a = .ok s' → m s' = m s + moves a) {l : List α} {s s' : σ}
    (h : l.foldlM step s = .ok s') : m s' = m s + (l.map moves).sum := by
  induction l generalizing s with
  | nil =>
    obtain rfl : s = s' := Except.ok.inj h
    exact (add_zero _).symm
  | cons a l ih =>
    obtain ⟨mid, hmid, hrest⟩ := Checked.bind_ok h
    rw [ih hrest, hstep s a mid hmid, List.map_cons, List.sum_cons, add_assoc]

/-- What every turn keeps, the loop keeps. -/
theorem foldlM_keeps {σ α : Type} {step : σ → α → Except FxError σ} {P : σ → Prop}
    (hstep : ∀ s a s', step s a = .ok s' → P s → P s') {l : List α} {s s' : σ}
    (h : l.foldlM step s = .ok s') (hs : P s) : P s' := by
  induction l generalizing s with
  | nil =>
    obtain rfl : s = s' := Except.ok.inj h
    exact hs
  | cons a l ih =>
    obtain ⟨mid, hmid, hrest⟩ := Checked.bind_ok h
    exact ih hrest (hstep s a mid hmid hs)

variable (keep) in
/-- The overall flows of the dates kept are what the records of those dates move. -/
theorem accumulate_flows {s : Accumulated} (h : r.accumulate asOf = .ok (some s)) :
    flowSum keep s.overall = r.windowNet fun d => decide (d ≤ asOf) && keep d := by
  unfold Records.accumulate at h
  split at h
  · cases h
  obtain ⟨acquired, hacquired, h⟩ := Checked.bind_ok h
  obtain ⟨disposed, hdisposed, h⟩ := Checked.bind_ok h
  obtain ⟨received, hreceived, h⟩ := Checked.bind_ok h
  obtain rfl : received = s := Option.some.inj (Except.ok.inj h)
  have hbuys := foldlM_sum (fun s : Records.Acquisitions => flowSum keep s.report.overall) _
    (fun _ _ _ h => acquire_flows h) hacquired
  have hsells := foldlM_sum (fun s : Accumulated => flowSum keep s.overall) _
    (fun _ _ _ h => dispose_flows h) hdisposed
  have hincome := foldlM_sum (fun s : Accumulated => flowSum keep s.overall) _
    (fun _ _ _ h => receive_flows h) hreceived
  have htrades : ((r.acquisitions asOf).map fun t =>
        if keep t.date then (if t.group = none then -r.cost t else 0) else 0).sum +
      ((r.sells asOf).map fun t => if keep t.date then r.external t else 0).sum =
        ((r.trades.filter fun t => decide (t.date ≤ asOf) && keep t.date).map r.tradeNet).sum := by
    unfold Records.acquisitions Records.sells Records.tradesBy
    rw [List.filter_filter, List.filter_filter, Tally.sum_filter, Tally.sum_filter, Tally.sum_filter,
      ← List.sum_map_add]
    refine congrArg List.sum (List.map_congr_left fun t _ => ?_)
    unfold Records.tradeNet
    cases hsell : t.isSell <;> by_cases hdate : t.date ≤ asOf <;> by_cases hkeep : keep t.date = true <;>
      simp [hdate, hkeep]
  have hrows : ((r.incomeRows asOf).map fun i => if keep i.datePaid then r.incomeNet i else 0).sum =
      ((r.income.filter fun i => decide (i.datePaid ≤ asOf) && keep i.datePaid).map
        r.incomeNet).sum := by
    unfold Records.incomeRows
    rw [Tally.sum_filter, Tally.sum_filter]
    refine congrArg List.sum (List.map_congr_left fun i _ => ?_)
    by_cases hdate : i.datePaid ≤ asOf <;> simp [hdate]
  rw [hincome, hsells, hbuys, add_assoc (flowSum keep _) _ _, htrades, hrows]
  exact congrArg (· + _) (zero_add _)

/-- The overall figures come to the overall flows. -/
theorem accumulate_overall {s : Accumulated} (h : r.accumulate asOf = .ok (some s)) :
    s.overall.proceeds + s.overall.income - s.overall.invested =
      flowSum (fun _ => true) s.overall := by
  let m : Acc → ℚ := fun a => flowSum (fun _ => true) a - (a.proceeds + a.income - a.invested)
  have hsnoc : ∀ (a : Acc) date amount,
      (((a.flows ++ [(date, amount)]).filter fun _ => true).map Prod.snd).sum =
        flowSum (fun _ => true) a + amount :=
    fun a date amount => flowSum_snoc (fun _ => true) a.flows date amount
  have hinvest : ∀ date cost a, m (Acc.invest date cost a) = m a := by
    intro date cost a
    change (((a.flows ++ [(date, -cost)]).filter fun _ => true).map Prod.snd).sum -
      (a.proceeds + a.income - (a.invested + cost)) = m a
    rw [hsnoc]
    ring
  have hsell : ∀ date amount a, m (Acc.sell date amount a) = m a := by
    intro date amount a
    change (((a.flows ++ [(date, amount)]).filter fun _ => true).map Prod.snd).sum -
      (a.proceeds + amount + a.income - a.invested) = m a
    rw [hsnoc]
    ring
  have hearn : ∀ date cash trailing a, m (Acc.earn date cash trailing a) = m a := by
    intro date cash trailing a
    change (((a.flows ++ [(date, cash)]).filter fun _ => true).map Prod.snd).sum -
      (a.proceeds + (a.income + cash) - a.invested) = m a
    rw [hsnoc]
    ring
  have hdefault : m .default = 0 := by simp [m, flowSum, Acc.default]
  unfold Records.accumulate at h
  split at h
  · cases h
  obtain ⟨acquired, hacquired, h⟩ := Checked.bind_ok h
  obtain ⟨disposed, hdisposed, h⟩ := Checked.bind_ok h
  obtain ⟨received, hreceived, h⟩ := Checked.bind_ok h
  obtain rfl : received = s := Option.some.inj (Except.ok.inj h)
  have hbuys : Posted m [] .default acquired.report := .idle Records.Acquisitions.report
    (fun _ _ _ h => Records.acquire_untouched hdefault hinvest (fun _ _ => rfl) h) hacquired
  have hsells : Posted m [] acquired.report disposed :=
    .idle id (fun _ _ _ h => Records.dispose_untouched hdefault hsell h) hdisposed
  have hincome : Posted m [] disposed received :=
    .idle id (fun _ _ _ h => Records.receive_untouched hdefault hearn h) hreceived
  have hsame : m received.overall = m .default + 0 := ((hbuys.trans hsells).trans hincome).overall
  rw [hdefault, add_zero] at hsame
  exact (sub_eq_zero.mp hsame).symm

/-- Each holding has one entry. -/
theorem accumulate_nodup {s : Accumulated} (h : r.accumulate asOf = .ok (some s)) :
    (s.holdings.map Prod.fst).Nodup := by
  unfold Records.accumulate at h
  split at h
  · cases h
  obtain ⟨acquired, hacquired, h⟩ := Checked.bind_ok h
  obtain ⟨disposed, hdisposed, h⟩ := Checked.bind_ok h
  obtain ⟨received, hreceived, h⟩ := Checked.bind_ok h
  obtain rfl : received = s := Option.some.inj (Except.ok.inj h)
  have hbuys : (acquired.report.holdings.map Prod.fst).Nodup := by
    refine foldlM_keeps (P := fun s : Records.Acquisitions => (s.report.holdings.map Prod.fst).Nodup)
      (fun s t s' h hs => ?_) hacquired List.nodup_nil
    unfold Records.acquire at h
    obtain ⟨cost, -, h⟩ := Checked.bind_ok h
    cases hg : t.group with
    | some g =>
      rw [hg] at h
      obtain rfl := Except.ok.inj h
      exact Tally.nodup_keys_adjust hs
    | none =>
      rw [hg] at h
      obtain rfl := Except.ok.inj h
      exact Tally.nodup_keys_adjust hs
  have hsells : (disposed.holdings.map Prod.fst).Nodup := by
    refine foldlM_keeps (P := fun s : Accumulated => (s.holdings.map Prod.fst).Nodup)
      (fun s t s' h hs => ?_) hdisposed hbuys
    rcases Records.dispose_cases h with ⟨g, -, -, rfl⟩ | ⟨g, -, -, rfl⟩ | ⟨-, rfl⟩
    · exact Tally.nodup_keys_adjust hs
    · exact Tally.nodup_keys_adjust hs
    · exact Tally.nodup_keys_adjust hs
  refine foldlM_keeps (P := fun s : Accumulated => (s.holdings.map Prod.fst).Nodup)
    (fun s i s' h hs => ?_) hreceived hsells
  unfold Records.receive at h
  split at h
  · obtain rfl := Except.ok.inj h
    exact hs
  · obtain ⟨cash, -, h⟩ := Checked.bind_ok h
    obtain rfl := Except.ok.inj h
    exact Tally.nodup_keys_adjust hs

end Flows

/-! ### The figures behind the rows -/

/-- The entries a date's rows are built from. -/
def entries (o : Option Accumulated) : List (HoldingKey × Acc) := o.elim [] Accumulated.holdings

def figuresOf (o : Option Accumulated) (k : HoldingKey) : Acc := Tally.read .default k (entries o)

/-- A figure of every holding, at one end. -/
def heldTotal (o : Option Accumulated) (m : HoldingKey → Acc → ℚ) : ℚ :=
  ((entries o).map fun e => m e.1 e.2).sum

section Figures
variable {A : RateArithmetic} {r : Records} {prices : ListingId → Option ℚ} {asOf : NaiveDate}
  {rows : List HoldingPerformance}

theorem dbPerformance_cases (h : dbPerformance A r prices asOf = .ok rows) :
    ∃ o, r.accumulate asOf = .ok o ∧ ((entries o).map Prod.fst).Nodup ∧
      ∃ portfolio : List HoldingPerformance, (∀ row ∈ portfolio, row.holding = none) ∧
        rows = (StableSort.sortBy (fun e : HoldingKey × Acc => toLex e.1) (entries o)).map
          (holdingRow A prices asOf) ++ portfolio := by
  obtain ⟨o, ho, h⟩ := Checked.bind_ok h
  refine ⟨o, ho, ?_⟩
  cases o with
  | none =>
    obtain rfl := Except.ok.inj h
    exact ⟨List.nodup_nil, [], fun _ hrow => absurd hrow List.not_mem_nil, rfl⟩
  | some s =>
    obtain rfl := Except.ok.inj h
    refine ⟨accumulate_nodup ho, _, fun row hrow => ?_, rfl⟩
    rw [List.mem_singleton.mp hrow]
    rfl

/-- A holding's row is built from its entry, and a holding without a row has none. -/
theorem rowOf_eq {o : Option Accumulated} (hkeys : ((entries o).map Prod.fst).Nodup)
    {portfolio : List HoldingPerformance} (hportfolio : ∀ row ∈ portfolio, row.holding = none)
    (hrows : rows = (StableSort.sortBy (fun e : HoldingKey × Acc => toLex e.1) (entries o)).map
      (holdingRow A prices asOf) ++ portfolio) (k : HoldingKey) :
    rowOf rows k = some (holdingRow A prices asOf (k, figuresOf o k)) ∨
      rowOf rows k = none ∧ figuresOf o k = .default := by
  have hnone : portfolio.find? (fun row => decide (row.holding = some k)) = none :=
    List.find?_eq_none.mpr fun row hrow h => by
      rw [hportfolio row hrow] at h
      exact absurd (of_decide_eq_true h) nofun
  have hfind : rowOf rows k =
      ((StableSort.sortBy (fun e : HoldingKey × Acc => toLex e.1) (entries o)).find?
        fun e => decide (e.1 = k)).map (holdingRow A prices asOf) := by
    rw [rowOf, hrows, List.find?_append, hnone, Option.or_none, List.find?_map]
    refine congrArg (Option.map _) (List.find?_congr fun e _ => ?_)
    exact decide_eq_decide.mpr Option.some_inj
  rw [hfind]
  cases hentry : (StableSort.sortBy (fun e : HoldingKey × Acc => toLex e.1) (entries o)).find?
      fun e => decide (e.1 = k) with
  | none =>
    refine Or.inr ⟨rfl, Tally.read_of_notMem fun hmem => ?_⟩
    obtain ⟨e, he, hk⟩ := List.mem_map.mp hmem
    exact List.find?_eq_none.mp hentry e (StableSort.mem_sortBy.mpr he) (decide_eq_true hk)
  | some e =>
    have he := StableSort.mem_sortBy.mp (List.mem_of_find?_eq_some hentry)
    have hk := List.find?_some hentry
    obtain rfl : e.1 = k := of_decide_eq_true hk
    rw [figuresOf, Tally.read_of_mem hkeys he]
    exact Or.inl rfl

/-- What the rows of one end say of every holding. -/
structure RowsAre (A : RateArithmetic) (r : Records) (prices : ListingId → Option ℚ)
    (asOf : NaiveDate) (rows : List HoldingPerformance) (o : Option Accumulated) : Prop where
  accumulated : r.accumulate asOf = .ok o
  unique : ((entries o).map Prod.fst).Nodup
  listed : ∀ e ∈ entries o, e.1 ∈ rows.filterMap HoldingPerformance.holding
  invested : ∀ k, (rowOf rows k).elim 0 HoldingPerformance.invested = (figuresOf o k).invested
  proceeds : ∀ k, (rowOf rows k).elim 0 HoldingPerformance.proceeds = (figuresOf o k).proceeds
  income : ∀ k, (rowOf rows k).elim 0 HoldingPerformance.income = (figuresOf o k).income
  value : ∀ k, ((rowOf rows k).bind HoldingPerformance.marketValue).getD 0 =
    (valueOf prices k (figuresOf o k)).getD 0

theorem dbPerformance_rows (h : dbPerformance A r prices asOf = .ok rows) :
    ∃ o, RowsAre A r prices asOf rows o := by
  obtain ⟨o, ho, hkeys, portfolio, hportfolio, hrows⟩ := dbPerformance_cases h
  have hrow := rowOf_eq hkeys hportfolio hrows
  refine ⟨o, ho, hkeys, fun e he => ?_, fun k => ?_, fun k => ?_, fun k => ?_, fun k => ?_⟩
  · rw [hrows, List.mem_filterMap]
    refine ⟨holdingRow A prices asOf e, List.mem_append_left _ (List.mem_map_of_mem ?_), rfl⟩
    exact StableSort.mem_sortBy.mpr he
  all_goals
    rcases hrow k with hk | ⟨hk, hfigures⟩
    · rw [hk]
      rfl
    · rw [hk, hfigures]
      rfl

end Figures

/-! ### The window's figures -/

section Window
variable {A : RateArithmetic} {clocks : Clocks} {now : Instant} {x : Snapshot} {from_ to_ : NaiveDate}
  {p : PeriodPerformance}

/-- What a run of the report read on its way to its answer. -/
structure Computed (A : RateArithmetic) (clocks : Clocks) (now : Instant) (x : Snapshot)
    (from_ to_ : NaiveDate) where
  valuedFrom : StoredValuations
  valuedTo : StoredValuations
  perfFrom : List HoldingPerformance
  perfTo : List HoldingPerformance
  attributed : List (HoldingPeriod × Option Contribution)
  external : List Flow
  before : from_ < to_
  valuesFrom : valuationsOrEmpty x.store clocks now from_ = .ok valuedFrom
  valuesTo : valuationsOrEmpty x.store clocks now to_ = .ok valuedTo
  rowsFrom : dbPerformance A x.records (pricesOf valuedFrom) from_ = .ok perfFrom
  rowsTo : dbPerformance A x.records (pricesOf valuedTo) to_ = .ok perfTo
  attributes : (endpointKeys perfFrom perfTo).mapM
    (attributeHolding x.store.fx valuedFrom valuedTo from_ perfFrom perfTo) = .ok attributed
  flows : overallFlows x.records to_ = .ok external

def Computed.answer (c : Computed A clocks now x from_ to_) : PeriodPerformance :=
  assemble A x from_ to_ c.valuedFrom c.valuedTo c.attributed c.external

theorem compute_ok (h : compute A clocks now x from_ to_ = .ok p) :
    ∃ c : Computed A clocks now x from_ to_, p = c.answer := by
  obtain ⟨_, hbefore, h⟩ := Checked.bind_ok h
  obtain ⟨valuedFrom, hvaluedFrom, h⟩ := Checked.bind_ok h
  obtain ⟨valuedTo, hvaluedTo, h⟩ := Checked.bind_ok h
  obtain ⟨perfFrom, hperfFrom, h⟩ := Checked.bind_ok h
  obtain ⟨perfTo, hperfTo, h⟩ := Checked.bind_ok h
  obtain ⟨attributed, hattributed, h⟩ := Checked.bind_ok h
  obtain ⟨external, hexternal, h⟩ := Checked.bind_ok h
  exact ⟨{ valuedFrom, valuedTo, perfFrom, perfTo, attributed, external
           before := not_le.mp (Checked.refuseIf_ok.mp hbefore)
           valuesFrom := Checked.mapError_ok.mp hvaluedFrom
           valuesTo := Checked.mapError_ok.mp hvaluedTo
           rowsFrom := Checked.mapError_ok.mp hperfFrom
           rowsTo := Checked.mapError_ok.mp hperfTo
           attributes := Checked.mapError_ok.mp hattributed
           flows := Checked.mapError_ok.mp hexternal }, (Except.ok.inj h).symm⟩

theorem endpointKeys_nodup (opening closing : List HoldingPerformance) :
    (endpointKeys opening closing).Nodup :=
  (StableSort.sortBy_perm _ _).nodup_iff.mpr (List.nodup_dedup _)

theorem mem_endpointKeys {opening closing : List HoldingPerformance} {k : HoldingKey} :
    k ∈ endpointKeys opening closing ↔ k ∈ opening.filterMap HoldingPerformance.holding ∨
      k ∈ closing.filterMap HoldingPerformance.holding := by
  unfold endpointKeys
  rw [StableSort.mem_sortBy, List.mem_dedup, List.filterMap_append, List.mem_append]

/-- A figure over the keys of the window is the figure over the entries of an end. -/
theorem sum_endpointKeys {r : Records} {prices : ListingId → Option ℚ} {asOf : NaiveDate}
    {opening closing rows : List HoldingPerformance} {o : Option Accumulated}
    (hrows : RowsAre A r prices asOf rows o)
    (hcover : ∀ k ∈ rows.filterMap HoldingPerformance.holding, k ∈ endpointKeys opening closing)
    {m : HoldingKey → Acc → ℚ} (hm : ∀ k, m k .default = 0) :
    ((endpointKeys opening closing).map fun k => m k (figuresOf o k)).sum = heldTotal o m :=
  Tally.sum_read hm (endpointKeys_nodup opening closing) hrows.unique
    fun e he => hcover e.1 (hrows.listed e he)

theorem attributeHolding_ok {fx : FxRates} {opening closing : StoredValuations}
    {perfFrom perfTo : List HoldingPerformance} {k : HoldingKey}
    {turn : HoldingPeriod × Option Contribution}
    (h : attributeHolding fx opening closing from_ perfFrom perfTo k = .ok turn) :
    turn.1 = holdingPeriod k (rowOf perfFrom k) (rowOf perfTo k) turn.2 := by
  obtain ⟨contribution, -, h⟩ := Checked.bind_ok h
  obtain rfl := Except.ok.inj h
  rfl

/-- A figure of the holdings' rows, summed. -/
theorem sum_attributed {fx : FxRates} {opening closing : StoredValuations}
    {perfFrom perfTo : List HoldingPerformance} {keys : List HoldingKey}
    {turns : List (HoldingPeriod × Option Contribution)}
    (h : keys.mapM (attributeHolding fx opening closing from_ perfFrom perfTo) = .ok turns)
    {figure : HoldingPeriod → ℚ} {value : HoldingKey → ℚ}
    (hfigure : ∀ k c, figure (holdingPeriod k (rowOf perfFrom k) (rowOf perfTo k) c) = value k) :
    ((turns.map Prod.fst).map figure).sum = (keys.map value).sum := by
  have hall := Checked.mapM_ok h
  clear h
  induction hall with
  | nil => rfl
  | cons hturn _ ih =>
    rw [List.map_cons, List.map_cons, List.sum_cons, ih, attributeHolding_ok hturn, hfigure,
      List.map_cons, List.sum_cons]

theorem holdingPeriod_of_mem (c : Computed A clocks now x from_ to_) {row : HoldingPeriod}
    (h : row ∈ c.attributed.map Prod.fst) :
    ∃ k f t contribution, row = holdingPeriod k f t contribution := by
  obtain ⟨turn, hturn, rfl⟩ := List.mem_map.mp h
  obtain ⟨k, -, hk⟩ := Checked.mem_mapM_ok c.attributes hturn
  exact ⟨k, _, _, _, attributeHolding_ok hk⟩

/-- A figure the rows add up from others, their sums add up from the others' sums. -/
theorem sum_totalReturn {rows : List HoldingPeriod}
    (h : ∀ row ∈ rows, row.totalReturn = row.closingMarketValue - row.openingMarketValue +
      row.saleProceeds + row.income - row.purchases) :
    (rows.map HoldingPeriod.totalReturn).sum = (rows.map HoldingPeriod.closingMarketValue).sum -
      (rows.map HoldingPeriod.openingMarketValue).sum + (rows.map HoldingPeriod.saleProceeds).sum +
      (rows.map HoldingPeriod.income).sum - (rows.map HoldingPeriod.purchases).sum := by
  rw [← Tally.sum_map_sub, ← List.sum_map_add, ← List.sum_map_add, ← Tally.sum_map_sub]
  exact congrArg List.sum (List.map_congr_left h)

/-- The entries at the two ends, and the window's figures from them. -/
structure WindowTotals (c : Computed A clocks now x from_ to_) (o o' : Option Accumulated) : Prop where
  opened : x.records.accumulate from_ = .ok o
  closed : x.records.accumulate to_ = .ok o'
  openingMarketValue : c.answer.openingMarketValue =
    heldTotal o fun k acc => (valueOf (pricesOf c.valuedFrom) k acc).getD 0
  closingMarketValue : c.answer.closingMarketValue =
    heldTotal o' fun k acc => (valueOf (pricesOf c.valuedTo) k acc).getD 0
  purchases : c.answer.purchases =
    heldTotal o' (fun _ acc => acc.invested) - heldTotal o fun _ acc => acc.invested
  saleProceeds : c.answer.saleProceeds =
    heldTotal o' (fun _ acc => acc.proceeds) - heldTotal o fun _ acc => acc.proceeds
  income : c.answer.income =
    heldTotal o' (fun _ acc => acc.income) - heldTotal o fun _ acc => acc.income
  totalReturn : c.answer.totalReturn = c.answer.closingMarketValue - c.answer.openingMarketValue +
    c.answer.saleProceeds + c.answer.income - c.answer.purchases

theorem Computed.totals (c : Computed A clocks now x from_ to_) : ∃ o o', WindowTotals c o o' := by
  obtain ⟨o, ho⟩ := dbPerformance_rows c.rowsFrom
  obtain ⟨o', ho'⟩ := dbPerformance_rows c.rowsTo
  let keys := endpointKeys c.perfFrom c.perfTo
  have hfrom : ∀ {m : HoldingKey → Acc → ℚ}, (∀ k, m k .default = 0) →
      (keys.map fun k => m k (figuresOf o k)).sum = heldTotal o m :=
    sum_endpointKeys ho fun _ h => mem_endpointKeys.mpr (.inl h)
  have hto : ∀ {m : HoldingKey → Acc → ℚ}, (∀ k, m k .default = 0) →
      (keys.map fun k => m k (figuresOf o' k)).sum = heldTotal o' m :=
    sum_endpointKeys ho' fun _ h => mem_endpointKeys.mpr (.inr h)
  have hmoved : ∀ {figure : HoldingPeriod → ℚ} {m : HoldingKey → Acc → ℚ}, (∀ k, m k .default = 0) →
      (∀ k contribution, figure (holdingPeriod k (rowOf c.perfFrom k) (rowOf c.perfTo k) contribution) =
        m k (figuresOf o' k) - m k (figuresOf o k)) →
      ((c.attributed.map Prod.fst).map figure).sum = heldTotal o' m - heldTotal o m := by
    intro figure m hm hfigure
    rw [sum_attributed c.attributes hfigure, Tally.sum_map_sub, hto hm, hfrom hm]
  refine ⟨o, o', ?_⟩
  exact
    { opened := ho.accumulated
      closed := ho'.accumulated
      openingMarketValue :=
        (sum_attributed c.attributes fun k _ => ho.value k).trans (hfrom fun _ => rfl)
      closingMarketValue :=
        (sum_attributed c.attributes fun k _ => ho'.value k).trans (hto fun _ => rfl)
      purchases :=
        hmoved (fun _ => rfl) fun k _ => congrArg₂ (· - ·) (ho'.invested k) (ho.invested k)
      saleProceeds :=
        hmoved (fun _ => rfl) fun k _ => congrArg₂ (· - ·) (ho'.proceeds k) (ho.proceeds k)
      income := hmoved (fun _ => rfl) fun k _ => congrArg₂ (· - ·) (ho'.income k) (ho.income k)
      totalReturn := sum_totalReturn fun row hrow => by
        obtain ⟨k, f, t, contribution, rfl⟩ := holdingPeriod_of_mem c hrow
        rfl }

/-! ### What the window's flows come to -/

theorem windowNet_split (r : Records) (h : from_ < to_) :
    r.windowNet (fun d => decide (d ≤ to_)) = r.windowNet (fun d => decide (d ≤ from_)) +
      r.windowNet fun d => decide (d ≤ to_) && decide (from_ < d) := by
  have hdate : ∀ (d : NaiveDate) (q : ℚ), (if decide (d ≤ to_) then q else 0) =
      (if decide (d ≤ from_) then q else 0) +
        if decide (d ≤ to_) && decide (from_ < d) then q else 0 := by
    intro d q
    rcases le_or_gt d from_ with hd | hd
    · simp [hd, hd.trans h.le, not_lt.mpr hd]
    · simp [hd, not_le.mpr hd]
  unfold Records.windowNet
  simp only [Tally.sum_filter]
  rw [add_add_add_comm, ← List.sum_map_add, ← List.sum_map_add]
  exact congrArg₂ (· + ·) (congrArg List.sum (List.map_congr_left fun t _ => hdate _ _))
    (congrArg List.sum (List.map_congr_left fun i _ => hdate _ _))

theorem overallFlows_ok {r : Records} {asOf : NaiveDate} {external : List Flow}
    (h : overallFlows r asOf = .ok external) : ∃ o, r.accumulate asOf = .ok o ∧
      external = o.elim [] fun s => s.overall.flows := by
  obtain ⟨o, ho, h⟩ := Checked.bind_ok h
  exact ⟨o, ho, (Except.ok.inj h).symm⟩

theorem accumulate_none {r : Records} {asOf : NaiveDate} (h : r.accumulate asOf = .ok none)
    (keep : NaiveDate → Bool) : r.windowNet (fun d => decide (d ≤ asOf) && keep d) = 0 := by
  unfold Records.accumulate at h
  split at h
  · rename_i hnone
    have htrades : r.trades.filter (fun t => decide (t.date ≤ asOf) && keep t.date) = [] := by
      refine List.filter_eq_nil_iff.mpr fun t ht hboth => ?_
      exact List.filter_eq_nil_iff.mp hnone.1 t ht (Bool.and_eq_true_iff.mp hboth).1
    have hincome : r.income.filter (fun i => decide (i.datePaid ≤ asOf) && keep i.datePaid) = [] := by
      refine List.filter_eq_nil_iff.mpr fun i hi hboth => ?_
      exact List.filter_eq_nil_iff.mp hnone.2 i hi (Bool.and_eq_true_iff.mp hboth).1
    rw [Records.windowNet, htrades, hincome]
    exact add_zero 0
  · obtain ⟨acquired, -, h⟩ := Checked.bind_ok h
    obtain ⟨disposed, -, h⟩ := Checked.bind_ok h
    obtain ⟨received, -, h⟩ := Checked.bind_ok h
    cases h

/-- The flows of the dates kept are what the records of those dates move. -/
theorem sum_overallFlows {r : Records} {asOf : NaiveDate} {external : List Flow}
    (h : overallFlows r asOf = .ok external) (keep : NaiveDate → Bool) :
    ((external.filter fun f => keep f.1).map Prod.snd).sum =
      r.windowNet fun d => decide (d ≤ asOf) && keep d := by
  obtain ⟨o, ho, rfl⟩ := overallFlows_ok h
  cases o with
  | none => exact (accumulate_none ho keep).symm
  | some s => exact accumulate_flows keep ho

/-- Between the figures of all holdings, the internal legs cancel. -/
theorem heldTotal_net {b : Book} {fx : FxRates} {asOf : NaiveDate} {o : Option Accumulated}
    {ws : List Book.Write} (hrun : Book.empty.run ws = .ok b)
    (h : (b.records fx).accumulate asOf = .ok o) :
    heldTotal o (fun _ acc => acc.proceeds) + heldTotal o (fun _ acc => acc.income) -
        heldTotal o (fun _ acc => acc.invested) =
      (b.records fx).windowNet fun d => decide (d ≤ asOf) := by
  cases o with
  | none =>
    have hnone := accumulate_none h fun _ => true
    simp only [Bool.and_true] at hnone
    rw [hnone]
    simp [heldTotal, entries]
  | some s =>
    have hlegs := Book.legs_balance (Book.run_sound Book.sound_empty hrun)
      (Records.accumulate_accounts h)
    have hbalanced := hlegs.balanced
    rw [Tally.sum_map_sub] at hbalanced
    have hoverall := accumulate_overall h
    have hflows := accumulate_flows (fun _ => true) h
    simp only [Bool.and_true] at hflows
    change Tally.total Acc.proceeds s.holdings + Tally.total Acc.income s.holdings -
      Tally.total Acc.invested s.holdings = _
    rw [← hflows, ← hoverall]
    linarith [hlegs.invested, hlegs.proceeds, hlegs.income]

theorem sum_windowFlows (opening closing : ℚ) (external : List Flow) :
    ((windowFlows from_ to_ opening closing external).map Prod.snd).sum =
      ((external.filter fun f => from_ < f.1).map Prod.snd).sum - opening + closing := by
  unfold windowFlows
  rw [List.map_append, List.map_append, List.sum_append, List.sum_append]
  by_cases hopening : opening = 0 <;> by_cases hclosing : closing = 0 <;>
    simp [hopening, hclosing, sub_eq_add_neg]

end Window

/-! ### The currencies' rows -/

section Currencies
variable {contributions : List Contribution}

def accOf (contributions : List Contribution) : CurrencyAcc :=
  contributions.foldl (fun acc c => CurrencyAcc.add c acc) .default

theorem accOf_total (l : List Contribution) :
    (accOf l).total = (l.map Contribution.movement).sum := by
  unfold accOf
  induction l using List.reverseRecOn with
  | nil => rfl
  | append_singleton l c ih =>
    rw [List.foldl_concat, CurrencyAcc.add, ih]
    simp

theorem accOf_ratesSet (l : List Contribution) : (accOf l).ratesSet = true ↔ l ≠ [] := by
  unfold accOf
  induction l using List.reverseRecOn with
  | nil => exact ⟨nofun, fun h => absurd rfl h⟩
  | append_singleton l c _ =>
    rw [List.foldl_concat]
    exact ⟨fun _ => List.concat_ne_nil _ _, fun _ => rfl⟩

/-- The pair is kept while every contribution so far agrees on it. -/
theorem accOf_rates (l : List Contribution) (pair : ℚ × ℚ) :
    (accOf l).rates = some pair ↔ l ≠ [] ∧ ∀ c ∈ l, c.rates = pair := by
  induction l using List.reverseRecOn generalizing pair with
  | nil => exact ⟨nofun, fun h => absurd rfl h.1⟩
  | append_singleton l c ih =>
    have hstep : accOf (l ++ [c]) = CurrencyAcc.add c (accOf l) := by
      rw [accOf, List.foldl_concat]
      rfl
    rw [hstep, CurrencyAcc.add]
    have hall : (∀ c' ∈ l ++ [c], c'.rates = pair) ↔
        (∀ c' ∈ l, c'.rates = pair) ∧ c.rates = pair := by
      simp [or_imp, forall_and]
    rw [hall, and_iff_right (List.concat_ne_nil c l)]
    by_cases hl : l = []
    · subst hl
      simp [accOf, CurrencyAcc.default]
    · have hset := (accOf_ratesSet l).mpr hl
      by_cases hsame : (accOf l).rates = some c.rates
      · have hagree := ((ih c.rates).mp hsame).2
        have hkept : (if (accOf l).ratesSet && decide ((accOf l).rates ≠ some c.rates) then none
            else some c.rates) = some c.rates := by simp [hsame]
        rw [hkept, Option.some_inj]
        exact ⟨fun h => ⟨fun c' hc' => (hagree c' hc').trans h, h⟩, And.right⟩
      · have hcleared : (if (accOf l).ratesSet && decide ((accOf l).rates ≠ some c.rates) then none
            else some c.rates) = (none : Option (ℚ × ℚ)) := by simp [hset, hsame]
        rw [hcleared]
        exact ⟨nofun, fun ⟨hagree, hc⟩ => absurd ((ih c.rates).mpr ⟨hl, hc ▸ hagree⟩) hsame⟩

theorem accOf_provisional (l : List Contribution) :
    (accOf l).provisional = l.any Contribution.provisional := by
  unfold accOf
  induction l using List.reverseRecOn with
  | nil => rfl
  | append_singleton l c ih =>
    rw [List.foldl_concat, CurrencyAcc.add, ih]
    simp

/-- What a currency's row says of the contributions in it. -/
structure CurrencyRow (contributions : List Contribution) (row : CurrencyFx) : Prop where
  contributed : ∃ c ∈ contributions, c.currency = row.currency
  movement : row.fxMovement =
    ((contributions.filter fun c => c.currency = row.currency).map Contribution.movement).sum
  rates : ∀ pair, row.rates = some pair ↔
    ∀ c ∈ contributions, c.currency = row.currency → c.rates = pair
  provisional : row.provisional = true ↔
    ∃ c ∈ contributions, c.currency = row.currency ∧ c.provisional = true

theorem read_currencyAccs (contributions : List Contribution) (currency : CurrencyCode) :
    Tally.read .default currency (currencyAccs contributions) =
      accOf (contributions.filter fun c => c.currency = currency) :=
  Tally.read_foldl_adjust (f := CurrencyAcc.add) currency contributions []

theorem nodup_currencyAccs (contributions : List Contribution) :
    ((currencyAccs contributions).map Prod.fst).Nodup :=
  Tally.nodup_keys_foldl_adjust contributions List.nodup_nil

theorem mem_currencyAccs {currency : CurrencyCode} :
    currency ∈ (currencyAccs contributions).map Prod.fst ↔
      ∃ c ∈ contributions, c.currency = currency :=
  Tally.mem_keys_foldl_adjust.trans (or_iff_left List.not_mem_nil)

theorem byCurrency_row {row : CurrencyFx} (h : row ∈ byCurrency contributions) :
    CurrencyRow contributions row := by
  obtain ⟨⟨currency, acc⟩, he, rfl⟩ := List.mem_map.mp h
  have hentry := StableSort.mem_sortBy.mp he
  obtain ⟨c, hc, hcurrency⟩ := mem_currencyAccs.mp (List.mem_map_of_mem (f := Prod.fst) hentry)
  have hacc : accOf (contributions.filter fun c => c.currency = currency) = acc :=
    (read_currencyAccs contributions currency).symm.trans
      (Tally.read_of_mem (nodup_currencyAccs contributions) hentry)
  have hsome : (contributions.filter fun c => c.currency = currency) ≠ [] :=
    List.ne_nil_of_mem (List.mem_filter.mpr ⟨hc, decide_eq_true hcurrency⟩)
  refine ⟨⟨c, hc, hcurrency⟩, ?_, fun pair => ?_, ?_⟩
  · rw [← accOf_total, hacc]
  · rw [← hacc, accOf_rates, and_iff_right hsome]
    simp [List.mem_filter]
  · rw [← hacc, accOf_provisional]
    simp [List.any_eq_true]

theorem byCurrency_covers {c : Contribution} (h : c ∈ contributions) :
    ∃ row ∈ byCurrency contributions, row.currency = c.currency := by
  obtain ⟨e, he, hcurrency⟩ := List.mem_map.mp (mem_currencyAccs.mpr ⟨c, h, rfl⟩)
  exact ⟨_, List.mem_map_of_mem (StableSort.mem_sortBy.mpr he), hcurrency⟩

theorem byCurrency_ascending (contributions : List Contribution) :
    (byCurrency contributions).Pairwise fun a b => a.currency.code < b.currency.code := by
  have hkeys := nodup_currencyAccs contributions
  refine List.pairwise_map.mpr (StableSort.sortBy_strict (List.Nodup.of_map _ hkeys) ?_)
  intro a ha b hb hcode
  have hcurrency : a.1 = b.1 := by
    cases hk : a.1
    cases hk' : b.1
    rw [hk, hk'] at hcode
    exact congrArg CurrencyCode.mk hcode
  exact List.inj_on_of_nodup_map hkeys ha hb hcurrency

/-- The currencies' movements come to the holdings'. -/
theorem sum_byCurrency (contributions : List Contribution) :
    ((byCurrency contributions).map CurrencyFx.fxMovement).sum =
      (contributions.map Contribution.movement).sum := by
  have hsum := Tally.sum_read (d := CurrencyAcc.default) (m := fun _ acc => acc.total)
    (fun _ => rfl) (nodup_currencyAccs contributions) (nodup_currencyAccs contributions)
    fun e he => List.mem_map_of_mem he
  have hperm := ((StableSort.sortBy_perm (fun e : CurrencyCode × CurrencyAcc => e.1.code)
    (currencyAccs contributions)).map fun e => e.2.total).sum_eq
  unfold byCurrency
  rw [List.map_map]
  refine hperm.trans (hsum.symm.trans ?_)
  rw [Tally.sum_by_key Contribution.currency Contribution.movement (nodup_currencyAccs contributions)
    fun c hc => mem_currencyAccs.mpr ⟨c, hc, rfl⟩]
  refine congrArg List.sum (List.map_congr_left fun currency _ => ?_)
  rw [read_currencyAccs, accOf_total]

end Currencies

/-! Ten units bought in US dollars in January, moved to another account in
February, and priced at the end of three months. -/

def usdPurchase : Recorded := ⟨{ (Book.purchase 1 1 10).1 with currency := ⟨"USD"⟩ }, rfl⟩

def moveUnits : Book.TransferBody where
  id := 5
  date := ymd 2024 2 8
  listing := 1
  fromAccount := 1
  toAccount := 2
  listingCurrency := ⟨"USD"⟩
  closingId := 2
  allocations := [⟨1, 10, 3, 10⟩]

def boughtAndMoved : List Book.Write := [.putTrade usdPurchase [], .transfer moveUnits]

def movedBook : Book :=
  { (Book.empty.run boughtAndMoved).toOption.getD .empty with splits := fun _ => [] }

theorem run_movedBook :
    Book.empty.run [.putTrade usdPurchase [], .transfer moveUnits, .putSplits fun _ => []] =
      .ok movedBook := by
  have hwritten : Checked.accepts (Book.empty.run boughtAndMoved) (fun _ => true) = true := by
    decide +kernel
  obtain ⟨b, hb⟩ := Checked.exists_ok hwritten
  obtain ⟨bought, hbought, hrest⟩ := GuardedRun.run_cons.mp hb
  obtain ⟨moved, hmoved, hend⟩ := GuardedRun.run_cons.mp hrest
  obtain rfl : moved = b := Except.ok.inj hend
  refine GuardedRun.run_cons.mpr ⟨bought, hbought, GuardedRun.run_cons.mpr ⟨moved, hmoved, ?_⟩⟩
  rw [movedBook, hb]
  rfl

def usdRates : FxRates := ⟨fun k => some (if k.2.month = 1 then 2 / 3 else 3 / 4)⟩

theorem usdRates_pos : ∀ k, ∀ rate ∈ usdRates.rates k, 0 < rate := by
  intro k rate h
  obtain rfl := Option.some.inj h
  split <;> norm_num

def usdMarket : Market := { xasx with currency := ⟨"USD"⟩ }

theorem usdMarket_unique : ([usdMarket].map Market.listing).Nodup := List.nodup_singleton 1

def januaryEnd : NaiveDate := ymd 2024 1 31

def februaryEnd : NaiveDate := ymd 2024 2 29

def marchEnd : NaiveDate := ymd 2024 3 28

def monthEndClose (date : NaiveDate) (price : ℚ) : ClosingPrices.ClosingPrice where
  listing := 1
  priceDate := date
  observed := date
  quote := .manual price "" ""

def monthEndCloses : List ClosingPrices.ClosingPrice :=
  [monthEndClose januaryEnd 2, monthEndClose februaryEnd 3,
    monthEndClose marchEnd (5 / 2)]

theorem monthEndCloses_days : (monthEndCloses.map ClosingPrices.ClosingPrice.day).Nodup := by decide

def movedParcels : List Valuation.ParcelRow :=
  (movedBook.trades.filter fun t => !t.isSell).map TradeRow.parcel

theorem movedParcels_listed : ∀ p ∈ movedParcels, ∃ m ∈ [usdMarket], m.listing = p.listing := by
  have hlisted : (movedParcels.all fun p => decide (p.listing = 1)) = true := by decide +kernel
  intro p hp
  exact ⟨usdMarket, List.mem_cons_self, (of_decide_eq_true (List.all_eq_true.mp hlisted p hp)).symm⟩

def movedUnits : Snapshot where
  book := movedBook
  store :=
    { book :=
        { ClosingPrices.Book.empty with
          prices := monthEndCloses
          days_unique := monthEndCloses_days }
      markets := [usdMarket]
      parcels := movedParcels
      allocations := movedBook.allocations
      fx := usdRates
      exchange := fun _ => ⟨"XASX", "Australia/Sydney", "16:00"⟩
      markets_unique := usdMarket_unique
      rates_pos := usdRates_pos
      parcels_listed := movedParcels_listed }
  gains := [(ymd 2024 2 8, 0)]
  parcels_eq := rfl
  allocations_eq := rfl
  splits_eq := rfl

theorem february_computes : Checked.accepts
    (compute nearestArithmetic clocks saturday movedUnits januaryEnd februaryEnd)
    (fun _ => true) = true := by decide +kernel

/-! ### What the report answers -/

section Answer
variable {A : RateArithmetic} {clocks : Clocks} {now : Instant} {x : Snapshot} {from_ to_ : NaiveDate}
  {p : PeriodPerformance}

/-- The dollar return and the rate of return speak of the same flows, and the
return is split without remainder, by holding and by currency. -/
structure ReturnIsFlows (A : RateArithmetic) (x : Snapshot) (from_ to_ : NaiveDate)
    (p : PeriodPerformance) : Prop where
  flows : ∃ external, overallFlows x.records to_ = .ok external ∧
    let window := windowFlows from_ to_ p.openingMarketValue p.closingMarketValue external
    (window.map Prod.snd).sum = p.totalReturn ∧
      p.moneyWeightedReturnPct =
        (A.moneyWeightedAnnualReturn window).map fun r => roundDp4 (r * 100)
  split : p.capitalGrowth + p.fxMovement + p.income = p.totalReturn
  held : ∀ row ∈ p.holdings, row.capitalGrowth + row.fxMovement + row.income = row.totalReturn
  growth : (p.holdings.map HoldingPeriod.capitalGrowth).sum = p.capitalGrowth
  currencies : (p.fxByCurrency.map CurrencyFx.fxMovement).sum = p.fxMovement
  ascending : p.holdings.Pairwise fun a b => toLex a.holding < toLex b.holding

theorem net_window (c : Computed A clocks now x from_ to_) {ws : List Book.Write}
    (hrun : Book.empty.run ws = .ok x.book) :
    c.answer.saleProceeds + c.answer.income - c.answer.purchases =
      x.records.windowNet fun d => decide (d ≤ to_) && decide (from_ < d) := by
  obtain ⟨o, o', ht⟩ := c.totals
  have hfrom := heldTotal_net hrun ht.opened
  have hto := heldTotal_net hrun ht.closed
  have hsplit := windowNet_split x.records c.before
  change _ = Records.windowNet (x.book.records x.store.fx) _ at hfrom hto
  rw [ht.saleProceeds, ht.income, ht.purchases]
  unfold Snapshot.records at hsplit ⊢
  linarith

theorem attributed_holdings (c : Computed A clocks now x from_ to_) :
    c.attributed.map (fun turn => turn.1.holding) = endpointKeys c.perfFrom c.perfTo := by
  have hall := Checked.mapM_ok c.attributes
  generalize endpointKeys c.perfFrom c.perfTo = keys at hall
  generalize c.attributed = turns at hall
  induction hall with
  | nil => rfl
  | cons hturn _ ih => rw [List.map_cons, ih, attributeHolding_ok hturn]; rfl

theorem attributed_ascending (c : Computed A clocks now x from_ to_) :
    (c.attributed.map Prod.fst).Pairwise fun a b => toLex a.holding < toLex b.holding := by
  have hkeys : (endpointKeys c.perfFrom c.perfTo).Pairwise fun a b => toLex a < toLex b :=
    StableSort.sortBy_strict (List.nodup_dedup _) fun _ _ _ _ h => toLex.injective h
  rw [← attributed_holdings] at hkeys
  exact List.pairwise_map.mpr (List.pairwise_map.mp hkeys)

/-- A holding's FX movement is its contribution's. -/
theorem attributed_fxMovement (c : Computed A clocks now x from_ to_)
    {turn : HoldingPeriod × Option Contribution} (h : turn ∈ c.attributed) :
    turn.1.fxMovement = turn.2.elim 0 Contribution.movement := by
  obtain ⟨k, -, hk⟩ := Checked.mem_mapM_ok c.attributes h
  rw [attributeHolding_ok hk]
  rfl

theorem sum_filterMap {α β : Type} (f : α → Option β) (g : β → ℚ) (l : List α) :
    ((l.filterMap f).map g).sum = (l.map fun a => (f a).elim 0 g).sum := by
  induction l with
  | nil => rfl
  | cons a l ih =>
    cases hf : f a with
    | none =>
      rw [List.filterMap_cons_none hf, ih, List.map_cons, List.sum_cons, hf, Option.elim_none,
        zero_add]
    | some b =>
      rw [List.filterMap_cons_some hf, List.map_cons, List.sum_cons, ih, List.map_cons,
        List.sum_cons, hf, Option.elim_some]

theorem answer_capitalGrowth (c : Computed A clocks now x from_ to_) : c.answer.capitalGrowth =
    c.answer.totalReturn - c.answer.fxMovement - c.answer.income := rfl

theorem period_return_is_its_flows {ws : List Book.Write}
    (hrun : Book.empty.run ws = .ok x.book) (h : compute A clocks now x from_ to_ = .ok p) :
    ReturnIsFlows A x from_ to_ p := by
  obtain ⟨c, rfl⟩ := compute_ok h
  obtain ⟨o, o', ht⟩ := c.totals
  have hheld : ∀ row ∈ c.attributed.map Prod.fst,
      row.capitalGrowth = row.totalReturn - row.fxMovement - row.income := by
    intro row hrow
    obtain ⟨k, f, t, contribution, rfl⟩ := holdingPeriod_of_mem c hrow
    rfl
  exact
    { flows := by
        refine ⟨c.external, c.flows, ?_, rfl⟩
        rw [sum_windowFlows, ht.totalReturn]
        have hexternal := sum_overallFlows c.flows fun d => decide (from_ < d)
        have hnet := net_window c hrun
        rw [hexternal, ← hnet]
        ring
      split := by
        rw [answer_capitalGrowth]
        ring
      held := fun row hrow => by
        rw [hheld row hrow]
        ring
      growth := by
        change ((c.attributed.map Prod.fst).map _).sum = _
        rw [List.map_congr_left hheld, Tally.sum_map_sub, Tally.sum_map_sub]
        rfl
      currencies := by
        change ((byCurrency (c.attributed.filterMap Prod.snd)).map _).sum =
          ((c.attributed.map Prod.fst).map HoldingPeriod.fxMovement).sum
        rw [sum_byCurrency, sum_filterMap, List.map_map]
        exact congrArg List.sum
          (List.map_congr_left fun turn hturn => (attributed_fxMovement c hturn).symm)
      ascending := attributed_ascending c }

theorem period_return_is_its_flows_moved : ∃ p,
    compute nearestArithmetic HealthPrices.clocks saturday movedUnits januaryEnd februaryEnd = .ok p ∧
      ReturnIsFlows nearestArithmetic movedUnits januaryEnd februaryEnd p := by
  obtain ⟨p, hp⟩ := Checked.exists_ok february_computes
  exact ⟨p, hp, period_return_is_its_flows run_movedBook hp⟩

/-- Each currency's row is its own holdings' movements, and shows the two rates
exactly where they all moved between the same ones. -/
structure CurrenciesRead (x : Snapshot) (from_ : NaiveDate) (p : PeriodPerformance)
    (opening closing : StoredValuations) (turns : List (HoldingPeriod × Option Contribution)) :
    Prop where
  holdings : p.holdings = turns.map Prod.fst
  moved : ∀ turn ∈ turns, turn.1.fxMovement = turn.2.elim 0 Contribution.movement ∧
    ∃ units, fxContribution x.store.fx opening closing from_ turn.1.holding units = .ok turn.2
  rows : ∀ row ∈ p.fxByCurrency, CurrencyRow (turns.filterMap Prod.snd) row
  covered : ∀ c ∈ turns.filterMap Prod.snd, ∃ row ∈ p.fxByCurrency, row.currency = c.currency
  ascending : p.fxByCurrency.Pairwise fun a b => a.currency.code < b.currency.code

theorem currency_rows_are_their_holdings (h : compute A clocks now x from_ to_ = .ok p) :
    ∃ opening closing turns, valuationsOrEmpty x.store clocks now from_ = .ok opening ∧
      valuationsOrEmpty x.store clocks now to_ = .ok closing ∧
        CurrenciesRead x from_ p opening closing turns := by
  obtain ⟨c, rfl⟩ := compute_ok h
  refine ⟨c.valuedFrom, c.valuedTo, c.attributed, c.valuesFrom, c.valuesTo, ?_⟩
  exact
    { holdings := rfl
      moved := fun turn hturn => by
        refine ⟨attributed_fxMovement c hturn, ?_⟩
        obtain ⟨k, -, hk⟩ := Checked.mem_mapM_ok c.attributes hturn
        obtain ⟨contribution, hcontribution, hk⟩ := Checked.bind_ok hk
        obtain rfl := Except.ok.inj hk
        exact ⟨_, hcontribution⟩
      rows := fun row hrow => byCurrency_row hrow
      covered := fun contribution hc => byCurrency_covers hc
      ascending := byCurrency_ascending _ }

theorem currency_rows_are_their_holdings_moved : ∃ p opening closing turns,
    compute nearestArithmetic HealthPrices.clocks saturday movedUnits januaryEnd februaryEnd = .ok p ∧
      valuationsOrEmpty movedUnits.store HealthPrices.clocks saturday januaryEnd = .ok opening ∧
        valuationsOrEmpty movedUnits.store HealthPrices.clocks saturday februaryEnd = .ok closing ∧
          CurrenciesRead movedUnits januaryEnd p opening closing turns := by
  obtain ⟨p, hp⟩ := Checked.exists_ok february_computes
  obtain ⟨opening, closing, turns, h⟩ := currency_rows_are_their_holdings hp
  exact ⟨p, opening, closing, turns, hp, h⟩

/-- Two windows end to end: what moved in the one that covers both. -/
structure Chains (first second whole : PeriodPerformance) : Prop where
  opens : first.openingMarketValue = whole.openingMarketValue
  meets : first.closingMarketValue = second.openingMarketValue
  closes : second.closingMarketValue = whole.closingMarketValue
  purchases : first.purchases + second.purchases = whole.purchases
  saleProceeds : first.saleProceeds + second.saleProceeds = whole.saleProceeds
  income : first.income + second.income = whole.income
  totalReturn : first.totalReturn + second.totalReturn = whole.totalReturn
  realised : first.realisedCapitalGain + second.realisedCapitalGain = whole.realisedCapitalGain

theorem sum_gains_split {mid : NaiveDate} (gains : List (NaiveDate × ℚ)) (hfirst : from_ < mid)
    (hsecond : mid < to_) :
    ((gains.filter fun g => from_ < g.1 ∧ g.1 ≤ mid).map Prod.snd).sum +
        ((gains.filter fun g => mid < g.1 ∧ g.1 ≤ to_).map Prod.snd).sum =
      ((gains.filter fun g => from_ < g.1 ∧ g.1 ≤ to_).map Prod.snd).sum := by
  rw [Tally.sum_filter, Tally.sum_filter, Tally.sum_filter, ← List.sum_map_add]
  refine congrArg List.sum (List.map_congr_left fun g _ => ?_)
  rcases le_or_gt g.1 mid with hd | hd
  · simp [hd, not_lt.mpr hd, hd.trans hsecond.le]
  · simp [hd, not_le.mpr hd, hfirst.trans hd]

theorem periods_chain {mid : NaiveDate} {second whole : PeriodPerformance}
    (hfirst : compute A clocks now x from_ mid = .ok p)
    (hsecond : compute A clocks now x mid to_ = .ok second)
    (hwhole : compute A clocks now x from_ to_ = .ok whole) : Chains p second whole := by
  obtain ⟨first, rfl⟩ := compute_ok hfirst
  obtain ⟨second, rfl⟩ := compute_ok hsecond
  obtain ⟨whole, rfl⟩ := compute_ok hwhole
  obtain ⟨o, m, hfirst⟩ := first.totals
  obtain ⟨m', o', hsecond⟩ := second.totals
  obtain ⟨o₂, o₂', hwhole⟩ := whole.totals
  obtain rfl := Except.ok.inj (hfirst.opened.symm.trans hwhole.opened)
  obtain rfl := Except.ok.inj (hfirst.closed.symm.trans hsecond.opened)
  obtain rfl := Except.ok.inj (hsecond.closed.symm.trans hwhole.closed)
  have hopening := Except.ok.inj (first.valuesFrom.symm.trans whole.valuesFrom)
  have hmiddle := Except.ok.inj (first.valuesTo.symm.trans second.valuesFrom)
  have hclosing := Except.ok.inj (second.valuesTo.symm.trans whole.valuesTo)
  have opens : first.answer.openingMarketValue = whole.answer.openingMarketValue := by
    rw [hfirst.openingMarketValue, hwhole.openingMarketValue, hopening]
  have meets : first.answer.closingMarketValue = second.answer.openingMarketValue := by
    rw [hfirst.closingMarketValue, hsecond.openingMarketValue, hmiddle]
  have closes : second.answer.closingMarketValue = whole.answer.closingMarketValue := by
    rw [hsecond.closingMarketValue, hwhole.closingMarketValue, hclosing]
  have purchases : first.answer.purchases + second.answer.purchases = whole.answer.purchases := by
    rw [hfirst.purchases, hsecond.purchases, hwhole.purchases]
    ring
  have saleProceeds :
      first.answer.saleProceeds + second.answer.saleProceeds = whole.answer.saleProceeds := by
    rw [hfirst.saleProceeds, hsecond.saleProceeds, hwhole.saleProceeds]
    ring
  have income : first.answer.income + second.answer.income = whole.answer.income := by
    rw [hfirst.income, hsecond.income, hwhole.income]
    ring
  exact
    { opens, meets, closes, purchases, saleProceeds, income
      totalReturn := by
        rw [hfirst.totalReturn, hsecond.totalReturn, hwhole.totalReturn]
        linarith
      realised := sum_gains_split x.gains first.before second.before }

theorem periods_chain_moved : ∃ first second whole,
    compute nearestArithmetic HealthPrices.clocks saturday movedUnits januaryEnd februaryEnd = .ok first ∧
      compute nearestArithmetic HealthPrices.clocks saturday movedUnits februaryEnd marchEnd =
        .ok second ∧ Chains first second whole := by
  obtain ⟨first, hfirst⟩ := Checked.exists_ok february_computes
  have hmarch : Checked.accepts
      (compute nearestArithmetic HealthPrices.clocks saturday movedUnits februaryEnd marchEnd)
      (fun _ => true) = true := by decide +kernel
  obtain ⟨second, hsecond⟩ := Checked.exists_ok hmarch
  have hboth : Checked.accepts
      (compute nearestArithmetic HealthPrices.clocks saturday movedUnits januaryEnd marchEnd)
      (fun _ => true) = true := by decide +kernel
  obtain ⟨whole, hwhole⟩ := Checked.exists_ok hboth
  exact ⟨first, second, whole, hfirst, hsecond, periods_chain hfirst hsecond hwhole⟩

end Answer

end ShareTracker.Performance
