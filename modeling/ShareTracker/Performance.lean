import ShareTracker.Drp
import ShareTracker.Valuation
import ShareTracker.Lib.Tally

/-!
What each holding and the whole portfolio returned: the AUD cost, proceeds and
income behind the figures of the performance report. A rollover's rows share a
group, and are valued at the cost its replacements carry. Figures are exact here.
-/
namespace ShareTracker.Performance

/-- Which kind of internal movement a group of trades belongs to. -/
inductive GroupKind where
  | transfer
  | scrip
  | demerger
  deriving DecidableEq

abbrev Group := GroupKind × ℤ

abbrev HoldingKey := ListingId × HoldingAccountId

structure TradeRow where
  id : TradeId
  listing : ListingId
  account : HoldingAccountId
  date : NaiveDate
  isSell : Bool
  averagePrice : ℚ
  quantity : ℚ
  brokerage : ℚ
  gstOnBrokerage : ℚ
  currency : CurrencyCode
  fxRate : ℚ
  spotFxRate : Option ℚ
  deemedAcquisitionDate : Option NaiveDate
  transferId : Option ℤ
  scripActionId : Option ℤ
  demergerActionId : Option ℤ
  deriving DecidableEq

namespace TradeRow

def group (t : TradeRow) : Option Group :=
  ((t.transferId.map fun i => (.transfer, i)).or (t.scripActionId.map fun i => (.scrip, i))).or
    (t.demergerActionId.map fun i => (.demerger, i))

def holding (t : TradeRow) : HoldingKey := (t.listing, t.account)

def acquired (t : TradeRow) : NaiveDate := t.deemedAcquisitionDate.getD t.date

def fxOverride (t : TradeRow) : FxOverride := .fromTrade t.fxRate t.spotFxRate

def initialCost (t : TradeRow) : ℚ := t.averagePrice * t.quantity + t.brokerage + t.gstOnBrokerage

/-- The row as the unit counts read it. -/
def parcel (t : TradeRow) : Valuation.ParcelRow := ⟨t.id, t.listing, t.account, t.quantity, t.date⟩

end TradeRow

/-- A holding's running figures; outflows are negative. -/
structure Acc where
  invested : ℚ
  proceeds : ℚ
  income : ℚ
  trailingIncome : ℚ
  quantity : ℚ
  flows : List (NaiveDate × ℚ)
  deriving DecidableEq

def Acc.default : Acc := ⟨0, 0, 0, 0, 0, []⟩

namespace Acc

def invest (date : NaiveDate) (cost : ℚ) (acc : Acc) : Acc :=
  { acc with invested := acc.invested + cost, flows := acc.flows ++ [(date, -cost)] }

def hold (units : ℚ) (acc : Acc) : Acc := { acc with quantity := acc.quantity + units }

def sell (date : NaiveDate) (amount : ℚ) (acc : Acc) : Acc :=
  { acc with proceeds := acc.proceeds + amount, flows := acc.flows ++ [(date, amount)] }

def earn (date : NaiveDate) (cash : ℚ) (trailing : Bool) (acc : Acc) : Acc :=
  { acc with
    income := acc.income + cash
    flows := acc.flows ++ [(date, cash)]
    trailingIncome := if trailing then acc.trailingIncome + cash else acc.trailingIncome }

end Acc

structure Accumulated where
  holdings : List (HoldingKey × Acc)
  overall : Acc
  deriving DecidableEq

namespace Accumulated

def default : Accumulated := ⟨[], .default⟩

def holding (s : Accumulated) (k : HoldingKey) : Acc := Tally.read .default k s.holdings

/-- Update a holding, and the overall figures beside it. -/
def post (s : Accumulated) (k : HoldingKey) (f : Acc → Acc) (g : Acc → Acc) : Accumulated :=
  ⟨Tally.adjust .default k f s.holdings, g s.overall⟩

end Accumulated

/-- What the report reads. -/
structure Records where
  trades : List TradeRow
  income : List Drp.Income
  allocations : List Valuation.Allocation
  splits : ListingId → List SplitEvent
  fx : FxRates

namespace Records

/-- The units of a parcel still open at `asOf`, in that date's units. -/
def openUnits (r : Records) (asOf : NaiveDate) (t : TradeRow) : ℚ :=
  let sold := Valuation.soldInAcquiredUnits (r.splits t.listing) t.parcel
    (r.allocations.filter fun a => a.purchaseTradeId = t.id ∧ a.saleDate ≤ asOf)
  if 0 < t.quantity - sold then
    splitAdjustedQuantity (t.quantity - sold) (r.splits t.listing) t.date (some asOf)
  else 0

/-- The first pass: the report so far, and the cost each group carries. -/
structure Acquisitions where
  report : Accumulated
  groupCosts : List (Group × ℚ)

def acquire (r : Records) (asOf : NaiveDate) (s : Acquisitions) (t : TradeRow) :
    Except FxError Acquisitions := do
  let cost ← r.fx.toAud t.initialCost t.currency t.acquired t.fxOverride
  let held := Acc.hold (r.openUnits asOf t) ∘ Acc.invest t.date cost
  match t.group with
  | some g =>
    return ⟨s.report.post t.holding held id, Tally.adjust 0 g (· + cost) s.groupCosts⟩
  | none => return ⟨s.report.post t.holding held (Acc.invest t.date cost), s.groupCosts⟩

/-- The second pass: a group's closing Sell is worth the cost its replacements
carry, and its cash on top. -/
def dispose (r : Records) (groupCosts : List (Group × ℚ)) (s : Accumulated) (t : TradeRow) :
    Except FxError Accumulated :=
  match t.group with
  | some g =>
    let carried := Tally.read 0 g groupCosts
    if t.averagePrice = 0 then return s.post t.holding (Acc.sell t.date carried) id
    else do
      let cash ← r.fx.toAud (t.averagePrice * t.quantity) t.currency t.date t.fxOverride
      return s.post t.holding (Acc.sell t.date (carried + cash)) (Acc.sell t.date cash)
  | none => do
      let net ← r.fx.toAud (t.averagePrice * t.quantity - t.brokerage - t.gstOnBrokerage)
        t.currency t.date t.fxOverride
      return s.post t.holding (Acc.sell t.date net) (Acc.sell t.date net)

def receive (r : Records) (asOf : NaiveDate) (s : Accumulated) (i : Drp.Income) :
    Except FxError Accumulated :=
  if i.incomeType = .employmentIncome then return s
  else do
    let cash ← r.fx.toAud i.netCashReceived i.currency i.datePaid .none
    let trailing := decide (twelveMonthsBefore asOf < i.datePaid)
    return s.post (i.listing, i.account) (Acc.earn i.datePaid cash trailing)
      (Acc.earn i.datePaid cash trailing)

def tradesBy (r : Records) (asOf : NaiveDate) : List TradeRow :=
  r.trades.filter fun t => decide (t.date ≤ asOf)

def acquisitions (r : Records) (asOf : NaiveDate) : List TradeRow :=
  (r.tradesBy asOf).filter fun t => !t.isSell

def sells (r : Records) (asOf : NaiveDate) : List TradeRow :=
  (r.tradesBy asOf).filter fun t => t.isSell

def incomeRows (r : Records) (asOf : NaiveDate) : List Drp.Income :=
  r.income.filter fun i => decide (i.datePaid ≤ asOf)

/-- The trades and the income dated by `asOf`; `none` where there is neither. -/
def accumulate (r : Records) (asOf : NaiveDate) : Except FxError (Option Accumulated) :=
  if r.tradesBy asOf = [] ∧ r.incomeRows asOf = [] then return none
  else do
    let acquired ← (r.acquisitions asOf).foldlM (r.acquire asOf) ⟨.default, []⟩
    let disposed ← (r.sells asOf).foldlM (r.dispose acquired.groupCosts) acquired.report
    return some (← (r.incomeRows asOf).foldlM (r.receive asOf) disposed)

end Records

/-! ### What the passes post -/

/-- An amount put to a holding, and the part of it the overall figures see. -/
structure Posting where
  holding : HoldingKey
  toHolding : ℚ
  toOverall : ℚ

/-- One figure of the report has moved by exactly the postings. -/
structure Posted (m : Acc → ℚ) (ps : List Posting) (s s' : Accumulated) : Prop where
  total : Tally.total m s'.holdings = Tally.total m s.holdings + (ps.map Posting.toHolding).sum
  overall : m s'.overall = m s.overall + (ps.map Posting.toOverall).sum
  held : ∀ k, m (s'.holding k) =
    m (s.holding k) + ((ps.filter fun p => p.holding = k).map Posting.toHolding).sum

namespace Posted
variable {m : Acc → ℚ} {s s' s'' : Accumulated} {ps qs : List Posting}

theorem refl (s : Accumulated) : Posted m [] s s :=
  ⟨(add_zero _).symm, (add_zero _).symm, fun _ => (add_zero _).symm⟩

theorem trans (h : Posted m ps s s') (h' : Posted m qs s' s'') : Posted m (ps ++ qs) s s'' where
  total := by rw [h'.total, h.total, List.map_append, List.sum_append, add_assoc]
  overall := by rw [h'.overall, h.overall, List.map_append, List.sum_append, add_assoc]
  held k := by rw [h'.held, h.held, List.filter_append, List.map_append, List.sum_append, add_assoc]

theorem post {k : HoldingKey} {f g : Acc → Acc} {c e : ℚ} (hd : m .default = 0)
    (hf : ∀ a, m (f a) = m a + c) (hg : ∀ a, m (g a) = m a + e) (s : Accumulated) :
    Posted m [⟨k, c, e⟩] s (s.post k f g) where
  total := by
    rw [List.map_singleton, List.sum_singleton]
    exact Tally.total_adjust hd hf k s.holdings
  overall := by
    rw [List.map_singleton, List.sum_singleton]
    exact hg s.overall
  held k' := by
    have hread := Tally.read_adjust (d := .default) hf k k' s.holdings
    rw [Accumulated.holding, Accumulated.post, hread]
    by_cases h : k = k'
    · simp [h, Accumulated.holding]
    · simp [h, Accumulated.holding]

/-- A figure neither update touches. -/
theorem untouched {k : HoldingKey} {f g : Acc → Acc} (hd : m .default = 0)
    (hf : ∀ a, m (f a) = m a) (hg : ∀ a, m (g a) = m a) (s : Accumulated) :
    Posted m [] s (s.post k f g) := by
  have h := post (k := k) hd (fun a => (hf a).trans (add_zero _).symm)
    (fun a => (hg a).trans (add_zero _).symm) s
  refine ⟨?_, ?_, fun k' => ?_⟩
  · simpa using h.total
  · simpa using h.overall
  · rw [h.held k']
    by_cases hk : k = k' <;> simp [hk]

section Run
variable {σ α : Type} {step : σ → α → Except FxError σ} (view : σ → Accumulated) {l : List α}
  {s s' : σ}

theorem run (posts : α → List Posting)
    (hstep : ∀ s a s', step s a = .ok s' → Posted m (posts a) (view s) (view s'))
    (h : l.foldlM step s = .ok s') : Posted m (l.flatMap posts) (view s) (view s') := by
  induction l generalizing s with
  | nil =>
    obtain rfl : s = s' := Except.ok.inj h
    exact refl _
  | cons a l ih =>
    obtain ⟨mid, hmid, hrest⟩ := Checked.bind_ok h
    exact (hstep s a mid hmid).trans (ih hrest)

theorem idle (hstep : ∀ s a s', step s a = .ok s' → Posted m [] (view s) (view s'))
    (h : l.foldlM step s = .ok s') : Posted m [] (view s) (view s') := by
  have hrun := run view (fun _ => []) hstep h
  rwa [List.flatMap_eq_nil_iff.mpr fun _ _ => rfl] at hrun

end Run
end Posted

namespace Records
variable {r : Records} {asOf : NaiveDate}

/-- The figure a conversion answers with. -/
def aud (x : Except FxError ℚ) : ℚ := x.toOption.getD 0

def cost (r : Records) (t : TradeRow) : ℚ :=
  aud (r.fx.toAud t.initialCost t.currency t.acquired t.fxOverride)

def cash (r : Records) (t : TradeRow) : ℚ :=
  if t.averagePrice = 0 then 0
  else aud (r.fx.toAud (t.averagePrice * t.quantity) t.currency t.date t.fxOverride)

def net (r : Records) (t : TradeRow) : ℚ :=
  aud (r.fx.toAud (t.averagePrice * t.quantity - t.brokerage - t.gstOnBrokerage) t.currency t.date
    t.fxOverride)

def received (r : Records) (i : Drp.Income) : ℚ :=
  aud (r.fx.toAud i.netCashReceived i.currency i.datePaid .none)

def bought (r : Records) (t : TradeRow) : Posting :=
  ⟨t.holding, r.cost t, if t.group = none then r.cost t else 0⟩

/-- What a Sell brings in beyond the cost its group carries. -/
def external (r : Records) (t : TradeRow) : ℚ := if t.group = none then r.net t else r.cash t

def sold (r : Records) (carried : Group → ℚ) (t : TradeRow) : Posting :=
  ⟨t.holding, t.group.elim 0 carried + r.external t, r.external t⟩

def earned (r : Records) (i : Drp.Income) : List Posting :=
  if i.incomeType = .employmentIncome then []
  else [⟨(i.listing, i.account), r.received i, r.received i⟩]

theorem acquire_bought {s s' : Acquisitions} {t : TradeRow} (h : r.acquire asOf s t = .ok s') :
    Posted Acc.invested [r.bought t] s.report s'.report := by
  unfold acquire at h
  obtain ⟨cost, hcost, h⟩ := Checked.bind_ok h
  have hc : r.cost t = cost := by rw [Records.cost, hcost]; rfl
  unfold bought
  cases hg : t.group with
  | some g =>
    rw [hg] at h
    obtain rfl := Except.ok.inj h
    rw [hc, if_neg (Option.some_ne_none g)]
    exact .post rfl (fun _ => rfl) (fun _ => (add_zero _).symm) _
  | none =>
    rw [hg] at h
    obtain rfl := Except.ok.inj h
    rw [hc, if_pos rfl]
    exact .post rfl (fun _ => rfl) (fun _ => rfl) _

/-- What an acquisition adds to a group's cost. -/
theorem acquire_groupCosts {s s' : Acquisitions} {t : TradeRow} (h : r.acquire asOf s t = .ok s')
    (g : Group) : Tally.read 0 g s'.groupCosts =
      Tally.read 0 g s.groupCosts + if t.group = some g then r.cost t else 0 := by
  unfold acquire at h
  obtain ⟨cost, hcost, h⟩ := Checked.bind_ok h
  have hc : r.cost t = cost := by rw [Records.cost, hcost]; rfl
  cases hg : t.group with
  | some g' =>
    rw [hg] at h
    obtain rfl := Except.ok.inj h
    rw [hc]
    simpa using Tally.read_adjust (m := id) (d := 0) (fun _ => rfl) g' g s.groupCosts
  | none =>
    rw [hg] at h
    obtain rfl := Except.ok.inj h
    simp

theorem acquire_untouched {m : Acc → ℚ} (hd : m .default = 0)
    (hinvest : ∀ date cost a, m (Acc.invest date cost a) = m a)
    (hhold : ∀ units a, m (Acc.hold units a) = m a) {s s' : Acquisitions} {t : TradeRow}
    (h : r.acquire asOf s t = .ok s') : Posted m [] s.report s'.report := by
  have hheld : ∀ date cost units a, m ((Acc.hold units ∘ Acc.invest date cost) a) = m a :=
    fun date cost units a => (hhold units _).trans (hinvest date cost a)
  unfold acquire at h
  obtain ⟨cost, -, h⟩ := Checked.bind_ok h
  cases hg : t.group with
  | some g =>
    rw [hg] at h
    obtain rfl := Except.ok.inj h
    exact .untouched hd (hheld _ _ _) (fun _ => rfl) _
  | none =>
    rw [hg] at h
    obtain rfl := Except.ok.inj h
    exact .untouched hd (hheld _ _ _) (hinvest _ _) _

/-- The updates a Sell makes to its holding and to the overall figures. -/
theorem dispose_cases {costs : List (Group × ℚ)} {s s' : Accumulated} {t : TradeRow}
    (h : r.dispose costs s t = .ok s') :
    (∃ g, t.group = some g ∧ t.averagePrice = 0 ∧
      s' = s.post t.holding (Acc.sell t.date (Tally.read 0 g costs)) id) ∨
    (∃ g, t.group = some g ∧ t.averagePrice ≠ 0 ∧
      s' = s.post t.holding (Acc.sell t.date (Tally.read 0 g costs + r.cash t))
        (Acc.sell t.date (r.cash t))) ∨
    (t.group = none ∧
      s' = s.post t.holding (Acc.sell t.date (r.net t)) (Acc.sell t.date (r.net t))) := by
  unfold dispose at h
  cases hg : t.group with
  | some g =>
    rw [hg] at h
    dsimp only at h
    split at h
    · rename_i hprice
      exact Or.inl ⟨g, rfl, hprice, (Except.ok.inj h).symm⟩
    · rename_i hprice
      obtain ⟨cash, hcash, h⟩ := Checked.bind_ok h
      have hc : r.cash t = cash := by rw [Records.cash, if_neg hprice, hcash]; rfl
      rw [hc]
      exact Or.inr (Or.inl ⟨g, rfl, hprice, (Except.ok.inj h).symm⟩)
  | none =>
    rw [hg] at h
    obtain ⟨net, hnet, h⟩ := Checked.bind_ok h
    have hn : r.net t = net := by rw [Records.net, hnet]; rfl
    rw [hn]
    exact Or.inr (Or.inr ⟨rfl, (Except.ok.inj h).symm⟩)

theorem dispose_sold {costs : List (Group × ℚ)} {s s' : Accumulated} {t : TradeRow}
    (h : r.dispose costs s t = .ok s') :
    Posted Acc.proceeds [r.sold (fun g => Tally.read 0 g costs) t] s s' := by
  unfold sold external
  rcases dispose_cases h with ⟨g, hg, hprice, rfl⟩ | ⟨g, hg, hprice, rfl⟩ | ⟨hg, rfl⟩
  · rw [hg, if_neg (Option.some_ne_none g), cash, if_pos hprice, Option.elim_some, add_zero]
    exact .post rfl (fun _ => rfl) (fun _ => (add_zero _).symm) _
  · rw [hg, if_neg (Option.some_ne_none g), Option.elim_some]
    exact .post rfl (fun _ => rfl) (fun _ => rfl) _
  · rw [hg, if_pos rfl, Option.elim_none, zero_add]
    exact .post rfl (fun _ => rfl) (fun _ => rfl) _

theorem dispose_untouched {m : Acc → ℚ} (hd : m .default = 0)
    (hsell : ∀ date amount a, m (Acc.sell date amount a) = m a) {costs : List (Group × ℚ)}
    {s s' : Accumulated} {t : TradeRow} (h : r.dispose costs s t = .ok s') : Posted m [] s s' := by
  rcases dispose_cases h with ⟨g, -, -, rfl⟩ | ⟨g, -, -, rfl⟩ | ⟨-, rfl⟩
  · exact .untouched hd (hsell _ _) (fun _ => rfl) _
  · exact .untouched hd (hsell _ _) (hsell _ _) _
  · exact .untouched hd (hsell _ _) (hsell _ _) _

theorem receive_earned {s s' : Accumulated} {i : Drp.Income} (h : r.receive asOf s i = .ok s') :
    Posted Acc.income (r.earned i) s s' := by
  unfold receive at h
  unfold earned
  split at h
  · rename_i hwork
    obtain rfl := Except.ok.inj h
    rw [if_pos hwork]
    exact .refl s
  · rename_i hwork
    rw [if_neg hwork]
    obtain ⟨cash, hcash, h⟩ := Checked.bind_ok h
    have hc : r.received i = cash := by rw [received, hcash]; rfl
    obtain rfl := Except.ok.inj h
    rw [hc]
    exact .post rfl (fun _ => rfl) (fun _ => rfl) _

theorem receive_untouched {m : Acc → ℚ} (hd : m .default = 0)
    (hearn : ∀ date cash trailing a, m (Acc.earn date cash trailing a) = m a)
    {s s' : Accumulated} {i : Drp.Income} (h : r.receive asOf s i = .ok s') : Posted m [] s s' := by
  unfold receive at h
  split at h
  · obtain rfl := Except.ok.inj h
    exact .refl s
  · obtain ⟨cash, -, h⟩ := Checked.bind_ok h
    obtain rfl := Except.ok.inj h
    exact .untouched hd (hearn _ _ _) (hearn _ _ _) _

/-- The cost the replacements of a group carry. -/
def groupCost (r : Records) (asOf : NaiveDate) (g : Group) : ℚ :=
  (((r.acquisitions asOf).filter fun t => t.group = some g).map r.cost).sum

theorem groupCosts_run {l : List TradeRow} {s s' : Acquisitions}
    (h : l.foldlM (r.acquire asOf) s = .ok s') (g : Group) :
    Tally.read 0 g s'.groupCosts = Tally.read 0 g s.groupCosts +
      ((l.filter fun t => t.group = some g).map r.cost).sum := by
  induction l generalizing s with
  | nil =>
    obtain rfl : s = s' := Except.ok.inj h
    exact (add_zero _).symm
  | cons t l ih =>
    obtain ⟨mid, hmid, hrest⟩ := Checked.bind_ok h
    rw [ih hrest, acquire_groupCosts hmid, List.filter_cons]
    by_cases hg : t.group = some g
    · simp only [hg, if_true, decide_true, List.map_cons, List.sum_cons, add_assoc]
    · simp only [hg, if_false, decide_false, add_zero, Bool.false_eq_true]

/-- The report is the postings of its rows. -/
structure Accounts (r : Records) (asOf : NaiveDate) (s : Accumulated) : Prop where
  invested : Posted Acc.invested ((r.acquisitions asOf).map r.bought) .default s
  proceeds : Posted Acc.proceeds ((r.sells asOf).map (r.sold (r.groupCost asOf))) .default s
  income : Posted Acc.income ((r.incomeRows asOf).flatMap r.earned) .default s

theorem accumulate_accounts {s : Accumulated} (h : r.accumulate asOf = .ok (some s)) :
    Accounts r asOf s := by
  unfold accumulate at h
  split at h
  · cases h
  obtain ⟨acquired, hacquired, h⟩ := Checked.bind_ok h
  obtain ⟨disposed, hdisposed, h⟩ := Checked.bind_ok h
  obtain ⟨received, hreceived, h⟩ := Checked.bind_ok h
  obtain rfl : received = s := Option.some.inj (Except.ok.inj h)
  have hcosts : (fun g => Tally.read 0 g acquired.groupCosts) = r.groupCost asOf := by
    funext g
    rw [groupCosts_run hacquired g]
    exact zero_add _
  refine ⟨?_, ?_, ?_⟩
  · have hbuy : Posted Acc.invested ((r.acquisitions asOf).map r.bought) .default
        acquired.report := by
      rw [List.map_eq_flatMap]
      exact .run Acquisitions.report (fun t => [r.bought t]) (fun _ _ _ h => acquire_bought h) hacquired
    have hsell : Posted Acc.invested [] acquired.report disposed :=
      .idle id (fun _ _ _ h => dispose_untouched rfl (fun _ _ _ => rfl) h) hdisposed
    have hearn : Posted Acc.invested [] disposed received :=
      .idle id (fun _ _ _ h => receive_untouched rfl (fun _ _ _ _ => rfl) h) hreceived
    have hall := (hbuy.trans hsell).trans hearn
    rwa [List.append_nil, List.append_nil] at hall
  · have hbuy : Posted Acc.proceeds [] .default acquired.report :=
      .idle Acquisitions.report
        (fun _ _ _ h => acquire_untouched rfl (fun _ _ _ => rfl) (fun _ _ => rfl) h) hacquired
    have hsell : Posted Acc.proceeds ((r.sells asOf).map (r.sold (r.groupCost asOf)))
        acquired.report disposed := by
      rw [← hcosts, List.map_eq_flatMap]
      exact .run id (fun t => [r.sold _ t]) (fun _ _ _ h => dispose_sold h) hdisposed
    have hearn : Posted Acc.proceeds [] disposed received :=
      .idle id (fun _ _ _ h => receive_untouched rfl (fun _ _ _ _ => rfl) h) hreceived
    have hall := (hbuy.trans hsell).trans hearn
    rwa [List.append_nil, List.nil_append] at hall
  · have hbuy : Posted Acc.income [] .default acquired.report :=
      .idle Acquisitions.report
        (fun _ _ _ h => acquire_untouched rfl (fun _ _ _ => rfl) (fun _ _ => rfl) h) hacquired
    have hsell : Posted Acc.income [] acquired.report disposed :=
      .idle id (fun _ _ _ h => dispose_untouched rfl (fun _ _ _ => rfl) h) hdisposed
    have hearn : Posted Acc.income ((r.incomeRows asOf).flatMap r.earned) disposed received :=
      .run id r.earned (fun _ _ _ h => receive_earned h) hreceived
    exact (hbuy.trans hsell).trans hearn

end Records
end ShareTracker.Performance
