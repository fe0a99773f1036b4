import ShareTracker.CorporateActions
import ShareTracker.IncomeRows
import ShareTracker.Lib.GuardedRun

/-!
What a listing's AMIT years hold. The writes of income rows and of returns of
capital look the election up; the listing's own write does not look at the rows
recorded, and a buy-back's dividend component is written past the check.
-/
namespace ShareTracker.AmitYears
open Checked CorporateActions IncomeRows

/-- A listing's own part in the election. -/
structure Listing where
  id : ListingId
  isCrypto : Bool
  amit : Bool
  amitFrom : Option NaiveDate
  deriving DecidableEq

def Listing.election (l : Listing) : Amit :=
  if l.amit then l.amitFrom.elim .always .since else .no

inductive Refusal where
  | income (e : UpsertError)
  | action (e : WriteError)
  | cryptoCannotBeAmit
  | amitFromWithoutAmit
  | amitFromNotFinancialYearStart (date : NaiveDate)
  | referenced
  | notFound
  | idTaken
  | reinvestedIncome
  | nonPositiveUnits
  | actionNotFound
  | notABuyBack
  | beforeBuyBackDate
  | sell
  deriving DecidableEq

structure Books where
  listings : List Listing
  income : List Income
  facts : Facts
  listings_unique : (listings.map Listing.id).Nodup

namespace Books

def empty : Books where
  listings := []
  income := []
  facts := ⟨[], [], [], fun _ => .no, List.nodup_nil⟩
  listings_unique := List.nodup_nil

def listing? (s : Books) (id : ListingId) : Option Listing := Keyed.get? Listing.id s.listings id

def income? (s : Books) (id : ℤ) : Option Income := Keyed.get? (fun i => i.id) s.income id

/-- A listing's election as it stands; a listing not recorded has none. -/
def election (s : Books) (id : ListingId) : Amit := ((s.listing? id).map Listing.election).getD .no

def amitYear (s : Books) (listing : ListingId) (date : NaiveDate) : Bool :=
  amitInTaxYear (s.election listing) (taxYearFor date)

/-- The facts an action is written against, the elections those of the listings now. -/
def current (s : Books) : Facts := { s.facts with amit := s.election }

/-! ### Writes -/

def putListing (s : Books) (l : Listing) : Except Refusal Books := do
  refuseIf (l.isCrypto = true ∧ (l.amit = true ∨ l.amitFrom.isSome = true)) .cryptoCannotBeAmit
  refuseIf (l.amitFrom.isSome = true ∧ l.amit = false) .amitFromWithoutAmit
  refuseSome ((l.amitFrom.filter fun d => (d.month, d.day) ≠ (7, 1)).map
    .amitFromNotFinancialYearStart)
  return { s with
    listings := Keyed.put Listing.id s.listings l
    listings_unique := Keyed.nodup_put s.listings_unique l }

def deleteListing (s : Books) (id : ListingId) : Except Refusal Books := do
  refuseIf (s.listing? id = none) .notFound
  refuseIf ((∃ i ∈ s.income, i.listing = id) ∨ ∃ a ∈ s.facts.actions, a.listing = id) .referenced
  return { s with
    listings := s.listings.filter fun l => l.id ≠ id
    listings_unique := Keyed.nodup_filter s.listings_unique _ }

/-- An income row created or edited. -/
def putIncome (s : Books) (row : Income) : Except Refusal Books := do
  let existing := s.income? row.id
  (Income.check existing (s.amitYear row.listing row.assessmentDate) row).mapError .income
  refuseIf (s.listing? row.listing = none) .notFound
  return { s with income := Keyed.put (fun i => i.id) s.income (row.stored existing) }

def deleteIncome (s : Books) (id : ℤ) : Except Refusal Books := do
  let row ← orRefuse (s.income? id) .notFound
  refuseIf (row.buybackTrade.isSome = true) (.income .buyBackIncome)
  refuseIf (row.reinvestmentTrade.isSome = true) .reinvestedIncome
  return { s with income := s.income.filter fun i => i.id ≠ id }

/-- A reinvestment's link to its trade, set or cleared. -/
def linkIncome (s : Books) (id : ℤ) (trade : Option TradeId) : Books :=
  { s with
    income := s.income.map fun i => if i.id = id then { i with reinvestmentTrade := trade } else i }

/-- An action created or edited, `later` the checks over the state it would leave. -/
def putAction (s : Books) (later : Facts → Facts → Option WriteError) (id : Option ℤ) (assigned : ℤ)
    (body : ActionBody) : Except Refusal Books := do
  let facts ← (s.current.write later id assigned body).mapError .action
  return { s with facts }

def deleteAction (s : Books) (id : ℤ) : Except Refusal Books := do
  refuseIf (s.facts.referenced id = true) (.action .referencedByTrade)
  return { s with
    facts :=
      { s.facts with
        actions := s.facts.actions.filter fun a => a.id ≠ id
        ids_unique := Keyed.nodup_filter s.facts.ids_unique _ } }

/-- The per-unit terms of a buy-back. -/
structure BuyBackTerms where
  dividend : ℚ
  frankingCredit : ℚ
  currency : CurrencyCode

def buyBackTerms : ActionKind → Option BuyBackTerms
  | .buyBack _ dividend credit _ currency => some ⟨dividend, credit, currency⟩
  | _ => none

structure ParticipationBody where
  date : NaiveDate
  units : ℚ
  account : HoldingAccountId

/-- The dividend component of a participation. -/
def dividendRow (id : ℤ) (action : Action) (terms : BuyBackTerms) (body : ParticipationBody)
    (sell : TradeId) : Income where
  id := id
  listing := action.listing
  account := body.account
  currency := terms.currency
  datePaid := body.date
  exDate := none
  entitlementDate := none
  trustIncome := false
  incomeType := .dividend
  frankedAmount := terms.dividend * body.units
  unfrankedAmount := 0
  foreignSourceIncome := 0
  foreignTaxPaid := 0
  tfnWithholdingTax := 0
  reinvestmentTrade := none
  frankingCredits := terms.frankingCredit * body.units
  licCapitalGainAmount := 0
  conduitForeignIncome := 0
  buybackTrade := some sell
  amountPerSecurity := none
  securitiesHeld := none
  taxDeferredAmount := none

/-- A participation: its Sell, written as the shared core answers, and the
income row under the id `assigned` where there is a dividend component. -/
def participate (s : Books) (assigned actionId : ℤ) (body : ParticipationBody)
    (sold : Except Refusal Trade) : Except Refusal Books := do
  refuseIf (body.units ≤ 0) .nonPositiveUnits
  let action ← orRefuse (s.facts.action? actionId) .actionNotFound
  let terms ← orRefuse (buyBackTerms action.kind) .notABuyBack
  refuseIf (body.date < action.date) .beforeBuyBackDate
  let franked := terms.dividend * body.units
  let credits := terms.frankingCredit * body.units
  refuseSome ((creditAboveCeiling franked credits body.date).map fun ceiling =>
    .income (.frankingCreditAboveMaximum credits franked ceiling))
  let sell ← sold
  refuseIf ((s.income? assigned).isSome = true) .idTaken
  return { s with
    facts := { s.facts with trades := s.facts.trades ++ [sell] }
    income :=
      if 0 < terms.dividend then s.income ++ [dividendRow assigned action terms body sell.id]
      else s.income }

/-- A Sell removed, with the dividend component written beside it. -/
def deleteSell (s : Books) (id : TradeId) : Books :=
  { s with
    facts := { s.facts with trades := s.facts.trades.filter fun t => t.id ≠ id }
    income := s.income.filter fun i => i.buybackTrade ≠ some id }

inductive Write where
  | putListing (l : Listing)
  | deleteListing (id : ListingId)
  | putIncome (row : Income)
  | deleteIncome (id : ℤ)
  | linkIncome (id : ℤ) (trade : Option TradeId)
  | putAction (later : Facts → Facts → Option WriteError) (id : Option ℤ) (assigned : ℤ)
      (body : ActionBody)
  | deleteAction (id : ℤ)
  | participate (assigned actionId : ℤ) (body : ParticipationBody) (sold : Except Refusal Trade)
  | deleteSell (id : TradeId)
  /-- Trades and rights sales as whatever else was written leaves them. -/
  | putTrades (trades : List Trade) (rightsSales : List ℤ)

def step (s : Books) : Write → Except Refusal Books
  | .putListing l => s.putListing l
  | .deleteListing id => s.deleteListing id
  | .putIncome row => s.putIncome row
  | .deleteIncome id => s.deleteIncome id
  | .linkIncome id trade => .ok (s.linkIncome id trade)
  | .putAction later id assigned body => s.putAction later id assigned body
  | .deleteAction id => s.deleteAction id
  | .participate assigned actionId body sold => s.participate assigned actionId body sold
  | .deleteSell id => .ok (s.deleteSell id)
  | .putTrades trades rightsSales => .ok { s with facts := { s.facts with trades, rightsSales } }

abbrev run : Books → List Write → Except Refusal Books := GuardedRun.run step

/-! ### What an AMIT year holds -/

/-- No row of an AMIT year carries what the return would drop, and no return of
capital is dated in one. -/
structure Kept (s : Books) : Prop where
  income : ∀ i ∈ s.income, s.amitYear i.listing i.assessmentDate = true → i.cashOnly = true
  payments : ∀ a ∈ s.facts.actions, a.kind.isPayment = true → s.amitYear a.listing a.date = false

/-- Whether an election suits a row. -/
def incomeSuits (amit : Amit) (i : Income) : Bool :=
  !amitInTaxYear amit (taxYearFor i.assessmentDate) || i.cashOnly

def paymentSuits (amit : Amit) (a : Action) : Bool :=
  !a.kind.isPayment || !amitInTaxYear amit (taxYearFor a.date)

/-- Whether a listing's write elects no year that a row recorded does not suit,
and a participation writes no dividend component in an AMIT year. -/
def yearsHold (s : Books) : Write → Bool
  | .putListing l =>
    (s.income.all fun i => i.listing ≠ l.id || incomeSuits l.election i) &&
      s.facts.actions.all fun a => a.listing ≠ l.id || paymentSuits l.election a
  | .participate _ actionId body _ => (s.facts.action? actionId).all fun a =>
    ((buyBackTerms a.kind).all fun terms => terms.dividend ≤ 0) ||
      !s.amitYear a.listing body.date
  | _ => true

section Steps
variable {s s' : Books}

theorem incomeSuits_iff {amit : Amit} {i : Income} : incomeSuits amit i = true ↔
    (amitInTaxYear amit (taxYearFor i.assessmentDate) = true → i.cashOnly = true) := by
  rw [incomeSuits]
  cases amitInTaxYear amit (taxYearFor i.assessmentDate) <;> simp

theorem paymentSuits_iff {amit : Amit} {a : Action} : paymentSuits amit a = true ↔
    (a.kind.isPayment = true → amitInTaxYear amit (taxYearFor a.date) = false) := by
  rw [paymentSuits]
  cases a.kind.isPayment <;> simp

/-- A write that moves no election and brings no row that does not suit it. -/
theorem Kept.of_rows (hs : s.Kept) (helection : s'.election = s.election)
    (hincome : ∀ i ∈ s'.income, (∃ i' ∈ s.income, i'.listing = i.listing ∧
      i'.assessmentDate = i.assessmentDate ∧ i'.cashOnly = i.cashOnly) ∨
      (s.amitYear i.listing i.assessmentDate = true → i.cashOnly = true))
    (hactions : ∀ a ∈ s'.facts.actions, a ∈ s.facts.actions ∨
      (a.kind.isPayment = true → s.amitYear a.listing a.date = false)) : s'.Kept := by
  have hyear : ∀ listing date, s'.amitYear listing date = s.amitYear listing date := by
    intro listing date
    rw [amitYear, amitYear, helection]
  refine ⟨fun i hi hamit => ?_, fun a ha hpayment => ?_⟩
  · rw [hyear] at hamit
    rcases hincome i hi with ⟨i', hi', hlisting, hdate, hcash⟩ | hnew
    · exact hcash ▸ hs.income i' hi' (by rw [hlisting, hdate, hamit])
    · exact hnew hamit
  · rw [hyear]
    exact (hactions a ha).elim (fun hold => hs.payments a hold hpayment) fun hnew => hnew hpayment

theorem putListing_ok {l : Listing} (hok : s.putListing l = .ok s') :
    s'.listings = Keyed.put Listing.id s.listings l ∧ s'.income = s.income ∧ s'.facts = s.facts := by
  unfold putListing at hok
  obtain ⟨_, -, hok⟩ := bind_ok hok
  obtain ⟨_, -, hok⟩ := bind_ok hok
  obtain ⟨_, -, hok⟩ := bind_ok hok
  obtain rfl := Except.ok.inj hok
  exact ⟨rfl, rfl, rfl⟩

theorem putListing_election {l : Listing} (hok : s.putListing l = .ok s') (id : ListingId) :
    s'.election id = if id = l.id then l.election else s.election id := by
  rw [election, listing?, (putListing_ok hok).1]
  split
  · rename_i heq
    rw [heq, Keyed.get?_put_self s.listings_unique]
    rfl
  · rename_i hne
    rw [Keyed.get?_put_ne s.listings_unique hne]
    rfl

/-- An edit of a listing keeps what its years hold exactly where the rows
recorded suit the election it states. -/
theorem putListing_exact {l : Listing} (hs : s.Kept) (hok : s.putListing l = .ok s') :
    s'.Kept ↔ s.yearsHold (.putListing l) = true := by
  obtain ⟨-, hincome, hfacts⟩ := putListing_ok hok
  have hyear : ∀ listing date, s'.amitYear listing date =
      if listing = l.id then amitInTaxYear l.election (taxYearFor date) else s.amitYear listing date := by
    intro listing date
    rw [amitYear, putListing_election hok]
    split <;> rfl
  rw [yearsHold, Bool.and_eq_true, List.all_eq_true, List.all_eq_true]
  simp only [Bool.or_eq_true, decide_eq_true_eq, incomeSuits_iff, paymentSuits_iff]
  constructor
  · intro hkept
    refine ⟨fun i hi => or_iff_not_imp_left.mpr fun heq hamit => ?_,
      fun a ha => or_iff_not_imp_left.mpr fun heq hpayment => ?_⟩
    · refine hkept.income i (hincome ▸ hi) ?_
      rw [hyear, if_pos (not_not.mp heq), hamit]
    · have hnot := hkept.payments a (hfacts ▸ ha) hpayment
      rwa [hyear, if_pos (not_not.mp heq)] at hnot
  · rintro ⟨hrows, hpayments⟩
    refine ⟨fun i hi hamit => ?_, fun a ha hpayment => ?_⟩
    · rw [hyear] at hamit
      rw [hincome] at hi
      split at hamit
      · rename_i heq
        exact (hrows i hi).resolve_left (not_not.mpr heq) hamit
      · exact hs.income i hi hamit
    · rw [hfacts] at ha
      rw [hyear]
      split
      · rename_i heq
        exact (hpayments a ha).resolve_left (not_not.mpr heq) hpayment
      · exact hs.payments a ha hpayment

theorem deleteListing_kept {id : ListingId} (hs : s.Kept) (hok : s.deleteListing id = .ok s') :
    s'.Kept := by
  unfold deleteListing at hok
  obtain ⟨_, -, hok⟩ := bind_ok hok
  obtain ⟨_, hfree, hok⟩ := bind_ok hok
  obtain rfl := Except.ok.inj hok
  obtain ⟨hincome, hactions⟩ := not_or.mp (refuseIf_ok.mp hfree)
  have hyear : ∀ listing date, listing ≠ id → amitYear
      { s with
        listings := s.listings.filter fun l => l.id ≠ id
        listings_unique := Keyed.nodup_filter s.listings_unique _ } listing date =
        s.amitYear listing date := by
    intro listing date hne
    rw [amitYear, election, listing?, Keyed.get?_filter s.listings_unique, amitYear, election, listing?]
    cases hget : Keyed.get? Listing.id s.listings listing with
    | none => rfl
    | some l =>
      have hid := ((Keyed.get?_eq_some s.listings_unique).mp hget).2
      rw [Option.filter_some, if_pos (decide_eq_true (hid ▸ hne))]
  refine ⟨fun i hi hamit => ?_, fun a ha hpayment => ?_⟩
  · rw [hyear _ _ fun heq => hincome ⟨i, hi, heq⟩] at hamit
    exact hs.income i hi hamit
  · rw [hyear _ _ fun heq => hactions ⟨a, ha, heq⟩]
    exact hs.payments a ha hpayment

theorem putIncome_kept {row : Income} (hs : s.Kept) (hok : s.putIncome row = .ok s') : s'.Kept := by
  unfold putIncome at hok
  obtain ⟨_, hcheck, hok⟩ := bind_ok hok
  obtain ⟨_, -, hok⟩ := bind_ok hok
  obtain rfl := Except.ok.inj hok
  refine hs.of_rows rfl (fun i hi => ?_) fun a ha => Or.inl ha
  rcases Keyed.mem_put.mp hi with ⟨hold, -⟩ | rfl
  · exact Or.inl ⟨i, hold, rfl, rfl, rfl⟩
  · exact Or.inr (Income.cashOnly_of_check (mapError_ok.mp hcheck))

theorem deleteIncome_kept {id : ℤ} (hs : s.Kept) (hok : s.deleteIncome id = .ok s') : s'.Kept := by
  unfold deleteIncome at hok
  obtain ⟨_, -, hok⟩ := bind_ok hok
  obtain ⟨_, -, hok⟩ := bind_ok hok
  obtain ⟨_, -, hok⟩ := bind_ok hok
  obtain rfl := Except.ok.inj hok
  exact hs.of_rows rfl (fun i hi => Or.inl ⟨i, (List.mem_filter.mp hi).1, rfl, rfl, rfl⟩)
    fun a ha => Or.inl ha

theorem linkIncome_kept {id : ℤ} {trade : Option TradeId} (hs : s.Kept) :
    (s.linkIncome id trade).Kept := by
  refine hs.of_rows rfl (fun i hi => ?_) fun a ha => Or.inl ha
  obtain ⟨i', hi', rfl⟩ := List.mem_map.mp hi
  refine Or.inl ⟨i', hi', ?_⟩
  split <;> exact ⟨rfl, rfl, rfl⟩

/-- An accepted write of a return of capital is dated in no AMIT year. -/
theorem write_payment {later : Facts → Facts → Option WriteError} {f f' : Facts} {id : Option ℤ}
    {assigned : ℤ} {body : ActionBody} (hok : f.write later id assigned body = .ok f')
    (hpayment : body.kind.isPayment = true) :
    amitInTaxYear (f.amit body.listing) (taxYearFor body.date) = false := by
  unfold Facts.write at hok
  simp only at hok
  split at hok
  · cases hok
  split at hok
  · cases hok
  rename_i hyear
  rw [hpayment, Bool.true_and] at hyear
  exact Bool.eq_false_of_not_eq_true hyear

theorem putAction_kept {later : Facts → Facts → Option WriteError} {id : Option ℤ} {assigned : ℤ}
    {body : ActionBody} (hs : s.Kept) (hok : s.putAction later id assigned body = .ok s') :
    s'.Kept := by
  unfold putAction at hok
  obtain ⟨facts, hwrite, hok⟩ := bind_ok hok
  obtain rfl := Except.ok.inj hok
  have hwrite := mapError_ok.mp hwrite
  refine hs.of_rows rfl (fun i hi => Or.inl ⟨i, hi, rfl, rfl, rfl⟩) fun a ha => ?_
  rw [(write_ok hwrite).1] at ha
  rcases mem_put.mp ha with ⟨hold, -⟩ | rfl
  · exact Or.inl hold
  · exact Or.inr (write_payment hwrite)

theorem deleteAction_kept {id : ℤ} (hs : s.Kept) (hok : s.deleteAction id = .ok s') : s'.Kept := by
  unfold deleteAction at hok
  obtain ⟨_, -, hok⟩ := bind_ok hok
  obtain rfl := Except.ok.inj hok
  exact hs.of_rows rfl (fun i hi => Or.inl ⟨i, hi, rfl, rfl, rfl⟩)
    fun a ha => Or.inl (List.mem_filter.mp ha).1

theorem participate_ok {assigned actionId : ℤ} {body : ParticipationBody}
    {sold : Except Refusal Trade} (hok : s.participate assigned actionId body sold = .ok s') :
    ∃ action terms sell, s.facts.action? actionId = some action ∧
      buyBackTerms action.kind = some terms ∧ s'.election = s.election ∧
      s'.facts.actions = s.facts.actions ∧ s'.income =
        if 0 < terms.dividend then s.income ++ [dividendRow assigned action terms body sell]
        else s.income := by
  unfold participate at hok
  obtain ⟨_, -, hok⟩ := bind_ok hok
  obtain ⟨action, haction, hok⟩ := bind_ok hok
  obtain ⟨terms, hterms, hok⟩ := bind_ok hok
  obtain ⟨_, -, hok⟩ := bind_ok hok
  obtain ⟨_, -, hok⟩ := bind_ok hok
  obtain ⟨sell, -, hok⟩ := bind_ok hok
  obtain ⟨_, -, hok⟩ := bind_ok hok
  obtain rfl := Except.ok.inj hok
  exact ⟨action, terms, sell.id, orRefuse_ok.mp haction, orRefuse_ok.mp hterms, rfl, rfl, rfl⟩

/-- A dividend component is never cash only: it suits no AMIT year. -/
theorem participate_exact {assigned actionId : ℤ} {body : ParticipationBody}
    {sold : Except Refusal Trade} (hs : s.Kept)
    (hok : s.participate assigned actionId body sold = .ok s') :
    s'.Kept ↔ s.yearsHold (.participate assigned actionId body sold) = true := by
  obtain ⟨action, terms, sell, haction, hterms, helection, hactions, hincome⟩ := participate_ok hok
  rw [yearsHold, haction, Option.all_some, hterms, Option.all_some, Bool.or_eq_true,
    decide_eq_true_eq, Bool.not_eq_true', or_iff_not_imp_left, not_le]
  have hyear : ∀ listing date, s'.amitYear listing date = s.amitYear listing date := by
    intro listing date
    rw [amitYear, amitYear, helection]
  constructor
  · intro hkept hdividend
    rw [if_pos hdividend] at hincome
    by_contra hamit
    have hcash := hkept.income (dividendRow assigned action terms body sell)
      (hincome ▸ List.mem_append_right _ List.mem_cons_self)
      ((hyear _ _).trans (Bool.eq_true_of_not_eq_false hamit))
    cases hcash
  · intro hfree
    refine hs.of_rows helection (fun i hi => ?_) fun a ha => Or.inl (hactions ▸ ha)
    rw [hincome] at hi
    split at hi
    · rename_i hdividend
      rcases List.mem_append.mp hi with hold | hnew
      · exact Or.inl ⟨i, hold, rfl, rfl, rfl⟩
      · obtain rfl := List.mem_singleton.mp hnew
        refine Or.inr fun hamit => ?_
        cases (hfree hdividend).symm.trans hamit
    · exact Or.inl ⟨i, hi, rfl, rfl, rfl⟩

/-- A write leaves the AMIT years as they must be exactly where it meets the condition. -/
theorem step_exact {w : Write} (hs : s.Kept) (hok : s.step w = .ok s') :
    s'.Kept ↔ s.yearsHold w = true := by
  cases w with
  | putListing l => exact putListing_exact hs hok
  | participate assigned actionId body sold => exact participate_exact hs hok
  | deleteListing id => exact iff_of_true (deleteListing_kept hs hok) rfl
  | putIncome row => exact iff_of_true (putIncome_kept hs hok) rfl
  | deleteIncome id => exact iff_of_true (deleteIncome_kept hs hok) rfl
  | linkIncome id trade =>
    obtain rfl := Except.ok.inj hok
    exact iff_of_true (linkIncome_kept hs) rfl
  | putAction later id assigned body => exact iff_of_true (putAction_kept hs hok) rfl
  | deleteAction id => exact iff_of_true (deleteAction_kept hs hok) rfl
  | deleteSell id =>
    obtain rfl := Except.ok.inj hok
    refine iff_of_true (hs.of_rows rfl (fun i hi => ?_) fun a ha => Or.inl ha) rfl
    exact Or.inl ⟨i, (List.mem_filter.mp hi).1, rfl, rfl, rfl⟩
  | putTrades trades rightsSales =>
    obtain rfl := Except.ok.inj hok
    exact iff_of_true (hs.of_rows rfl (fun i hi => Or.inl ⟨i, hi, rfl, rfl, rfl⟩)
      fun a ha => Or.inl ha) rfl

end Steps

theorem kept_empty : empty.Kept :=
  ⟨fun _ hi => absurd hi List.not_mem_nil, fun _ ha => absurd ha List.not_mem_nil⟩

/-- A run leaves every AMIT year as it must be, in each state it passes, exactly
where each of its writes meets the condition. -/
theorem amit_years_hold {ws : List Write} {s : Books} (hrun : run empty ws = .ok s) :
    GuardedRun.meets step yearsHold empty ws = true ↔
      ∀ ws₁ ws₂ m, ws = ws₁ ++ ws₂ → run empty ws₁ = .ok m → m.Kept :=
  GuardedRun.meets_iff_states (fun _ _ _ hs hok => step_exact hs hok) kept_empty hrun

/-! ### A fund flagged after its rows -/

/-- A fund that is an AMIT from a date on, or not one. -/
def fund (amit : Bool) (amitFrom : Option NaiveDate) : Listing := ⟨1, false, amit, amitFrom⟩

/-- A trust distribution with a franking credit, present entitlement in the year 2024. -/
def distribution : Income :=
  ⟨⟨1, 1, 1, ⟨"AUD"⟩, ymd 2024 7 15, none, some (ymd 2024 6 30), true, .dividend, 70, 30, 0, 0, 0, none⟩,
    30, 0, 0, none, none, none, none⟩

def payment : ActionBody := ⟨1, ymd 2024 3 1, .returnOfCapital (1 / 2) ⟨"AUD"⟩ none⟩

def recorded : List Write :=
  [.putListing (fund false none), .putIncome distribution, .putAction (fun _ _ => none) none 1 payment]

/-- The fund converts in the year after the one the rows are of. -/
theorem amit_years_hold_converted : ∃ s,
    run empty (recorded ++ [.putListing (fund true (some (ymd 2024 7 1)))]) = .ok s ∧ s.Kept := by
  obtain ⟨s, hs⟩ := exists_ok
    (x := run empty (recorded ++ [.putListing (fund true (some (ymd 2024 7 1)))])) (by decide +kernel)
  exact ⟨s, hs, (amit_years_hold hs).mp (by decide +kernel) _ [] s (List.append_nil _).symm hs⟩

/-- A buy-back on an AMIT, with a dividend component. -/
def tendered : List Write :=
  [.putListing (fund true none),
    .putAction (fun _ _ => none) none 1 ⟨1, ymd 2024 3 1, .buyBack 10 7 3 none ⟨"AUD"⟩⟩,
    .participate 1 1 ⟨ymd 2024 3 8, 100, 1⟩
      (.ok ⟨1, .sell, ymd 2024 3 8, 1, 1, 100, some (.buybackAction 1)⟩)]

/-- A row or a payment that its year does not suit. -/
def unsuited (s : Books) : Bool :=
  (s.income.any fun i => s.amitYear i.listing i.assessmentDate && !i.cashOnly) ||
    s.facts.actions.any fun a => a.kind.isPayment && s.amitYear a.listing a.date

theorem not_kept {s : Books} (h : s.unsuited = true) : ¬ s.Kept := by
  intro hkept
  rcases (Bool.or_eq_true _ _).mp h with hrow | hpayment
  · obtain ⟨i, hi, h⟩ := List.any_eq_true.mp hrow
    obtain ⟨hamit, hcash⟩ := (Bool.and_eq_true _ _).mp h
    rw [hkept.income i hi hamit] at hcash
    cases hcash
  · obtain ⟨a, ha, h⟩ := List.any_eq_true.mp hpayment
    obtain ⟨hkind, hamit⟩ := (Bool.and_eq_true _ _).mp h
    rw [hkept.payments a ha hkind] at hamit
    cases hamit

/-- The flag set over rows already recorded, and a participation on an AMIT. -/
theorem amit_year_drops_rows :
    (∃ s, run empty (recorded ++ [.putListing (fund true none)]) = .ok s ∧ ¬ s.Kept) ∧
      ∃ s, run empty tendered = .ok s ∧ ¬ s.Kept := by
  have hreach : ∀ ws, accepts (run empty ws) unsuited = true → ∃ s, run empty ws = .ok s ∧ ¬ s.Kept := by
    intro ws hws
    obtain ⟨s, hs, hunsuited⟩ := accepts_iff.mp hws
    exact ⟨s, hs, not_kept hunsuited⟩
  exact ⟨hreach _ (by decide +kernel), hreach _ (by decide +kernel)⟩

end Books
end ShareTracker.AmitYears
