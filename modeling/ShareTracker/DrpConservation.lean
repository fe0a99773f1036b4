import ShareTracker.DrpChain

/-!
Runs of reinvestments, undos and edits of the enrolment periods. An undo does
not recompute the walk it shortens, and an edit of a period does not re-derive
what its trades brought forward; every other write keeps the chains.
-/
namespace ShareTracker.Drp
open Checked CarriedBalance

namespace Register

/-- Whether undoing a distribution's reinvestment leaves a settled last payment:
a period that refunds only what nothing follows has nothing left over there. -/
def undoSettled (s : Register) (id : ℤ) : Bool :=
  s.periods.all fun p => !p.settlesTail ||
    (s.periodTrades p).getLast?.all fun last => last.income.id ≠ id ||
      (s.periodTrades p).dropLast.getLast?.all fun prior => prior.trade.leftover = 0

/-- Whether a write takes back, or re-terms, no cash already handed on. -/
def keepsChain (s : Register) : Write → Bool
  | .unreinvest id _ => s.undoSettled id
  | .writePeriod p => decide (Follows p (s.periodTrades p))
  | _ => true

def runKeepsChain (s : Register) : List Write → Bool
  | [] => true
  | w :: ws =>
    s.keepsChain w &&
      match s.step w with
      | .ok s' => s'.runKeepsChain ws
      | .error _ => true

theorem mem_payments_undo {s : Register} {id : ℤ} {income : Income}
    {trade : DrpTrade} {r : Payment} (hincome : s.income id = some income)
    (hlink : income.reinvestmentTrade = some trade.id) :
    r ∈ ((s.linkIncome id none).dropTrade trade.id).payments ↔
      r ∈ s.payments ∧ r.trade.id ≠ trade.id := by
  rw [mem_payments, mem_payments]
  have htrade : r.trade ∈ ((s.linkIncome id none).dropTrade trade.id).trades ↔
      r.trade ∈ s.trades ∧ r.trade.id ≠ trade.id := by
    refine List.mem_filter.trans (and_congr_right fun _ => ?_)
    exact decide_eq_true_iff
  rw [htrade]
  constructor
  · rintro ⟨⟨ht, hne⟩, hi, hl⟩
    have hi' := (mem_unlink hincome (by rw [hl]; exact Option.some_ne_none _)).mp hi
    exact ⟨⟨ht, hi'.1, hl⟩, hne⟩
  · rintro ⟨⟨ht, hi, hl⟩, hne⟩
    refine ⟨⟨ht, hne⟩, (mem_unlink hincome (by rw [hl]; exact Option.some_ne_none _)).mpr ⟨hi, ?_⟩, hl⟩
    intro heq
    rw [heq, hlink] at hl
    exact hne (Option.some.inj hl).symm

theorem Sound.periodTrades_undo {s : Register} (hs : s.Sound) {id : ℤ} {income : Income}
    {trade : DrpTrade} (hincome : s.income id = some income)
    (hlink : income.reinvestmentTrade = some trade.id) (q : DrpEnrolment) :
    ((s.linkIncome id none).dropTrade trade.id).periodTrades q =
      (s.periodTrades q).filter fun r => r.trade.id ≠ trade.id := by
  refine periodTrades_eq ((hs.periodTrades_strict q).filter _) fun r => ?_
  rw [List.mem_filter, mem_periodTrades, mem_payments_undo hincome hlink, decide_eq_true_eq,
    and_right_comm]

/-- The trade an undo removes ends the walk of every period it is in. -/
theorem Sound.undone_last {s : Register} (hs : s.Sound) {trade : DrpTrade} {q : DrpEnrolment}
    {x : Payment} (htrade : trade ∈ s.trades) (hlast : s.hasLater trade = false)
    (hx : x ∈ s.periodTrades q) (hid : x.trade.id = trade.id) :
    ∃ before, s.periodTrades q = before ++ [x] := by
  obtain ⟨before, after, hrows⟩ := List.mem_iff_append.mp hx
  refine ⟨before, ?_⟩
  cases after with
  | nil => exact hrows
  | cons y ys =>
    exfalso
    have hstrict := hs.periodTrades_strict q
    rw [hrows] at hstrict
    have hxy : x.rank < y.rank :=
      (List.pairwise_cons.mp (List.pairwise_append.mp hstrict).2.1).1 y (by simp)
    have hy : y ∈ s.periodTrades q := by rw [hrows]; simp
    have hxt : x.trade = trade :=
      trade_eq (mem_payments.mp (mem_periodTrades.mp hx).1).1 htrade hid
    obtain ⟨⟨hxl, hxa⟩, -⟩ := DrpEnrolment.covers_iff.mp (mem_periodTrades.mp hx).2
    obtain ⟨⟨hyl, hya⟩, -⟩ := DrpEnrolment.covers_iff.mp (mem_periodTrades.mp hy).2
    have hafter : s.hasLater x.trade = true := by
      refine List.any_eq_true.mpr ⟨y.trade, (mem_payments.mp (mem_periodTrades.mp hy).1).1, ?_⟩
      simp only [Bool.and_eq_true, Bool.or_eq_true, decide_eq_true_eq]
      refine ⟨⟨hyl.trans hxl.symm, hya.trans hxa.symm⟩, ?_⟩
      exact (Prod.Lex.lt_iff.mp hxy).imp_right fun h => ⟨h.1.symm, h.2⟩
    rw [hxt, hlast] at hafter
    cases hafter

theorem Sound.chains_undo {s : Register} (hs : s.Sound) (hc : s.Chains) {id : ℤ}
    {income : Income} {trade : DrpTrade} (hincome : s.income id = some income)
    (hlink : income.reinvestmentTrade = some trade.id) (htrade : trade ∈ s.trades)
    (hlast : s.hasLater trade = false) (hsettled : s.undoSettled id = true) :
    ((s.linkIncome id none).dropTrade trade.id).Chains := by
  intro q hq
  rw [hs.periodTrades_undo hincome hlink]
  by_cases hx : ∃ x ∈ s.periodTrades q, x.trade.id = trade.id
  · obtain ⟨x, hx, hid⟩ := hx
    obtain ⟨before, hrows⟩ := hs.undone_last htrade hlast hx hid
    have hids := hs.periodTrades_ids q
    have hkept : (s.periodTrades q).filter (fun r => r.trade.id ≠ trade.id) = before := by
      rw [hrows, List.map_append, List.nodup_append] at hids
      have hgone : decide (x.trade.id ≠ trade.id) = false := decide_eq_false (not_not.mpr hid)
      rw [hrows, List.filter_append, List.filter_singleton, hgone, cond_false, List.append_nil]
      refine List.filter_eq_self.mpr fun r hr => decide_eq_true ?_
      exact fun h => hids.2.2 _ (List.mem_map_of_mem hr) _ (by simp) (h.trans hid.symm)
    rw [hkept]
    have hchain := hc q hq
    rw [hrows] at hchain
    refine hchain.dropLast fun htail prior hprior => ?_
    obtain ⟨-, hxi, hxlink⟩ := mem_payments.mp (mem_periodTrades.mp hx).1
    obtain ⟨hmem, hincid⟩ := mem_income.mp hincome
    have hxincome : x.income.id = id := by
      rw [hs.links_unique _ hxi _ hmem _ (hxlink.trans (congrArg some hid)) hlink, hincid]
    have hperiod := List.all_eq_true.mp hsettled q hq
    rw [htail, hrows, List.getLast?_concat, List.dropLast_concat, hprior] at hperiod
    simpa [hxincome] using hperiod
  · have hkept : (s.periodTrades q).filter (fun r => r.trade.id ≠ trade.id) = s.periodTrades q :=
      List.filter_eq_self.mpr fun r hr => decide_eq_true fun h => hx ⟨r, hr, h⟩
    rw [hkept]
    exact hc q hq

/-- A write that keeps the cash handed on keeps every chain. -/
theorem Sound.chains_step {s s' : Register} {w : Write} (hs : s.Sound) (hc : s.Chains)
    (hkeeps : s.keepsChain w = true) (h : s.step w = .ok s') : s'.Chains := by
  have hs' := hs.step h
  cases w with
  | recordIncome body =>
    obtain ⟨row, rfl, hrow⟩ := recordIncome_ok h
    exact hs.chains_congr hc (mem_payments_congr rfl fun i => mem_putIncome hrow) fun _ hp => hp
  | deleteIncome id =>
    obtain ⟨rfl, hfree⟩ := deleteIncome_ok h
    exact hs.chains_congr hc (mem_payments_congr rfl fun i => mem_dropIncome hfree) fun _ hp => hp
  | writeTrade id =>
    obtain ⟨_, -, h⟩ := bind_ok h
    obtain rfl := Except.ok.inj h
    exact hs.chains_congr hc (fun _ => Iff.rfl) fun _ hp => hp
  | reinvest id body env =>
    obtain ⟨income, period, allotment, hincome, hfree, hperiod, hlater, hallot, rfl⟩ := reinvest_ok h
    refine hs.chains_reinvest hc hincome hfree (List.mem_of_find?_eq_some hperiod)
      (enrolment_covers hperiod rfl rfl) hlater rfl (hs.join hincome hfree ?_)
    intro hcomputed
    rw [parcel_leftover]
    exact allot_computed hallot hcomputed
  | unreinvest id env =>
    obtain ⟨income, trade, hincome, hlink, htrade, hlast, rfl⟩ := unreinvest_ok h
    exact hs.chains_undo hc hincome hlink htrade hlast hkeeps
  | writePeriod p =>
    obtain ⟨happart, rfl⟩ := writePeriod_ok h
    refine (hs.putPeriod happart).chains_recompute (Keyed.mem_put.mpr (.inr rfl))
      (of_decide_eq_true hkeeps) ?_
    intro q hq hqp
    rcases Keyed.mem_put.mp hq with ⟨hq, -⟩ | rfl
    · exact hc q hq
    · exact absurd rfl hqp
  | deletePeriod id =>
    obtain rfl := deletePeriod_ok h
    exact hs.chains_congr hc (fun _ => Iff.rfl) fun _ hp => (List.mem_filter.mp hp).1

theorem Sound.chains_run {s s' : Register} {ws : List Write} (hs : s.Sound) (hc : s.Chains)
    (hkeeps : s.runKeepsChain ws = true) (h : s.run ws = .ok s') : s'.Sound ∧ s'.Chains := by
  induction ws generalizing s with
  | nil =>
    obtain rfl := Except.ok.inj h
    exact ⟨hs, hc⟩
  | cons w ws ih =>
    unfold run at h
    unfold runKeepsChain at hkeeps
    obtain ⟨hw, hrest⟩ := (Bool.and_eq_true _ _).mp hkeeps
    cases hstep : s.step w with
    | error e =>
      rw [hstep] at h
      cases h
    | ok mid =>
      rw [hstep] at h hrest
      exact ih (hs.step hstep) (hs.chains_step hc hw hstep) hrest h

theorem sound_empty : empty.Sound where
  links_known _ h := absurd h List.not_mem_nil
  links_unique _ h := absurd h List.not_mem_nil
  periods_apart _ h := absurd h List.not_mem_nil
  balanced _ h := absurd h List.not_mem_nil

/-- A whole chain of computed units conserves its cash. -/
theorem Sound.settled {s : Register} (hs : s.Sound) {p : DrpEnrolment}
    (hchain : Chain p (s.periodTrades p)) : Settled p (s.periodTrades p) := by
  refine ⟨hchain, fun hcomputed => ?_⟩
  have hrow : ∀ r ∈ s.periodTrades p, r.broughtForward + r.cash =
      (r.trade.cost + r.trade.residualPaidOut) + r.carriedForward := by
    intro r hr
    have hbal := hs.balanced r (mem_periodTrades.mp hr).1 (hcomputed r hr)
    unfold DrpTrade.leftover at hbal
    unfold Payment.carriedForward
    linarith
  have hsum := hchain.chained.conserves _ _ _ _ hrow
  rw [List.sum_map_add, zero_add] at hsum
  exact hsum

/-- Over a run whose undos and period edits take back no cash already handed on, every
period is settled. -/
theorem run_settled (ws : List Write) (s : Register) (hrun : empty.run ws = .ok s)
    (hkeeps : empty.runKeepsChain ws = true) :
    ∀ p ∈ s.periods, Settled p (s.periodTrades p) := by
  intro p hp
  obtain ⟨hs, hc⟩ := sound_empty.chains_run (fun q hq => absurd hq List.not_mem_nil) hkeeps hrun
  exact hs.settled (hc p hp)

/-! ### Two distributions reinvested -/

def distribution (id : ℤ) (paid : NaiveDate) (cash : ℚ) : Income where
  id := id
  listing := 1
  account := 1
  currency := ⟨"AUD"⟩
  datePaid := paid
  exDate := none
  entitlementDate := none
  trustIncome := false
  incomeType := .dividend
  frankedAmount := cash
  unfrankedAmount := 0
  foreignSourceIncome := 0
  foreignTaxPaid := 0
  tfnWithholdingTax := 0
  reinvestmentTrade := none

def domestic : Surroundings where
  listingCurrency := fun _ => ⟨"AUD"⟩
  backDated := fun _ _ => false
  unrepresentableCost := fun _ _ => false
  tooFine := fun _ _ _ => false
  beyondRange := fun _ => false
  consumed := fun _ => false

def enrolledUntil (stop : Option NaiveDate) (handling : ResidualHandling) : DrpEnrolment :=
  ⟨1, 1, 1, ymd 2025 1 1, stop, handling⟩

def atTen : ReinvestBody := ⟨10, none, none, none⟩

/-- 105 and then 103 reinvested at 10: ten units each, 5 and then 8 left over. -/
def twoReinvested : List Write :=
  [.writePeriod (enrolledUntil none .carryForward),
    .recordIncome (distribution 1 (ymd 2025 3 20) 105),
    .reinvest 1 atTen domestic,
    .recordIncome (distribution 2 (ymd 2025 9 20) 103),
    .reinvest 2 atTen domestic]

def closed : DrpEnrolment := enrolledUntil (some (ymd 2025 12 1)) .carryForward

/-- The plan left and joined again, an undo entered again, and the period closed. -/
def closedAgain : List Write :=
  twoReinvested ++ [.writePeriod closed, .writePeriod (enrolledUntil none .carryForward),
    .unreinvest 2 domestic, .reinvest 2 atTen domestic, .writePeriod closed]

theorem run_settled_closedAgain : ∃ s, empty.run closedAgain = .ok s ∧
    ∀ p ∈ s.periods, Settled p (s.periodTrades p) := by
  obtain ⟨s, h⟩ := Checked.exists_ok (x := empty.run closedAgain) (by decide)
  exact ⟨s, h, run_settled closedAgain s h (by decide +kernel)⟩

/-- A break of some period's chain: in what is brought forward, or at its tail. -/
def unsettled (s : Register) : Bool :=
  s.periods.any fun p =>
    !decide (Chained Payment.broughtForward Payment.carriedForward 0 (s.periodTrades p)) ||
      (s.periodTrades p).getLast?.any fun r =>
        p.residualSplit r.trade.leftover .tail ≠
          ⟨r.trade.residualCarriedForward, r.trade.residualPaidOut⟩

theorem not_settled {s : Register} (h : s.unsettled = true) :
    ¬ ∀ p ∈ s.periods, Settled p (s.periodTrades p) := by
  intro hall
  obtain ⟨p, hp, hbreak⟩ := List.any_eq_true.mp h
  have hchain := (hall p hp).toChain
  rw [decide_eq_true hchain.chained, Bool.not_true, Bool.false_or] at hbreak
  obtain ⟨r, hlast, hsplit⟩ := (Option.any_eq_true _ _).mp hbreak
  have hrows := List.dropLast_append_getLast? r hlast
  exact of_decide_eq_true hsplit (hchain.split _ r [] hrows.symm).symm

/-- Undone in a closed period, the last reinvestment leaves the one before it
carrying cash nothing picks up; re-termed, a period leaves cash both paid out
and spent. -/
theorem run_unsettled :
    (∃ s, empty.run (twoReinvested ++ [.writePeriod closed, .unreinvest 2 domestic]) = .ok s ∧
      ¬ ∀ p ∈ s.periods, Settled p (s.periodTrades p)) ∧
    ∃ s, empty.run (twoReinvested ++ [.writePeriod (enrolledUntil none .payOut)]) = .ok s ∧
      ¬ ∀ p ∈ s.periods, Settled p (s.periodTrades p) := by
  have hreach : ∀ ws, Checked.accepts (empty.run ws) unsettled = true →
      ∃ s, empty.run ws = .ok s ∧ ¬ ∀ p ∈ s.periods, Settled p (s.periodTrades p) := by
    intro ws hws
    obtain ⟨s, h, hunsettled⟩ := Checked.accepts_iff.mp hws
    exact ⟨s, h, not_settled hunsettled⟩
  exact ⟨hreach _ (by decide +kernel), hreach _ (by decide +kernel)⟩

end Register

end ShareTracker.Drp
