import ShareTracker.Drp

/-!
The residual chain of an enrolment period: every reinvestment opens on what
the one before it carried forward, so no cash is lost between them or spent
twice. The chain survives every write but two kinds, which leave a
brought-forward figure or a settled leftover as the period no longer has it.
-/
namespace ShareTracker.Drp
open Checked CarriedBalance

namespace Payment

def broughtForward (r : Payment) : ℚ := r.trade.residualBroughtForward

def carriedForward (r : Payment) : ℚ := r.trade.residualCarriedForward

def cash (r : Payment) : ℚ := r.income.netCashReceived

end Payment

def positionBefore (after : List Payment) : ChainPosition :=
  if after = [] then .tail else .followed

/-- The chain of a period's payments: what each brings forward, and where its leftover sits. -/
structure Chain (p : DrpEnrolment) (rows : List Payment) : Prop where
  chained : Chained Payment.broughtForward Payment.carriedForward 0 rows
  split : ∀ before r after, rows = before ++ r :: after →
    ⟨r.trade.residualCarriedForward, r.trade.residualPaidOut⟩ =
      p.residualSplit r.trade.leftover (positionBefore after)

/-- No cash lost, none spent twice. -/
structure Settled (p : DrpEnrolment) (rows : List Payment) : Prop extends Chain p rows where
  conserved : (∀ r ∈ rows, r.trade.computed = true) →
    (rows.map Payment.cash).sum = (rows.map fun r => r.trade.cost).sum +
      (rows.map fun r => r.trade.residualPaidOut).sum + final Payment.carriedForward 0 rows

/-- What a period's handling hands to a trade's successor. -/
def DrpEnrolment.hands (p : DrpEnrolment) (r : Payment) : ℚ :=
  match p.residualHandling with
  | .carryForward => r.trade.leftover
  | .payOut => 0

/-- The figures brought forward are the ones the handling hands on. -/
def Follows (p : DrpEnrolment) (rows : List Payment) : Prop :=
  Chained Payment.broughtForward p.hands 0 rows

instance (p : DrpEnrolment) (rows : List Payment) : Decidable (Follows p rows) :=
  decidableChained _ _ _ _

theorem residualSplit_followed (p : DrpEnrolment) (r : Payment) :
    (p.residualSplit r.trade.leftover .followed).carriedForward = p.hands r := by
  unfold DrpEnrolment.residualSplit DrpEnrolment.refunds DrpEnrolment.hands
  cases p.residualHandling with
  | carryForward => rfl
  | payOut => rfl

theorem Chain.follows {p : DrpEnrolment} {rows : List Payment} (h : Chain p rows) :
    Follows p rows := by
  refine h.chained.congr _ _ ?_
  intro before r after hrows hafter
  have hsplit := h.split before r after hrows
  rw [positionBefore, if_neg hafter] at hsplit
  rw [← residualSplit_followed, ← hsplit]
  rfl

namespace DrpEnrolment

theorem overlaps_iff {p q : DrpEnrolment} :
    p.overlaps q = true ↔ (p.listing = q.listing ∧ p.account = q.account) ∧
      (∀ stop ∈ q.unenrolmentDate, p.enrolmentDate < stop) ∧
        ∀ stop ∈ p.unenrolmentDate, q.enrolmentDate < stop := by
  unfold overlaps
  rw [Bool.and_eq_true, Bool.and_eq_true, Bool.and_eq_true, decide_eq_true_eq, decide_eq_true_eq,
    Option.all_eq_true, Option.all_eq_true, and_assoc]
  simp only [decide_eq_true_eq, Option.mem_def]

theorem overlaps_comm (p q : DrpEnrolment) : p.overlaps q = q.overlaps p := by
  rw [Bool.eq_iff_iff, overlaps_iff, overlaps_iff]
  constructor
  · rintro ⟨⟨hl, ha⟩, hq, hp⟩
    exact ⟨⟨hl.symm, ha.symm⟩, hp, hq⟩
  · rintro ⟨⟨hl, ha⟩, hp, hq⟩
    exact ⟨⟨hl.symm, ha.symm⟩, hq, hp⟩

theorem covers_iff {p : DrpEnrolment} {r : Payment} :
    p.covers r = true ↔ (r.trade.listing = p.listing ∧ r.trade.account = p.account) ∧
      p.enrolmentDate ≤ r.income.exOrPayDate ∧
        ∀ stop ∈ p.unenrolmentDate, r.income.exOrPayDate < stop := by
  unfold covers during
  rw [Bool.and_eq_true, Bool.and_eq_true, Bool.and_eq_true, decide_eq_true_eq, decide_eq_true_eq,
    decide_eq_true_eq, Option.all_eq_true]
  simp only [decide_eq_true_eq, Option.mem_def]

/-- Periods that cover one payment share its entitlement date. -/
theorem overlaps_of_covers {p q : DrpEnrolment} {r : Payment} (hp : p.covers r = true)
    (hq : q.covers r = true) : p.overlaps q = true := by
  obtain ⟨⟨hpl, hpa⟩, hpstart, hpstop⟩ := covers_iff.mp hp
  obtain ⟨⟨hql, hqa⟩, hqstart, hqstop⟩ := covers_iff.mp hq
  exact overlaps_iff.mpr ⟨⟨hpl.symm.trans hql, hpa.symm.trans hqa⟩,
    fun stop hstop => hpstart.trans_lt (hqstop stop hstop),
    fun stop hstop => hqstart.trans_lt (hpstop stop hstop)⟩

end DrpEnrolment

/-! ### Joined rows -/

namespace Register

theorem mem_payments {s : Register} {r : Payment} :
    r ∈ s.payments ↔ r.trade ∈ s.trades ∧ r.income ∈ s.incomes ∧
      r.income.reinvestmentTrade = some r.trade.id := by
  rw [payments, List.mem_filter, List.mem_map, decide_eq_true_eq, ← and_assoc]
  refine and_congr_left fun _ => ?_
  constructor
  · rintro ⟨⟨t, i⟩, hti, rfl⟩
    exact List.mem_product.mp hti
  · rintro ⟨ht, hi⟩
    exact ⟨(r.trade, r.income), List.mem_product.mpr ⟨ht, hi⟩, rfl⟩

theorem payments_nodup (s : Register) : s.payments.Nodup := by
  have ht : s.trades.Nodup := List.Nodup.of_map _ s.trades_unique
  have hi : s.incomes.Nodup := List.Nodup.of_map _ s.incomes_unique
  refine ((ht.product hi).map ?_).filter _
  rintro ⟨t, i⟩ ⟨t', i'⟩ h
  cases h
  rfl

theorem mem_periodTrades {s : Register} {p : DrpEnrolment} {r : Payment} :
    r ∈ s.periodTrades p ↔ r ∈ s.payments ∧ p.covers r = true := by
  rw [periodTrades, StableSort.mem_sortBy, List.mem_filter]

/-- A list in payment order with a period's rows is the walk of the period. -/
theorem periodTrades_eq {s : Register} {p : DrpEnrolment} {rows : List Payment}
    (hsorted : rows.Pairwise fun a b => a.rank < b.rank)
    (hmem : ∀ r, r ∈ rows ↔ r ∈ s.payments ∧ p.covers r = true) : s.periodTrades p = rows := by
  refine StableSort.sortBy_eq_of_pairwise (s.payments_nodup.filter _) hsorted fun r => ?_
  rw [hmem, List.mem_filter]

/-- What every accepted write keeps of the tables. -/
structure Sound (s : Register) : Prop where
  links_known : ∀ i ∈ s.incomes, ∀ k, i.reinvestmentTrade = some k → k ≤ s.lastTrade
  links_unique : ∀ i ∈ s.incomes, ∀ j ∈ s.incomes, ∀ k,
    i.reinvestmentTrade = some k → j.reinvestmentTrade = some k → i = j
  periods_apart : ∀ p ∈ s.periods, ∀ q ∈ s.periods, p.id ≠ q.id → p.overlaps q = false
  balanced : ∀ r ∈ s.payments, r.trade.computed = true →
    r.cash + r.broughtForward = r.trade.cost + r.trade.leftover

theorem trade_eq {s : Register} {t u : DrpTrade} (ht : t ∈ s.trades) (hu : u ∈ s.trades)
    (hid : t.id = u.id) : t = u := Keyed.eq_of_key s.trades_unique ht hu hid

theorem Sound.payment_eq {s : Register} (hs : s.Sound) {r r' : Payment} (hr : r ∈ s.payments)
    (hr' : r' ∈ s.payments) (hid : r.trade.id = r'.trade.id) : r = r' := by
  obtain ⟨ht, hi, hlink⟩ := mem_payments.mp hr
  obtain ⟨ht', hi', hlink'⟩ := mem_payments.mp hr'
  have htrade : r.trade = r'.trade := trade_eq ht ht' hid
  have hincome : r.income = r'.income := hs.links_unique _ hi _ hi' _ hlink (hid ▸ hlink')
  cases r
  cases r'
  cases htrade
  cases hincome
  rfl

theorem Sound.periodTrades_strict {s : Register} (hs : s.Sound) (p : DrpEnrolment) :
    (s.periodTrades p).Pairwise fun a b => a.rank < b.rank := by
  refine StableSort.sortBy_strict (s.payments_nodup.filter _) ?_
  intro a ha b hb hab
  have hid : a.trade.id = b.trade.id := congrArg Prod.snd (toLex.injective hab)
  exact hs.payment_eq (List.mem_filter.mp ha).1 (List.mem_filter.mp hb).1 hid

theorem Sound.periodTrades_ids {s : Register} (hs : s.Sound) (p : DrpEnrolment) :
    ((s.periodTrades p).map fun r => r.trade.id).Nodup := by
  have hnodup : (s.periodTrades p).Nodup := (hs.periodTrades_strict p).imp fun h heq =>
    h.ne (congrArg Payment.rank heq)
  refine hnodup.map_on ?_
  intro a ha b hb hab
  exact hs.payment_eq (mem_periodTrades.mp ha).1 (mem_periodTrades.mp hb).1 hab

/-- A walk reads nothing but the payments its period covers. -/
theorem Sound.periodTrades_congr {s s' : Register} (hs : s.Sound) {p : DrpEnrolment}
    (h : ∀ r, p.covers r = true → (r ∈ s'.payments ↔ r ∈ s.payments)) :
    s'.periodTrades p = s.periodTrades p := by
  refine periodTrades_eq (hs.periodTrades_strict p) fun r => ?_
  rw [mem_periodTrades]
  exact and_congr_left fun hr => (h r hr).symm

/-! ### The recompute -/

/-- What the recompute over a walk makes of a payment. -/
def resplitRow (p : DrpEnrolment) (walk : List Payment) (r : Payment) : Payment :=
  { r with trade := resplit p walk r.trade }

theorem resplit_leftover (p : DrpEnrolment) (walk : List Payment) (t : DrpTrade) :
    (resplit p walk t).leftover = t.leftover := by
  unfold resplit
  split
  · exact p.residualSplit_sum t.leftover _
  · rfl

/-- The columns the recompute leaves alone. -/
theorem resplit_frame (p : DrpEnrolment) (walk : List Payment) (t : DrpTrade) :
    ((resplit p walk t).listing = t.listing ∧ (resplit p walk t).account = t.account ∧
      (resplit p walk t).date = t.date) ∧
    (resplit p walk t).cost = t.cost ∧ (resplit p walk t).computed = t.computed ∧
    (resplit p walk t).residualBroughtForward = t.residualBroughtForward := by
  unfold resplit
  split
  · exact ⟨⟨rfl, rfl, rfl⟩, rfl, rfl, rfl⟩
  · exact ⟨⟨rfl, rfl, rfl⟩, rfl, rfl, rfl⟩

theorem resplitRow_rank (p : DrpEnrolment) (walk : List Payment) (r : Payment) :
    (resplitRow p walk r).rank = r.rank := by
  unfold Payment.rank resplitRow
  rw [resplit_id, (resplit_frame p walk r.trade).1.2.2]

theorem covers_resplitRow (p q : DrpEnrolment) (walk : List Payment) (r : Payment) :
    q.covers (resplitRow p walk r) = q.covers r := by
  unfold DrpEnrolment.covers resplitRow
  rw [(resplit_frame p walk r.trade).1.1, (resplit_frame p walk r.trade).1.2.1]

theorem mem_payments_recompute {s : Register} {p : DrpEnrolment} {r : Payment} :
    r ∈ (s.recomputeResiduals p).payments ↔
      ∃ r₀ ∈ s.payments, resplitRow p (s.periodTrades p) r₀ = r := by
  rw [mem_payments]
  constructor
  · rintro ⟨ht, hi, hlink⟩
    obtain ⟨t, ht, htr⟩ := List.mem_map.mp ht
    rw [← htr, resplit_id] at hlink
    refine ⟨⟨t, r.income⟩, mem_payments.mpr ⟨ht, hi, hlink⟩, ?_⟩
    cases r
    exact congrArg (Payment.mk · _) htr
  · rintro ⟨r₀, hr₀, rfl⟩
    obtain ⟨ht, hi, hlink⟩ := mem_payments.mp hr₀
    exact ⟨List.mem_map_of_mem ht, hi, hlink.trans (congrArg some (resplit_id p _ _).symm)⟩

theorem Sound.periodTrades_recompute {s : Register} (hs : s.Sound) (p q : DrpEnrolment) :
    (s.recomputeResiduals p).periodTrades q =
      (s.periodTrades q).map (resplitRow p (s.periodTrades p)) := by
  refine periodTrades_eq ?_ fun r => ?_
  · rw [List.pairwise_map]
    simp only [resplitRow_rank]
    exact hs.periodTrades_strict q
  · rw [List.mem_map, mem_payments_recompute]
    constructor
    · rintro ⟨r₀, hr₀, rfl⟩
      obtain ⟨hmem, hcov⟩ := mem_periodTrades.mp hr₀
      exact ⟨⟨r₀, hmem, rfl⟩, (covers_resplitRow p q _ r₀).trans hcov⟩
    · rintro ⟨⟨r₀, hr₀, rfl⟩, hcov⟩
      exact ⟨r₀, mem_periodTrades.mpr ⟨hr₀, (covers_resplitRow p q _ r₀).symm.trans hcov⟩, rfl⟩

/-- A period that covers none of the walk's payments keeps its own. -/
theorem Sound.periodTrades_recompute_apart {s : Register} (hs : s.Sound) {p q : DrpEnrolment}
    (hapart : ∀ r, q.covers r = true → p.covers r = false) :
    (s.recomputeResiduals p).periodTrades q = s.periodTrades q := by
  rw [hs.periodTrades_recompute]
  refine (List.map_congr_left fun r hr => ?_).trans (List.map_id _)
  obtain ⟨hmem, hcov⟩ := mem_periodTrades.mp hr
  unfold resplitRow resplit
  rw [if_neg]
  · rfl
  intro hany
  obtain ⟨x, hx, hid⟩ := List.any_eq_true.mp hany
  obtain ⟨hxmem, hxcov⟩ := mem_periodTrades.mp hx
  have hxr : x = r := hs.payment_eq hxmem hmem (of_decide_eq_true hid)
  have hnot := hapart r hcov
  rw [← hxr, hxcov] at hnot
  cases hnot

theorem Sound.recompute {s : Register} (hs : s.Sound) (p : DrpEnrolment) :
    (s.recomputeResiduals p).Sound := by
  refine ⟨hs.links_known, hs.links_unique, hs.periods_apart, ?_⟩
  intro r hr
  obtain ⟨r₀, hr₀, rfl⟩ := mem_payments_recompute.mp hr
  intro hcomputed
  obtain ⟨-, hcost, hcomp, hbf⟩ := resplit_frame p (s.periodTrades p) r₀.trade
  have hbal := hs.balanced r₀ hr₀ (hcomp.symm.trans hcomputed)
  unfold Payment.broughtForward resplitRow
  rw [resplit_leftover, hcost, hbf]
  exact hbal

/-- In a walk of distinct trades, the place is whether anything follows. -/
theorem position_eq {walk before after : List Payment} {r : Payment}
    (hids : (walk.map fun r => r.trade.id).Nodup) (hwalk : walk = before ++ r :: after) :
    position walk r.trade = positionBefore after := by
  unfold position positionBefore
  cases hlast : after.getLast? with
  | none =>
    have hafter : after = [] := List.getLast?_eq_none_iff.mp hlast
    rw [hwalk, hafter, List.getLast?_concat, if_pos rfl, if_pos]
    exact decide_eq_true rfl
  | some last =>
    have hmem : last ∈ after := List.mem_of_getLast? hlast
    have hne : last.trade.id ≠ r.trade.id := by
      rw [hwalk, List.map_append, List.map_cons] at hids
      have hnot := (List.nodup_cons.mp (List.nodup_append.mp hids).2.1).1
      exact fun h => hnot (List.mem_map.mpr ⟨last, hmem, h⟩)
    rw [hwalk, List.getLast?_append, List.getLast?_cons, hlast,
      if_neg (List.ne_nil_of_mem hmem), if_neg]
    exact fun h => hne (of_decide_eq_true h)

/-- The recompute of a walk whose figures brought forward follow its handling. -/
theorem chain_resplit {p : DrpEnrolment} {walk : List Payment}
    (hids : (walk.map fun r => r.trade.id).Nodup) (hfollows : Follows p walk) :
    Chain p (walk.map (resplitRow p walk)) := by
  have hput : ∀ before r after, walk = before ++ r :: after →
      resplit p walk r.trade = r.trade.put (p.residualSplit r.trade.leftover (positionBefore after)) := by
    intro before r after hwalk
    unfold resplit
    rw [if_pos, position_eq hids hwalk]
    exact List.any_eq_true.mpr ⟨r, by rw [hwalk]; simp, decide_eq_true rfl⟩
  constructor
  · rw [chained_map]
    have hopen : Payment.broughtForward ∘ resplitRow p walk = Payment.broughtForward :=
      funext fun r => (resplit_frame p walk r.trade).2.2.2
    rw [hopen]
    refine hfollows.congr _ _ ?_
    intro before r after hwalk hafter
    rw [Function.comp_apply, Payment.carriedForward, resplitRow, hput before r after hwalk,
      positionBefore, if_neg hafter]
    exact (residualSplit_followed p r).symm
  · intro before x after hmap
    obtain ⟨b, rest, hwalk, rfl, hrest⟩ := List.map_eq_append_iff.mp hmap
    obtain ⟨r, a, hcons, rfl, rfl⟩ := List.map_eq_cons_iff.mp hrest
    subst hcons
    have hpos : positionBefore (a.map (resplitRow p walk)) = positionBefore a := by
      cases a with
      | nil => rfl
      | cons x xs => rfl
    unfold resplitRow at hpos ⊢
    rw [hpos, resplit_leftover, hput b r a hwalk]
    rfl

/-! ### What a write leaves -/

theorem reinvest_ok {s s' : Register} {id : ℤ} {body : ReinvestBody} {env : Surroundings}
    (h : s.reinvest id body env = .ok s') :
    ∃ income period allotment,
      let date := body.date.getD income.datePaid
      let forward := s.broughtForward period date
      s.income id = some income ∧ income.reinvestmentTrade = none ∧
      s.enrolment income = some period ∧ s.later period date = none ∧
      allot env body (income.netCashReceived + forward) = .ok allotment ∧
      s' = (s.join id (parcel income (env.listingCurrency income.listing) date body allotment
        forward (period.residualSplit allotment.leftover .tail))).recomputeResiduals period := by
  obtain ⟨_, -, h⟩ := bind_ok h
  obtain ⟨_, -, h⟩ := bind_ok h
  obtain ⟨_, -, h⟩ := bind_ok h
  obtain ⟨income, hincome, h⟩ := bind_ok h
  obtain ⟨_, hfree, h⟩ := bind_ok h
  obtain ⟨_, -, h⟩ := bind_ok h
  obtain ⟨period, hperiod, h⟩ := bind_ok h
  obtain ⟨_, -, h⟩ := bind_ok h
  obtain ⟨_, -, h⟩ := bind_ok h
  obtain ⟨_, hlater, h⟩ := bind_ok h
  obtain ⟨allotment, hallot, h⟩ := bind_ok h
  obtain ⟨_, -, h⟩ := bind_ok h
  obtain ⟨_, -, h⟩ := bind_ok h
  refine ⟨income, period, allotment, orRefuse_ok.mp hincome, ?_, orRefuse_ok.mp hperiod, ?_,
    hallot, (Except.ok.inj h).symm⟩
  · exact Option.not_isSome_iff_eq_none.mp (refuseIf_ok.mp hfree)
  · cases hl : s.later period (body.date.getD income.datePaid) with
    | none => rfl
    | some r =>
      rw [hl] at hlater
      cases hlater

theorem allot_computed {env : Surroundings} {body : ReinvestBody} {available : ℚ}
    {a : Allotment} (h : allot env body available = .ok a) (hcomputed : a.computed = true) :
    available = a.quantity * body.reinvestmentPrice + a.leftover := by
  unfold allot at h
  split at h
  · obtain ⟨_, -, h⟩ := bind_ok h
    obtain ⟨_, -, h⟩ := bind_ok h
    obtain rfl := Except.ok.inj h
    cases hcomputed
  · obtain rfl := Except.ok.inj h
    exact (add_sub_cancel _ _).symm

theorem parcel_leftover (income : Income) (currency : CurrencyCode) (date : NaiveDate)
    (body : ReinvestBody) (a : Allotment) (forward : ℚ) (p : DrpEnrolment)
    (position : ChainPosition) :
    (parcel income currency date body a forward (p.residualSplit a.leftover position)).leftover =
      a.leftover := p.residualSplit_sum a.leftover position

theorem unreinvest_ok {s s' : Register} {id : ℤ} {env : Surroundings}
    (h : s.unreinvest id env = .ok s') :
    ∃ income trade, s.income id = some income ∧ income.reinvestmentTrade = some trade.id ∧
      trade ∈ s.trades ∧ s.hasLater trade = false ∧
      s' = (s.linkIncome id none).dropTrade trade.id := by
  obtain ⟨income, hincome, h⟩ := bind_ok h
  obtain ⟨tradeId, hlink, h⟩ := bind_ok h
  obtain ⟨_, -, h⟩ := bind_ok h
  obtain ⟨trade, htrade, h⟩ := bind_ok h
  obtain ⟨_, hlater, h⟩ := bind_ok h
  obtain ⟨hmem, rfl⟩ := (Keyed.get?_eq_some s.trades_unique).mp (orRefuse_ok.mp htrade)
  refine ⟨income, trade, orRefuse_ok.mp hincome, orRefuse_ok.mp hlink, hmem, ?_,
    (Except.ok.inj h).symm⟩
  exact Bool.eq_false_iff.mpr (refuseIf_ok.mp hlater)

theorem writePeriod_ok {s s' : Register} {p : DrpEnrolment} (h : s.writePeriod p = .ok s') :
    (∀ q ∈ s.periods, q.id ≠ p.id → p.overlaps q = false) ∧
      s' = (s.putPeriod p).recomputeResiduals p := by
  obtain ⟨_, -, h⟩ := bind_ok h
  obtain ⟨_, hover, h⟩ := bind_ok h
  refine ⟨?_, (Except.ok.inj h).symm⟩
  intro q hq hne
  refine Bool.eq_false_iff.mpr fun hpq => refuseIf_ok.mp hover ?_
  exact List.any_eq_true.mpr ⟨q, hq, by rw [hpq, Bool.and_true]; exact decide_eq_true hne⟩

theorem deletePeriod_ok {s s' : Register} {id : ℤ} (h : s.deletePeriod id = .ok s') :
    s' = s.dropPeriod id := by
  obtain ⟨_, -, h⟩ := bind_ok h
  obtain ⟨_, -, h⟩ := bind_ok h
  exact (Except.ok.inj h).symm

theorem mem_income {s : Register} {id : ℤ} {i : Income} :
    s.income id = some i ↔ i ∈ s.incomes ∧ i.id = id := Keyed.get?_eq_some s.incomes_unique

/-- An edit that moves no frozen field of a linked distribution rewrites it as it was. -/
theorem eq_of_movedField {existing body : Income} (hid : existing.id = body.id)
    (hlinked : existing.reinvestmentTrade.isSome = true) (h : movedField existing body = none) :
    { body with reinvestmentTrade := existing.reinvestmentTrade } = existing := by
  rw [movedField, if_pos hlinked, Option.map_eq_none_iff, List.find?_eq_none] at h
  simp only [frozen, List.forall_mem_cons, decide_eq_true_eq, not_not] at h
  obtain ⟨h1, h2, h3, h4, h5, h6, h7, h8, h9, h10, h11, h12, h13, -⟩ := h
  cases existing
  cases body
  cases hid
  cases h1; cases h2; cases h3; cases h4; cases h5; cases h6; cases h7
  cases h8; cases h9; cases h10; cases h11; cases h12; cases h13
  rfl

theorem recordIncome_ok {s s' : Register} {body : Income} (h : s.recordIncome body = .ok s') :
    ∃ row, s' = s.putIncome row ∧
      (row ∈ s.incomes ∨ row.reinvestmentTrade = none ∧
        ∀ i ∈ s.incomes, i.id = row.id → i.reinvestmentTrade = none) := by
  unfold recordIncome at h
  dsimp only at h
  split at h
  · cases h
  rename_i hmoved
  refine ⟨_, (Except.ok.inj h).symm, ?_⟩
  cases hexisting : s.income body.id with
  | none =>
    refine .inr ⟨rfl, fun i hi hid => ?_⟩
    rw [mem_income.mpr ⟨hi, hid⟩] at hexisting
    cases hexisting
  | some existing =>
    obtain ⟨hmem, hid⟩ := mem_income.mp hexisting
    rw [hexisting] at hmoved
    cases hlink : existing.reinvestmentTrade with
    | none =>
      refine .inr ⟨hlink, fun i hi hi' => ?_⟩
      have hie : i = existing := Keyed.eq_of_key s.incomes_unique hi hmem (hi'.trans hid.symm)
      rw [hie, hlink]
    | some k =>
      left
      have heq := eq_of_movedField hid (by rw [hlink]; rfl) hmoved
      exact heq.symm ▸ hmem

theorem deleteIncome_ok {s s' : Register} {id : ℤ} (h : s.deleteIncome id = .ok s') :
    s' = s.dropIncome id ∧ ∀ i ∈ s.incomes, i.id = id → i.reinvestmentTrade = none := by
  obtain ⟨income, hincome, h⟩ := bind_ok h
  obtain ⟨_, hfree, h⟩ := bind_ok h
  refine ⟨(Except.ok.inj h).symm, fun i hi hid => ?_⟩
  obtain ⟨hmem, hid'⟩ := mem_income.mp (orRefuse_ok.mp hincome)
  rw [Keyed.eq_of_key s.incomes_unique hi hmem (hid.trans hid'.symm)]
  exact Option.not_isSome_iff_eq_none.mp (refuseIf_ok.mp hfree)

/-! ### Soundness -/

/-- Tables that gain no linked distribution, no trade and no period stay sound. -/
theorem Sound.of_subset {s s' : Register} (hs : s.Sound)
    (hincomes : ∀ i ∈ s'.incomes, i.reinvestmentTrade ≠ none → i ∈ s.incomes)
    (htrades : ∀ t ∈ s'.trades, t ∈ s.trades) (hlast : s.lastTrade ≤ s'.lastTrade)
    (hperiods : ∀ p ∈ s'.periods, p ∈ s.periods) : s'.Sound where
  links_known i hi k hk :=
    (hs.links_known i (hincomes i hi (by rw [hk]; exact Option.some_ne_none k)) k hk).trans hlast
  links_unique i hi j hj k hik hjk :=
    hs.links_unique i (hincomes i hi (by rw [hik]; exact Option.some_ne_none k)) j
      (hincomes j hj (by rw [hjk]; exact Option.some_ne_none k)) k hik hjk
  periods_apart p hp q hq := hs.periods_apart p (hperiods p hp) q (hperiods q hq)
  balanced r hr := by
    obtain ⟨ht, hi, hlink⟩ := mem_payments.mp hr
    have hmem : r.income ∈ s.incomes := hincomes _ hi (by rw [hlink]; exact Option.some_ne_none _)
    exact hs.balanced r (mem_payments.mpr ⟨htrades _ ht, hmem, hlink⟩)

/-- A row written over the distribution it is, or over one with no link. -/
theorem mem_putIncome {s : Register} {row i : Income}
    (h : row ∈ s.incomes ∨ row.reinvestmentTrade = none ∧
      ∀ i ∈ s.incomes, i.id = row.id → i.reinvestmentTrade = none)
    (hlinked : i.reinvestmentTrade ≠ none) : i ∈ (s.putIncome row).incomes ↔ i ∈ s.incomes := by
  refine Keyed.mem_put.trans ?_
  constructor
  · rintro (⟨hi, -⟩ | rfl)
    · exact hi
    · exact h.elim id fun hnone => absurd hnone.1 hlinked
  · intro hi
    by_cases hid : i.id = row.id
    · rcases h with hrow | ⟨-, hnone⟩
      · exact .inr (Keyed.eq_of_key s.incomes_unique hi hrow hid)
      · exact absurd (hnone i hi hid) hlinked
    · exact .inl ⟨hi, hid⟩

theorem mem_dropIncome {s : Register} {id : ℤ} {i : Income}
    (h : ∀ i ∈ s.incomes, i.id = id → i.reinvestmentTrade = none)
    (hlinked : i.reinvestmentTrade ≠ none) : i ∈ (s.dropIncome id).incomes ↔ i ∈ s.incomes := by
  refine List.mem_filter.trans ⟨And.left, fun hi => ⟨hi, ?_⟩⟩
  exact decide_eq_true fun hid => hlinked (h i hi hid)

theorem mem_unlink {s : Register} {id : ℤ} {income i : Income} (hincome : s.income id = some income)
    (hlinked : i.reinvestmentTrade ≠ none) :
    i ∈ (s.linkIncome id none).incomes ↔ i ∈ s.incomes ∧ i ≠ income := by
  obtain ⟨hmem, hid⟩ := mem_income.mp hincome
  refine List.mem_map.trans ?_
  constructor
  · rintro ⟨j, hj, rfl⟩
    split at hlinked
    · exact absurd rfl hlinked
    · rename_i hne
      rw [if_neg hne]
      exact ⟨hj, fun h => hne (h ▸ hid)⟩
  · rintro ⟨hi, hne⟩
    refine ⟨i, hi, if_neg fun h => hne ?_⟩
    exact Keyed.eq_of_key s.incomes_unique hi hmem (h.trans hid.symm)

/-- The payment a reinvestment adds. -/
def joined (s : Register) (income : Income) (draft : DrpTrade) : Payment :=
  ⟨{ draft with id := s.lastTrade + 1 }, { income with reinvestmentTrade := some (s.lastTrade + 1) }⟩

theorem mem_join_incomes {s : Register} {id : ℤ} {income i : Income} {draft : DrpTrade}
    (hincome : s.income id = some income) :
    i ∈ (s.join id draft).incomes ↔
      (i ∈ s.incomes ∧ i.id ≠ id) ∨ i = (s.joined income draft).income := by
  obtain ⟨hmem, hid⟩ := mem_income.mp hincome
  refine List.mem_map.trans ?_
  constructor
  · rintro ⟨j, hj, rfl⟩
    split
    · rename_i hj'
      right
      rw [Keyed.eq_of_key s.incomes_unique hj hmem (hj'.trans hid.symm)]
      rfl
    · rename_i hj'
      exact .inl ⟨hj, hj'⟩
  · rintro (⟨hi, hne⟩ | rfl)
    · exact ⟨i, hi, if_neg hne⟩
    · exact ⟨income, hmem, by rw [if_pos hid]; rfl⟩

theorem mem_join_trades {s : Register} {id : ℤ} {income : Income} {draft t : DrpTrade} :
    t ∈ (s.join id draft).trades ↔ t ∈ s.trades ∨ t = (s.joined income draft).trade := by
  refine List.mem_append.trans (or_congr_right ?_)
  exact List.mem_singleton

theorem Sound.mem_payments_join {s : Register} (hs : s.Sound) {id : ℤ} {income : Income}
    {draft : DrpTrade} {r : Payment} (hincome : s.income id = some income)
    (hfree : income.reinvestmentTrade = none) :
    r ∈ (s.join id draft).payments ↔ r ∈ s.payments ∨ r = s.joined income draft := by
  obtain ⟨hmem, hid⟩ := mem_income.mp hincome
  rw [mem_payments, mem_join_trades, mem_join_incomes hincome, mem_payments]
  constructor
  · rintro ⟨ht | ht, hi | hi, hlink⟩
    · exact .inl ⟨ht, hi.1, hlink⟩
    · rw [hi] at hlink
      have hknown := s.trades_known _ ht
      rw [← Option.some.inj hlink] at hknown
      exact absurd hknown (not_le.mpr (lt_add_one _))
    · rw [ht] at hlink
      exact absurd (hs.links_known _ hi.1 _ hlink) (not_le.mpr (lt_add_one _))
    · right
      cases r
      cases ht
      cases hi
      rfl
  · rintro (⟨ht, hi, hlink⟩ | rfl)
    · refine ⟨.inl ht, .inl ⟨hi, fun h => ?_⟩, hlink⟩
      have heq := Keyed.eq_of_key s.incomes_unique hi hmem (h.trans hid.symm)
      rw [heq, hfree] at hlink
      cases hlink
    · exact ⟨.inr rfl, .inr rfl, rfl⟩

theorem Sound.join {s : Register} (hs : s.Sound) {id : ℤ} {income : Income} {draft : DrpTrade}
    (hincome : s.income id = some income) (hfree : income.reinvestmentTrade = none)
    (hbalanced : draft.computed = true →
      income.netCashReceived + draft.residualBroughtForward = draft.cost + draft.leftover) :
    (s.join id draft).Sound where
  links_known i hi k hk := by
    rcases (mem_join_incomes hincome).mp hi with ⟨hi, -⟩ | rfl
    · exact (hs.links_known i hi k hk).trans (lt_add_one _).le
    · exact (Option.some.inj hk).ge
  links_unique i hi j hj k hik hjk := by
    have hnew : ∀ a ∈ s.incomes, a.reinvestmentTrade ≠ some (s.lastTrade + 1) := by
      intro a ha hlink
      exact absurd (hs.links_known a ha _ hlink) (not_le.mpr (lt_add_one _))
    rcases (mem_join_incomes hincome).mp hi with ⟨hi, -⟩ | rfl
    · rcases (mem_join_incomes hincome).mp hj with ⟨hj, -⟩ | rfl
      · exact hs.links_unique i hi j hj k hik hjk
      · exact absurd (hik.trans hjk.symm) (hnew i hi)
    · rcases (mem_join_incomes hincome).mp hj with ⟨hj, -⟩ | rfl
      · exact absurd (hjk.trans hik.symm) (hnew j hj)
      · rfl
  periods_apart := hs.periods_apart
  balanced r hr := by
    rcases (hs.mem_payments_join hincome hfree).mp hr with hr | rfl
    · exact hs.balanced r hr
    · exact hbalanced

theorem Sound.putPeriod {s : Register} (hs : s.Sound) {p : DrpEnrolment}
    (happart : ∀ q ∈ s.periods, q.id ≠ p.id → p.overlaps q = false) : (s.putPeriod p).Sound := by
  refine ⟨hs.links_known, hs.links_unique, ?_, hs.balanced⟩
  intro a ha b hb hne
  rcases Keyed.mem_put.mp ha with ⟨hold, hap⟩ | rfl
  · rcases Keyed.mem_put.mp hb with ⟨hold', -⟩ | rfl
    · exact hs.periods_apart a hold b hold' hne
    · rw [DrpEnrolment.overlaps_comm]
      exact happart a hold hap
  · rcases Keyed.mem_put.mp hb with ⟨hold', hbp⟩ | rfl
    · exact happart b hold' hbp
    · exact absurd rfl hne

/-- Every accepted write leaves the tables sound. -/
theorem Sound.step {s s' : Register} {w : Write} (hs : s.Sound) (h : s.step w = .ok s') :
    s'.Sound := by
  cases w with
  | recordIncome body =>
    obtain ⟨row, rfl, hrow⟩ := recordIncome_ok h
    exact hs.of_subset (fun i hi hlinked => (mem_putIncome hrow hlinked).mp hi) (fun _ ht => ht)
      le_rfl fun _ hp => hp
  | deleteIncome id =>
    obtain ⟨rfl, -⟩ := deleteIncome_ok h
    exact hs.of_subset (fun i hi _ => (List.mem_filter.mp hi).1) (fun _ ht => ht) le_rfl fun _ hp => hp
  | writeTrade id =>
    obtain ⟨_, -, h⟩ := bind_ok h
    obtain rfl := Except.ok.inj h
    exact hs.of_subset (fun i hi _ => hi) (fun _ ht => ht) (le_max_left _ _) fun _ hp => hp
  | reinvest id body env =>
    obtain ⟨income, period, allotment, hincome, hfree, -, -, hallot, rfl⟩ := reinvest_ok h
    refine (hs.join hincome hfree ?_).recompute period
    intro hcomputed
    rw [parcel_leftover]
    exact allot_computed hallot hcomputed
  | unreinvest id env =>
    obtain ⟨income, trade, hincome, -, -, -, rfl⟩ := unreinvest_ok h
    exact hs.of_subset (fun i hi hlinked => ((mem_unlink hincome hlinked).mp hi).1)
      (fun _ ht => (List.mem_filter.mp ht).1) le_rfl fun _ hp => hp
  | writePeriod p =>
    obtain ⟨happart, rfl⟩ := writePeriod_ok h
    exact (hs.putPeriod happart).recompute p
  | deletePeriod id =>
    obtain rfl := deletePeriod_ok h
    exact hs.of_subset (fun i hi _ => hi) (fun _ ht => ht) le_rfl fun _ hp => (List.mem_filter.mp hp).1

/-! ### The chains -/

def Chains (s : Register) : Prop := ∀ p ∈ s.periods, Chain p (s.periodTrades p)

/-- Tables with the same payments and no further period keep their chains. -/
theorem Sound.chains_congr {s s' : Register} (hs : s.Sound) (hc : s.Chains)
    (hpayments : ∀ r, r ∈ s'.payments ↔ r ∈ s.payments) (hperiods : ∀ p ∈ s'.periods, p ∈ s.periods) :
    s'.Chains := by
  intro p hp
  rw [hs.periodTrades_congr fun r _ => hpayments r]
  exact hc p (hperiods p hp)

theorem mem_payments_congr {s s' : Register} (htrades : s'.trades = s.trades)
    (hincomes : ∀ i, i.reinvestmentTrade ≠ none → (i ∈ s'.incomes ↔ i ∈ s.incomes)) (r : Payment) :
    r ∈ s'.payments ↔ r ∈ s.payments := by
  rw [mem_payments, mem_payments, htrades]
  refine and_congr_right fun _ => and_congr_left fun hlink => hincomes _ ?_
  rw [hlink]
  exact Option.some_ne_none _

/-- Recomputing one period over chains that follow it leaves every chain whole. -/
theorem Sound.chains_recompute {s : Register} (hs : s.Sound) {p : DrpEnrolment} (hp : p ∈ s.periods)
    (hfollows : Follows p (s.periodTrades p))
    (hc : ∀ q ∈ s.periods, q ≠ p → Chain q (s.periodTrades q)) : (s.recomputeResiduals p).Chains := by
  intro q hq
  by_cases hqp : q = p
  · subst hqp
    rw [hs.periodTrades_recompute]
    exact chain_resplit (hs.periodTrades_ids q) hfollows
  · rw [hs.periodTrades_recompute_apart]
    · exact hc q hq hqp
    intro r hr
    have hids : p.id ≠ q.id := fun h => hqp (Keyed.eq_of_key s.periods_unique hq hp h.symm)
    refine Bool.eq_false_iff.mpr fun hpr => ?_
    have hover := DrpEnrolment.overlaps_of_covers hpr hr
    rw [hs.periods_apart p hp q hq hids] at hover
    cases hover

/-- A reinvestment joins its period's walk behind every payment of it. -/
theorem Sound.periodTrades_join {s : Register} (hs : s.Sound) {id : ℤ} {income : Income}
    {draft : DrpTrade} {p : DrpEnrolment} (hincome : s.income id = some income)
    (hfree : income.reinvestmentTrade = none) (hcov : p.covers (s.joined income draft) = true)
    (hlater : s.later p draft.date = none) :
    (s.join id draft).periodTrades p = s.periodTrades p ++ [s.joined income draft] := by
  refine periodTrades_eq ?_ fun r => ?_
  · refine List.pairwise_append.mpr ⟨hs.periodTrades_strict p, List.pairwise_singleton _ _, ?_⟩
    intro a ha b hb
    rw [List.mem_singleton.mp hb]
    have hdate : a.trade.date ≤ draft.date := by
      have hnot := List.find?_eq_none.mp hlater a ha
      exact not_lt.mp fun hlt => hnot (decide_eq_true hlt)
    have hknown := s.trades_known _ (mem_payments.mp (mem_periodTrades.mp ha).1).1
    refine Prod.Lex.lt_iff.mpr ?_
    rcases hdate.lt_or_eq with hlt | heq
    · exact .inl hlt
    · exact .inr ⟨heq, Int.lt_add_one_of_le hknown⟩
  · rw [List.mem_append, List.mem_singleton, mem_periodTrades, hs.mem_payments_join hincome hfree]
    constructor
    · rintro (⟨hr, hc⟩ | rfl)
      · exact ⟨.inl hr, hc⟩
      · exact ⟨.inr rfl, hcov⟩
    · rintro ⟨hr | rfl, hc⟩
      · exact .inl ⟨hr, hc⟩
      · exact .inr rfl

theorem enrolment_covers {s : Register} {income : Income} {p : DrpEnrolment} {draft : DrpTrade}
    (h : s.enrolment income = some p) (hlisting : draft.listing = income.listing)
    (haccount : draft.account = income.account) : p.covers (s.joined income draft) = true := by
  have hfound := List.find?_some h
  rw [Bool.and_eq_true, Bool.and_eq_true, decide_eq_true_eq, decide_eq_true_eq] at hfound
  obtain ⟨⟨hl, ha⟩, hduring⟩ := hfound
  unfold DrpEnrolment.covers
  rw [Bool.and_eq_true, Bool.and_eq_true, decide_eq_true_eq, decide_eq_true_eq]
  exact ⟨⟨hlisting.trans hl.symm, haccount.trans ha.symm⟩, hduring⟩

/-- What a reinvestment brings forward is what the walk's last payment hands on. -/
theorem broughtForward_eq {s : Register} {p : DrpEnrolment} {date : NaiveDate}
    (hlater : s.later p date = none) :
    s.broughtForward p date = final p.hands 0 (s.periodTrades p) := by
  have hall : ((s.periodTrades p).filter fun r => r.trade.date ≤ date) = s.periodTrades p := by
    refine List.filter_eq_self.mpr fun r hr => ?_
    have hnot := List.find?_eq_none.mp hlater r hr
    exact decide_eq_true (not_lt.mp fun hlt => hnot (decide_eq_true hlt))
  rw [broughtForward, hall, final_eq_getLast]
  cases (s.periodTrades p).getLast? with
  | none => rfl
  | some prior => exact residualSplit_followed p prior

theorem Sound.chains_reinvest {s : Register} (hs : s.Sound) (hc : s.Chains) {id : ℤ}
    {income : Income} {draft : DrpTrade} {p : DrpEnrolment} (hincome : s.income id = some income)
    (hfree : income.reinvestmentTrade = none) (hp : p ∈ s.periods)
    (hcov : p.covers (s.joined income draft) = true) (hlater : s.later p draft.date = none)
    (hforward : draft.residualBroughtForward = s.broughtForward p draft.date)
    (hsound : (s.join id draft).Sound) :
    ((s.join id draft).recomputeResiduals p).Chains := by
  refine hsound.chains_recompute hp ?_ ?_
  · rw [hs.periodTrades_join hincome hfree hcov hlater, Follows, chained_append]
    exact ⟨(hc p hp).follows, hforward.trans (broughtForward_eq hlater), trivial⟩
  · intro q hq hqp
    have hids : p.id ≠ q.id := fun h => hqp (Keyed.eq_of_key s.periods_unique hq hp h.symm)
    rw [hs.periodTrades_congr fun r hr => ?_]
    · exact hc q hq
    rw [hs.mem_payments_join hincome hfree, or_iff_left]
    rintro rfl
    have hover := DrpEnrolment.overlaps_of_covers hcov hr
    rw [hs.periods_apart p hp q hq hids] at hover
    cases hover

end Register

/-- Whether a period refunds the leftover of its last payment alone. -/
def DrpEnrolment.settlesTail (p : DrpEnrolment) : Bool :=
  p.residualHandling = .carryForward && p.unenrolmentDate.isSome

/-- Dropping the last payment leaves a chain whole, unless the period refunds the
leftover of the payment before it only once nothing follows. -/
theorem Chain.dropLast {p : DrpEnrolment} {rows : List Payment} {last : Payment}
    (h : Chain p (rows ++ [last]))
    (hsettled : p.settlesTail = true → ∀ prior ∈ rows.getLast?, prior.trade.leftover = 0) :
    Chain p rows := by
  refine ⟨((chained_append _ _).mp h.chained).1, ?_⟩
  intro before r after hrows
  have hsplit := h.split before r (after ++ [last]) (by rw [hrows, List.append_assoc]; rfl)
  have hpos : positionBefore (after ++ [last]) = .followed :=
    if_neg (List.append_ne_nil_of_right_ne_nil _ (List.cons_ne_nil _ _))
  rw [hsplit, hpos]
  cases after with
  | cons x xs => rfl
  | nil =>
    have hprior := hsettled
    rw [hrows, List.getLast?_concat] at hprior
    change p.residualSplit _ .followed = p.residualSplit _ .tail
    unfold DrpEnrolment.residualSplit DrpEnrolment.refunds
    unfold DrpEnrolment.settlesTail at hprior
    cases hh : p.residualHandling with
    | payOut => rfl
    | carryForward =>
      cases hu : p.unenrolmentDate with
      | none => rfl
      | some stop =>
        rw [hh, hu] at hprior
        rw [hprior rfl r rfl]
        rfl

end ShareTracker.Drp
