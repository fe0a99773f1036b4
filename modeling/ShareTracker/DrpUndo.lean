import ShareTracker.DrpConservation

/-!
An undo right after a reinvestment. The reinvestment recomputes its period's
walk, which turns the tail behind it into a payment that is followed; the undo
takes the new trade away and recomputes nothing.
-/
namespace ShareTracker.Drp
open Checked

/-- Whether a trade's leftover sits where its period puts it at a position. -/
def DrpEnrolment.stands (p : DrpEnrolment) (position : ChainPosition) (t : DrpTrade) : Bool :=
  t.put (p.residualSplit t.leftover position) = t

namespace Register

/-- The same rows: the sequence of trade ids alone may have moved on. -/
structure SameRows (s s' : Register) : Prop where
  trades : s'.trades = s.trades
  incomes : s'.incomes = s.incomes
  periods : s'.periods = s.periods

/-- Whether every trade of the distribution's period stands as one that is followed. -/
def periodFollowed (s : Register) (id : ℤ) : Bool :=
  ((s.income id).bind s.enrolment).all fun p =>
    (s.periodTrades p).all fun r => p.stands .followed r.trade

variable {s : Register}

/-- What the recompute makes of the trades there were before a payment joined. -/
theorem resplit_joined {p : DrpEnrolment} {last : Payment}
    (hlast : last.trade.id = s.lastTrade + 1) {t : DrpTrade} (ht : t ∈ s.trades) :
    resplit p (s.periodTrades p ++ [last]) t =
      if (s.periodTrades p).any fun r => r.trade.id = t.id then
        t.put (p.residualSplit t.leftover .followed)
      else t := by
  have hne : last.trade.id ≠ t.id := by
    rw [hlast]
    exact (Int.lt_add_one_of_le (s.trades_known t ht)).ne'
  have hposition : position (s.periodTrades p ++ [last]) t = .followed := by
    rw [position, List.getLast?_concat, if_neg]
    exact fun h => hne (of_decide_eq_true h)
  rw [resplit, hposition, List.any_append, List.any_cons, List.any_nil, decide_eq_false hne,
    Bool.or_false, Bool.or_false]

/-- The recompute changes nothing exactly where every trade stands already. -/
theorem map_resplit_joined {p : DrpEnrolment} {last : Payment}
    (hlast : last.trade.id = s.lastTrade + 1) :
    s.trades.map (resplit p (s.periodTrades p ++ [last])) = s.trades ↔
      ∀ r ∈ s.periodTrades p, p.stands .followed r.trade = true := by
  have hid : s.trades.map (resplit p (s.periodTrades p ++ [last])) = s.trades ↔
      ∀ t ∈ s.trades, resplit p (s.periodTrades p ++ [last]) t = t := by
    conv_lhs => rhs; rw [← List.map_id s.trades]
    exact List.map_inj_left
  rw [hid]
  constructor
  · intro hall r hr
    have hmem := (mem_payments.mp (mem_periodTrades.mp hr).1).1
    have hsame := hall r.trade hmem
    rw [resplit_joined hlast hmem, if_pos] at hsame
    · exact decide_eq_true hsame
    · exact List.any_eq_true.mpr ⟨r, hr, decide_eq_true rfl⟩
  · intro hall t ht
    rw [resplit_joined hlast ht]
    split
    · rename_i hwalked
      obtain ⟨r, hr, hrt⟩ := List.any_eq_true.mp hwalked
      have hmem := (mem_payments.mp (mem_periodTrades.mp hr).1).1
      rw [← trade_eq hmem ht (of_decide_eq_true hrt)]
      exact of_decide_eq_true (hall r hr)
    · rfl

theorem unlink_linked {id : ℤ} {link : Option TradeId} {incomes : List Income}
    (hfree : ∀ i ∈ incomes, i.id = id → i.reinvestmentTrade = none) :
    (incomes.map fun i => if i.id = id then { i with reinvestmentTrade := link } else i).map
      (fun i => if i.id = id then { i with reinvestmentTrade := none } else i) = incomes := by
  rw [List.map_map]
  refine (List.map_congr_left fun i hi => ?_).trans (List.map_id incomes)
  rw [Function.comp_apply]
  by_cases hid : i.id = id
  · have hnone := hfree i hi hid
    cases i
    cases hnone
    simp only [if_pos hid, id_eq]
  · simp only [if_neg hid, id_eq]

/-- What an accepted undo straight after a reinvestment leaves. -/
theorem Sound.undo_reinvest (hs : s.Sound) {s' s'' : Register} {id : ℤ} {body : ReinvestBody}
    {env env' : Surroundings} (hdone : s.reinvest id body env = .ok s')
    (hundone : s'.unreinvest id env' = .ok s'') :
    ∃ income p last, s.income id = some income ∧ s.enrolment income = some p ∧
      last.trade.id = s.lastTrade + 1 ∧
      s''.trades = s.trades.map (resplit p (s.periodTrades p ++ [last])) ∧
      s''.incomes = s.incomes ∧ s''.periods = s.periods := by
  obtain ⟨income, p, allotment, hincome, hfree, hperiod, hlater, -, rfl⟩ := reinvest_ok hdone
  obtain ⟨income', trade, hincome', hlink, -, -, rfl⟩ := unreinvest_ok hundone
  generalize hdraft : parcel income _ _ body allotment _ _ = draft at *
  have hwalk : (s.join id draft).periodTrades p = s.periodTrades p ++ [s.joined income draft] := by
    subst hdraft
    exact hs.periodTrades_join hincome hfree (enrolment_covers hperiod rfl rfl) hlater
  -- the distribution undone is the one just linked
  have htrade : trade.id = s.lastTrade + 1 := by
    obtain ⟨hmem, hid⟩ := mem_income.mp hincome'
    rcases (mem_join_incomes hincome).mp hmem with ⟨-, hne⟩ | rfl
    · exact absurd hid hne
    · exact (Option.some.inj hlink).symm
  refine ⟨income, p, s.joined income draft, hincome, hperiod, rfl, ?_, ?_, rfl⟩
  · change ((s.trades ++ [(s.joined income draft).trade]).map
      (resplit p ((s.join id draft).periodTrades p))).filter (fun t => decide (t.id ≠ trade.id)) = _
    rw [hwalk, List.map_append, List.filter_append, htrade, List.map_singleton,
      List.filter_singleton, resplit_id]
    have hgone : decide ((s.joined income draft).trade.id ≠ s.lastTrade + 1) = false :=
      decide_eq_false (not_not.mpr rfl)
    rw [hgone, cond_false, List.append_nil]
    refine List.filter_eq_self.mpr fun t ht => decide_eq_true ?_
    obtain ⟨u, hu, rfl⟩ := List.mem_map.mp ht
    rw [resplit_id]
    exact (Int.lt_add_one_of_le (s.trades_known u hu)).ne
  · refine unlink_linked fun i hi hid => ?_
    obtain ⟨hmem, hid'⟩ := mem_income.mp hincome
    rw [Keyed.eq_of_key s.incomes_unique hi hmem (hid.trans hid'.symm), hfree]

theorem Sound.run (hs : s.Sound) {s' : Register} {ws : List Write} (h : s.run ws = .ok s') :
    s'.Sound := by
  induction ws generalizing s with
  | nil =>
    obtain rfl := Except.ok.inj h
    exact hs
  | cons w ws ih =>
    unfold Register.run at h
    cases hstep : s.step w with
    | error e =>
      rw [hstep] at h
      cases h
    | ok mid =>
      rw [hstep] at h
      exact ih (hs.step hstep) h

/-- An undo straight after a reinvestment restores every row exactly where the
period's trades all stood as ones that are followed. -/
theorem undo_restores (ws : List Write) (s s' s'' : Register) (id : ℤ) (body : ReinvestBody)
    (env env' : Surroundings) (hrun : empty.run ws = .ok s)
    (hdone : s.reinvest id body env = .ok s') (hundone : s'.unreinvest id env' = .ok s'') :
    SameRows s s'' ↔ s.periodFollowed id = true := by
  have hs : s.Sound := sound_empty.run hrun
  obtain ⟨income, p, last, hincome, hperiod, hlast, htrades, hincomes, hperiods⟩ :=
    hs.undo_reinvest hdone hundone
  have hsame : SameRows s s'' ↔ s''.trades = s.trades :=
    ⟨SameRows.trades, fun h => ⟨h, hincomes, hperiods⟩⟩
  rw [hsame, htrades, map_resplit_joined hlast, periodFollowed, hincome, Option.bind_some,
    hperiod, Option.all_some, List.all_eq_true]

/-- Whether the run, the second distribution's reinvestment and its undo are
accepted, and a test of the states before and after. -/
def undone (ws : List Write) (test : Register → Register → Bool) : Bool :=
  accepts (empty.run ws) fun s =>
    accepts (s.reinvest 2 atTen domestic) fun s' =>
      accepts (s'.unreinvest 2 domestic) fun s'' => test s s''

theorem undone_iff {ws : List Write} {test : Register → Register → Bool} :
    undone ws test = true ↔ ∃ s, empty.run ws = .ok s ∧ ∃ s', s.reinvest 2 atTen domestic = .ok s' ∧
      ∃ s'', s'.unreinvest 2 domestic = .ok s'' ∧ test s s'' = true := by
  simp only [undone, accepts_iff]

/-- One distribution reinvested with 5 left over, and a second one paid. -/
def oneReinvested (afterwards : List Write) : List Write :=
  [.writePeriod (enrolledUntil none .carryForward), .recordIncome (distribution 1 (ymd 2025 3 20) 105),
    .reinvest 1 atTen domestic] ++ afterwards ++ [.recordIncome (distribution 2 (ymd 2025 9 20) 103)]

theorem undo_restores_open : ∃ s s' s'', empty.run (oneReinvested []) = .ok s ∧
    s.reinvest 2 atTen domestic = .ok s' ∧ s'.unreinvest 2 domestic = .ok s'' ∧
      (SameRows s s'' ↔ s.periodFollowed 2 = true) := by
  obtain ⟨s, hrun, s', hdone, s'', hundone, -⟩ :=
    undone_iff.mp (show undone (oneReinvested []) (fun _ _ => true) = true by decide)
  exact ⟨s, s', s'', hrun, hdone, hundone,
    undo_restores (oneReinvested []) s s' s'' 2 atTen domestic domestic hrun hdone hundone⟩

/-- The period closed, the 5 was paid out; reinvesting the second distribution
carries them forward, and its undo leaves them so. -/
theorem undo_leaves_carried : ∃ s s' s'',
    empty.run (oneReinvested [.writePeriod closed]) = .ok s ∧
      s.reinvest 2 atTen domestic = .ok s' ∧ s'.unreinvest 2 domestic = .ok s'' ∧
        s.trades.map DrpTrade.residualPaidOut = [5] ∧ s''.trades.map DrpTrade.residualPaidOut = [0] ∧
          ¬ SameRows s s'' := by
  obtain ⟨s, hrun, s', hdone, s'', hundone, hpaid⟩ :=
    undone_iff.mp (show undone (oneReinvested [.writePeriod closed]) (fun s s'' =>
      decide (s.trades.map DrpTrade.residualPaidOut = [5] ∧
        s''.trades.map DrpTrade.residualPaidOut = [0])) = true by decide +kernel)
  obtain ⟨hbefore, hafter⟩ := of_decide_eq_true hpaid
  refine ⟨s, s', s'', hrun, hdone, hundone, hbefore, hafter, fun hsame => ?_⟩
  rw [hsame.trades, hbefore] at hafter
  exact absurd hafter (by decide)

end Register

end ShareTracker.Drp
