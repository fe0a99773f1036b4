import ShareTracker.Lib.Checked
import ShareTracker.Franking

/-!
The holding-period walk against last-in-first-out identification over a
listing's whole history: the walk stops at the end of the window, marks what is
entitled when it first meets a trade on or after the ex-date, and keeps no
disposal; the identification does none of this.
-/
namespace ShareTracker.Franking
open LifoStack

/-! ### The history -/

/-- Events in date order part at a date. -/
theorem takeWhile_date {l : List Event} (h : l.Pairwise fun a b => a.date ≤ b.date)
    (date : NaiveDate) :
    (l.takeWhile fun e => decide (e.date ≤ date)) = l.filter (fun e => decide (e.date ≤ date)) ∧
      (l.dropWhile fun e => decide (e.date ≤ date)) = l.filter fun e => !decide (e.date ≤ date) := by
  refine StableSort.takeWhile_dropWhile_eq_filter (h.imp ?_)
  intro a b hab hb
  exact decide_eq_true (hab.trans (of_decide_eq_true hb))

namespace ListingWalk

/-- The history with the contemplated sale in its place. -/
def history (w : ListingWalk) (sale : Option (NaiveDate × ℚ)) : List Event :=
  match sale with
  | some s => insertSale s w.events
  | none => w.events

/-- The trades as moves of a stack, in the basis at the end of the window. -/
def moves (w : ListingWalk) (exDate : NaiveDate) (events : List Event) : List (Move NaiveDate ℚ) :=
  events.map fun e =>
    if e.sell then .dispose e.date (w.rebased (w.windowEnd exDate) e)
    else .acquire e.date (w.rebased (w.windowEnd exDate) e)

/-- The trades before the ex-date. -/
def beforeEx (exDate : NaiveDate) (events : List Event) : List Event :=
  events.filter fun e => e.date < exDate

/-- The units bought less those sold by the end of the day before the ex-date. -/
def heldBefore (w : ListingWalk) (exDate : NaiveDate) (sale : Option (NaiveDate × ℚ)) : ℚ :=
  balance (w.moves exDate (beforeEx exDate (w.history sale)))

/-- Units entitled to the dividend and disposed of too soon after they were acquired. -/
def tooSoon (w : ListingWalk) (exDate : NaiveDate) (d : Disposal NaiveDate ℚ) : Bool :=
  decide (d.acquired < exDate) && decide (exDate ≤ d.disposed) &&
    decide (atRiskDays d.acquired d.disposed < w.requiredDays)

/-- The units the whole history, identified last in first out, disposes of too soon. -/
def identifiedTooSoon (w : ListingWalk) (exDate : NaiveDate) (sale : Option (NaiveDate × ℚ)) : ℚ :=
  (((identify [] (w.moves exDate (w.history sale))).filter (w.tooSoon exDate)).map
    Disposal.units).sum

/-- No sale before the ex-date outruns, in trade order, what is held at it. -/
def Covered (w : ListingWalk) (exDate : NaiveDate) (sale : Option (NaiveDate × ℚ)) : Prop :=
  ∀ pre, pre <+: w.moves exDate (beforeEx exDate (w.history sale)) → 0 ≤ balance pre

section Sorted

theorem insertSale_eq {events : List Event} (h : events.Pairwise fun a b => a.date ≤ b.date)
    (s : NaiveDate × ℚ) : insertSale s events =
      events.filter (fun e => decide (e.date ≤ s.1)) ++ ⟨true, s.1, s.2⟩ ::
        events.filter fun e => !decide (e.date ≤ s.1) := by
  rw [insertSale, (takeWhile_date h s.1).1, (takeWhile_date h s.1).2]

theorem insertSale_sorted {events : List Event} (h : events.Pairwise fun a b => a.date ≤ b.date)
    (s : NaiveDate × ℚ) : (insertSale s events).Pairwise fun a b => a.date ≤ b.date := by
  rw [insertSale_eq h]
  have hafter : ∀ e ∈ events.filter (fun e => !decide (e.date ≤ s.1)), s.1 ≤ e.date := by
    intro e he
    have hout := (List.mem_filter.mp he).2
    simp only [Bool.not_eq_true', decide_eq_false_iff_not, not_le] at hout
    exact hout.le
  refine List.pairwise_append.mpr ⟨h.filter _, List.pairwise_cons.mpr ⟨hafter, h.filter _⟩, ?_⟩
  intro a ha b hb
  have hbefore : a.date ≤ s.1 := of_decide_eq_true (List.mem_filter.mp ha).2
  rcases List.mem_cons.mp hb with rfl | hb
  · exact hbefore
  · exact hbefore.trans (hafter b hb)

theorem mem_insertSale {events : List Event} (h : events.Pairwise fun a b => a.date ≤ b.date)
    {s : NaiveDate × ℚ} {e : Event} (he : e ∈ insertSale s events) :
    e = ⟨true, s.1, s.2⟩ ∨ e ∈ events := by
  rw [insertSale_eq h] at he
  rcases List.mem_append.mp he with he | he
  · exact .inr (List.mem_filter.mp he).1
  · rcases List.mem_cons.mp he with rfl | he
    · exact .inl rfl
    · exact .inr (List.mem_filter.mp he).1

variable {w : ListingWalk} {exDate : NaiveDate} {sale : Option (NaiveDate × ℚ)}

theorem history_sorted (w : ListingWalk) (sale : Option (NaiveDate × ℚ)) :
    (w.history sale).Pairwise fun a b => a.date ≤ b.date := by
  cases sale with
  | none => exact w.sorted
  | some s => exact insertSale_sorted w.sorted s

theorem history_nonneg (w : ListingWalk) (hsale : ∀ s ∈ sale, 0 ≤ s.2) : ∀ e ∈ w.history sale, 0 ≤ e.qty := by
  intro e he
  cases sale with
  | none => exact w.nonneg e he
  | some s =>
    rcases mem_insertSale w.sorted he with rfl | he
    · exact hsale s rfl
    · exact w.nonneg e he

theorem filter_insertSale {events : List Event} (h : events.Pairwise fun a b => a.date ≤ b.date)
    (s : NaiveDate × ℚ) {keep : Event → Bool} :
    (insertSale s events).filter keep =
      if keep ⟨true, s.1, s.2⟩ then insertSale s (events.filter keep) else events.filter keep := by
  cases hs : keep ⟨true, s.1, s.2⟩ with
  | true =>
    rw [if_pos rfl, insertSale_eq h, insertSale_eq (h.filter keep), List.filter_append,
      List.filter_cons_of_pos hs]
    simp only [List.filter_filter, Bool.and_comm]
  | false =>
    rw [if_neg Bool.false_ne_true, insertSale, List.filter_append,
      List.filter_cons_of_neg (by simp [hs]), ← List.filter_append,
      List.takeWhile_append_dropWhile]

/-- The walk takes the history up to the end of the window. -/
theorem windowEvents_eq (w : ListingWalk) (exDate : NaiveDate) (sale : Option (NaiveDate × ℚ)) :
    w.windowEvents exDate sale =
      (w.history sale).filter fun e => decide (e.date ≤ w.windowEnd exDate) := by
  unfold windowEvents
  simp only [(takeWhile_date w.sorted _).1]
  cases sale with
  | none => rfl
  | some s =>
    rw [history, filter_insertSale w.sorted]
    by_cases hin : s.1 ≤ w.windowEnd exDate
    · simp [Option.filter, hin]
    · simp [Option.filter, hin]

end Sorted

/-! ### The walk's state -/

section Follows
variable {w : ListingWalk} {exDate : NaiveDate}

theorem rebased_nonneg (w : ListingWalk) (last : NaiveDate) {e : Event} (h : 0 ≤ e.qty) :
    0 ≤ w.rebased last e := by
  rw [rebased, splitAdjustedQuantity_eq]
  exact mul_nonneg h (SplitRatio.factor_pos _).le

theorem moves_nonneg (w : ListingWalk) (exDate : NaiveDate) {events : List Event} (h : ∀ e ∈ events, 0 ≤ e.qty) :
    ∀ m ∈ w.moves exDate events, 0 ≤ m.units := by
  intro m hm
  obtain ⟨e, he, rfl⟩ := List.mem_map.mp hm
  have h0 := rebased_nonneg w (w.windowEnd exDate) (h e he)
  split
  · exact h0
  · exact h0

theorem moves_append (events events' : List Event) :
    w.moves exDate (events ++ events') = w.moves exDate events ++ w.moves exDate events' :=
  List.map_append

theorem acquire_mem_moves {events : List Event} {date : NaiveDate} {u : ℚ}
    (h : Move.acquire date u ∈ w.moves exDate events) : ∃ e ∈ events, e.date = date := by
  obtain ⟨e, he, hmove⟩ := List.mem_map.mp h
  split at hmove
  · cases hmove
  · cases hmove
    exact ⟨e, he, rfl⟩

theorem dispose_mem_moves {events : List Event} {date : NaiveDate} {u : ℚ}
    (h : Move.dispose date u ∈ w.moves exDate events) : ∃ e ∈ events, e.date = date := by
  obtain ⟨e, he, hmove⟩ := List.mem_map.mp h
  split at hmove
  · cases hmove
    exact ⟨e, he, rfl⟩
  · cases hmove

/-- The walk's state after the events `pre`, in terms of the identification of them. -/
structure Follows (w : ListingWalk) (exDate : NaiveDate) (pre : List Event) (state : Walk) :
    Prop where
  stack : retag Tag.acquired state.stack = stackAfter [] (w.moves exDate pre)
  flags : ∀ lot ∈ state.stack,
    lot.1.entitled = (state.snapshotted && decide (lot.1.acquired < exDate))
  snapshotted : state.snapshotted = pre.any fun e => decide (exDate ≤ e.date)
  entitled : state.entitledUnits =
    if state.snapshotted then units (stackAfter [] (w.moves exDate (beforeEx exDate pre))) else 0
  disqualified : state.disqualifiedUnits =
    (((identify [] (w.moves exDate pre)).filter (w.tooSoon exDate)).map Disposal.units).sum

theorem units_retag (stack : List (Tag × ℚ)) : units (retag Tag.acquired stack) = units stack := by
  rw [units_eq, units_eq, LifoStack.unitsWhere_retag]

/-- Before the first trade on or after the ex-date, all of the history is before it. -/
theorem beforeEx_eq_self {pre : List Event} (h : pre.any (fun e => decide (exDate ≤ e.date)) = false) :
    beforeEx exDate pre = pre := by
  refine List.filter_eq_self.mpr fun e he => ?_
  have hnot := List.any_eq_false.mp h e he
  simpa using hnot

theorem Follows.snapshot {pre : List Event} {state : Walk} (h : w.Follows exDate pre state)
    {date : NaiveDate} (hsorted : ∀ e ∈ pre, e.date ≤ date) :
    retag Tag.acquired (state.snapshot exDate date).stack = stackAfter [] (w.moves exDate pre) ∧
      (∀ lot ∈ (state.snapshot exDate date).stack, lot.1.entitled =
        (decide (exDate ≤ date) && decide (lot.1.acquired < exDate))) ∧
      (state.snapshot exDate date).snapshotted = decide (exDate ≤ date) ∧
      (state.snapshot exDate date).entitledUnits =
        (if exDate ≤ date then units (stackAfter [] (w.moves exDate (beforeEx exDate pre))) else 0) ∧
      (state.snapshot exDate date).disqualifiedUnits = state.disqualifiedUnits := by
  have hflag := h.snapshotted
  unfold Walk.snapshot
  cases hs : state.snapshotted with
  | true =>
    rw [hs] at hflag
    obtain ⟨e, he, hex⟩ := List.any_eq_true.mp hflag.symm
    have hdate : exDate ≤ date := (of_decide_eq_true hex).trans (hsorted e he)
    have hentitled := h.entitled
    have hflags := h.flags
    rw [hs] at hentitled hflags
    simp only [Bool.not_true, Bool.false_and, Bool.false_eq_true, if_false, hs, hdate,
      decide_true, if_true]
    exact ⟨h.stack, hflags, trivial, hentitled, trivial⟩
  | false =>
    rw [hs] at hflag
    have hself := beforeEx_eq_self hflag.symm
    have hentitled := h.entitled
    have hflags := h.flags
    rw [hs] at hentitled hflags
    by_cases hdate : exDate ≤ date
    · simp only [Bool.not_false, Bool.true_and, hdate, decide_true, if_true, hself]
      refine ⟨?_, ?_, trivial, ?_, trivial⟩
      · rw [← h.stack, retag, List.map_map]
        rfl
      · intro lot hlot
        obtain ⟨lot', hlot', rfl⟩ := List.mem_map.mp hlot
        -- the stack holds what was acquired before the ex-date only
        have hmem : (lot'.1.acquired, lot'.2) ∈ stackAfter [] (w.moves exDate pre) := by
          rw [← h.stack]
          exact List.mem_map.mpr ⟨lot', hlot', rfl⟩
        rcases stackAfter_tags hmem with ⟨_, hnil, _⟩ | ⟨u, hu⟩
        · exact absurd hnil List.not_mem_nil
        · obtain ⟨e, he, hdate'⟩ := acquire_mem_moves hu
          have hbefore := List.any_eq_false.mp hflag.symm e he
          simp only [decide_eq_true_eq, not_le] at hbefore
          rw [hdate'] at hbefore
          simp [hbefore]
      · rw [hentitled, if_neg Bool.false_ne_true, zero_add, ← h.stack, units_retag]
    · simp only [Bool.not_false, Bool.true_and, hdate, decide_false, Bool.false_eq_true, if_false, hs]
      exact ⟨h.stack, hflags, trivial, hentitled, trivial⟩

theorem any_append_singleton (exDate : NaiveDate) {pre : List Event} {e : Event} (hsorted : ∀ a ∈ pre, a.date ≤ e.date) :
    (pre ++ [e]).any (fun a => decide (exDate ≤ a.date)) = decide (exDate ≤ e.date) := by
  rw [List.any_append, List.any_cons, List.any_nil, Bool.or_false]
  by_cases hex : exDate ≤ e.date
  · simp [hex]
  · have hnone : pre.any (fun a => decide (exDate ≤ a.date)) = false := by
      refine List.any_eq_false.mpr fun a ha => ?_
      have hlt := (hsorted a ha).trans_lt (not_le.mp hex)
      simp [hlt]
    rw [hnone, Bool.false_or]

theorem units_beforeEx_append (w : ListingWalk) (exDate : NaiveDate) (pre : List Event) (e : Event) :
    (if exDate ≤ e.date then
        units (stackAfter [] (w.moves exDate (beforeEx exDate (pre ++ [e])))) else 0) =
      if exDate ≤ e.date then units (stackAfter [] (w.moves exDate (beforeEx exDate pre))) else 0 := by
  by_cases hex : exDate ≤ e.date
  · have hfilter : beforeEx exDate (pre ++ [e]) = beforeEx exDate pre := by
      simp [beforeEx, not_lt.mpr hex]
    rw [hfilter]
  · rw [if_neg hex, if_neg hex]

/-- One trade keeps the walk on the identification. -/
theorem Follows.walkEvent {pre : List Event} {state : Walk} (h : w.Follows exDate pre state)
    {e : Event} (hsorted : ∀ a ∈ pre, a.date ≤ e.date) :
    w.Follows exDate (pre ++ [e]) (w.walkEvent exDate state e) := by
  obtain ⟨hstack, hflags, hsnap, hentitled, hdisq⟩ := h.snapshot hsorted
  have hany := any_append_singleton exDate hsorted
  have hbefore := units_beforeEx_append w exDate pre e
  generalize hmid : state.snapshot exDate e.date = mid at hstack hflags hsnap hentitled hdisq
  have hwalk : w.walkEvent exDate state e =
      mid.trade w.requiredDays e.sell e.date (w.rebased (w.windowEnd exDate) e) := by
    rw [ListingWalk.walkEvent, hmid]
  rw [hwalk]
  generalize hq : w.rebased (w.windowEnd exDate) e = qty
  cases hsell : e.sell with
  | false =>
    have hmove : w.moves exDate [e] = [.acquire e.date qty] := by
      simp [moves, hsell, hq]
    have htrade : mid.trade w.requiredDays false e.date qty =
        { mid with stack := (⟨e.date, false⟩, qty) :: mid.stack } := rfl
    rw [htrade]
    exact {
      stack := by
        rw [moves_append, hmove, stackAfter_append, ← hstack]
        rfl
      flags := fun lot hlot => by
        rcases List.mem_cons.mp hlot with rfl | hlot
        · by_cases hex : exDate ≤ e.date
          · simp [hex]
          · simp [hsnap, hex]
        · rw [hsnap]
          exact hflags lot hlot
      snapshotted := by rw [hany]; exact hsnap
      entitled := by
        rw [hentitled, hsnap]
        simp only [decide_eq_true_eq]
        exact hbefore.symm
      disqualified := by
        rw [moves_append, hmove, identify_append]
        change mid.disqualifiedUnits = _
        rw [hdisq, h.disqualified]
        simp [identify, identified] }
  | true =>
    have hmove : w.moves exDate [e] = [.dispose e.date qty] := by
      simp [moves, hsell, hq]
    have hdraw := draw_retag Tag.acquired mid.stack qty
    rw [hstack] at hdraw
    have htrade : mid.trade w.requiredDays true e.date qty =
        { mid with
          stack := (draw mid.stack qty).left
          disqualifiedUnits := mid.disqualifiedUnits +
            LifoStack.unitsWhere (Walk.disqualifies w.requiredDays e.date) (draw mid.stack qty).taken } := rfl
    rw [htrade]
    exact {
      stack := by
        rw [moves_append, hmove, stackAfter_append]
        change _ = (draw (stackAfter [] (w.moves exDate pre)) qty).left
        rw [hdraw]
      flags := fun lot hlot => by
        obtain ⟨lot', hlot', htag⟩ := draw_tags (.inr hlot)
        rw [hsnap, ← htag]
        exact hflags lot' hlot'
      snapshotted := by rw [hany]; exact hsnap
      entitled := by
        rw [hentitled, hsnap]
        simp only [decide_eq_true_eq]
        exact hbefore.symm
      disqualified := by
        have htaken : LifoStack.unitsWhere (Walk.disqualifies w.requiredDays e.date) (draw mid.stack qty).taken =
            LifoStack.unitsWhere (fun date => w.tooSoon exDate ⟨date, e.date, (0 : ℚ)⟩)
              (retag Tag.acquired (draw mid.stack qty).taken) := by
          rw [LifoStack.unitsWhere_retag]
          refine LifoStack.unitsWhere_congr fun lot hlot => ?_
          obtain ⟨lot', hlot', htag⟩ := draw_tags (.inl hlot)
          have hflag := hflags lot' hlot'
          rw [htag] at hflag
          rw [Walk.disqualifies, hflag, tooSoon, Bool.and_comm (decide (exDate ≤ e.date))]
        rw [moves_append, hmove, identify_append, List.filter_append, List.map_append,
          List.sum_append, ← h.disqualified, ← hdisq, htaken]
        refine congrArg (mid.disqualifiedUnits + ·) ?_
        change _ = (((identified (stackAfter [] (w.moves exDate pre)) (.dispose e.date qty) ++ []).filter
          _).map _).sum
        rw [List.append_nil, identified, hdraw, List.filter_map, List.map_map]
        rfl }

theorem follows_foldl (w : ListingWalk) (exDate : NaiveDate) {events : List Event}
    (h : events.Pairwise fun a b => a.date ≤ b.date) :
    w.Follows exDate events (events.foldl (w.walkEvent exDate) .start) := by
  induction events using List.reverseRecOn with
  | nil =>
    exact {
      stack := rfl
      flags := fun _ h => absurd h List.not_mem_nil
      snapshotted := rfl
      entitled := rfl
      disqualified := rfl }
  | append_singleton pre e ih =>
    obtain ⟨hpre, -, hacross⟩ := List.pairwise_append.mp h
    rw [List.foldl_append]
    exact (ih hpre).walkEvent fun a ha => hacross a ha e List.mem_cons_self

/-- What the walk answers, in terms of the identification of the events it takes. -/
theorem testWithSale_eq (w : ListingWalk) (exDate : NaiveDate) (sale : Option (NaiveDate × ℚ)) :
    w.testWithSale exDate sale =
      ⟨units (stackAfter [] (w.moves exDate (beforeEx exDate (w.windowEvents exDate sale)))),
        (((identify [] (w.moves exDate (w.windowEvents exDate sale))).filter
          (w.tooSoon exDate)).map Disposal.units).sum⟩ := by
  have hsorted : (w.windowEvents exDate sale).Pairwise fun a b => a.date ≤ b.date := by
    rw [windowEvents_eq]
    exact (history_sorted w sale).filter _
  have hfollows := follows_foldl w exDate hsorted
  unfold testWithSale
  simp only [hfollows.disqualified]
  congr 1
  split
  · rename_i hs
    rw [hfollows.entitled, if_pos hs]
  · rename_i hs
    have hflag := hfollows.snapshotted
    rw [Bool.not_eq_true] at hs
    rw [hs] at hflag
    rw [beforeEx_eq_self hflag.symm, ← hfollows.stack, units_retag]

end Follows

/-! ### The whole history -/

section Whole
variable {w : ListingWalk} {exDate : NaiveDate} {sale : Option (NaiveDate × ℚ)}

/-- Events in date order part at a date. -/
theorem filter_date_append {l : List Event} (h : l.Pairwise fun a b => a.date ≤ b.date)
    (date : NaiveDate) :
    l.filter (fun e => decide (e.date ≤ date)) ++ l.filter (fun e => !decide (e.date ≤ date)) = l := by
  rw [← (takeWhile_date h date).1, ← (takeWhile_date h date).2, List.takeWhile_append_dropWhile]

theorem beforeEx_append (exDate : NaiveDate) {l : List Event}
    (h : l.Pairwise fun a b => a.date ≤ b.date) :
    beforeEx exDate l ++ l.filter (fun e => !decide (e.date < exDate)) = l := by
  have hpart := StableSort.takeWhile_dropWhile_eq_filter (p := fun e : Event => decide (e.date < exDate))
    (h.imp fun {a b} hab hb => decide_eq_true (hab.trans_lt (of_decide_eq_true hb)))
  rw [beforeEx, ← hpart.1, ← hpart.2, List.takeWhile_append_dropWhile]

theorem le_windowEnd (w : ListingWalk) (exDate : NaiveDate) : exDate ≤ w.windowEnd exDate := by
  rw [← NaiveDate.dayNumber_le, windowEnd, NaiveDate.dayNumber_addDays]
  omega

/-- Units held to the end of the window have been held long enough. -/
theorem tooSoon_after {d : Disposal NaiveDate ℚ} (h : w.windowEnd exDate < d.disposed) :
    w.tooSoon exDate d = false := by
  by_contra hsoon
  simp only [tooSoon, atRiskDays, Bool.not_eq_false, Bool.and_eq_true, decide_eq_true_eq] at hsoon
  obtain ⟨⟨hacquired, -⟩, hdays⟩ := hsoon
  rw [← NaiveDate.dayNumber_lt, windowEnd, NaiveDate.dayNumber_addDays] at h
  have hshort := of_decide_eq_true hdays
  rw [← NaiveDate.dayNumber_lt] at hacquired
  omega

theorem beforeEx_windowEvents (w : ListingWalk) (exDate : NaiveDate)
    (sale : Option (NaiveDate × ℚ)) :
    beforeEx exDate (w.windowEvents exDate sale) = beforeEx exDate (w.history sale) := by
  rw [windowEvents_eq, beforeEx, beforeEx, List.filter_filter]
  refine List.filter_congr fun e _ => ?_
  by_cases hex : e.date < exDate
  · simp [hex, hex.le.trans (le_windowEnd w exDate)]
  · simp [hex]

/-- Sales after the window disqualify nothing. -/
theorem identify_windowEvents (w : ListingWalk) (exDate : NaiveDate)
    (sale : Option (NaiveDate × ℚ)) :
    (((identify [] (w.moves exDate (w.windowEvents exDate sale))).filter
      (w.tooSoon exDate)).map Disposal.units).sum = w.identifiedTooSoon exDate sale := by
  have hsplit := filter_date_append (history_sorted w sale) (w.windowEnd exDate)
  rw [windowEvents_eq, identifiedTooSoon]
  have hnone : ∀ d ∈ identify
      (stackAfter [] (w.moves exDate ((w.history sale).filter fun e => decide (e.date ≤ w.windowEnd exDate))))
      (w.moves exDate ((w.history sale).filter fun e => !decide (e.date ≤ w.windowEnd exDate))),
      ¬ w.tooSoon exDate d = true := by
    intro d hd
    obtain ⟨u, hu⟩ := identify_disposed hd
    obtain ⟨e, he, hdate⟩ := dispose_mem_moves hu
    have hlate := (List.mem_filter.mp he).2
    simp only [Bool.not_eq_true', decide_eq_false_iff_not, not_le] at hlate
    rw [hdate] at hlate
    simp [tooSoon_after hlate]
  conv_rhs => rw [← hsplit, moves_append, identify_append, List.filter_append,
    List.filter_eq_nil_iff.mpr hnone, List.append_nil]

theorem nil_nonneg : ∀ lot ∈ ([] : List (NaiveDate × ℚ)), 0 ≤ lot.2 := fun _ h => absurd h List.not_mem_nil

theorem entitledUnits_eq (w : ListingWalk) (exDate : NaiveDate) (hsale : ∀ s ∈ sale, 0 ≤ s.2) :
    (w.testWithSale exDate sale).entitledUnits =
      w.heldBefore exDate sale + shortfall [] (w.moves exDate (beforeEx exDate (w.history sale))) := by
  have h0 : ∀ e ∈ beforeEx exDate (w.history sale), 0 ≤ e.qty :=
    fun e he => history_nonneg w hsale e (List.mem_filter.mp he).1
  rw [testWithSale_eq, beforeEx_windowEvents, units_stackAfter nil_nonneg (moves_nonneg w exDate h0), heldBefore]
  exact congrArg (· + _) (zero_add _)

theorem entitledUnits_eq_held_iff (w : ListingWalk) (exDate : NaiveDate)
    (hsale : ∀ s ∈ sale, 0 ≤ s.2) :
    (w.testWithSale exDate sale).entitledUnits = w.heldBefore exDate sale ↔ w.Covered exDate sale := by
  have h0 : ∀ e ∈ beforeEx exDate (w.history sale), 0 ≤ e.qty :=
    fun e he => history_nonneg w hsale e (List.mem_filter.mp he).1
  rw [entitledUnits_eq w exDate hsale, add_eq_left, shortfall_eq_zero_iff nil_nonneg (moves_nonneg w exDate h0)]
  refine forall₂_congr fun pre _ => ?_
  rw [show units ([] : List (NaiveDate × ℚ)) = 0 from rfl, zero_add]

theorem disqualifiedUnits_eq (w : ListingWalk) (exDate : NaiveDate)
    (sale : Option (NaiveDate × ℚ)) :
    (w.testWithSale exDate sale).disqualifiedUnits = w.identifiedTooSoon exDate sale := by
  rw [testWithSale_eq, identify_windowEvents]

theorem disqualifiedUnits_nonneg (w : ListingWalk) (exDate : NaiveDate)
    (hsale : ∀ s ∈ sale, 0 ≤ s.2) : 0 ≤ (w.testWithSale exDate sale).disqualifiedUnits := by
  rw [disqualifiedUnits_eq]
  refine List.sum_nonneg fun u hu => ?_
  obtain ⟨d, hd, rfl⟩ := List.mem_map.mp hu
  exact identify_nonneg nil_nonneg (moves_nonneg w exDate (history_nonneg w hsale)) d (List.mem_filter.mp hd).1

theorem sum_tooSoon_le {ds : List (Disposal NaiveDate ℚ)} (h : ∀ d ∈ ds, 0 ≤ d.units) :
    ((ds.filter (w.tooSoon exDate)).map Disposal.units).sum ≤
      ((ds.filter fun d => decide (d.acquired < exDate)).map Disposal.units).sum := by
  refine List.Sublist.sum_le_sum ?_ ?_
  · refine List.Sublist.map _ (List.monotone_filter_right ds ?_)
    intro d hd
    simp only [tooSoon, Bool.and_eq_true] at hd
    exact hd.1.1
  · intro u hu
    obtain ⟨d, hd, rfl⟩ := List.mem_map.mp hu
    exact h d (List.mem_filter.mp hd).1

/-- What is disqualified comes off the lots held before the ex-date. -/
theorem disqualifiedUnits_le (w : ListingWalk) (exDate : NaiveDate)
    (hsale : ∀ s ∈ sale, 0 ≤ s.2) : (w.testWithSale exDate sale).disqualifiedUnits ≤
      (w.testWithSale exDate sale).entitledUnits := by
  have hsplit := beforeEx_append exDate (history_sorted w sale)
  have hmoves := moves_nonneg w exDate (history_nonneg w hsale)
  rw [← hsplit, moves_append] at hmoves
  have hbefore : ∀ m ∈ w.moves exDate (beforeEx exDate (w.history sale)), 0 ≤ m.units :=
    fun m hm => hmoves m (List.mem_append_left _ hm)
  have hafter : ∀ m ∈ w.moves exDate ((w.history sale).filter fun e => !decide (e.date < exDate)),
      0 ≤ m.units := fun m hm => hmoves m (List.mem_append_right _ hm)
  have hnone : ∀ d ∈ identify [] (w.moves exDate (beforeEx exDate (w.history sale))),
      ¬ w.tooSoon exDate d = true := by
    intro d hd
    obtain ⟨u, hu⟩ := identify_disposed hd
    obtain ⟨e, he, hdate⟩ := dispose_mem_moves hu
    have hearly : e.date < exDate := of_decide_eq_true (List.mem_filter.mp he).2
    rw [hdate] at hearly
    simp [tooSoon, not_le.mpr hearly]
  have hnew : ∀ k u, Move.acquire k u ∈
      w.moves exDate ((w.history sale).filter fun e => !decide (e.date < exDate)) →
      decide (k < exDate) = false := by
    intro k u hu
    obtain ⟨e, he, rfl⟩ := acquire_mem_moves hu
    simpa using (List.mem_filter.mp he).2
  have hheld := stackAfter_nonneg nil_nonneg hbefore
  have hnonneg := identify_nonneg hheld hafter
  have hconserve := LifoStack.unitsWhere_identify hheld hafter hnew
  have hleft := LifoStack.unitsWhere_nonneg (stackAfter_nonneg hheld hafter) fun k => decide (k < exDate)
  have hdisqualified : (w.testWithSale exDate sale).disqualifiedUnits =
      (((identify (stackAfter [] (w.moves exDate (beforeEx exDate (w.history sale))))
        (w.moves exDate ((w.history sale).filter fun e => !decide (e.date < exDate)))).filter
          (w.tooSoon exDate)).map Disposal.units).sum := by
    rw [disqualifiedUnits_eq, identifiedTooSoon]
    conv_lhs => rw [← hsplit, moves_append, identify_append, List.filter_append,
      List.filter_eq_nil_iff.mpr hnone, List.nil_append]
  have hentitled : (w.testWithSale exDate sale).entitledUnits =
      LifoStack.unitsWhere (fun _ => true) (stackAfter [] (w.moves exDate (beforeEx exDate (w.history sale)))) := by
    rw [testWithSale_eq, beforeEx_windowEvents, units_eq]
  have hlots : LifoStack.unitsWhere (fun k => decide (k < exDate))
      (stackAfter [] (w.moves exDate (beforeEx exDate (w.history sale)))) ≤
      LifoStack.unitsWhere (fun _ => true) (stackAfter [] (w.moves exDate (beforeEx exDate (w.history sale)))) :=
    LifoStack.unitsWhere_mono hheld fun _ _ => rfl
  rw [hdisqualified, hentitled]
  refine (sum_tooSoon_le hnonneg).trans (le_trans ?_ hlots)
  rw [← hconserve]
  exact le_add_of_nonneg_right hleft

end Whole

/-! ### A split restates the history -/

/-- The factor a count dated `date` is restated by once the split is recorded. -/
def restatedBy (split : SplitEvent) (date : NaiveDate) : ℚ :=
  if split.date ≤ date then split.newUnits / split.oldUnits else 1

theorem restatedBy_pos (split : SplitEvent) (date : NaiveDate) : 0 < restatedBy split date := by
  unfold restatedBy
  split
  · exact div_pos split.newUnits_pos split.oldUnits_pos
  · exact one_pos

def restate (split : SplitEvent) (e : Event) : Event := { e with qty := e.qty * restatedBy split e.date }

/-- The same trades with a split recorded among them, every later quantity in
its units; `splits'` holds it wherever the listing's order puts it. -/
def withSplit (w : ListingWalk) (split : SplitEvent) (splits' : List SplitEvent) : ListingWalk where
  preference := w.preference
  events := w.events.map (restate split)
  splits := splits'
  sorted := List.pairwise_map.mpr w.sorted
  nonneg := by
    intro e he
    obtain ⟨e', he', rfl⟩ := List.mem_map.mp he
    exact mul_nonneg (w.nonneg e' he') (restatedBy_pos split e'.date).le

def restateSale (split : SplitEvent) (sale : Option (NaiveDate × ℚ)) : Option (NaiveDate × ℚ) :=
  sale.map fun s => (s.1, s.2 * restatedBy split s.1)

section Restated
variable {w : ListingWalk} {exDate : NaiveDate} {sale : Option (NaiveDate × ℚ)}
  {split : SplitEvent} {splits' : List SplitEvent}

theorem rebased_withSplit (h : splits'.Perm (split :: w.splits)) (last : NaiveDate) (e : Event) :
    (w.withSplit split splits').rebased last (restate split e) =
      restatedBy split last * w.rebased last e := by
  have hlevel : ∀ date, basisLevel splits' date = restatedBy split date * basisLevel w.splits date := by
    intro date
    rw [basisLevel_perm h, basisLevel_cons, restatedBy]
  have hne := (restatedBy_pos split e.date).ne'
  have hlevel0 := (basisLevel_pos w.splits e.date).ne'
  change splitAdjustedQuantity (e.qty * restatedBy split e.date) splits' e.date (some last) = _
  rw [splitAdjustedQuantity_eq, rebaseRatio_factor, rebased, splitAdjustedQuantity_eq,
    rebaseRatio_factor, hlevel, hlevel]
  field_simp

theorem history_withSplit :
    (w.withSplit split splits').history (restateSale split sale) = (w.history sale).map (restate split) := by
  cases sale with
  | none => rfl
  | some s =>
    change insertSale (s.1, s.2 * restatedBy split s.1) (w.events.map (restate split)) =
      (insertSale s w.events).map (restate split)
    unfold insertSale
    rw [List.takeWhile_map, List.dropWhile_map, List.map_append, List.map_cons]
    rfl

theorem moves_withSplit (h : splits'.Perm (split :: w.splits)) (events : List Event) :
    (w.withSplit split splits').moves exDate (events.map (restate split)) =
      (w.moves exDate events).map (Move.scale (restatedBy split (w.windowEnd exDate))) := by
  unfold moves
  rw [List.map_map, List.map_map]
  refine List.map_congr_left fun e _ => ?_
  have hrebased := rebased_withSplit h (w.windowEnd exDate) e
  change (if e.sell then Move.dispose e.date _ else Move.acquire e.date _) =
    Move.scale _ (if e.sell then _ else _)
  rw [show (w.withSplit split splits').windowEnd exDate = w.windowEnd exDate from rfl, hrebased]
  split
  · rfl
  · rfl

theorem filter_restate (p : Event → Bool) (hp : ∀ e, p (restate split e) = p e) (events : List Event) :
    (events.map (restate split)).filter p = (events.filter p).map (restate split) := by
  rw [List.filter_map]
  congr 1
  exact List.filter_congr fun e _ => hp e

/-- Recording a split restates both figures by its ratio, and so neither against the other. -/
theorem testWithSale_withSplit (h : splits'.Perm (split :: w.splits)) (hsale : ∀ s ∈ sale, 0 ≤ s.2) :
    (w.withSplit split splits').testWithSale exDate (restateSale split sale) =
      ⟨restatedBy split (w.windowEnd exDate) * (w.testWithSale exDate sale).entitledUnits,
        restatedBy split (w.windowEnd exDate) * (w.testWithSale exDate sale).disqualifiedUnits⟩ := by
  have hc := restatedBy_pos split (w.windowEnd exDate)
  have h0 := history_nonneg w hsale
  have hwindow : (w.withSplit split splits').windowEvents exDate (restateSale split sale) =
      (w.windowEvents exDate sale).map (restate split) := by
    rw [windowEvents_eq, windowEvents_eq, history_withSplit]
    exact filter_restate _ (fun _ => rfl) _
  have hbefore : beforeEx exDate ((w.windowEvents exDate sale).map (restate split)) =
      (beforeEx exDate (w.windowEvents exDate sale)).map (restate split) :=
    filter_restate _ (fun _ => rfl) _
  have hwindow0 : ∀ e ∈ w.windowEvents exDate sale, 0 ≤ e.qty := by
    intro e he
    rw [windowEvents_eq] at he
    exact h0 e (List.mem_filter.mp he).1
  have hbefore0 : ∀ e ∈ beforeEx exDate (w.windowEvents exDate sale), 0 ≤ e.qty :=
    fun e he => hwindow0 e (List.mem_filter.mp he).1
  have hstack := stackAfter_scale hc nil_nonneg (moves_nonneg w exDate hbefore0)
  have hidentify := identify_scale hc nil_nonneg (moves_nonneg w exDate hwindow0)
  rw [testWithSale_eq, testWithSale_eq, hwindow, hbefore, moves_withSplit h, moves_withSplit h]
  congr 1
  · rw [← units_scale, ← hstack]
    rfl
  · rw [← List.sum_map_mul_left, show ([] : List (NaiveDate × ℚ)) = scale _ [] from rfl, hidentify,
      List.filter_map, List.map_map]
    rfl

end Restated

/-! ### The rule -/

/-- The walk answers as the rule does. -/
structure Right (w : ListingWalk) (exDate : NaiveDate) (sale : Option (NaiveDate × ℚ)) : Prop where
  entitled : (w.testWithSale exDate sale).entitledUnits = w.heldBefore exDate sale
  disqualified : (w.testWithSale exDate sale).disqualifiedUnits = w.identifiedTooSoon exDate sale
  nonneg : 0 ≤ (w.testWithSale exDate sale).disqualifiedUnits
  le_entitled : (w.testWithSale exDate sale).disqualifiedUnits ≤
    (w.testWithSale exDate sale).entitledUnits
  ratio : ∀ split splits', splits'.Perm (split :: w.splits) →
    ((w.withSplit split splits').testWithSale exDate (restateSale split sale)).disqualifiedUnits /
        ((w.withSplit split splits').testWithSale exDate (restateSale split sale)).entitledUnits =
      (w.testWithSale exDate sale).disqualifiedUnits / (w.testWithSale exDate sale).entitledUnits

/-- The walk is right exactly where no sale before the ex-date outruns what the
trades before it, in date and then id order, leave held: what a sale finds no
lot for is dropped, and its units are counted as held ever after. -/
theorem testWithSale_right_iff (w : ListingWalk) (exDate : NaiveDate)
    (sale : Option (NaiveDate × ℚ)) (hsale : ∀ s ∈ sale, 0 ≤ s.2) :
    w.Right exDate sale ↔ w.Covered exDate sale := by
  rw [← entitledUnits_eq_held_iff w exDate hsale]
  constructor
  · intro h
    exact h.entitled
  · intro h
    refine ⟨h, disqualifiedUnits_eq w exDate sale, disqualifiedUnits_nonneg w exDate hsale,
      disqualifiedUnits_le w exDate hsale, ?_⟩
    intro split splits' hperm
    rw [testWithSale_withSplit hperm hsale]
    exact mul_div_mul_left _ _ (restatedBy_pos split _).ne'

/-- Two parcels, and a sale that reaches the second only. -/
def soldEarly : ListingWalk where
  preference := false
  events := [⟨false, ymd 2026 1 5, 100⟩, ⟨false, ymd 2026 1 12, 50⟩,
    ⟨true, ymd 2026 2 2, 30⟩]
  splits := []
  sorted := by decide
  nonneg := by decide

theorem testWithSale_right_soldEarly :
    soldEarly.Right (ymd 2026 1 20) (some (ymd 2026 2 9, 40)) :=
  (testWithSale_right_iff soldEarly (ymd 2026 1 20) (some (ymd 2026 2 9, 40))
    (by decide)).mpr ((entitledUnits_eq_held_iff _ _ (by decide)).mp (by decide +kernel))

/-- A Sell, re-pointed at a parcel entered after it for the same day, and the
parcel it was first drawn on then deleted. -/
def rebought : List Write := [
  .writeTrade 1 ⟨ymd 2026 1 5, 1, 1, 100⟩ fun _ _ => [],
  .writeSell 2 ⟨ymd 2026 1 20, 1, 1, 100, [⟨1, .new 100 0⟩]⟩
    fun _ _ => [],
  .writeTrade 3 ⟨ymd 2026 1 20, 1, 1, 100⟩ fun _ _ => [],
  .writeSell 2 ⟨ymd 2026 1 20, 1, 1, 100, [⟨3, .new 100 0⟩]⟩
    fun _ _ => [],
  .deleteTrade 1 fun _ _ => []]

/-- The day trade's Sell comes first by id, finds no lot, and is dropped: the
walk holds the hundred units for ever, and none were held. -/
theorem testWithSale_counts_dropped_sale :
    ∃ (s : Ledger) (hs : ∀ t ∈ s.trades, 0 ≤ t.quantity),
      Ledger.empty.run halfEvenRounding rebought = .ok s ∧
      (load s hs false 1).test (ymd 2026 2 2) = ⟨100, 0⟩ ∧
      (load s hs false 1).heldBefore (ymd 2026 2 2) none = 0 ∧
      ¬ (load s hs false 1).Right (ymd 2026 2 2) none := by
  have hrun : Checked.accepts (Ledger.empty.run halfEvenRounding rebought) (fun s =>
      if hs : ∀ t ∈ s.trades, 0 ≤ t.quantity then
        decide ((load s hs false 1).test (ymd 2026 2 2) = ⟨100, 0⟩) &&
          decide ((load s hs false 1).heldBefore (ymd 2026 2 2) none = 0)
      else false) = true := by
    decide +kernel
  obtain ⟨s, h, hs⟩ := Checked.accepts_iff.mp hrun
  split at hs
  · rename_i hnonneg
    simp only [Bool.and_eq_true, decide_eq_true_eq] at hs
    obtain ⟨htest, hheld⟩ := hs
    refine ⟨s, hnonneg, h, htest, hheld, fun hright => ?_⟩
    have hentitled := hright.entitled
    rw [hheld] at hentitled
    have hhundred := congrArg HoldingPeriodTest.entitledUnits htest
    exact absurd (hentitled.symm.trans hhundred) (by norm_num)
  · cases hs

end ListingWalk

end ShareTracker.Franking
