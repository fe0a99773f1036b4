import ShareTracker.HoldingPeriod
import ShareTracker.Lib.LifoGap

/-!
The contemplated sale of the what-if report against the same walk without it:
the sale takes the newest units early, and every later sale then draws on older
ones.
-/
namespace ShareTracker.Franking
open LifoStack

/-- A dividend with franking credits attached. -/
structure FrankedDividend where
  incomeId : ℤ
  exDate : NaiveDate
  creditsAud : ℚ
  credits_pos : 0 < creditsAud

structure FrankingWhatIfAlert where
  incomeId : ℤ
  exDate : NaiveDate
  requiredDays : ℕ
  windowEnd : NaiveDate
  creditsAttached : ℚ
  disqualifiedUnitsNow : ℚ
  disqualifiedUnitsAfterSale : ℚ
  additionalCreditsAtRisk : ℚ
  deriving DecidableEq

namespace ListingWalk

def additional (w : ListingWalk) (d : FrankedDividend) (sale : NaiveDate × ℚ) : ℚ :=
  (w.testWithSale d.exDate (some sale)).denied d.creditsAud - (w.test d.exDate).denied d.creditsAud

/-- One dividend's turn of `db_franking_what_if`. -/
def whatIf (w : ListingWalk) (sale : NaiveDate × ℚ) (d : FrankedDividend) :
    Option FrankingWhatIfAlert :=
  if w.additional d sale ≤ 0 then none
  else some {
    incomeId := d.incomeId
    exDate := d.exDate
    requiredDays := w.requiredDays
    windowEnd := w.windowEnd d.exDate
    creditsAttached := d.creditsAud
    disqualifiedUnitsNow := (w.test d.exDate).disqualifiedUnits
    disqualifiedUnitsAfterSale := (w.testWithSale d.exDate (some sale)).disqualifiedUnits
    additionalCreditsAtRisk := w.additional d sale }

/-- `db_franking_what_if`, of one listing's dividends. -/
def frankingWhatIf (w : ListingWalk) (dividends : List FrankedDividend) (sale : NaiveDate × ℚ) :
    List FrankingWhatIfAlert :=
  StableSort.sortBy (fun a => toLex (a.exDate, a.incomeId)) (dividends.filterMap (w.whatIf sale))

/-! ### Two runs -/

variable {w : ListingWalk} {exDate : NaiveDate}

/-- A lot acquired on or after the day of that number. -/
def newer (n : ℤ) (acquired : NaiveDate) : Bool := decide (n ≤ acquired.dayNumber)

/-- The first day of acquisition that a disposal on `date` disposes of too soon. -/
def soonFrom (w : ListingWalk) (date : NaiveDate) : ℤ := date.dayNumber - w.requiredDays

theorem newer_anti (n m : ℤ) (h : n ≤ m) (k : NaiveDate) (hk : newer m k = true) :
    newer n k = true :=
  decide_eq_true (h.trans (of_decide_eq_true hk))

/-- The units the moves dispose of too soon. -/
def soonUnits (w : ListingWalk) (exDate : NaiveDate) (stack : List (NaiveDate × ℚ))
    (ms : List (Move NaiveDate ℚ)) : ℚ :=
  (((identify stack ms).filter (w.tooSoon exDate)).map Disposal.units).sum

theorem unitsWhere_sub {κ : Type*} {p q : κ → Bool} (h : ∀ k, q k = true → p k = true)
    (stack : List (κ × ℚ)) :
    LifoStack.unitsWhere (fun k => p k && !q k) stack =
      LifoStack.unitsWhere p stack - LifoStack.unitsWhere q stack := by
  induction stack with
  | nil => simp [LifoStack.unitsWhere]
  | cons lot stack ih =>
    obtain ⟨k, u⟩ := lot
    rw [unitsWhere_cons, unitsWhere_cons, unitsWhere_cons, ih]
    cases hq : q k with
    | true =>
      rw [h k hq]
      simp
    | false =>
      simp only [Bool.not_false, Bool.and_true, Bool.false_eq_true, if_false]
      ring

/-- Disposed of too soon is what is newer than a day, and was entitled. -/
theorem tooSoon_eq {date : NaiveDate} (hex : exDate ≤ date) (acquired : NaiveDate) (u : ℚ) :
    w.tooSoon exDate ⟨acquired, date, u⟩ =
      (newer (w.soonFrom date) acquired && !newer exDate.dayNumber acquired) := by
  have hnum := NaiveDate.dayNumber_lt (a := acquired) (b := exDate)
  rw [tooSoon, newer, newer, soonFrom, atRiskDays, Bool.eq_iff_iff]
  simp only [Bool.and_eq_true, decide_eq_true_eq, Bool.not_eq_true', decide_eq_false_iff_not, hex,
    ← hnum]
  constructor
  · rintro ⟨⟨hbefore, -⟩, hsoon⟩
    constructor <;> omega
  · rintro ⟨hsoon, hbefore⟩
    refine ⟨⟨by omega, trivial⟩, by omega⟩

theorem soonFrom_le {date : NaiveDate} (h : date ≤ w.windowEnd exDate) :
    w.soonFrom date ≤ exDate.dayNumber := by
  have hnum := NaiveDate.dayNumber_le.mpr h
  rw [windowEnd, NaiveDate.dayNumber_addDays] at hnum
  rw [soonFrom]
  omega

theorem soonUnits_cons (stack : List (NaiveDate × ℚ)) (m : Move NaiveDate ℚ)
    (ms : List (Move NaiveDate ℚ)) : w.soonUnits exDate stack (m :: ms) =
      w.soonUnits exDate stack [m] + w.soonUnits exDate (step stack m) ms := by
  simp only [soonUnits, identify, List.append_nil, List.filter_append, List.map_append,
    List.sum_append]

theorem soonUnits_acquire (stack : List (NaiveDate × ℚ)) (date : NaiveDate) (u : ℚ) :
    w.soonUnits exDate stack [.acquire date u] = 0 := rfl

/-- The units a sale in the window disposes of too soon. -/
theorem soonUnits_dispose {stack : List (NaiveDate × ℚ)} (hs : Layered newer stack)
    {date : NaiveDate} (hex : exDate ≤ date) (hwindow : date ≤ w.windowEnd exDate) {q : ℚ}
    (hq : 0 ≤ q) : w.soonUnits exDate stack [.dispose date q] =
      min (LifoStack.unitsWhere (newer (w.soonFrom date)) stack) q -
        min (LifoStack.unitsWhere (newer exDate.dayNumber) stack) q := by
  have hone : w.soonUnits exDate stack [.dispose date q] =
      LifoStack.unitsWhere (fun k => newer (w.soonFrom date) k && !newer exDate.dayNumber k)
        (draw stack q).taken := by
    rw [soonUnits, identify, identify, List.append_nil, identified, List.filter_map, List.map_map,
      LifoStack.unitsWhere]
    congr 2
    apply List.filter_congr
    intro lot _
    exact tooSoon_eq hex lot.1 lot.2
  rw [hone, unitsWhere_sub (newer_anti _ _ (soonFrom_le hwindow)),
    unitsWhere_taken hs.nonneg (hs.above _) hq, unitsWhere_taken hs.nonneg (hs.above _) hq]

theorem newer_mono {n : ℤ} {a b : NaiveDate} (h : a ≤ b) (ha : newer n a = true) :
    newer n b = true :=
  decide_eq_true ((of_decide_eq_true ha).trans (NaiveDate.dayNumber_le.mpr h))

/-- How much more the moves of trades in the window dispose of too soon from the
second of two stacks apart: no more than the missing units that were not
entitled, and no less than the missing entitled ones not yet too old take back. -/
theorem soonUnits_apart {a : ℚ} {es : List Event} (hsorted : es.Pairwise fun a b => a.date ≤ b.date)
    (hpos : ∀ e ∈ es, 0 ≤ e.qty) (hwindow : ∀ e ∈ es, e.date ≤ w.windowEnd exDate)
    {since : NaiveDate} (hsince : ∀ e ∈ es, since ≤ e.date) (hex : exDate ≤ since)
    (hopen : since ≤ w.windowEnd exDate) {s t : List (NaiveDate × ℚ)} (h : Apart newer a s t)
    (hs : ∀ lot ∈ s, lot.1 ≤ since) (ht : ∀ lot ∈ t, lot.1 ≤ since) :
    gap newer s t exDate.dayNumber - gap newer s t (w.soonFrom since) ≤
        w.soonUnits exDate t (w.moves exDate es) - w.soonUnits exDate s (w.moves exDate es) ∧
      w.soonUnits exDate t (w.moves exDate es) - w.soonUnits exDate s (w.moves exDate es) ≤
        gap newer s t exDate.dayNumber := by
  induction es generalizing since s t with
  | nil =>
    have hnone : ∀ stack, w.soonUnits exDate stack (w.moves exDate []) = 0 := fun _ => rfl
    have hgap := h.anti _ _ (soonFrom_le hopen)
    rw [hnone, hnone, sub_zero]
    exact ⟨sub_nonpos.mpr hgap, h.nonneg _⟩
  | cons e es ih =>
    obtain ⟨hafter, hrest⟩ := List.pairwise_cons.mp hsorted
    have hdate := hsince e List.mem_cons_self
    have hqty := rebased_nonneg w (w.windowEnd exDate) (hpos e List.mem_cons_self)
    have hpos' : ∀ e ∈ es, 0 ≤ e.qty := fun e he => hpos e (List.mem_cons_of_mem _ he)
    have hwindow' : ∀ e ∈ es, e.date ≤ w.windowEnd exDate :=
      fun e he => hwindow e (List.mem_cons_of_mem _ he)
    have hopen' := hwindow e List.mem_cons_self
    have hex' := hex.trans hdate
    -- as the days pass, fewer of the missing units are still too new
    have hage : gap newer s t (w.soonFrom e.date) ≤ gap newer s t (w.soonFrom since) := by
      apply h.anti
      have hnum := NaiveDate.dayNumber_le.mpr hdate
      rw [soonFrom, soonFrom]
      omega
    have hmoves : w.moves exDate (e :: es) = w.moves exDate [e] ++ w.moves exDate es := rfl
    cases hsell : e.sell with
    | false =>
      have hmove : w.moves exDate [e] =
          [.acquire e.date (w.rebased (w.windowEnd exDate) e)] := by
        simp [moves, hsell]
      have hnew : ∀ stack : List (NaiveDate × ℚ), (∀ lot ∈ stack, lot.1 ≤ since) →
          ∀ n, ∀ lot ∈ stack, newer n lot.1 = true → newer n e.date = true :=
        fun stack hstack n lot hlot => newer_mono ((hstack lot hlot).trans hdate)
      have hold : ∀ stack : List (NaiveDate × ℚ), (∀ lot ∈ stack, lot.1 ≤ since) →
          ∀ lot ∈ (e.date, w.rebased (w.windowEnd exDate) e) :: stack, lot.1 ≤ e.date := by
        intro stack hstack lot hlot
        rcases List.mem_cons.mp hlot with rfl | hlot
        · exact le_rfl
        · exact (hstack lot hlot).trans hdate
      obtain ⟨hapart, hgap⟩ := h.acquire hqty (hnew s hs) (hnew t ht)
      obtain ⟨hlow, hhigh⟩ := ih hrest hpos' hwindow' hafter hex' hopen' hapart (hold s hs)
        (hold t ht)
      rw [hgap, hgap] at hlow
      rw [hgap] at hhigh
      rw [hmoves, hmove, List.singleton_append, soonUnits_cons t, soonUnits_cons s,
        soonUnits_acquire, soonUnits_acquire, zero_add, zero_add]
      exact ⟨(sub_le_sub_left hage _).trans hlow, hhigh⟩
    | true =>
      have hmove : w.moves exDate [e] =
          [.dispose e.date (w.rebased (w.windowEnd exDate) e)] := by
        simp [moves, hsell]
      generalize w.rebased (w.windowEnd exDate) e = q at hqty hmove
      have hold : ∀ stack : List (NaiveDate × ℚ), (∀ lot ∈ stack, lot.1 ≤ since) →
          ∀ lot ∈ (draw stack q).left, lot.1 ≤ e.date := by
        intro stack hstack lot hlot
        obtain ⟨lot', hlot', htag⟩ := draw_tags (.inr hlot)
        exact htag ▸ (hstack lot' hlot').trans hdate
      obtain ⟨hlow, hhigh⟩ := ih hrest hpos' hwindow' hafter hex' hopen'
        (h.dispose newer_anti hqty) (hold s hs) (hold t ht)
      have hgap : ∀ n, gap newer (draw s q).left (draw t q).left n =
          gap newer s t n - min (LifoStack.unitsWhere (newer n) s) q +
            min (LifoStack.unitsWhere (newer n) t) q := by
        intro n
        rw [gap, gap, unitsWhere_left h.first.nonneg (h.first.above n) hqty,
          unitsWhere_left h.second.nonneg (h.second.above n) hqty]
        ring
      rw [hgap, hgap] at hlow
      rw [hgap] at hhigh
      rw [hmoves, hmove, List.singleton_append, soonUnits_cons t, soonUnits_cons s,
        soonUnits_dispose h.first hex' hopen' hqty,
        soonUnits_dispose h.second hex' hopen' hqty]
      -- the second run takes no more of a level than the first
      have htake : min (LifoStack.unitsWhere (newer (w.soonFrom e.date)) t) q ≤
          min (LifoStack.unitsWhere (newer (w.soonFrom e.date)) s) q :=
        min_le_min_right q (sub_nonneg.mp (h.nonneg _))
      have hstep : ∀ stack : List (NaiveDate × ℚ),
          step stack (.dispose e.date q) = (draw stack q).left := fun _ => rfl
      rw [hstep, hstep]
      constructor
      · linarith
      · linarith

/-- The stack the trades leave has the newest lots on top. -/
theorem layered_stackAfter {es : List Event} (hsorted : es.Pairwise fun a b => a.date ≤ b.date)
    (hpos : ∀ e ∈ es, 0 ≤ e.qty) {s : List (NaiveDate × ℚ)} (hs : Layered newer s)
    (hold : ∀ e ∈ es, ∀ lot ∈ s, lot.1 ≤ e.date) :
    Layered newer (stackAfter s (w.moves exDate es)) := by
  induction es generalizing s with
  | nil => exact hs
  | cons e es ih =>
    obtain ⟨hafter, hrest⟩ := List.pairwise_cons.mp hsorted
    have hqty := rebased_nonneg w (w.windowEnd exDate) (hpos e List.mem_cons_self)
    have hpos' : ∀ e ∈ es, 0 ≤ e.qty := fun e he => hpos e (List.mem_cons_of_mem _ he)
    have hhead := hold e List.mem_cons_self
    cases hsell : e.sell with
    | false =>
      have hmoves : w.moves exDate (e :: es) =
          .acquire e.date (w.rebased (w.windowEnd exDate) e) :: w.moves exDate es := by
        simp [moves, hsell]
      rw [hmoves]
      apply ih hrest hpos'
      · exact hs.acquire hqty fun n lot hlot => newer_mono (hhead lot hlot)
      · intro e' he' lot hlot
        rcases List.mem_cons.mp hlot with rfl | hlot
        · exact hafter e' he'
        · exact (hhead lot hlot).trans (hafter e' he')
    | true =>
      have hmoves : w.moves exDate (e :: es) =
          .dispose e.date (w.rebased (w.windowEnd exDate) e) :: w.moves exDate es := by
        simp [moves, hsell]
      rw [hmoves]
      apply ih hrest hpos' (hs.left hqty)
      intro e' he' lot hlot
      obtain ⟨lot', hlot', htag⟩ := draw_tags (.inr hlot)
      exact htag ▸ (hhead lot' hlot').trans (hafter e' he')

theorem soonUnits_append (stack : List (NaiveDate × ℚ)) (ms ms' : List (Move NaiveDate ℚ)) :
    w.soonUnits exDate stack (ms ++ ms') =
      w.soonUnits exDate stack ms + w.soonUnits exDate (stackAfter stack ms) ms' := by
  rw [soonUnits, identify_append, List.filter_append, List.map_append, List.sum_append]
  rfl

section Sale
variable {date : NaiveDate} {units : ℚ}

theorem windowEvents_late (h : w.windowEnd exDate < date) :
    w.windowEvents exDate (some (date, units)) = w.windowEvents exDate none := by
  have hnot : ¬ date ≤ w.windowEnd exDate := h.not_ge
  simp [windowEvents, Option.filter, hnot]

/-- A sale after the window is not walked. -/
theorem testWithSale_late (h : w.windowEnd exDate < date) :
    w.testWithSale exDate (some (date, units)) = w.test exDate := by
  rw [test, testWithSale_eq, testWithSale_eq, windowEvents_late h]

/-- A sale from the ex-date on leaves what was held before it. -/
theorem entitledUnits_withSale (hex : exDate ≤ date) :
    (w.testWithSale exDate (some (date, units))).entitledUnits =
      (w.test exDate).entitledUnits := by
  have hafter : ¬ date < exDate := hex.not_gt
  have hbefore : beforeEx exDate (w.history (some (date, units))) =
      beforeEx exDate (w.history none) := by
    rw [beforeEx, history, filter_insertSale w.sorted, if_neg]
    · rfl
    · simpa using hex
  rw [test, testWithSale_eq, testWithSale_eq, beforeEx_windowEvents, beforeEx_windowEvents, hbefore]

/-- What the sale adds to the units disposed of too soon. -/
theorem disqualified_added (hex : exDate ≤ date) (hunits : 0 ≤ units)
    (hwindow : date ≤ w.windowEnd exDate) :
    (w.test exDate).disqualifiedUnits ≤
        (w.testWithSale exDate (some (date, units))).disqualifiedUnits ∧
      (w.testWithSale exDate (some (date, units))).disqualifiedUnits ≤
        (w.test exDate).disqualifiedUnits + w.rebased (w.windowEnd exDate) ⟨true, date, units⟩ := by
  have hbase : w.windowEvents exDate none =
      w.events.filter fun e => decide (e.date ≤ w.windowEnd exDate) := windowEvents_eq w exDate none
  have hsale : w.windowEvents exDate (some (date, units)) =
      insertSale (date, units) (w.windowEvents exDate none) := by
    simp [windowEvents, Option.filter, hwindow]
  have hsorted : (w.windowEvents exDate none).Pairwise fun a b => a.date ≤ b.date := by
    rw [hbase]
    exact w.sorted.filter _
  have hpos : ∀ e ∈ w.windowEvents exDate none, 0 ≤ e.qty := by
    rw [hbase]
    exact fun e he => w.nonneg e (List.mem_filter.mp he).1
  have hin : ∀ e ∈ w.windowEvents exDate none, e.date ≤ w.windowEnd exDate := by
    rw [hbase]
    exact fun e he => of_decide_eq_true (List.mem_filter.mp he).2
  have hsplit := filter_date_append hsorted date
  rw [test, testWithSale_eq, testWithSale_eq, hsale, insertSale_eq hsorted]
  generalize hall : w.windowEvents exDate none = all at hsorted hpos hin hsplit
  generalize hbefore : all.filter (fun e => decide (e.date ≤ date)) = before at hsplit
  generalize hlater : all.filter (fun e => !decide (e.date ≤ date)) = later at hsplit
  have hearly : ∀ e ∈ before, e.date ≤ date := by
    rw [← hbefore]
    exact fun e he => of_decide_eq_true (List.mem_filter.mp he).2
  have hlate : ∀ e ∈ later, date ≤ e.date := by
    rw [← hlater]
    intro e he
    have hout := (List.mem_filter.mp he).2
    simp only [Bool.not_eq_true', decide_eq_false_iff_not, not_le] at hout
    exact hout.le
  subst hsplit
  obtain ⟨hsortedBefore, hsortedLater, -⟩ := List.pairwise_append.mp hsorted
  have hbefore0 : ∀ e ∈ before, 0 ≤ e.qty := fun e he => hpos e (List.mem_append_left _ he)
  have hlater0 : ∀ e ∈ later, 0 ≤ e.qty := fun e he => hpos e (List.mem_append_right _ he)
  have hinLater : ∀ e ∈ later, e.date ≤ w.windowEnd exDate :=
    fun e he => hin e (List.mem_append_right _ he)
  -- the stack the sale finds, and what it leaves of it
  have hlayered : Layered newer (stackAfter [] (w.moves exDate before)) :=
    layered_stackAfter hsortedBefore hbefore0 ⟨nil_nonneg, fun _ => List.Pairwise.nil⟩
      fun _ _ _ hlot => absurd hlot List.not_mem_nil
  have hold : ∀ lot ∈ stackAfter [] (w.moves exDate before), lot.1 ≤ date := by
    intro lot hlot
    rcases stackAfter_tags hlot with ⟨_, hnil, _⟩ | ⟨u, hu⟩
    · exact absurd hnil List.not_mem_nil
    · obtain ⟨e, he, hdate⟩ := acquire_mem_moves hu
      exact hdate ▸ hearly e he
  have hq : 0 ≤ w.rebased (w.windowEnd exDate) ⟨true, date, units⟩ := rebased_nonneg w _ hunits
  have hmove : w.moves exDate (⟨true, date, units⟩ :: later) =
      .dispose date (w.rebased (w.windowEnd exDate) ⟨true, date, units⟩) :: w.moves exDate later := rfl
  have hwith : ∀ events, (((identify [] (w.moves exDate events)).filter
      (w.tooSoon exDate)).map Disposal.units).sum = w.soonUnits exDate [] (w.moves exDate events) :=
    fun _ => rfl
  rw [hwith, hwith, moves_append, moves_append, hmove, soonUnits_append, soonUnits_append]
  generalize w.rebased (w.windowEnd exDate) ⟨true, date, units⟩ = q at hq
  generalize stackAfter [] (w.moves exDate before) = stack at hlayered hold
  have hleft : ∀ lot ∈ (draw stack q).left, lot.1 ≤ date := by
    intro lot hlot
    obtain ⟨lot', hlot', htag⟩ := draw_tags (.inr hlot)
    exact htag ▸ hold lot' hlot'
  have hgap : ∀ n, gap newer stack (draw stack q).left n =
      min (LifoStack.unitsWhere (newer n) stack) q := by
    intro n
    rw [gap, unitsWhere_left hlayered.nonneg (hlayered.above n) hq, sub_sub_cancel]
  have hapart := apart_left hlayered newer_anti hq
  obtain ⟨hlow, hhigh⟩ := soonUnits_apart hsortedLater hlater0 hinLater hlate hex hwindow hapart
    hold hleft
  have hfull := hapart.le (w.soonFrom date)
  have hstep : step stack (.dispose date q) = (draw stack q).left := rfl
  rw [soonUnits_cons, hstep, soonUnits_dispose hlayered hex hwindow hq]
  rw [hgap] at hfull hlow hhigh
  rw [hgap] at hlow
  constructor
  · linarith
  · linarith

end Sale

/-! ### The denial -/

theorem denied_eq (t : HoldingPeriodTest) (credits : ℚ) :
    t.denied credits = credits * t.disqualifiedUnits / t.entitledUnits := by
  rw [HoldingPeriodTest.denied]
  split
  · rename_i h
    rcases h with h | h
    · rw [h, div_zero]
    · rw [h, mul_zero, zero_div]
  · rfl

theorem mem_frankingWhatIf {dividends : List FrankedDividend} {sale : NaiveDate × ℚ}
    {a : FrankingWhatIfAlert} :
    a ∈ w.frankingWhatIf dividends sale ↔ ∃ d ∈ dividends, w.whatIf sale d = some a := by
  rw [frankingWhatIf, StableSort.mem_sortBy, List.mem_filterMap]

theorem whatIf_some {sale : NaiveDate × ℚ} {d : FrankedDividend} {a : FrankingWhatIfAlert}
    (h : w.whatIf sale d = some a) : 0 < w.additional d sale ∧ a.incomeId = d.incomeId ∧
      a.additionalCreditsAtRisk = w.additional d sale := by
  rw [whatIf] at h
  split at h
  · cases h
  · rename_i hnot
    cases h
    exact ⟨not_le.mp hnot, rfl, rfl⟩

/-- The sale denies more exactly where it disqualifies more. -/
theorem additional_sign {date : NaiveDate} {units : ℚ} (d : FrankedDividend)
    (hex : d.exDate ≤ date) (hunits : 0 ≤ units)
    (hgrows : (w.test d.exDate).disqualifiedUnits ≤
      (w.testWithSale d.exDate (some (date, units))).disqualifiedUnits) :
    0 ≤ w.additional d (date, units) ∧
      (0 < w.additional d (date, units) ↔ (w.test d.exDate).disqualifiedUnits <
        (w.testWithSale d.exDate (some (date, units))).disqualifiedUnits) := by
  have hsale : ∀ s ∈ some (date, units), 0 ≤ s.2 := by
    rintro s ⟨⟩
    exact hunits
  have hle := disqualifiedUnits_le w d.exDate hsale
  have hnonneg : 0 ≤ (w.test d.exDate).disqualifiedUnits :=
    disqualifiedUnits_nonneg w d.exDate fun _ h => by cases h
  have hentitled : (w.testWithSale d.exDate (some (date, units))).entitledUnits =
      (w.test d.exDate).entitledUnits := entitledUnits_withSale hex
  have hadditional : w.additional d (date, units) = d.creditsAud *
      ((w.testWithSale d.exDate (some (date, units))).disqualifiedUnits -
        (w.test d.exDate).disqualifiedUnits) / (w.test d.exDate).entitledUnits := by
    rw [additional, denied_eq, denied_eq, hentitled, ← sub_div, mul_sub]
  rw [hentitled] at hle
  rw [hadditional]
  have hsub := sub_nonneg.mpr hgrows
  constructor
  · exact div_nonneg (mul_nonneg d.credits_pos.le hsub) (hnonneg.trans (hgrows.trans hle))
  · constructor
    · intro hpos
      by_contra hnot
      rw [le_antisymm (not_lt.mp hnot) hgrows, sub_self, mul_zero, zero_div] at hpos
      exact lt_irrefl _ hpos
    · intro hmore
      have hheld := hnonneg.trans_lt (hmore.trans_le hle)
      exact div_pos (mul_pos d.credits_pos (sub_pos.mpr hmore)) hheld

/-- The contemplated sale adds to what the walk disqualifies, by no more than it
sells, and each dividend it costs credits is reported. -/
structure OnlyAdds (w : ListingWalk) (exDate : NaiveDate) (sale : NaiveDate × ℚ) : Prop where
  entitled : (w.testWithSale exDate (some sale)).entitledUnits = (w.test exDate).entitledUnits
  grows : (w.test exDate).disqualifiedUnits ≤ (w.testWithSale exDate (some sale)).disqualifiedUnits
  bounded : (w.testWithSale exDate (some sale)).disqualifiedUnits ≤
    (w.test exDate).disqualifiedUnits + w.rebased (w.windowEnd exDate) ⟨true, sale.1, sale.2⟩
  late : w.windowEnd exDate < sale.1 → w.testWithSale exDate (some sale) = w.test exDate
  denies : ∀ d : FrankedDividend, d.exDate = exDate → 0 ≤ w.additional d sale
  reported : ∀ dividends, ∀ d ∈ dividends, d.exDate = exDate →
    (w.test exDate).disqualifiedUnits < (w.testWithSale exDate (some sale)).disqualifiedUnits →
    ∃ a ∈ w.frankingWhatIf dividends sale, a.incomeId = d.incomeId ∧
      a.additionalCreditsAtRisk = w.additional d sale
  silent : ∀ d : FrankedDividend, d.exDate = exDate →
    (w.testWithSale exDate (some sale)).disqualifiedUnits = (w.test exDate).disqualifiedUnits →
    w.whatIf sale d = none

/-- A sale from the ex-date on only adds, and by no more than its own units in
the basis at the end of the window, where both figures are stated. -/
theorem whatIf_onlyAdds (w : ListingWalk) (exDate date : NaiveDate) (units : ℚ)
    (hex : exDate ≤ date) (hunits : 0 < units) : w.OnlyAdds exDate (date, units) := by
  have hq : 0 ≤ w.rebased (w.windowEnd exDate) ⟨true, date, units⟩ := rebased_nonneg w _ hunits.le
  have hadded : (w.test exDate).disqualifiedUnits ≤
        (w.testWithSale exDate (some (date, units))).disqualifiedUnits ∧
      (w.testWithSale exDate (some (date, units))).disqualifiedUnits ≤
        (w.test exDate).disqualifiedUnits + w.rebased (w.windowEnd exDate) ⟨true, date, units⟩ := by
    by_cases hwindow : date ≤ w.windowEnd exDate
    · exact disqualified_added hex hunits.le hwindow
    · rw [testWithSale_late (not_le.mp hwindow)]
      exact ⟨le_rfl, le_add_of_nonneg_right hq⟩
  obtain ⟨hgrows, hbounded⟩ := hadded
  refine ⟨entitledUnits_withSale hex, hgrows, hbounded, testWithSale_late, ?_, ?_, ?_⟩
  · rintro d rfl
    exact (additional_sign d hex hunits.le hgrows).1
  · rintro dividends d hd rfl hmore
    have hpos := (additional_sign d hex hunits.le hgrows).2.mpr hmore
    cases halert : w.whatIf (date, units) d with
    | none =>
      rw [whatIf, if_neg hpos.not_ge] at halert
      cases halert
    | some a =>
      obtain ⟨-, hid, hcredits⟩ := whatIf_some halert
      exact ⟨a, mem_frankingWhatIf.mpr ⟨d, hd, halert⟩, hid, hcredits⟩
  · rintro d rfl hsame
    rw [whatIf, if_pos]
    by_contra hnot
    have hmore := (additional_sign d hex hunits.le hgrows).2.mp (not_le.mp hnot)
    exact hmore.ne' hsame

theorem whatIf_onlyAdds_soldEarly :
    soldEarly.OnlyAdds (ymd 2026 1 20) (ymd 2026 2 9, 40) :=
  whatIf_onlyAdds soldEarly (ymd 2026 1 20) (ymd 2026 2 9) 40 (by decide) (by decide)

/-- A hundred units, doubled by a split while the window is open. -/
theorem doubled_pos : (0 : ℚ) < 2 := by norm_num

theorem single_pos : (0 : ℚ) < 1 := by norm_num

theorem doubled_sorted : [(⟨false, ymd 2026 1 5, 100⟩ : Event)].Pairwise fun a b => a.date ≤ b.date :=
  List.pairwise_singleton _ _

theorem doubled_nonneg : ∀ e ∈ [(⟨false, ymd 2026 1 5, 100⟩ : Event)], 0 ≤ e.qty := by decide

def doubledInWindow : ListingWalk where
  preference := false
  events := [⟨false, ymd 2026 1 5, 100⟩]
  splits := [.shareSplit (ymd 2026 2 16) 2 1 doubled_pos single_pos]
  sorted := doubled_sorted
  nonneg := doubled_nonneg

/-- Forty units sold before the split are eighty of the disqualified units. -/
theorem whatIf_counts_window_units : ¬ ∀ (w : ListingWalk) (exDate date : NaiveDate) (units : ℚ),
    exDate ≤ date → 0 < units →
    (w.testWithSale exDate (some (date, units))).entitledUnits = (w.test exDate).entitledUnits ∧
      (w.test exDate).disqualifiedUnits ≤
        (w.testWithSale exDate (some (date, units))).disqualifiedUnits ∧
      (w.testWithSale exDate (some (date, units))).disqualifiedUnits ≤
        (w.test exDate).disqualifiedUnits + units := by
  intro h
  obtain ⟨-, -, hbounded⟩ := h doubledInWindow (ymd 2026 1 20) (ymd 2026 2 9) 40 (by decide) (by decide)
  have hnot : ¬ (doubledInWindow.testWithSale (ymd 2026 1 20) (some (ymd 2026 2 9, 40))).disqualifiedUnits ≤
      (doubledInWindow.test (ymd 2026 1 20)).disqualifiedUnits + 40 := by
    decide +kernel
  exact hnot hbounded

end ListingWalk

end ShareTracker.Franking
