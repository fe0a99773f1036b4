import ShareTracker.SnapshotRows

/-!
Snapshots kept beside the facts they were read from: a write marks the snapshots
it may have moved stale, and one not marked is what a run would store again.
-/
namespace ShareTracker.Snapshots
open Performance ClosingPrices HealthPrices MoneyWeighted
open ShareTracker.Valuation hiding Records

/-! ### The triggers -/

/-- The dates of the rows a write to the ledger states, replaces or removes. -/
def writtenDates (b : Performance.Book) : Performance.Book.Write → List NaiveDate
  | .putTrade row _ => row.1.date :: ((b.trade? row.1.id).map TradeRow.date).toList
  | .deleteTrade id => ((b.trade? id).map TradeRow.date).toList
  | .putIncome row => row.datePaid :: (b.income.filter fun i => i.id = row.id).map Drp.Income.datePaid
  | .deleteIncome id => (b.income.filter fun i => i.id = id).map Drp.Income.datePaid
  | .putSplits _ => []
  | .transfer body => [body.date]
  | .exchange terms | .demerge terms => [terms.date]
  | .undo group => (b.rollovers.filter fun r => r.group = group).map Rollover.date

/-- Whether an ok close dated by then was moved or removed. -/
def okMoved (s s' : ClosingPrices.Book) (date : NaiveDate) : Bool :=
  s.prices.any fun row =>
    decide (row.priceDate ≤ date) && (okPrice row).isSome &&
      decide ((Keyed.get? ClosingPrice.day s'.prices row.day).bind okPrice ≠ okPrice row)

/-- The prices a write passes through before those it leaves. -/
def passedThrough (s : ClosingPrices.Book) : ClosingPrices.Write → List ClosingPrices.Book
  | .fetch listing observed outcomes =>
    if outcomes = [] then []
    else (outcomes.map (Book.fetchedRow listing observed (s.priceBasisEvents listing))).scanl
      Book.store s
  | .writeAction row =>
    let previous := (Keyed.get? CorporateActions.Action.id s.actions row.id).toList.map
      CorporateActions.Action.listing
    (row.listing :: previous.filter fun l => l ≠ row.listing).scanl Book.rebaseListingPrices
      (s.putAction row)
  | .runRebase =>
    ((s.actions.filter Book.rebasesPrices).map CorporateActions.Action.listing).dedup.scanl
      Book.rebaseListingPrices s
  | .putManual .. | .deleteOne .. | .clearUnpricedBefore _ | .setUnpricedBefore .. | .deleteAction _ => []

/-- Whether a step of a chain of books moves a close. -/
def chainMoves (date : NaiveDate) : ClosingPrices.Book → List ClosingPrices.Book → Bool
  | _, [] => false
  | s, s' :: rest => okMoved s s' date || chainMoves date s' rest

/-- What a write to the actions, or to a listing's marker, marks stale beside
the closes it moves. -/
def recordStales (s : ClosingPrices.Book) (date : NaiveDate) : ClosingPrices.Write → Bool
  | .writeAction row =>
    decide (row.date ≤ date) ||
      (s.actions.filter fun a => a.id = row.id).any fun a => decide (a.date ≤ date)
  | .deleteAction id => (s.actions.filter fun a => a.id = id).any fun a => decide (a.date ≤ date)
  | .setUnpricedBefore listing marker =>
    decide (s.unpricedBefore listing ≠ marker) &&
      ((s.unpricedBefore listing).toList ++ marker.toList).any fun d => decide (date < d)
  | _ => false

def pricesStale (s : ClosingPrices.Book) (w : ClosingPrices.Write) (s' : ClosingPrices.Book)
    (date : NaiveDate) : Bool :=
  recordStales s date w || chainMoves date s (passedThrough s w ++ [s'])

/-- Whether a date is in a month, or after it. -/
def begunBy (month : RateMonth) (date : NaiveDate) : Bool :=
  decide (toLex (month.year, month.month) ≤ toLex (date.year, date.month))

def rateStales (fx : FxRates) (currency : CurrencyCode) (month : RateMonth) (rate : ℚ)
    (date : NaiveDate) : Bool :=
  (fx.rates (currency, month)).any fun stored => decide (stored ≠ rate) && begunBy month date

/-! ### The snapshots and the writes -/

structure StoredSnapshot where
  date : NaiveDate
  /-- The instant the run read the clock at. -/
  ranAt : Instant
  stale : Bool
  rows : SnapshotRows

structure Archive where
  facts : Facts
  snapshots : List StoredSnapshot

inductive Event where
  | ledger (write : Performance.Book.Write)
  | prices (write : ClosingPrices.Write)
  | importRate (currency : CurrencyCode) (month : RateMonth) (rate : ℚ)
  | generate (now : Instant) (date : NaiveDate)

inductive Refused where
  | ledger (refusal : Performance.Refusal)
  | unknownListing
  | prices (refusal : ClosingPrices.Refusal)
  | rateNotPositive
  | generate (error : GenerateError)

/-- `UPDATE report_snapshots SET stale = 1`. -/
def markStale (covers : NaiveDate → Bool) (snapshots : List StoredSnapshot) : List StoredSnapshot :=
  snapshots.map fun s => if covers s.date then { s with stale := true } else s

def importRate (fx : FxRates) (currency : CurrencyCode) (month : RateMonth) (rate : ℚ) : FxRates :=
  ⟨fun k => if k = (currency, month) then some rate else fx.rates k⟩

theorem importRate_pos {fx : FxRates} (hfx : ∀ k, ∀ rate ∈ fx.rates k, 0 < rate)
    {currency : CurrencyCode} {month : RateMonth} {rate : ℚ} (hrate : 0 < rate) :
    ∀ k, ∀ r ∈ (importRate fx currency month rate).rates k, 0 < r := by
  intro k r hr
  unfold importRate at hr
  dsimp only at hr
  split at hr
  · obtain rfl := Option.some.inj hr
    exact hrate
  · exact hfx k r hr

section Step
variable (A : RateArithmetic) (clocks : Clocks)

def store (snapshots : List StoredSnapshot) (s : StoredSnapshot) : List StoredSnapshot :=
  Keyed.put StoredSnapshot.date snapshots s

def step (a : Archive) : Event → Except Refused Archive
  | .ledger w => do
      let ledger ← (a.facts.book.step w).mapError .ledger
      let listed ← Checked.ensure (∀ t ∈ ledger.trades, ∃ m ∈ a.facts.markets, m.listing = t.listing)
        .unknownListing
      return ⟨{ a.facts with ledger, listed := listed.down },
        markStale (fun date => (writtenDates a.facts.book w).any fun d => decide (d ≤ date)) a.snapshots⟩
  | .prices w => do
      let prices ← (a.facts.prices.step w).mapError .prices
      return ⟨{ a.facts with prices }, markStale (pricesStale a.facts.prices w prices) a.snapshots⟩
  | .importRate currency month rate => do
      let positive ← Checked.ensure (0 < rate) .rateNotPositive
      return ⟨{ a.facts with
          fx := importRate a.facts.fx currency month rate
          rates_pos := importRate_pos a.facts.rates_pos positive.down },
        markStale (rateStales a.facts.fx currency month rate) a.snapshots⟩
  | .generate now date => do
      let rows ← (generate A clocks now a.facts date).mapError .generate
      return { a with snapshots := store a.snapshots ⟨date, now, false, rows⟩ }

end Step

/-! ### What the triggers leave out -/

/-- Whether a close now stands, where none did, for a listing whose price the
snapshot carried forward. -/
def addsBehind (p p' : ClosingPrices.Book) (s : StoredSnapshot) : Bool :=
  p'.prices.any fun row =>
    s.rows.carries row.listing && decide (row.priceDate ≤ s.date) && (okPrice row).isSome &&
      !((Keyed.get? ClosingPrice.day p.prices row.day).bind okPrice).isSome

/-- Whether a listing's series is begun, or not, on trading days and apart from
the closes the snapshot carried forward. -/
def marksApart (f : Facts) (s : StoredSnapshot) : ClosingPrices.Write → Bool
  | .setUnpricedBefore listing marker =>
    let moved := (f.prices.unpricedBefore listing).toList ++ marker.toList
    decide (f.prices.unpricedBefore listing = marker) ||
      (f.markets.filter fun m => m.listing = listing).all (fun m => moved.all m.isTradingDay) &&
        !s.rows.carries listing
  | _ => true

/-- Whether no trade by then converts at its own rate in the month, or in one
that begins after it. -/
def convertsApart (f : Facts) (date : NaiveDate) (currency : CurrencyCode) (month : RateMonth)
    (rate : ℚ) : Bool :=
  (f.ledger.trades.filter fun t => t.date ≤ date).all fun t =>
    decide (t.currency ≠ currency) || t.spotFxRate.isSome ||
      (decide (RateMonth.of t.date ≠ month) && decide (RateMonth.of t.acquired ≠ month)) ||
        (f.fx.rates (currency, month)).any fun stored => decide (stored = rate) || begunBy month date

/-- Whether a write moves a snapshot only where the triggers mark it. -/
def spares (f : Facts) (s : StoredSnapshot) : Event → Bool
  | .ledger _ | .generate .. => true
  | .prices w =>
    marksApart f s w && Checked.accepts (f.prices.step w) fun prices => !addsBehind f.prices prices s
  | .importRate currency month rate => convertsApart f s.date currency month rate

def heeds (a : Archive) (e : Event) : Bool :=
  a.snapshots.all fun s => s.stale || s.rows.provisional || spares a.facts s e

/-! ### The ledger's writes -/

section LedgerWrites
open Performance.Book
variable {b b' : Performance.Book} {date : NaiveDate}

/-- The dated rows are the same. -/
structure SameRows (date : NaiveDate) (b b' : Performance.Book) : Prop where
  trades : b.trades.filter (fun t => t.date ≤ date) = b'.trades.filter fun t => t.date ≤ date
  income : b.income.filter (fun i => i.datePaid ≤ date) =
    b'.income.filter fun i => i.datePaid ≤ date
  allocations : b.allocations.filter (fun a => a.saleDate ≤ date) =
    b'.allocations.filter fun a => a.saleDate ≤ date

/-- A row put in place of others, all of them left out, is left out with them. -/
theorem put_filter {α κ : Type} [DecidableEq κ] {key : α → κ} {rows : List α} {row : α}
    {keep : α → Bool} (hrow : keep row = false)
    (hold : ∀ old ∈ rows, key old = key row → keep old = false) :
    (Keyed.put key rows row).filter keep = rows.filter keep := by
  unfold Keyed.put
  rw [List.filter_append, List.filter_filter, List.filter_cons_of_neg (by simp [hrow]),
    List.filter_nil, List.append_nil]
  refine List.filter_congr fun old hmem => ?_
  by_cases hkey : key old = key row
  · simp [hold old hmem hkey]
  · simp [hkey]

/-- A draw as the allocation of its date, where its sale is dated by then. -/
def drawn (b : Performance.Book) (date : NaiveDate) (d : Draw) : Option Valuation.Allocation :=
  ((b.trade? d.sale).filter fun t => decide (t.date ≤ date)).map fun t =>
    ⟨d.purchase, d.quantity, t.date⟩

theorem trade?_dated (hs : b.Sound) (hs' : b'.Sound)
    (h : b.trades.filter (fun t => t.date ≤ date) = b'.trades.filter fun t => t.date ≤ date)
    (id : TradeId) : (b.trade? id).filter (fun t => decide (t.date ≤ date)) =
      (b'.trade? id).filter fun t => decide (t.date ≤ date) := by
  have hmem : ∀ t, (t ∈ b.trades ∧ t.date ≤ date) ↔ t ∈ b'.trades ∧ t.date ≤ date := by
    intro t
    have hiff : t ∈ b.trades.filter (fun t => t.date ≤ date) ↔
        t ∈ b'.trades.filter fun t => t.date ≤ date := by rw [h]
    simpa only [List.mem_filter, decide_eq_true_eq] using hiff
  refine Option.ext fun t => ?_
  rw [Option.filter_eq_some_iff, Option.filter_eq_some_iff, trade?_eq_some hs, trade?_eq_some hs',
    decide_eq_true_eq, and_right_comm, hmem t, and_right_comm]

theorem allocations_dated (b : Performance.Book) (date : NaiveDate) :
    b.allocations.filter (fun a => a.saleDate ≤ date) = b.draws.filterMap (drawn b date) ++
      (b.rollovers.filter fun r => r.date ≤ date).flatMap fun r =>
        r.moved.map fun m => ⟨m.parcel, m.units, r.date⟩ := by
  unfold allocations
  rw [List.filter_append, List.filter_filterMap]
  congr 1
  · refine List.filterMap_congr fun d _ => ?_
    unfold drawn
    cases b.trade? d.sale with
    | none => rfl
    | some t =>
      rw [Option.map_some, Option.filter_some, Option.filter_some]
      by_cases ht : t.date ≤ date
      · simp [ht]
      · simp [ht]
  · induction b.rollovers with
    | nil => rfl
    | cons r rollovers ih =>
      rw [List.flatMap_cons, List.filter_append, ih, List.filter_cons]
      by_cases hr : r.date ≤ date
      · have hall : (r.moved.map fun m => (⟨m.parcel, m.units, r.date⟩ : Valuation.Allocation)).filter
            (fun a => a.saleDate ≤ date) = r.moved.map fun m => ⟨m.parcel, m.units, r.date⟩ :=
          List.filter_eq_self.mpr fun a ha => by
            obtain ⟨m, -, rfl⟩ := List.mem_map.mp ha
            exact decide_eq_true hr
        rw [hall, if_pos (decide_eq_true hr), List.flatMap_cons]
      · have hnone : (r.moved.map fun m => (⟨m.parcel, m.units, r.date⟩ : Valuation.Allocation)).filter
            (fun a => a.saleDate ≤ date) = [] :=
          List.filter_eq_nil_iff.mpr fun a ha => by
            obtain ⟨m, -, rfl⟩ := List.mem_map.mp ha
            simpa using hr
        rw [hnone, if_neg (by simpa using hr), List.nil_append]

/-- Draws of the same dated trades, beside rollovers of which the dated are the
same, allocate the same up to the date. -/
theorem SameRows.of_draws (hs : b.Sound) (hs' : b'.Sound)
    (htrades : b.trades.filter (fun t => t.date ≤ date) = b'.trades.filter fun t => t.date ≤ date)
    (hincome : b.income.filter (fun i => i.datePaid ≤ date) =
      b'.income.filter fun i => i.datePaid ≤ date)
    (hrollovers : b.rollovers.filter (fun r => r.date ≤ date) =
      b'.rollovers.filter fun r => r.date ≤ date)
    (hdraws : b.draws.filterMap (drawn b date) = b'.draws.filterMap (drawn b date)) :
    SameRows date b b' := by
  refine ⟨htrades, hincome, ?_⟩
  have hdrawn : drawn b date = drawn b' date := funext fun d => by
    unfold drawn
    rw [trade?_dated hs hs' htrades]
  rw [allocations_dated, allocations_dated, hrollovers, hdraws, hdrawn]

theorem drawn_after {id : TradeId}
    (h : ∀ t ∈ b.trade? id, date < t.date) {d : Draw} (hd : d.sale = id) : drawn b date d = none := by
  unfold drawn
  rw [hd]
  cases ht : b.trade? id with
  | none => rfl
  | some t =>
    have hout : decide (t.date ≤ date) = false := decide_eq_false (not_le.mpr (h t ht))
    rw [Option.filter_some, if_neg (by simp [hout])]
    rfl

/-- Dropping a sale's draws drops none of the dated. -/
theorem draws_dated {id : TradeId} (h : ∀ t ∈ b.trade? id, date < t.date) :
    (b.draws.filter fun d => d.sale ≠ id).filterMap (drawn b date) =
      b.draws.filterMap (drawn b date) := by
  induction b.draws with
  | nil => rfl
  | cons d draws ih =>
    rw [List.filter_cons]
    by_cases hd : d.sale = id
    · rw [if_neg (by simpa using hd), ih, List.filterMap_cons, drawn_after h hd]
    · rw [if_pos (decide_eq_true hd), List.filterMap_cons, List.filterMap_cons, ih]

theorem putTrade_rows (hs : b.Sound) {row : Recorded} {draws : List (TradeId × ℚ)}
    (hok : b.putTrade row draws = .ok b')
    (hdate : ∀ d ∈ writtenDates b (.putTrade row draws), date < d) : SameRows date b b' := by
  have hs' := putTrade_sound hs hok
  have hnew : date < row.1.date := hdate _ List.mem_cons_self
  have hold : ∀ t ∈ b.trade? row.1.id, date < t.date := fun t ht =>
    hdate _ (List.mem_cons_of_mem _ (by rw [Option.mem_def.mp ht]; exact List.mem_singleton.mpr rfl))
  unfold putTrade at hok
  obtain ⟨_, -, hok⟩ := Checked.bind_ok hok
  obtain ⟨_, -, hok⟩ := Checked.bind_ok hok
  obtain ⟨_, -, hok⟩ := Checked.bind_ok hok
  obtain ⟨_, -, hok⟩ := Checked.bind_ok hok
  obtain ⟨_, -, hok⟩ := Checked.bind_ok hok
  obtain ⟨_, -, hok⟩ := Checked.bind_ok hok
  obtain rfl := Except.ok.inj hok
  refine SameRows.of_draws hs hs' ?_ rfl rfl ?_
  · have hput : (Keyed.put (fun t : Recorded => t.1.id) b.recorded row).filter
        (fun t => decide (t.1.date ≤ date)) = b.recorded.filter fun t => decide (t.1.date ≤ date) :=
      put_filter (decide_eq_false (not_le.mpr hnew)) fun old hmem hid =>
        decide_eq_false (not_le.mpr (hold old.1
          ((trade?_eq_some hs).mpr ⟨mem_trades.mpr (Or.inl ⟨old, hmem, rfl⟩), hid⟩)))
    unfold trades
    rw [List.filter_append, List.filter_append, List.filter_map, List.filter_map]
    exact congrArg (fun l : List Recorded => l.map Subtype.val ++ _) hput.symm
  · have hadded : (draws.map fun d => (⟨row.1.id, d.1, d.2⟩ : Draw)).filterMap (drawn b date) = [] :=
      List.filterMap_eq_nil_iff.mpr fun d hd => by
        obtain ⟨_, -, rfl⟩ := List.mem_map.mp hd
        exact drawn_after hold rfl
    rw [List.filterMap_append, hadded, List.append_nil, draws_dated hold]

theorem deleteTrade_rows (hs : b.Sound) {id : TradeId} (hok : b.deleteTrade id = .ok b')
    (hdate : ∀ d ∈ writtenDates b (.deleteTrade id), date < d) : SameRows date b b' := by
  have hs' := deleteTrade_sound hs hok
  have hold : ∀ t ∈ b.trade? id, date < t.date := fun t ht =>
    hdate _ (by
      change t.date ∈ ((b.trade? id).map TradeRow.date).toList
      rw [Option.mem_def.mp ht]
      exact List.mem_singleton.mpr rfl)
  unfold deleteTrade at hok
  obtain ⟨_, -, hok⟩ := Checked.bind_ok hok
  obtain ⟨_, -, hok⟩ := Checked.bind_ok hok
  obtain ⟨_, -, hok⟩ := Checked.bind_ok hok
  obtain rfl := Except.ok.inj hok
  refine SameRows.of_draws hs hs' ?_ rfl rfl (draws_dated hold).symm
  unfold trades
  rw [List.filter_append, List.filter_append, List.filter_map, List.filter_map, List.filter_filter]
  refine congrArg (fun l : List Recorded => l.map Subtype.val ++ _) (List.filter_congr fun old hmem => ?_)
  by_cases hid : old.1.id = id
  · have hout : ¬ old.1.date ≤ date := not_le.mpr
      (hold old.1 ((trade?_eq_some hs).mpr ⟨mem_trades.mpr (Or.inl ⟨old, hmem, rfl⟩), hid⟩))
    simp [hout]
  · simp [hid]

theorem putIncome_rows {row : Drp.Income}
    (hdate : ∀ d ∈ writtenDates b (.putIncome row), date < d) : SameRows date b (b.putIncome row) := by
  refine ⟨rfl, ?_, rfl⟩
  have hput : (Keyed.put Drp.Income.id b.income row).filter (fun i => decide (i.datePaid ≤ date)) =
      b.income.filter fun i => decide (i.datePaid ≤ date) := by
    refine put_filter (decide_eq_false (not_le.mpr (hdate _ List.mem_cons_self))) fun old hmem hid =>
      decide_eq_false (not_le.mpr (hdate _ (List.mem_cons_of_mem _ ?_)))
    exact List.mem_map_of_mem (List.mem_filter.mpr ⟨hmem, decide_eq_true hid⟩)
  exact hput.symm

theorem deleteIncome_rows {id : ℤ} (hdate : ∀ d ∈ writtenDates b (.deleteIncome id), date < d) :
    SameRows date b (b.deleteIncome id) := by
  refine ⟨rfl, ?_, rfl⟩
  change _ = (b.income.filter fun i => i.id ≠ id).filter _
  rw [List.filter_filter]
  refine List.filter_congr fun old hmem => ?_
  by_cases hid : old.id = id
  · have hout : ¬ old.datePaid ≤ date := not_le.mpr
      (hdate _ (List.mem_map_of_mem (List.mem_filter.mpr ⟨hmem, decide_eq_true hid⟩)))
    simp [hout]
  · simp [hid]

/-- The rows of a rollover dated after it. -/
theorem rows_after {r : Rollover} (h : date < r.date) :
    r.rows.filter (fun t => decide (t.date ≤ date)) = [] :=
  List.filter_eq_nil_iff.mpr fun _ ht hle =>
    not_le.mpr h (Rollover.date_of_mem ht ▸ of_decide_eq_true hle)

theorem writeRollover_rows (hs : b.Sound) (hs' : b'.Sound) {r : Rollover}
    (hok : b.writeRollover r = .ok b') (hdate : date < r.date) : SameRows date b b' := by
  unfold writeRollover at hok
  obtain ⟨_, -, hok⟩ := Checked.bind_ok hok
  obtain ⟨_, -, hok⟩ := Checked.bind_ok hok
  obtain rfl := Except.ok.inj hok
  have hout : ¬ r.date ≤ date := not_le.mpr hdate
  refine SameRows.of_draws hs hs' ?_ rfl ?_ rfl
  · unfold trades
    rw [List.flatMap_append, List.flatMap_singleton, ← List.append_assoc,
      List.filter_append _ r.rows, rows_after hdate, List.append_nil]
  · rw [List.filter_append, List.filter_cons_of_neg (by simpa using hout), List.filter_nil,
      List.append_nil]

theorem rows_without {group : Group} {l : List Rollover}
    (h : ∀ r ∈ l, r.group = group → date < r.date) :
    (l.flatMap Rollover.rows).filter (fun t => decide (t.date ≤ date)) =
      ((l.filter fun r => r.group ≠ group).flatMap Rollover.rows).filter fun t => t.date ≤ date := by
  induction l with
  | nil => rfl
  | cons r l ih =>
    have ih := ih fun r' hr' => h r' (List.mem_cons_of_mem r hr')
    rw [List.flatMap_cons, List.filter_append, ih, List.filter_cons]
    by_cases hg : r.group = group
    · rw [if_neg (by simpa using hg), rows_after (h r List.mem_cons_self hg), List.nil_append]
    · rw [if_pos (decide_eq_true hg), List.flatMap_cons, List.filter_append]

theorem undo_rows (hs : b.Sound) {group : Group} (hok : b.undo group = .ok b')
    (hdate : ∀ d ∈ writtenDates b (.undo group), date < d) : SameRows date b b' := by
  have hs' := undo_sound hs hok
  unfold undo at hok
  obtain ⟨_, -, hok⟩ := Checked.bind_ok hok
  obtain ⟨_, -, hok⟩ := Checked.bind_ok hok
  obtain rfl := Except.ok.inj hok
  have hgone : ∀ r ∈ b.rollovers, r.group = group → date < r.date := fun r hr hg =>
    hdate _ (List.mem_map_of_mem (List.mem_filter.mpr ⟨hr, decide_eq_true hg⟩))
  refine SameRows.of_draws hs hs' ?_ rfl ?_ rfl
  · unfold trades
    rw [List.filter_append, List.filter_append, rows_without hgone]
  · rw [List.filter_filter]
    refine List.filter_congr fun r hr => ?_
    by_cases hg : r.group = group
    · simp [not_le.mpr (hgone r hr hg)]
    · simp [hg]

/-- A write moves no row dated before all those it states, replaces or removes. -/
theorem step_rows (hs : b.Sound) {w : Performance.Book.Write} (hok : b.step w = .ok b')
    (hdate : ∀ d ∈ writtenDates b w, date < d) : SameRows date b b' := by
  have hs' := step_sound hs hok
  cases w with
  | putTrade row draws => exact putTrade_rows hs hok hdate
  | deleteTrade id => exact deleteTrade_rows hs hok hdate
  | putIncome row =>
    obtain rfl := Except.ok.inj hok
    exact putIncome_rows hdate
  | deleteIncome id =>
    obtain rfl := Except.ok.inj hok
    exact deleteIncome_rows hdate
  | putSplits splits =>
    obtain rfl := Except.ok.inj hok
    exact ⟨rfl, rfl, rfl⟩
  | transfer body =>
    have hok : b.transfer body = .ok b' := hok
    unfold transfer at hok
    obtain ⟨_, -, hok⟩ := Checked.bind_ok hok
    obtain ⟨_, -, hok⟩ := Checked.bind_ok hok
    obtain ⟨moved, -, hok⟩ := Checked.bind_ok hok
    exact writeRollover_rows hs hs' hok (hdate _ List.mem_cons_self)
  | exchange terms =>
    have hok : b.substitute .scrip terms = .ok b' := hok
    unfold substitute at hok
    obtain ⟨_, -, hok⟩ := Checked.bind_ok hok
    obtain ⟨_, -, hok⟩ := Checked.bind_ok hok
    obtain ⟨_, -, hok⟩ := Checked.bind_ok hok
    exact writeRollover_rows hs hs' hok (hdate _ List.mem_cons_self)
  | demerge terms =>
    have hok : b.substitute .demerger _ = .ok b' := hok
    unfold substitute at hok
    obtain ⟨_, -, hok⟩ := Checked.bind_ok hok
    obtain ⟨_, -, hok⟩ := Checked.bind_ok hok
    obtain ⟨_, -, hok⟩ := Checked.bind_ok hok
    exact writeRollover_rows hs hs' hok (hdate _ List.mem_cons_self)
  | undo group => exact undo_rows hs hok hdate

end LedgerWrites

/-! ### The writes to the prices -/

section PriceWrites
open ClosingPrices.Book CorporateActions
variable {s s' : ClosingPrices.Book} {date : NaiveDate}

/-- The ok closes dated by then still stand. -/
def ClosesKept (date : NaiveDate) (s s' : ClosingPrices.Book) : Prop :=
  ∀ listing, ∀ day ≤ date, ∀ price,
    (Keyed.get? ClosingPrice.day s.prices (listing, day)).bind okPrice = some price →
      (Keyed.get? ClosingPrice.day s'.prices (listing, day)).bind okPrice = some price

theorem kept_of_okMoved (h : okMoved s s' date = false) : ClosesKept date s s' := by
  intro listing day hday price hprice
  obtain ⟨row, hget, hok⟩ := Option.bind_eq_some_iff.mp hprice
  obtain ⟨hrow, hkey⟩ := (Keyed.get?_eq_some s.days_unique).mp hget
  have hmoved := List.any_eq_false.mp h row hrow
  have hdate : row.priceDate = day := (Prod.mk.inj hkey).2
  rw [hkey, hok] at hmoved
  simpa [hdate, hday] using hmoved

theorem kept_of_chain {passed : List ClosingPrices.Book}
    (h : chainMoves date s (passed ++ [s']) = false) : ClosesKept date s s' := by
  induction passed generalizing s with
  | nil =>
    rw [List.nil_append, chainMoves, chainMoves, Bool.or_false] at h
    exact kept_of_okMoved h
  | cons next passed ih =>
    rw [List.cons_append, chainMoves, Bool.or_eq_false_iff] at h
    intro listing day hday price hprice
    exact ih h.2 listing day hday price (kept_of_okMoved h.1 listing day hday price hprice)

theorem actions_foldl_store (rows : List ClosingPrice) (s : ClosingPrices.Book) :
    (rows.foldl Book.store s).actions = s.actions ∧
      (rows.foldl Book.store s).unpricedBefore = s.unpricedBefore := by
  induction rows generalizing s with
  | nil => exact ⟨rfl, rfl⟩
  | cons row rows ih => exact ih (s.store row)

theorem actions_foldl_rebase (listings : List ListingId) (s : ClosingPrices.Book) :
    (listings.foldl rebaseListingPrices s).actions = s.actions ∧
      (listings.foldl rebaseListingPrices s).unpricedBefore = s.unpricedBefore := by
  induction listings generalizing s with
  | nil => exact ⟨rfl, rfl⟩
  | cons listing listings ih => exact ih (s.rebaseListingPrices listing)

/-- What a write that is not an action's, nor a marker's, leaves alone. -/
theorem step_actions {w : ClosingPrices.Write} (hok : s.step w = .ok s') :
    (s'.actions = s.actions ∨ (∃ row, w = .writeAction row ∧
        s'.actions = Keyed.put Action.id s.actions row) ∨
      ∃ id, w = .deleteAction id ∧ s'.actions = s.actions.filter fun a => a.id ≠ id) ∧
    (s'.unpricedBefore = s.unpricedBefore ∨ ∃ listing marker, w = .setUnpricedBefore listing marker ∧
      s'.unpricedBefore = fun l => if l = listing then marker else s.unpricedBefore l) := by
  cases w with
  | fetch listing observed outcomes =>
    obtain rfl := Except.ok.inj hok
    unfold fetchAndStore
    split
    · exact ⟨Or.inl rfl, Or.inl rfl⟩
    · have hstored := actions_foldl_store
        (outcomes.map (fetchedRow listing observed (s.priceBasisEvents listing))) s
      exact ⟨Or.inl hstored.1, Or.inl hstored.2⟩
  | putManual listing day observed price sourcedFrom reason =>
    have hok : s.putManual listing day observed price sourcedFrom reason = .ok s' := hok
    unfold putManual at hok
    split at hok
    · cases hok
    split at hok
    · cases hok
    split at hok
    · cases hok
    obtain rfl := Except.ok.inj hok
    exact ⟨Or.inl rfl, Or.inl rfl⟩
  | deleteOne listing day =>
    have hok : s.deleteOne listing day = .ok s' := hok
    unfold deleteOne at hok
    split at hok
    · cases hok
    split at hok
    · cases hok
    obtain rfl := Except.ok.inj hok
    exact ⟨Or.inl rfl, Or.inl rfl⟩
  | clearUnpricedBefore listing =>
    have hok : s.clearUnpricedBefore listing = .ok s' := hok
    unfold clearUnpricedBefore at hok
    split at hok
    · cases hok
    obtain rfl := Except.ok.inj hok
    exact ⟨Or.inl rfl, Or.inl rfl⟩
  | setUnpricedBefore listing marker =>
    obtain rfl := Except.ok.inj hok
    exact ⟨Or.inl rfl, Or.inr ⟨listing, marker, rfl, rfl⟩⟩
  | writeAction row =>
    obtain rfl := Except.ok.inj hok
    have hrebased := actions_foldl_rebase (row.listing ::
      (((Keyed.get? Action.id s.actions row.id).toList.map Action.listing).filter
        fun l => l ≠ row.listing)) (s.putAction row)
    exact ⟨Or.inr (Or.inl ⟨row, rfl, hrebased.1⟩), Or.inl hrebased.2⟩
  | deleteAction id =>
    have hok : s.deleteAction id = .ok s' := hok
    unfold deleteAction at hok
    split at hok
    · cases hok
    obtain rfl := Except.ok.inj hok
    exact ⟨Or.inr (Or.inr ⟨id, rfl, rfl⟩), Or.inl rfl⟩
  | runRebase =>
    obtain rfl := Except.ok.inj hok
    have hrebased := actions_foldl_rebase
      ((s.actions.filter rebasesPrices).map Action.listing).dedup s
    exact ⟨Or.inl hrebased.1, Or.inl hrebased.2⟩

/-- The actions dated by then are the same. -/
theorem actions_dated {w : ClosingPrices.Write} (hok : s.step w = .ok s')
    (h : recordStales s date w = false) :
    s.actions.filter (fun a => a.date ≤ date) = s'.actions.filter fun a => a.date ≤ date := by
  rcases (step_actions hok).1 with hsame | ⟨row, rfl, hput⟩ | ⟨id, rfl, hdropped⟩
  · rw [hsame]
  · rw [recordStales, Bool.or_eq_false_iff] at h
    have hkept : (Keyed.put Action.id s.actions row).filter (fun a => decide (a.date ≤ date)) =
        s.actions.filter fun a => decide (a.date ≤ date) := by
      refine put_filter h.1 fun old hmem hid => ?_
      simpa using List.any_eq_false.mp h.2 old (List.mem_filter.mpr ⟨hmem, decide_eq_true hid⟩)
    rw [hput, hkept]
  · rw [hdropped, List.filter_filter]
    refine List.filter_congr fun old hmem => ?_
    by_cases hid : old.id = id
    · have hout := List.any_eq_false.mp h old (List.mem_filter.mpr ⟨hmem, decide_eq_true hid⟩)
      simp [hout]
    · simp [hid]

theorem splitEvent_date {a : Action} {e : SplitEvent} (h : splitEvent a = some e) :
    e.date = a.date := by
  unfold splitEvent at h
  split at h
  · exact congrArg SplitEvent.date (Option.some.inj h).symm
  · exact congrArg SplitEvent.date (Option.some.inj h).symm
  · cases h

theorem splits_dated (h : s.actions.filter (fun a => a.date ≤ date) =
      s'.actions.filter fun a => a.date ≤ date) (listing : ListingId) :
    (s.splits listing).filter (fun e => e.date ≤ date) =
      (s'.splits listing).filter fun e => e.date ≤ date := by
  have hdated : ∀ b : ClosingPrices.Book, (b.splits listing).filter (fun e => e.date ≤ date) =
      (StableSort.sortBy (fun a => toLex (a.date, a.id))
        ((b.actions.filter fun a => a.date ≤ date).filter fun a => a.listing = listing)).filterMap
          splitEvent := by
    intro b
    have hactions : StableSort.sortBy (fun a : Action => toLex (a.date, a.id))
        ((b.actions.filter fun a => a.date ≤ date).filter fun a => a.listing = listing) =
          (b.actionsOf listing).filter fun a => a.date ≤ date := by
      rw [List.filter_comm]
      exact (StableSort.filter_sortBy _ _ _).symm
    rw [hactions, List.filterMap_filter]
    refine List.filter_filterMap.trans (List.filterMap_congr fun a _ => ?_)
    cases he : splitEvent a with
    | none => split <;> rfl
    | some e =>
      rw [Option.filter_some, splitEvent_date he]
  rw [hdated, h, ← hdated]

/-- A listing's marker moves only where it is stated. -/
theorem marker_moved {w : ClosingPrices.Write} (hok : s.step w = .ok s') {listing : ListingId}
    (hmoved : s'.unpricedBefore listing ≠ s.unpricedBefore listing) :
    w = .setUnpricedBefore listing (s'.unpricedBefore listing) := by
  rcases (step_actions hok).2 with hsame | ⟨other, marker, rfl, hset⟩
  · exact absurd (congrFun hsame listing) hmoved
  · have hread := congrFun hset listing
    by_cases hl : listing = other
    · rw [if_pos hl] at hread
      rw [hread, hl]
    · rw [if_neg hl] at hread
      exact absurd hread hmoved

end PriceWrites

section Carried
variable {f : Facts} {w : ClosingPrices.Write} {prices : ClosingPrices.Book} {s : StoredSnapshot}

/-- A marker moved on trading days, up to a date, begins the series by the
valuation day of the date before and after. -/
theorem begun_kept (hok : f.prices.step w = .ok prices) (hapart : marksApart f s w = true)
    {date : NaiveDate} (hstale : recordStales f.prices date w = false) {m : Market}
    (hm : m ∈ f.markets) {day : NaiveDate} (hday : m.latestTradingDayOnOrBefore date = some day) :
    ((f.prices.unpricedBefore m.listing).filter fun before => decide (day < before)) =
      (prices.unpricedBefore m.listing).filter fun before => decide (day < before) := by
  by_cases hmoved : prices.unpricedBefore m.listing = f.prices.unpricedBefore m.listing
  · rw [hmoved]
  · obtain rfl := marker_moved hok hmoved
    have hchanged : f.prices.unpricedBefore m.listing ≠ prices.unpricedBefore m.listing :=
      fun h => hmoved h.symm
    have hby : ∀ d ∈ (f.prices.unpricedBefore m.listing).toList ++
        (prices.unpricedBefore m.listing).toList, d ≤ day := by
      intro d hd
      have hdate : d ≤ date := by
        rw [recordStales, decide_eq_true hchanged, Bool.true_and] at hstale
        simpa using List.any_eq_false.mp hstale d hd
      have htrades : m.isTradingDay d = true := by
        rw [marksApart] at hapart
        simp only [decide_eq_false hchanged, Bool.false_or, Bool.and_eq_true] at hapart
        exact List.all_eq_true.mp (List.all_eq_true.mp hapart.1 m
          (List.mem_filter.mpr ⟨hm, decide_eq_true rfl⟩)) d hd
      exact (Market.latestTradingDayWithin_isGreatest hday).2 ⟨hdate, htrades⟩
    have hnone : ∀ marker : Option NaiveDate, (∀ d ∈ marker.toList, d ≤ day) →
        (marker.filter fun before => decide (day < before)) = none := by
      intro marker hmarker
      refine Option.filter_eq_none_iff.mpr fun d hd => ?_
      simpa using hmarker d (Option.mem_toList.mpr hd)
    rw [hnone _ fun d hd => hby d (List.mem_append_left _ hd),
      hnone _ fun d hd => hby d (List.mem_append_right _ hd)]

/-- Where no close came in behind it, a price carried forward is the one that
would be again. -/
theorem carried_kept (hok : f.prices.step w = .ok prices) (hapart : marksApart f s w = true)
    (hkept : ClosesKept s.date f.prices prices) (hbehind : addsBehind f.prices prices s = false)
    {listing : ListingId} (hcarries : s.rows.carries listing = true) :
    f.prices.unpricedBefore listing = prices.unpricedBefore listing ∧
      ∀ day ≤ s.date, f.okAt listing day = { f with prices }.okAt listing day := by
  constructor
  · by_contra hne
    obtain rfl := marker_moved hok fun h => hne h.symm
    rw [marksApart, hcarries] at hapart
    simp [hne] at hapart
  · intro day hday
    cases hread : f.okAt listing day with
    | some price => exact (hkept listing day hday price hread).symm
    | none =>
      cases hnow : { f with prices }.okAt listing day with
      | none => rfl
      | some price =>
        obtain ⟨row, hrow, hkey, hprice⟩ := (okAt_eq_some _).mp hnow
        obtain ⟨hlisting, hdate⟩ := Prod.mk.inj hkey
        have hnone : (Keyed.get? ClosingPrice.day f.prices.prices row.day).bind okPrice = none := by
          rw [hkey]
          exact hread
        have hclear := List.any_eq_false.mp hbehind row hrow
        rw [hlisting, hdate, hcarries, hprice, hnone] at hclear
        simp [hday] at hclear

end Carried

/-! ### The imported rates -/

section Rates
variable {month : RateMonth} {day date : NaiveDate}

theorem begunBy_of_le (hle : day ≤ date) : begunBy (.of day) date = true := by
  have hkey := NaiveDate.le_def.mp hle
  have hday := day.day_le.trans (daysInMonth_le day.year day.month)
  have hdate := date.day_le.trans (daysInMonth_le date.year date.month)
  have hbounds := And.intro (And.intro day.month_le day.month_pos) (And.intro date.month_le date.month_pos)
  have hpos := And.intro day.day_pos date.day_pos
  unfold NaiveDate.key at hkey
  refine decide_eq_true (Prod.Lex.toLex_le_toLex.mpr ?_)
  change day.year < date.year ∨ day.year = date.year ∧ day.month ≤ date.month
  omega

variable {f : Facts} {currency : CurrencyCode} {rate : ℚ}

/-- A rate that marks no snapshot of the date stale leaves the rates stored for
the months begun by it. -/
theorem rate_kept (hstale : rateStales f.fx currency month rate date = false)
    (hbegun : begunBy month date = true) {stored : ℚ}
    (hstored : f.fx.rates (currency, month) = some stored) : stored = rate := by
  rw [rateStales, hstored, Option.any_some, hbegun, Bool.and_true] at hstale
  simpa using hstale

theorem importRate_kept (hapart : convertsApart f date currency month rate = true)
    (hstale : rateStales f.fx currency month rate date = false) (hrate : 0 < rate) :
    RatesKept date f { f with
      fx := importRate f.fx currency month rate, rates_pos := importRate_pos f.rates_pos hrate } := by
  constructor
  · intro code day hday stored hstored
    change (if (code, RateMonth.of day) = (currency, month) then _ else _) = _
    split
    · rename_i hkey
      obtain ⟨rfl, rfl⟩ := Prod.mk.inj hkey
      rw [rate_kept hstale (begunBy_of_le hday) hstored]
    · exact hstored
  · intro t ht hdate hspot day hday
    change _ = if (t.currency, RateMonth.of day) = (currency, month) then _ else _
    split
    · rename_i hkey
      obtain ⟨rfl, rfl⟩ := Prod.mk.inj hkey
      have hown := List.all_eq_true.mp hapart t (List.mem_filter.mpr ⟨ht, decide_eq_true hdate⟩)
      have hconverts : (decide (RateMonth.of t.date ≠ .of day) &&
          decide (RateMonth.of t.acquired ≠ .of day)) = false := by
        rcases List.mem_cons.mp hday with rfl | hday
        · simp
        · simp [List.mem_singleton.mp hday]
      rw [hspot, hconverts] at hown
      simp only [ne_eq, not_true_eq_false, decide_false, Option.isSome_none, Bool.false_or] at hown
      cases hstored : f.fx.rates (t.currency, .of day) with
      | none =>
        rw [hstored] at hown
        cases hown
      | some stored =>
        rw [hstored, Option.any_some] at hown
        refine congrArg some ?_
        by_cases hsame : stored = rate
        · exact hsame
        · rw [decide_eq_false hsame, Bool.false_or] at hown
          exact rate_kept hstale hown hstored
    · rfl

end Rates

/-! ### Runs -/

section Runs
variable {A : RateArithmetic} {clocks : Clocks} {a a' : Archive}

/-- A snapshot neither stale nor provisional is what its run would store again. -/
structure Coherent (A : RateArithmetic) (clocks : Clocks) (a : Archive) : Prop where
  sound : a.facts.ledger.Sound
  fresh : ∀ s ∈ a.snapshots, s.stale = false → s.rows.provisional = false →
    generate A clocks s.ranAt a.facts s.date = .ok s.rows

theorem fresh_of_markStale {covers : NaiveDate → Bool} {snapshots : List StoredSnapshot}
    {s : StoredSnapshot} (hs : s ∈ markStale covers snapshots) (hfresh : s.stale = false) :
    s ∈ snapshots ∧ covers s.date = false := by
  obtain ⟨stored, hstored, rfl⟩ := List.mem_map.mp hs
  split at hfresh
  · cases hfresh
  · rename_i hcovers
    rw [if_neg hcovers]
    exact ⟨hstored, Bool.eq_false_iff.mpr hcovers⟩

theorem PricesKept.refl (date : NaiveDate) (resolved : StoredValuations) {f f' : Facts}
    (h : f'.prices = f.prices) : PricesKept date resolved f f' where
  kept listing day _ price hprice := by rwa [Facts.okAt, h]
  carried v _ _ := ⟨by rw [h], fun day _ => by rw [Facts.okAt, Facts.okAt, h]⟩
  begun m _ day _ := by rw [h]

theorem RatesKept.refl (date : NaiveDate) {f f' : Facts} (h : f'.fx = f.fx) : RatesKept date f f' where
  kept currency day _ rate hrate := by rwa [h]
  own t _ _ _ day _ := by rw [h]

/-- Marking stale what a write may have moved keeps the rest coherent, where
their rows are read from what still stands. -/
theorem Coherent.marked (h : Coherent A clocks a) {f' : Facts} (hsound : f'.ledger.Sound)
    {e : Event} (hheeds : heeds a e = true) {covers : NaiveDate → Bool}
    (hkept : ∀ s, spares a.facts s e = true → covers s.date = false →
      SameUpTo s.date a.facts f' ∧ PricesKept s.date s.rows.resolved a.facts f' ∧
        RatesKept s.date a.facts f') : Coherent A clocks ⟨f', markStale covers a.snapshots⟩ := by
  refine ⟨hsound, fun s hs hfresh hreal => ?_⟩
  obtain ⟨hstored, hcovers⟩ := fresh_of_markStale hs hfresh
  have hspares := List.all_eq_true.mp hheeds s hstored
  rw [hfresh, hreal, Bool.or_self, Bool.false_or] at hspares
  obtain ⟨hsame, hprices, hrates⟩ := hkept s hspares hcovers
  exact generate_kept hsame hprices hrates hreal (h.fresh s hstored hfresh hreal)

theorem ledger_coherent (h : Coherent A clocks a) {w : Performance.Book.Write}
    (hheeds : heeds a (.ledger w) = true) (hstep : step A clocks a (.ledger w) = .ok a') :
    Coherent A clocks a' := by
  obtain ⟨ledger, hledger, hstep⟩ := Checked.bind_ok hstep
  obtain ⟨listed, -, hstep⟩ := Checked.bind_ok hstep
  obtain rfl := Except.ok.inj hstep
  have hledger := Checked.mapError_ok.mp hledger
  have hbook : a.facts.book.Sound := ⟨h.sound.ids, h.sound.groups, h.sound.consumed⟩
  refine h.marked (Performance.Book.step_sound hbook hledger) hheeds fun s _ hcovers => ?_
  have hrows : SameRows s.date a.facts.book ledger := step_rows hbook hledger fun d hd => by
    simpa using List.any_eq_false.mp hcovers d hd
  exact ⟨⟨hrows.trades, hrows.income, hrows.allocations, fun _ => rfl, rfl, rfl⟩,
    PricesKept.refl _ _ rfl, RatesKept.refl _ rfl⟩

theorem prices_coherent (h : Coherent A clocks a) {w : ClosingPrices.Write}
    (hheeds : heeds a (.prices w) = true) (hstep : step A clocks a (.prices w) = .ok a') :
    Coherent A clocks a' := by
  obtain ⟨prices, hprices, hstep⟩ := Checked.bind_ok hstep
  obtain rfl := Except.ok.inj hstep
  have hprices := Checked.mapError_ok.mp hprices
  refine h.marked ?_ hheeds fun s hspares hcovers => ?_
  · exact h.sound
  obtain ⟨hrecord, hchain⟩ := Bool.or_eq_false_iff.mp hcovers
  obtain ⟨hapart, hclear⟩ := (Bool.and_eq_true _ _).mp hspares
  obtain ⟨prices', hprices', hclear⟩ := Checked.accepts_iff.mp hclear
  obtain rfl := Except.ok.inj (hprices'.symm.trans hprices)
  have hbehind : addsBehind a.facts.prices prices' s = false := by simpa using hclear
  have hkept : ClosesKept s.date a.facts.prices prices' := kept_of_chain hchain
  have hsplits := splits_dated (actions_dated hprices hrecord)
  refine ⟨⟨rfl, rfl, rfl, hsplits, rfl, rfl⟩, ⟨hkept, fun v hv hcarried => ?_, fun m hm day hday => ?_⟩,
    RatesKept.refl _ rfl⟩
  · refine carried_kept hprices hapart hkept hbehind (List.any_eq_true.mpr ⟨v, hv, ?_⟩)
    rw [hcarried, decide_eq_true rfl, Bool.and_self]
  · obtain ⟨listing, -, hget⟩ := List.mem_filterMap.mp hm
    exact begun_kept hprices hapart hrecord
      ((Keyed.get?_eq_some a.facts.markets_unique).mp hget).1 hday

theorem rate_coherent (h : Coherent A clocks a) {currency : CurrencyCode} {month : RateMonth}
    {rate : ℚ} (hheeds : heeds a (.importRate currency month rate) = true)
    (hstep : step A clocks a (.importRate currency month rate) = .ok a') : Coherent A clocks a' := by
  obtain ⟨positive, -, hstep⟩ := Checked.bind_ok hstep
  obtain rfl := Except.ok.inj hstep
  refine h.marked ?_ hheeds fun s hspares hcovers => ?_
  · exact h.sound
  exact ⟨⟨rfl, rfl, rfl, fun _ => rfl, rfl, rfl⟩, PricesKept.refl _ _ rfl,
    importRate_kept hspares hcovers positive.down⟩

/-- A step that moves no snapshot the triggers leave out keeps them coherent. -/
theorem step_coherent (h : Coherent A clocks a) {e : Event} (hheeds : heeds a e = true)
    (hstep : step A clocks a e = .ok a') : Coherent A clocks a' := by
  cases e with
  | ledger w => exact ledger_coherent h hheeds hstep
  | prices w => exact prices_coherent h hheeds hstep
  | importRate currency month rate => exact rate_coherent h hheeds hstep
  | generate now date =>
    obtain ⟨rows, hrows, hstep⟩ := Checked.bind_ok hstep
    obtain rfl := Except.ok.inj hstep
    refine ⟨h.sound, fun s hs hfresh hreal => ?_⟩
    rcases Keyed.mem_put.mp hs with ⟨hstored, -⟩ | rfl
    · exact h.fresh s hstored hfresh hreal
    · exact Checked.mapError_ok.mp hrows

theorem nothing_listed (markets : List Market) : ∀ t ∈ Performance.Book.empty.trades,
    ∃ m ∈ markets, m.listing = t.listing := by
  intro t ht
  cases ht

/-- An archive of an empty ledger. -/
def Archive.opening (markets : List Market) (markets_unique : (markets.map Market.listing).Nodup)
    (exchange : ListingId → Exchange) : Archive where
  facts :=
    { ledger := .empty
      prices := .empty
      markets
      fx := ⟨fun _ => none⟩
      exchange
      markets_unique
      rates_pos := no_rates
      listed := nothing_listed markets }
  snapshots := []

theorem coherent_of_run {markets : List Market} {markets_unique : (markets.map Market.listing).Nodup}
    {exchange : ListingId → Exchange} {events : List Event}
    (hrun : GuardedRun.run (step A clocks) (.opening markets markets_unique exchange) events = .ok a)
    (hheeds : GuardedRun.meets (step A clocks) heeds (.opening markets markets_unique exchange) events =
      true) : Coherent A clocks a :=
  GuardedRun.invariant (fun _ _ _ h hgood hstep => step_coherent h hgood hstep)
    ⟨Performance.Book.sound_empty, fun _ hnone => absurd hnone List.not_mem_nil⟩ hheeds hrun

theorem fresh_snapshots_are_true {markets : List Market}
    {markets_unique : (markets.map Market.listing).Nodup} {exchange : ListingId → Exchange}
    {events : List Event} {a : Archive} {s : StoredSnapshot}
    (hrun : GuardedRun.run (step A clocks) (.opening markets markets_unique exchange) events = .ok a)
    (hheeds : GuardedRun.meets (step A clocks) heeds (.opening markets markets_unique exchange) events =
      true) (hs : s ∈ a.snapshots) (hfresh : s.stale = false) (hreal : s.rows.provisional = false) :
    generate A clocks s.ranAt a.facts s.date = .ok s.rows :=
  (coherent_of_run hrun hheeds).fresh s hs hfresh hreal

end Runs

/-! Ten units bought and valued at two month ends: the second month's rate is
corrected, and the first month's snapshot is not marked. -/

def monthEndPrice (day : NaiveDate) (price : ℚ) : Event :=
  .prices (.putManual 1 day day price "statement" "typed in")

def twoMonths : List Event :=
  [.ledger (.putTrade usdPurchase []), .importRate ⟨"USD"⟩ ⟨2024, 1⟩ (2 / 3),
    monthEndPrice januaryEnd 2, .generate saturday januaryEnd,
    .importRate ⟨"USD"⟩ ⟨2024, 2⟩ (3 / 4), monthEndPrice februaryEnd 3,
    .generate saturday februaryEnd, .importRate ⟨"USD"⟩ ⟨2024, 2⟩ (4 / 5)]

def usdArchive : Archive :=
  .opening [usdMarket] usdMarket_unique fun _ => ⟨"XASX", "Australia/Sydney", "16:00"⟩

theorem twoMonths_run : Checked.accepts
    (GuardedRun.run (step nearestArithmetic HealthPrices.clocks) usdArchive twoMonths)
    (fun a => a.snapshots.any (fun s => !s.stale && !s.rows.provisional && decide (s.date = januaryEnd)) &&
      a.snapshots.any fun s => s.stale && decide (s.date = februaryEnd)) = true := by
  decide +kernel

theorem fresh_snapshots_are_true_january : ∃ a s,
    GuardedRun.run (step nearestArithmetic HealthPrices.clocks) usdArchive twoMonths = .ok a ∧
      s ∈ a.snapshots ∧ s.date = januaryEnd ∧
        generate nearestArithmetic HealthPrices.clocks s.ranAt a.facts januaryEnd = .ok s.rows := by
  obtain ⟨a, hrun, hheld⟩ := Checked.accepts_iff.mp twoMonths_run
  obtain ⟨s, hs, hread⟩ := List.any_eq_true.mp ((Bool.and_eq_true _ _).mp hheld).1
  simp only [Bool.and_eq_true, Bool.not_eq_true', decide_eq_true_eq] at hread
  obtain ⟨⟨hfresh, hreal⟩, hdate⟩ := hread
  refine ⟨a, s, hrun, hs, hdate, ?_⟩
  rw [← hdate]
  exact fresh_snapshots_are_true hrun (by decide +kernel) hs hfresh hreal

end ShareTracker.Snapshots
