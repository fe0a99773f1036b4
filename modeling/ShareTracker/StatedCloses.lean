import ShareTracker.PriceBasis

/-!
Whether the close stated for a demerger is what re-basing makes of its own
day, for all the stated closes of a listing at once.
-/
namespace ShareTracker.ClosingPrices
open CorporateActions

/-- The ratio itself. -/
def recovery (events : List PriceBasisEvent) (since upTo : NaiveDate) : ℚ :=
  (priceBasisRatio events since upTo).1 / (priceBasisRatio events since upTo).2

/-- Both sides of an event's factor are positive. -/
def PriceBasisEvent.Sound (e : PriceBasisEvent) : Prop := 0 < e.recoverNew ∧ 0 < e.recoverOld

namespace Book

/-- A figure observed on or after its demerger comes back as the close stated
for its day, for every stated close. -/
def Recovered (s : Book) (listing : ListingId) : Prop :=
  ∀ statement ∈ s.statements listing, ∀ row ∈ (s.rebaseListingPrices listing).prices,
    row.day = (listing, statement.closeDate) → statement.date ≤ row.observed →
      ∀ asObserved price, row.quote = .fetched asObserved price →
        price = cleanPrice statement.closePrice

/-- The event one statement adds. -/
def factor (s : Book) (listing : ListingId) (events : List PriceBasisEvent)
    (statement : DemergerPriceStatement) : List PriceBasisEvent :=
  match s.reference listing statement with
  | none => []
  | some figure =>
    let partly := contemporaneousPrice figure.asObserved events statement.closeDate figure.observed
    if partly ≤ 0 then [] else [⟨statement.date, statement.closePrice, partly⟩]

/-- The events some statements add, the latest of them first. -/
def factors (s : Book) (listing : ListingId) (events : List PriceBasisEvent) :
    List DemergerPriceStatement → List PriceBasisEvent
  | [] => []
  | statement :: rest =>
    s.factor listing events statement ++
      factors s listing (events ++ s.factor listing events statement) rest

/-- What the demergers before a stated close make of its day besides: their
factors, dated after the close, leave the close it states. -/
def LeavesClose (s : Book) (listing : ListingId) (later : List DemergerPriceStatement)
    (statement : DemergerPriceStatement) (earlier : List DemergerPriceStatement) : Prop :=
  ∀ figure ∈ s.reference listing statement,
    cleanPrice (statement.closePrice *
      recovery (s.factors listing
          ((s.splits listing).map PriceBasisEvent.ofSplit ++
            s.factors listing ((s.splits listing).map PriceBasisEvent.ofSplit)
              (later ++ [statement])) earlier)
        statement.closeDate figure.observed) = cleanPrice statement.closePrice

end Book

/-! ### Ratios over more events -/

theorem priceBasisRatio_acc (events : List PriceBasisEvent) (since upTo : NaiveDate) (r : ℚ × ℚ) :
    events.foldl (fun r e => if e.date ≤ since ∨ upTo < e.date then r
        else (r.1 * e.recoverNew, r.2 * e.recoverOld)) r =
      (r.1 * (priceBasisRatio events since upTo).1, r.2 * (priceBasisRatio events since upTo).2) := by
  rw [priceBasisRatio]
  induction events generalizing r with
  | nil => simp
  | cons e events ih =>
    rw [List.foldl_cons, List.foldl_cons, ih]
    conv_rhs => rw [ih]
    split
    · simp
    · simp only [one_mul, mul_assoc]

theorem priceBasisRatio_append (xs ys : List PriceBasisEvent) (since upTo : NaiveDate) :
    priceBasisRatio (xs ++ ys) since upTo =
      ((priceBasisRatio xs since upTo).1 * (priceBasisRatio ys since upTo).1,
        (priceBasisRatio xs since upTo).2 * (priceBasisRatio ys since upTo).2) := by
  rw [priceBasisRatio, List.foldl_append, priceBasisRatio_acc]
  rfl

theorem recovery_append (xs ys : List PriceBasisEvent) (since upTo : NaiveDate) :
    recovery (xs ++ ys) since upTo = recovery xs since upTo * recovery ys since upTo := by
  rw [recovery, priceBasisRatio_append, recovery, recovery, mul_div_mul_comm]

theorem recovery_singleton {e : PriceBasisEvent} {since upTo : NaiveDate} (hsince : since < e.date)
    (hupTo : e.date ≤ upTo) : recovery [e] since upTo = e.recoverNew / e.recoverOld := by
  have hin : ¬ (e.date ≤ since ∨ upTo < e.date) := by
    rw [not_or]
    exact ⟨not_le.mpr hsince, not_lt.mpr hupTo⟩
  rw [recovery, priceBasisRatio, List.foldl_cons, List.foldl_nil, if_neg hin, one_mul, one_mul]

/-- Events that had already happened restate nothing. -/
theorem recovery_of_before {events : List PriceBasisEvent} {since upTo : NaiveDate}
    (h : ∀ e ∈ events, e.date ≤ since) : recovery events since upTo = 1 := by
  have hratio : priceBasisRatio events since upTo = (1, 1) := by
    induction events with
    | nil => rfl
    | cons e events ih =>
      rw [priceBasisRatio, List.foldl_cons, if_pos (.inl (h e List.mem_cons_self))]
      exact ih fun e' he' => h e' (List.mem_cons_of_mem e he')
  rw [recovery, hratio, div_one]

theorem ratio_pos {events : List PriceBasisEvent} (h : ∀ e ∈ events, e.Sound)
    (since upTo : NaiveDate) :
    0 < (priceBasisRatio events since upTo).1 ∧ 0 < (priceBasisRatio events since upTo).2 := by
  induction events with
  | nil => exact ⟨one_pos, one_pos⟩
  | cons e events ih =>
    obtain ⟨hnew, hold⟩ := h e List.mem_cons_self
    obtain ⟨ihnew, ihold⟩ := ih fun e' he' => h e' (List.mem_cons_of_mem e he')
    rw [priceBasisRatio, List.foldl_cons, priceBasisRatio_acc]
    split
    · simpa using ⟨ihnew, ihold⟩
    · simp only [one_mul]
      exact ⟨mul_pos hnew ihnew, mul_pos hold ihold⟩

theorem recovery_pos {events : List PriceBasisEvent} (h : ∀ e ∈ events, e.Sound)
    (since upTo : NaiveDate) : 0 < recovery events since upTo :=
  div_pos (ratio_pos h since upTo).1 (ratio_pos h since upTo).2

theorem contemporaneousPrice_eq {events : List PriceBasisEvent} (h : ∀ e ∈ events, e.Sound)
    (price : ℚ) (priceDate observed : NaiveDate) :
    contemporaneousPrice price events priceDate observed = price * recovery events priceDate observed := by
  obtain ⟨-, hold⟩ := ratio_pos h priceDate observed
  rw [contemporaneousPrice, recovery]
  simp only
  split
  · rename_i heq
    rw [heq, div_self hold.ne', mul_one]
  · rw [mul_div_assoc]

theorem ofSplit_sound (split : SplitEvent) : (PriceBasisEvent.ofSplit split).Sound :=
  ⟨split.newUnits_pos, split.oldUnits_pos⟩

namespace Book

variable {s : Book} {listing : ListingId}

theorem addStatement_eq (events : List PriceBasisEvent) (statement : DemergerPriceStatement) :
    s.addStatement listing events statement = events ++ s.factor listing events statement := by
  rw [addStatement, factor]
  cases s.reference listing statement with
  | none => exact (List.append_nil events).symm
  | some figure =>
    simp only
    split
    · exact (List.append_nil events).symm
    · rfl

theorem foldl_addStatement (events : List PriceBasisEvent) (latest : List DemergerPriceStatement) :
    latest.foldl (s.addStatement listing) events = events ++ s.factors listing events latest := by
  induction latest generalizing events with
  | nil => exact (List.append_nil events).symm
  | cons statement latest ih =>
    rw [List.foldl_cons, ih, addStatement_eq, factors, List.append_assoc]

theorem factors_append (events : List PriceBasisEvent) (xs ys : List DemergerPriceStatement) :
    s.factors listing events (xs ++ ys) =
      s.factors listing events xs ++ s.factors listing (events ++ s.factors listing events xs) ys := by
  induction xs generalizing events with
  | nil => rw [List.nil_append, factors, List.nil_append, List.append_nil]
  | cons x xs ih =>
    rw [List.cons_append, factors, ih, factors, List.append_assoc, List.append_assoc]

theorem factor_sound {events : List PriceBasisEvent} {statement : DemergerPriceStatement}
    (hclose : 0 < statement.closePrice) : ∀ e ∈ s.factor listing events statement, e.Sound := by
  intro e he
  rw [factor] at he
  split at he
  · cases he
  · simp only at he
    split at he
    · cases he
    · rename_i hpartly
      obtain rfl := List.mem_singleton.mp he
      exact ⟨hclose, not_le.mp hpartly⟩

theorem factors_sound {events : List PriceBasisEvent} {latest : List DemergerPriceStatement}
    (h : ∀ statement ∈ latest, 0 < statement.closePrice) :
    ∀ e ∈ s.factors listing events latest, e.Sound := by
  induction latest generalizing events with
  | nil => exact fun e he => absurd he List.not_mem_nil
  | cons statement latest ih =>
    intro e he
    rw [factors] at he
    rcases List.mem_append.mp he with hhead | hrest
    · exact factor_sound (h statement List.mem_cons_self) e hhead
    · exact ih (fun st hst => h st (List.mem_cons_of_mem statement hst)) e hrest

/-- A factor is dated as the demerger it is of. -/
theorem date_of_factors {events : List PriceBasisEvent} {latest : List DemergerPriceStatement}
    {e : PriceBasisEvent} (he : e ∈ s.factors listing events latest) :
    ∃ statement ∈ latest, e.date = statement.date := by
  induction latest generalizing events with
  | nil => exact absurd he List.not_mem_nil
  | cons statement latest ih =>
    rw [factors] at he
    rcases List.mem_append.mp he with hhead | hrest
    · refine ⟨statement, List.mem_cons_self, ?_⟩
      rw [factor] at hhead
      split at hhead
      · cases hhead
      · simp only at hhead
        split at hhead
        · cases hhead
        · rw [List.mem_singleton.mp hhead]
    · obtain ⟨st, hst, hdate⟩ := ih hrest
      exact ⟨st, List.mem_cons_of_mem statement hst, hdate⟩

theorem splits_sound : ∀ e ∈ (s.splits listing).map PriceBasisEvent.ofSplit, e.Sound := by
  intro e he
  obtain ⟨split, -, rfl⟩ := List.mem_map.mp he
  exact ofSplit_sound split

/-! ### The close of one statement -/

/-- What a write accepts as a stated close. -/
def StatesCloses (s : Book) (listing : ListingId) : Prop :=
  ∀ statement ∈ s.statements listing, statement.closeDate < statement.date ∧ 0 < statement.closePrice

/-- A statement's own factor takes its day's figure back to the close, and the
demergers before it take it from there. -/
theorem contemporaneousPrice_stated {later earlier : List DemergerPriceStatement}
    {statement : DemergerPriceStatement} {figure : ObservedFigure} (hstates : s.StatesCloses listing)
    (hsplit : (s.statements listing).reverse = later ++ statement :: earlier)
    (hreference : s.reference listing statement = some figure) (hpos : 0 < figure.asObserved) :
    contemporaneousPrice figure.asObserved (s.priceBasisEvents listing) statement.closeDate
        figure.observed =
      statement.closePrice *
        recovery (s.factors listing
            ((s.splits listing).map PriceBasisEvent.ofSplit ++
              s.factors listing ((s.splits listing).map PriceBasisEvent.ofSplit)
                (later ++ [statement])) earlier)
          statement.closeDate figure.observed := by
  have hall : ∀ st ∈ later ++ statement :: earlier, st.closeDate < st.date ∧ 0 < st.closePrice := by
    intro st hst
    rw [← hsplit] at hst
    exact hstates st (List.mem_reverse.mp hst)
  have hmem : statement ∈ later ++ statement :: earlier :=
    List.mem_append_right later List.mem_cons_self
  obtain ⟨hbefore, hclose⟩ := hall statement hmem
  have hobserved : statement.date ≤ figure.observed := by
    rw [reference, Option.filter_eq_some_iff] at hreference
    exact of_decide_eq_true hreference.2
  have hlater : ∀ st ∈ later, 0 < st.closePrice := fun st hst =>
    (hall st (List.mem_append_left _ hst)).2
  have hearlier : ∀ st ∈ earlier, 0 < st.closePrice := fun st hst =>
    (hall st (List.mem_append_right later (List.mem_cons_of_mem _ hst))).2
  generalize hsplits : (s.splits listing).map PriceBasisEvent.ofSplit = splits
  have hsplitsSound : ∀ e ∈ splits, e.Sound := hsplits ▸ splits_sound
  -- the events the factor is derived over, then its own, then the earlier ones
  generalize hbase : splits ++ s.factors listing splits later = base
  have hbaseSound : ∀ e ∈ base, e.Sound := by
    intro e he
    rw [← hbase] at he
    rcases List.mem_append.mp he with hsplit | hfactor
    · exact hsplitsSound e hsplit
    · exact factors_sound hlater e hfactor
  have hpartly : 0 < figure.asObserved * recovery base statement.closeDate figure.observed :=
    mul_pos hpos (recovery_pos hbaseSound _ _)
  have hfactor : s.factor listing base statement = [⟨statement.date, statement.closePrice,
      figure.asObserved * recovery base statement.closeDate figure.observed⟩] := by
    rw [factor, hreference]
    simp only
    rw [contemporaneousPrice_eq hbaseSound, if_neg (not_le.mpr hpartly)]
  have hown : splits ++ s.factors listing splits (later ++ [statement]) =
      base ++ s.factor listing base statement := by
    rw [factors_append, ← List.append_assoc, hbase, factors, factors, List.append_nil]
  have hevents : s.priceBasisEvents listing = base ++ s.factor listing base statement ++
      s.factors listing (base ++ s.factor listing base statement) earlier := by
    rw [priceBasisEvents, hsplit, foldl_addStatement, hsplits, factors_append, ← List.append_assoc,
      hbase, factors, List.append_assoc]
  have heventsSound : ∀ e ∈ s.priceBasisEvents listing, e.Sound := by
    intro e he
    rw [hevents] at he
    rcases List.mem_append.mp he with he | he
    · rcases List.mem_append.mp he with he | he
      · exact hbaseSound e he
      · exact factor_sound hclose e he
    · exact factors_sound hearlier e he
  have hrecovered : recovery (s.factor listing base statement) statement.closeDate figure.observed =
      statement.closePrice /
        (figure.asObserved * recovery base statement.closeDate figure.observed) := by
    rw [hfactor]
    exact recovery_singleton hbefore hobserved
  rw [contemporaneousPrice_eq heventsSound, hevents, recovery_append, recovery_append, hown,
    hrecovered]
  generalize recovery (s.factors listing _ earlier) statement.closeDate figure.observed = rest
  generalize recovery base statement.closeDate figure.observed = before at hpartly ⊢
  calc figure.asObserved * (before * (statement.closePrice / (figure.asObserved * before)) * rest)
      = statement.closePrice / (figure.asObserved * before) * (figure.asObserved * before) * rest := by
        ring
    _ = statement.closePrice * rest := by
        rw [div_mul_cancel₀ _ hpartly.ne']

/-- The row of a day holds the figure its statement rests on. -/
theorem reference_of_row {statement : DemergerPriceStatement} {row : ClosingPrice}
    {asObserved price : ℚ} (hrow : row ∈ (s.rebaseListingPrices listing).prices)
    (hday : row.day = (listing, statement.closeDate)) (hobserved : statement.date ≤ row.observed)
    (hquote : row.quote = .fetched asObserved price) :
    s.reference listing statement = some ⟨asObserved, row.observed⟩ := by
  have hfigure : s.observedFigure listing statement.closeDate = some ⟨asObserved, row.observed⟩ := by
    rw [← observedFigure_rebase s listing, observedFigure_eq_some]
    refine ⟨row, hrow, hday, ?_⟩
    rw [ClosingPrice.figure, hquote]
  rw [reference, hfigure, Option.filter_some, if_pos (decide_eq_true hobserved)]

theorem row_of_reference {statement : DemergerPriceStatement} {figure : ObservedFigure}
    (h : s.reference listing statement = some figure) :
    ∃ row ∈ (s.rebaseListingPrices listing).prices, row.day = (listing, statement.closeDate) ∧
      row.observed = figure.observed ∧ ∃ price, row.quote = .fetched figure.asObserved price := by
  rw [reference, Option.filter_eq_some_iff, ← observedFigure_rebase s listing] at h
  obtain ⟨row, hrow, hday, hfigure⟩ := observedFigure_eq_some.mp h.1
  refine ⟨row, hrow, hday, ?_⟩
  rw [ClosingPrice.figure] at hfigure
  split at hfigure
  · rename_i asObserved price hquote
    obtain rfl := Option.some.inj hfigure
    exact ⟨rfl, price, hquote⟩
  · cases hfigure
  · cases hfigure

theorem price_of_row {date : NaiveDate} {row : ClosingPrice} {asObserved price : ℚ}
    (hrow : row ∈ (s.rebaseListingPrices listing).prices) (hday : row.day = (listing, date))
    (hquote : row.quote = .fetched asObserved price) :
    price = contemporaneous asObserved (s.priceBasisEvents listing) date row.observed := by
  obtain ⟨hlisting, hdate⟩ := Prod.mk.inj hday
  have hprice := rebase_settledOn s listing row hrow hlisting asObserved price hquote
  rw [(rebase_sameOn s listing listing).events, hdate] at hprice
  exact hprice

/-- The figures stored for a listing are positive. -/
def PositiveFigures (s : Book) (listing : ListingId) : Prop :=
  ∀ date, ∀ figure ∈ s.observedFigure listing date, 0 < figure.asObserved

theorem recovered_close_iff {later earlier : List DemergerPriceStatement}
    {statement : DemergerPriceStatement} (hstates : s.StatesCloses listing)
    (hpos : s.PositiveFigures listing)
    (hsplit : (s.statements listing).reverse = later ++ statement :: earlier) :
    (∀ row ∈ (s.rebaseListingPrices listing).prices,
      row.day = (listing, statement.closeDate) → statement.date ≤ row.observed →
        ∀ asObserved price, row.quote = .fetched asObserved price →
          price = cleanPrice statement.closePrice) ↔
      s.LeavesClose listing later statement earlier := by
  have hfigure : ∀ figure, s.reference listing statement = some figure →
      contemporaneous figure.asObserved (s.priceBasisEvents listing) statement.closeDate
          figure.observed =
        cleanPrice (statement.closePrice *
          recovery (s.factors listing
              ((s.splits listing).map PriceBasisEvent.ofSplit ++
                s.factors listing ((s.splits listing).map PriceBasisEvent.ofSplit)
                  (later ++ [statement])) earlier)
            statement.closeDate figure.observed) := by
    intro figure hreference
    have hstored : s.observedFigure listing statement.closeDate = some figure :=
      (Option.filter_eq_some_iff.mp hreference).1
    rw [contemporaneous, contemporaneousPrice_stated hstates hsplit hreference (hpos _ _ hstored)]
  constructor
  · intro h figure hreference
    obtain ⟨row, hrow, hday, hobserved, price, hquote⟩ := row_of_reference hreference
    have hdate : statement.date ≤ row.observed := by
      rw [hobserved]
      exact of_decide_eq_true (Option.filter_eq_some_iff.mp hreference).2
    have hprice := price_of_row hrow hday hquote
    rw [h row hrow hday hdate figure.asObserved price hquote, hobserved, hfigure figure hreference]
      at hprice
    exact hprice.symm
  · intro h row hrow hday hobserved asObserved price hquote
    have hreference := reference_of_row hrow hday hobserved hquote
    rw [price_of_row hrow hday hquote]
    exact (hfigure _ hreference).trans (h _ hreference)

/-- With no earlier demerger dated after a close, its day is left at it. -/
theorem leavesClose_of_apart {later earlier : List DemergerPriceStatement}
    {statement : DemergerPriceStatement}
    (h : ∀ st ∈ earlier, st.date ≤ statement.closeDate) :
    s.LeavesClose listing later statement earlier := by
  intro figure _
  have hnone : ∀ events, ∀ e ∈ s.factors listing events earlier, e.date ≤ statement.closeDate := by
    intro events e he
    obtain ⟨st, hst, hdate⟩ := date_of_factors he
    rw [hdate]
    exact h st hst
  rw [recovery_of_before (hnone _), mul_one]

end Book

open Book

/-- Re-basing takes every figure of a stated close's day observed on or after
its demerger back to that close exactly where the demergers before it, as far
as they are dated after the close, leave it. -/
theorem recovered_iff (s : Book) (listing : ListingId) (hstates : s.StatesCloses listing)
    (hpos : s.PositiveFigures listing) :
    s.Recovered listing ↔ ∀ later statement earlier,
      (s.statements listing).reverse = later ++ statement :: earlier →
        s.LeavesClose listing later statement earlier := by
  constructor
  · intro h later statement earlier hsplit
    have hmem : statement ∈ s.statements listing := by
      rw [← List.mem_reverse, hsplit]
      exact List.mem_append_right later List.mem_cons_self
    exact (recovered_close_iff hstates hpos hsplit).mp (h statement hmem)
  · intro h statement hmem
    obtain ⟨later, earlier, hsplit⟩ := List.append_of_mem (List.mem_reverse.mpr hmem)
    exact (recovered_close_iff hstates hpos hsplit).mpr (h later statement earlier hsplit)

/-- Demergers of 3 June and 1 July, the second's close stated for a day given. -/
def twoDemergers (secondClose : NaiveDate) : List Action := [
  statedDemerger,
  ⟨2, 1, ymd 2024 7 1, .demerger 3 1 5 20 (some ⟨secondClose, 20, "ASX", "spin-off"⟩) .exact none⟩]

theorem twoDemergers_ids (secondClose : NaiveDate) :
    ((twoDemergers secondClose).map Action.id).Nodup := by
  change ([1, 2] : List ℤ).Nodup
  decide

/-- Three days as the provider serves them in August. -/
def restatedPrices : List ClosingPrice := [
  ⟨1, ymd 2024 5 30, ymd 2024 8 1, .fetched 4 4⟩,
  ⟨1, ymd 2024 5 31, ymd 2024 8 1, .fetched 4 4⟩,
  ⟨1, ymd 2024 6 28, ymd 2024 8 1, .fetched 16 16⟩]

theorem restatedPrices_days : (restatedPrices.map ClosingPrice.day).Nodup := by decide

def statedTwice (secondClose : NaiveDate) : Book where
  actions := twoDemergers secondClose
  prices := restatedPrices
  unpricedBefore := fun _ => none
  ids_unique := twoDemergers_ids secondClose
  days_unique := restatedPrices_days

theorem statedTwice_positive (secondClose : NaiveDate) :
    (statedTwice secondClose).PositiveFigures 1 := by
  have hall : ∀ row ∈ restatedPrices, ∀ figure ∈ row.figure, 0 < figure.asObserved := by
    decide
  intro date figure hfigure
  obtain ⟨row, hrow, -, hrowfigure⟩ := observedFigure_eq_some.mp hfigure
  exact hall row hrow figure hrowfigure

theorem recovered_iff_inOrder : (statedTwice (ymd 2024 6 28)).Recovered 1 := by
  have hstatements : ((statedTwice (ymd 2024 6 28)).statements 1).reverse =
      [⟨ymd 2024 7 1, ymd 2024 6 28, 20⟩, ⟨ymd 2024 6 3, ymd 2024 5 31, 10⟩] := by
    decide
  have hstates : (statedTwice (ymd 2024 6 28)).StatesCloses 1 := by
    intro statement hmem
    rw [← List.mem_reverse, hstatements] at hmem
    revert statement
    decide
  apply (recovered_iff _ 1 hstates (statedTwice_positive _)).mpr
  intro later statement earlier hsplit
  rw [hstatements] at hsplit
  apply leavesClose_of_apart
  rcases later with _ | ⟨first, _ | ⟨second, later⟩⟩
  · obtain ⟨rfl, rfl⟩ := List.cons.inj hsplit
    decide
  · obtain ⟨rfl, rfl⟩ := List.cons.inj (List.cons.inj hsplit).2
    decide
  · cases later <;> cases (List.cons.inj (List.cons.inj hsplit).2).2

/-- With the second close stated for a day before the first demerger, that day is
left at half of it. -/
theorem earlier_demerger_halves_close :
    (statedTwice (ymd 2024 5 30)).StatesCloses 1 ∧ (statedTwice (ymd 2024 5 30)).PositiveFigures 1 ∧
      ((statedTwice (ymd 2024 5 30)).statements 1).map DemergerPriceStatement.closeDate =
        [ymd 2024 5 31, ymd 2024 5 30] ∧
      ¬ (statedTwice (ymd 2024 5 30)).Recovered 1 := by
  have hstatements : (statedTwice (ymd 2024 5 30)).statements 1 =
      [⟨ymd 2024 6 3, ymd 2024 5 31, 10⟩, ⟨ymd 2024 7 1, ymd 2024 5 30, 20⟩] := by
    decide
  refine ⟨?_, statedTwice_positive _, ?_, ?_⟩
  · intro statement hmem
    rw [hstatements] at hmem
    revert statement
    decide
  · rw [hstatements]
    rfl
  · intro h
    have hrow : ∃ row ∈ ((statedTwice (ymd 2024 5 30)).rebaseListingPrices 1).prices,
        row = ⟨1, ymd 2024 5 30, ymd 2024 8 1, .fetched 4 10⟩ := by
      decide +kernel
    obtain ⟨row, hrow, rfl⟩ := hrow
    have hprice := h ⟨ymd 2024 7 1, ymd 2024 5 30, 20⟩ (by rw [hstatements]; decide) _ hrow
      rfl (by decide) 4 10 rfl
    exact absurd hprice (by decide +kernel)

end ShareTracker.ClosingPrices
