import ShareTracker.Lib.Timeline
import ShareTracker.Renames
import ShareTracker.Valuation

/-!
A range of dates split where the listing's identity changes, and the fetch that
asks the provider for each part under the symbol quoted over it.
-/
namespace ShareTracker.Renames
open Timeline Checked

/-- One span of a listing's history, with the calendar it traded on. -/
structure MarketIdentity where
  since : Option NaiveDate
  ticker : String
  exchangeMic : Option String
  onExchange : Bool
  holidays : List NaiveDate
  deriving DecidableEq

/-- The exchanges there are rows for, and their holidays. -/
structure Calendars where
  exchanges : String → Bool
  holidays : String → List NaiveDate

def Calendars.assemble (c : Calendars) (span : Identity) : MarketIdentity where
  since := span.start
  ticker := span.ticker
  exchangeMic := span.exchangeMic
  onExchange := span.exchangeMic.any c.exchanges
  holidays := (span.exchangeMic.map c.holidays).getD []

structure Market where
  listing : Listing
  identities : List MarketIdentity
  symbolOverride : Option String
  identities_ne : identities ≠ []

structure Segment where
  first : NaiveDate
  last : NaiveDate
  identity : MarketIdentity
  deriving DecidableEq

def Segment.holds (g : Segment) (date : NaiveDate) : Bool :=
  decide (g.first ≤ date) && decide (date ≤ g.last)

theorem identities_ne (s : Registry) (l : Listing) : s.identities l ≠ [] := by
  rw [Registry.identities]
  split
  · exact List.cons_ne_nil _ _
  · exact List.cons_ne_nil _ _

/-- `load_market`. -/
def Registry.market (s : Registry) (c : Calendars) (symbolOverride : Option String) (l : Listing) :
    Market where
  listing := l
  identities := (s.identities l).map c.assemble
  symbolOverride := symbolOverride
  identities_ne := fun h => identities_ne s l (List.map_eq_nil_iff.mp h)

namespace Market

def earliest (m : Market) : MarketIdentity := m.identities.head m.identities_ne

def current (m : Market) : MarketIdentity := m.identities.getLast m.identities_ne

def identityAt (m : Market) (date : NaiveDate) : MarketIdentity :=
  (inForce MarketIdentity.since m.identities date).getD m.earliest

/-- The first span that starts after a date. -/
def nextStart (m : Market) (start : NaiveDate) : Option NaiveDate :=
  ((m.identities.filterMap MarketIdentity.since).filter fun d => start < d).min?

/-- A segment runs until the next span begins, or to the end of the range. -/
def segmentEnd (m : Market) (last start : NaiveDate) : NaiveDate :=
  match m.nextStart start with
  | some next => min last next.pred
  | none => last

theorem nextStart_some {m : Market} {start next : NaiveDate} (h : m.nextStart start = some next) :
    start < next ∧ ∃ i ∈ m.identities, i.since = some next := by
  have hmem := List.min?_mem h
  obtain ⟨hmap, hlt⟩ := List.mem_filter.mp hmem
  obtain ⟨i, hi, hsince⟩ := List.mem_filterMap.mp hmap
  exact ⟨of_decide_eq_true hlt, i, hi, hsince⟩

theorem le_segmentEnd (m : Market) {last start : NaiveDate} (h : start ≤ last) :
    start ≤ m.segmentEnd last start := by
  rw [segmentEnd]
  split
  · rename_i next hnext
    exact le_min h (NaiveDate.le_pred_iff.mpr (nextStart_some hnext).1)
  · exact h

/-- The days still to be split. -/
def daysLeft (last start : NaiveDate) : ℕ := (last.dayNumber + 1 - start.dayNumber).toNat

theorem daysLeft_lt (m : Market) {last start : NaiveDate} (h : start ≤ last) :
    daysLeft last (m.segmentEnd last start).succ < daysLeft last start := by
  have hend := NaiveDate.dayNumber_le.mpr (m.le_segmentEnd h)
  have hstart := NaiveDate.dayNumber_le.mpr h
  rw [daysLeft, daysLeft, NaiveDate.dayNumber_succ]
  omega

/-- The loop of `identity_segments`. -/
def segmentsFrom (m : Market) (last start : NaiveDate) : List Segment :=
  if _h : start ≤ last then
    ⟨start, m.segmentEnd last start, m.identityAt start⟩ ::
      m.segmentsFrom last (m.segmentEnd last start).succ
  else []
termination_by daysLeft last start
decreasing_by exact m.daysLeft_lt _h

def identitySegments (m : Market) (first last : NaiveDate) : List Segment :=
  if last < first then [] else m.segmentsFrom last first

end Market

/-! ### The fetch -/

structure FetchedClose where
  date : NaiveDate
  price : ℚ
  currency : String

inductive FetchError where
  | noSuchSymbol (message : String)
  | other (message : String)

inductive Remedy where
  | setPriceSymbolOrBackfill
  | backfillWithSymbol
  deriving DecidableEq

/-- Why a day has no price. -/
inductive FetchProblem where
  | provider (message : String)
  | deadSymbol (message : String) (symbol : String) (first last : NaiveDate) (remedy : Remedy)
  | noCandles (symbol : String) (first last : NaiveDate) (remedy : Remedy)
  | noCandle
  | currencyMismatch (quoted listing : String)
  | noSpan
  deriving DecidableEq

/-- What a day's row records: the symbol it was asked under, and the answer. -/
structure Answer where
  symbol : Option String
  result : Except FetchProblem ℚ

structure PriceFetcher where
  symbol : Market → NaiveDate → Except String String
  dailyCloses : Market → NaiveDate → NaiveDate → Except FetchError (List FetchedClose)

namespace Market

def deadSymbolRemedy (m : Market) (first : NaiveDate) : Remedy :=
  if (m.identityAt first).since = m.current.since then .setPriceSymbolOrBackfill
  else .backfillWithSymbol

/-- A day's part of what the provider answers for its segment; of two candles of
one day the later is kept. -/
def dayResult (m : Market) (f : PriceFetcher) (g : Segment) (date : NaiveDate) :
    Except FetchProblem ℚ :=
  let named := match f.symbol m g.first with
    | .ok symbol => symbol
    | .error e => e
  match f.dailyCloses m g.first g.last with
  | .error (.noSuchSymbol e) =>
    .error (.deadSymbol e named g.first g.last (m.deadSymbolRemedy g.first))
  | .error (.other e) => .error (.provider e)
  | .ok [] => .error (.noCandles named g.first g.last (m.deadSymbolRemedy g.first))
  | .ok closes =>
    match closes.reverse.find? fun c => c.date = date with
    | none => .error .noCandle
    | some close =>
      if close.currency ≠ m.listing.currency then
        .error (.currencyMismatch close.currency m.listing.currency)
      else .ok close.price

def answer (m : Market) (f : PriceFetcher) (g : Segment) (date : NaiveDate) : Answer :=
  ⟨(f.symbol m g.first).toOption, m.dayResult f g date⟩

/-- One segment's turn: its days of those asked for are entered in the outcome. -/
def segmentTurn (m : Market) (f : PriceFetcher) (dates : List NaiveDate)
    (outcome : NaiveDate → Option Answer) (g : Segment) : NaiveDate → Option Answer :=
  (dates.filter g.holds).foldl
    (fun outcome date => Function.update outcome date (some (m.answer f g date))) outcome

/-- `outcome.remove(&date)` for each day in turn. -/
def rowsFrom (outcome : NaiveDate → Option Answer) : List NaiveDate → List (NaiveDate × Answer)
  | [] => []
  | date :: dates =>
    (date, (outcome date).getD ⟨none, .error .noSpan⟩) ::
      rowsFrom (Function.update outcome date none) dates

/-- The rows `fetch_and_store` stores, in order. -/
def fetchAndStore (m : Market) (f : PriceFetcher) (dates : List NaiveDate) :
    List (NaiveDate × Answer) :=
  match dates.min?, dates.max? with
  | some overallFirst, some overallLast =>
    rowsFrom ((m.identitySegments overallFirst overallLast).foldl (m.segmentTurn f dates)
      fun _ => none) dates
  | _, _ => []

end Market

/-! ### The spans of a chain -/

namespace Registry
variable {s s' : Registry}

/-- The renames recorded of every listing are dated in order. -/
def Dated (s : Registry) : Prop :=
  ∀ id, (s.renamesOf id).Pairwise fun a b => a.effectiveDate < b.effectiveDate

theorem Dated.of_sublist (h : s.Dated) (hsub : s'.renames.Sublist s.renames) : s'.Dated :=
  fun id => (h id).sublist (hsub.filter _)

theorem Dated.rename {today : NaiveDate} {listing : ListingId} {id : ℤ} {body : RenameBody}
    (h : s.Dated) (hok : s.rename today listing id body = .ok s') : s'.Dated := by
  obtain ⟨current, -, rfl, -, hlater, -, hrenames, -⟩ := renamed_state hok
  intro i
  rw [renamesOf, hrenames, List.filter_append, List.pairwise_append]
  refine ⟨h i, (List.pairwise_singleton _ _).sublist List.filter_sublist, ?_⟩
  intro a ha b hb
  obtain ⟨hrow, hid⟩ := List.mem_filter.mp hb
  obtain rfl := List.mem_singleton.mp hrow
  have hlisting : current.id = i := of_decide_eq_true hid
  rw [← hlisting] at ha
  exact latestRename_lt hlater a ha

theorem Dated.step {w : RegistryWrite} (h : s.Dated) (hok : s.step w = .ok s') : s'.Dated := by
  cases w with
  | write row =>
    apply h.of_sublist
    rcases write_ok hok with ⟨_, -, -, hupdate⟩ | ⟨-, hinsert⟩
    · rw [(updateListing_ok hupdate).2]
    · rw [(insertListing_ok hinsert).2]
  | rename today listing id body => exact h.rename hok
  | undo listing id =>
    obtain ⟨target, -, -, -, -, _, -, -, mid, hmid, rfl⟩ := undo_ok hok
    apply h.of_sublist
    change (mid.renames.filter _).Sublist s.renames
    rw [(updateListing_ok hmid).2]
    exact List.filter_sublist
  | delete listing =>
    obtain ⟨_, -, hok⟩ := bind_ok hok
    obtain ⟨_, -, hok⟩ := bind_ok hok
    obtain rfl := Except.ok.inj hok
    exact h
  | dependents trades income prices =>
    obtain rfl := Except.ok.inj hok
    exact h

theorem dated_run {exchangeCurrency : String → Option String} {digitalTokens : List String}
    {ws : List RegistryWrite}
    (hrun : GuardedRun.run step (empty exchangeCurrency digitalTokens) ws = .ok s) : s.Dated := by
  have hempty : (empty exchangeCurrency digitalTokens).Dated := fun _ => List.Pairwise.nil
  generalize empty exchangeCurrency digitalTokens = start at hrun hempty
  induction ws generalizing start with
  | nil => exact Except.ok.inj hrun ▸ hempty
  | cons w ws ih =>
    obtain ⟨mid, hstep, hrest⟩ := GuardedRun.run_cons.mp hrun
    exact ih mid hrest (hempty.step hstep)

theorem renamedSpans_starts (current : Listing) (chain : List ListingRename) :
    (renamedSpans current chain).map Identity.start =
      chain.map fun r => some r.effectiveDate := by
  induction chain with
  | nil => rfl
  | cons r rs ih =>
    cases rs with
    | nil => rfl
    | cons r' rs =>
      rw [renamedSpans, List.map_cons, ih, List.map_cons]
      · rfl
      · exact List.cons_ne_nil _ _

/-- Where the renames are dated in order, so are the spans. -/
theorem Dated.ascending (h : s.Dated) (l : Listing) :
    Ascending Identity.start (s.identities l) := by
  have hsorted : s.chainOf l.id = s.renamesOf l.id :=
    List.Pairwise.insertionSort_eq ((h l.id).imp fun hlt => hlt.le)
  have hchain := h l.id
  rw [← hsorted] at hchain
  rw [identities]
  cases hrows : s.chainOf l.id with
  | nil => exact List.pairwise_singleton _ _
  | cons r rs =>
    rw [hrows] at hchain
    have hstarts := renamedSpans_starts l (r :: rs)
    have hlater : (renamedSpans l (r :: rs)).Pairwise (Later Identity.start) := by
      have hdates : ((renamedSpans l (r :: rs)).map Identity.start).Pairwise
          fun a b => ∃ start ∈ b, ∀ earlier ∈ a, earlier < start := by
        rw [hstarts, List.pairwise_map]
        exact hchain.imp fun hlt => ⟨_, rfl, fun _ he => Option.some.inj he ▸ hlt⟩
      exact (List.pairwise_map (R := fun a b => ∃ start ∈ b, ∀ earlier ∈ a, earlier < start)).mp hdates
    refine List.pairwise_cons.mpr ⟨?_, hlater⟩
    intro i hi
    have hmem : i.start ∈ (r :: rs).map fun r => some r.effectiveDate :=
      hstarts ▸ List.mem_map_of_mem hi
    obtain ⟨r', -, hstart⟩ := List.mem_map.mp hmem
    exact ⟨r'.effectiveDate, hstart.symm, fun _ hnone => by cases hnone⟩

theorem Dated.market_ascending (h : s.Dated) (c : Calendars) (symbolOverride : Option String)
    (l : Listing) : Ascending MarketIdentity.since (s.market c symbolOverride l).identities :=
  List.pairwise_map.mpr (h.ascending l)

end Registry

/-! ### The market a valuation reads -/

def MarketIdentity.valued (i : MarketIdentity) : Valuation.MarketIdentity :=
  ⟨i.since, i.onExchange, i.holidays⟩

def Market.valued (m : Market) : Valuation.Market where
  listing := m.listing.id
  ticker := m.listing.ticker
  currency := ⟨m.listing.currency⟩
  unpricedFrom := m.listing.unpricedFrom
  identities := m.identities.map MarketIdentity.valued
  identities_ne := fun h => m.identities_ne (List.map_eq_nil_iff.mp h)

/-! ### The parts of a range -/

namespace Market
variable {m : Market} {first last start date : NaiveDate}

/-- No span starts after the first day of a segment and by its last. -/
theorem identityAt_segment (hstart : start ≤ date) (hend : date ≤ m.segmentEnd last start) :
    m.identityAt date = m.identityAt start := by
  rw [identityAt, identityAt]
  congr 1
  apply inForce_congr
  intro i hi
  cases hsince : i.since with
  | none => simp [started, hsince]
  | some d =>
    rw [Bool.eq_iff_iff, started_some hsince, started_some hsince]
    constructor
    · intro hd
      by_contra hnot
      have hmem : d ∈ (m.identities.filterMap MarketIdentity.since).filter fun d => start < d :=
        List.mem_filter.mpr ⟨List.mem_filterMap.mpr ⟨i, hi, hsince⟩,
          decide_eq_true (not_le.mp hnot)⟩
      rw [segmentEnd] at hend
      cases hnext : m.nextStart start with
      | none =>
        rw [nextStart, List.min?_eq_none_iff] at hnext
        rw [hnext] at hmem
        cases hmem
      | some next =>
        rw [hnext] at hend
        have hle : next ≤ d := (List.min?_eq_some_iff.mp hnext).2 d hmem
        have hbefore := NaiveDate.le_pred_iff.mp (hend.trans (min_le_right _ _))
        exact absurd (hd.trans_lt hbefore) (not_lt.mpr hle)
    · intro hd
      exact hd.trans hstart

/-- The span that starts on a day is another than the one in force before it. -/
theorem identityAt_ne (hasc : Ascending MarketIdentity.since m.identities)
    (hopen : ∃ i ∈ m.identities, i.since = none) {i : MarketIdentity} (hi : i ∈ m.identities)
    (hsince : i.since = some date) {before : NaiveDate} (hlt : before < date) :
    m.identityAt before ≠ m.identityAt date := by
  obtain ⟨j, hj, hstart⟩ := hasc.inForce_start hi hsince
  obtain ⟨o, ho, hnone⟩ := hopen
  cases hbefore : inForce MarketIdentity.since m.identities before with
  | none =>
    have hout := List.find?_eq_none.mp hbefore o (List.mem_reverse.mpr ho)
    exact absurd (by simp [started, hnone]) hout
  | some k =>
    rw [identityAt, identityAt, hbefore, hj, Option.getD_some, Option.getD_some]
    intro heq
    exact inForce_before hbefore hlt (heq ▸ hstart)

/-- A segment ends the range, or the day after it starts another span. -/
theorem segmentEnd_cases (m : Market) (last start : NaiveDate) :
    m.segmentEnd last start = last ∨ m.segmentEnd last start < last ∧
      ∃ i ∈ m.identities, i.since = some (m.segmentEnd last start).succ := by
  rw [segmentEnd]
  cases hnext : m.nextStart start with
  | none => exact .inl rfl
  | some next =>
    obtain ⟨-, i, hi, hsince⟩ := nextStart_some hnext
    rcases le_or_gt last next.pred with hle | hlt
    · exact .inl (min_eq_left hle)
    · have hsucc : next.pred.succ = next := Order.succ_pred next
      simp only [min_eq_right hlt.le, hsucc]
      exact .inr ⟨hlt, i, hi, hsince⟩

/-- The segments of a range: in order, end to end, each day in one of them, one
identity in force over each and another on either side of it. -/
structure Partitions (m : Market) (first last : NaiveDate) (segments : List Segment) : Prop where
  starts : ∀ g ∈ segments.head?, g.first = first
  ends : ∀ g ∈ segments.getLast?, g.last = last
  forwards : ∀ g ∈ segments, g.first ≤ g.last
  inside : ∀ g ∈ segments, first ≤ g.first ∧ g.last ≤ last
  contiguous : segments.IsChain fun a b => b.first = a.last.succ
  covers : ∀ date, first ≤ date → date ≤ last → ∃! g, g ∈ segments ∧ g.holds date = true
  constant : ∀ g ∈ segments, ∀ date, g.holds date = true → m.identityAt date = g.identity
  maximal : ∀ g ∈ segments, (first < g.first → m.identityAt g.first.pred ≠ g.identity) ∧
    (g.last < last → m.identityAt g.last.succ ≠ g.identity)

theorem holds_iff {g : Segment} : g.holds date = true ↔ g.first ≤ date ∧ date ≤ g.last := by
  rw [Segment.holds, Bool.and_eq_true, decide_eq_true_iff, decide_eq_true_iff]

theorem segmentEnd_le (m : Market) (last start : NaiveDate) : m.segmentEnd last start ≤ last := by
  rcases segmentEnd_cases m last start with heq | ⟨hlt, -⟩
  · exact heq.le
  · exact hlt.le

/-- What a segment of the loop is: it starts the range or a span. -/
theorem mem_segmentsFrom {g : Segment} (h : g ∈ m.segmentsFrom last start) :
    start ≤ g.first ∧ g.first ≤ last ∧ g.last = m.segmentEnd last g.first ∧
      g.identity = m.identityAt g.first ∧
      (g.first = start ∨ ∃ i ∈ m.identities, i.since = some g.first) := by
  induction hleft : daysLeft last start using Nat.strong_induction_on generalizing start with
  | _ n ih =>
    rw [segmentsFrom] at h
    split at h
    · rename_i hle
      rcases List.mem_cons.mp h with rfl | h
      · exact ⟨le_rfl, hle, rfl, rfl, .inl rfl⟩
      · obtain ⟨hfirst, hlast, hend, hidentity, hstart⟩ := ih _ (hleft ▸ m.daysLeft_lt hle) h rfl
        have hnext := NaiveDate.succ_le_iff.mp hfirst
        refine ⟨(m.le_segmentEnd hle).trans hnext.le, hlast, hend, hidentity, .inr ?_⟩
        rcases hstart with hstart | hstart
        · rcases segmentEnd_cases m last start with heq | ⟨-, i, hi, hsince⟩
          · rw [heq] at hnext
            exact absurd hlast (not_le.mpr hnext)
          · exact ⟨i, hi, hstart ▸ hsince⟩
        · exact hstart
    · cases h

theorem segmentsFrom_cons (h : start ≤ last) : m.segmentsFrom last start =
    ⟨start, m.segmentEnd last start, m.identityAt start⟩ ::
      m.segmentsFrom last (m.segmentEnd last start).succ := by
  rw [segmentsFrom, dif_pos h]

theorem segmentsFrom_nil (h : last < start) : m.segmentsFrom last start = [] := by
  rw [segmentsFrom, dif_neg (not_le.mpr h)]

theorem segmentsFrom_head {g : Segment} (h : g ∈ (m.segmentsFrom last start).head?) :
    g.first = start := by
  rcases le_or_gt start last with hle | hlt
  · rw [segmentsFrom_cons hle] at h
    cases h
    rfl
  · rw [segmentsFrom_nil hlt] at h
    cases h

theorem segmentsFrom_contiguous (m : Market) (last start : NaiveDate) :
    (m.segmentsFrom last start).IsChain fun a b => b.first = a.last.succ := by
  induction hleft : daysLeft last start using Nat.strong_induction_on generalizing start with
  | _ n ih =>
    rcases le_or_gt start last with hle | hlt
    · rw [segmentsFrom_cons hle, List.isChain_cons]
      refine ⟨fun g hg => segmentsFrom_head hg, ih _ (hleft ▸ m.daysLeft_lt hle) _ rfl⟩
    · rw [segmentsFrom_nil hlt]
      exact List.IsChain.nil

theorem segmentsFrom_last {g : Segment} (h : g ∈ (m.segmentsFrom last start).getLast?) :
    g.last = last := by
  induction hleft : daysLeft last start using Nat.strong_induction_on generalizing start with
  | _ n ih =>
    rcases le_or_gt start last with hle | hlt
    · rw [segmentsFrom_cons hle] at h
      rcases le_or_gt (m.segmentEnd last start).succ last with hmore | hdone
      · rw [segmentsFrom_cons hmore, List.getLast?_cons_cons, ← segmentsFrom_cons hmore] at h
        exact ih _ (hleft ▸ m.daysLeft_lt hle) h rfl
      · rw [segmentsFrom_nil hdone] at h
        cases h
        rcases segmentEnd_cases m last start with heq | ⟨hbefore, -⟩
        · exact heq
        · exact absurd (NaiveDate.succ_le_iff.mpr hbefore) (not_le.mpr hdone)
    · rw [segmentsFrom_nil hlt] at h
      cases h

/-- Each day of the range is in one of the segments. -/
theorem segmentsFrom_covers (hstart : start ≤ date) (hlast : date ≤ last) :
    ∃ g ∈ m.segmentsFrom last start, g.holds date = true := by
  induction hleft : daysLeft last start using Nat.strong_induction_on generalizing start with
  | _ n ih =>
    have hle := hstart.trans hlast
    rw [segmentsFrom_cons hle]
    rcases le_or_gt date (m.segmentEnd last start) with hin | hafter
    · exact ⟨_, List.mem_cons_self, holds_iff.mpr ⟨hstart, hin⟩⟩
    · obtain ⟨g, hg, hholds⟩ :=
        ih _ (hleft ▸ m.daysLeft_lt hle) (NaiveDate.succ_le_iff.mpr hafter) rfl
      exact ⟨g, List.mem_cons_of_mem _ hg, hholds⟩

theorem segmentsFrom_apart (m : Market) (last start : NaiveDate) :
    (m.segmentsFrom last start).Pairwise fun a b => a.last < b.first := by
  induction hleft : daysLeft last start using Nat.strong_induction_on generalizing start with
  | _ n ih =>
    rcases le_or_gt start last with hle | hlt
    · rw [segmentsFrom_cons hle, List.pairwise_cons]
      refine ⟨?_, ih _ (hleft ▸ m.daysLeft_lt hle) _ rfl⟩
      intro g hg
      exact NaiveDate.succ_le_iff.mp (mem_segmentsFrom hg).1
    · rw [segmentsFrom_nil hlt]
      exact List.Pairwise.nil

/-- Of segments apart from each other, one at most holds a day. -/
theorem holds_unique {segments : List Segment} (h : segments.Pairwise fun a b => a.last < b.first)
    {g g' : Segment} (hg : g ∈ segments) (hg' : g' ∈ segments) (hholds : g.holds date = true)
    (hholds' : g'.holds date = true) : g = g' := by
  have hnot : ∀ a b : Segment, a.last < b.first → a.holds date = true → ¬ b.holds date = true := by
    intro a b hlt ha hb
    exact absurd ((holds_iff.mp hb).1.trans (holds_iff.mp ha).2) (not_le.mpr hlt)
  induction segments with
  | nil => cases hg
  | cons a segments ih =>
    obtain ⟨hafter, hrest⟩ := List.pairwise_cons.mp h
    rcases List.mem_cons.mp hg with rfl | hin
    · rcases List.mem_cons.mp hg' with rfl | hin'
      · rfl
      · exact absurd hholds' (hnot _ _ (hafter g' hin') hholds)
    · rcases List.mem_cons.mp hg' with rfl | hin'
      · exact absurd hholds (hnot _ _ (hafter g hin) hholds')
      · exact ih hrest hin hin'

theorem identitySegments_eq (m : Market) (first last : NaiveDate) :
    m.identitySegments first last = m.segmentsFrom last first := by
  rw [identitySegments]
  split
  · rename_i hlt
    exact (segmentsFrom_nil hlt).symm
  · rfl

theorem partitions (hasc : Ascending MarketIdentity.since m.identities)
    (hopen : ∃ i ∈ m.identities, i.since = none) (first last : NaiveDate) :
    m.Partitions first last (m.identitySegments first last) := by
  rw [identitySegments_eq]
  constructor
  · exact fun g hg => segmentsFrom_head hg
  · exact fun g hg => segmentsFrom_last hg
  · intro g hg
    obtain ⟨-, hfirst, hend, -⟩ := mem_segmentsFrom hg
    exact hend ▸ m.le_segmentEnd hfirst
  · intro g hg
    obtain ⟨hfirst, -, hend, -⟩ := mem_segmentsFrom hg
    exact ⟨hfirst, hend ▸ m.segmentEnd_le last g.first⟩
  · exact segmentsFrom_contiguous m last first
  · intro date hfirst hlast
    obtain ⟨g, hg, hholds⟩ := segmentsFrom_covers (m := m) hfirst hlast
    refine ⟨g, ⟨hg, hholds⟩, ?_⟩
    rintro g' ⟨hg', hholds'⟩
    exact holds_unique (segmentsFrom_apart m last first) hg' hg hholds' hholds
  · intro g hg date hholds
    obtain ⟨hfirst, hlast⟩ := holds_iff.mp hholds
    obtain ⟨-, -, hend, hidentity, -⟩ := mem_segmentsFrom hg
    rw [hidentity]
    exact identityAt_segment hfirst (hend ▸ hlast)
  · intro g hg
    obtain ⟨-, hlast, hend, hidentity, hstart⟩ := mem_segmentsFrom hg
    rw [hidentity]
    constructor
    · intro hlater
      rcases hstart with hstart | ⟨i, hi, hsince⟩
      · exact absurd hlater (hstart ▸ lt_irrefl _)
      · exact identityAt_ne hasc hopen hi hsince (NaiveDate.pred_lt _)
    · intro hbefore
      rw [hend] at hbefore ⊢
      rcases segmentEnd_cases m last g.first with heq | ⟨-, i, hi, hsince⟩
      · rw [heq] at hbefore
        exact absurd hbefore (lt_irrefl last)
      · have hlt := NaiveDate.succ_le_iff.mp (le_refl (m.segmentEnd last g.first).succ)
        exact (identityAt_ne hasc hopen hi hsince ((m.le_segmentEnd hlast).trans_lt hlt)).symm

/-! ### Each day asked for -/

section Fetch
variable {f : PriceFetcher} {dates : List NaiveDate} {outcome : NaiveDate → Option Answer}

theorem segmentTurn_apply (m : Market) (f : PriceFetcher) (dates : List NaiveDate)
    (outcome : NaiveDate → Option Answer) (g : Segment) (date : NaiveDate) :
    m.segmentTurn f dates outcome g date =
      if date ∈ dates ∧ g.holds date = true then some (m.answer f g date) else outcome date := by
  have hfold : ∀ (days : List NaiveDate) (outcome : NaiveDate → Option Answer),
      days.foldl (fun o d => Function.update o d (some (m.answer f g d))) outcome date =
        if date ∈ days then some (m.answer f g date) else outcome date := by
    intro days
    induction days with
    | nil =>
      intro outcome
      simp
    | cons d days ih =>
      intro outcome
      rw [List.foldl_cons, ih]
      by_cases hin : date ∈ days
      · rw [if_pos hin, if_pos (List.mem_cons_of_mem _ hin)]
      · rw [if_neg hin]
        by_cases heq : date = d
        · rw [heq, Function.update_self, if_pos List.mem_cons_self]
        · have hout : date ∉ d :: days := mt List.mem_cons.mp (not_or.mpr ⟨heq, hin⟩)
          rw [Function.update_of_ne heq, if_neg hout]
  simp only [segmentTurn, hfold, List.mem_filter]

theorem segmentTurns_other (segments : List Segment)
    (hnone : ∀ g ∈ segments, ¬ g.holds date = true) :
    segments.foldl (m.segmentTurn f dates) outcome date = outcome date := by
  induction segments generalizing outcome with
  | nil => rfl
  | cons a segments ih =>
    rw [List.foldl_cons, ih fun g hg => hnone g (List.mem_cons_of_mem _ hg), segmentTurn_apply,
      if_neg]
    exact fun h => hnone a List.mem_cons_self h.2

/-- A day's outcome is what its one segment answered for it. -/
theorem segmentTurns_apply {segments : List Segment}
    (hapart : segments.Pairwise fun a b => a.last < b.first) {g : Segment} (hg : g ∈ segments)
    (hholds : g.holds date = true) (hdate : date ∈ dates) :
    segments.foldl (m.segmentTurn f dates) outcome date = some (m.answer f g date) := by
  induction segments generalizing outcome with
  | nil => cases hg
  | cons a segments ih =>
    obtain ⟨hafter, hrest⟩ := List.pairwise_cons.mp hapart
    rw [List.foldl_cons]
    rcases List.mem_cons.mp hg with rfl | hin
    · rw [segmentTurns_other, segmentTurn_apply, if_pos ⟨hdate, hholds⟩]
      intro g' hg' hholds'
      have hlt := hafter g' hg'
      exact absurd ((holds_iff.mp hholds').1.trans (holds_iff.mp hholds).2) (not_le.mpr hlt)
    · exact ih hrest hin

theorem rowsFrom_eq (hnodup : dates.Nodup) : rowsFrom outcome dates =
    dates.map fun date => (date, (outcome date).getD ⟨none, .error .noSpan⟩) := by
  induction dates generalizing outcome with
  | nil => rfl
  | cons d dates ih =>
    obtain ⟨hd, hdates⟩ := List.nodup_cons.mp hnodup
    rw [rowsFrom, ih hdates, List.map_cons]
    congr 1
    apply List.map_congr_left
    intro date hdate
    have hne : date ≠ d := fun heq => hd (heq ▸ hdate)
    rw [Function.update_of_ne hne]

theorem dayResult_ne (m : Market) (f : PriceFetcher) (g : Segment) (date : NaiveDate) :
    m.dayResult f g date ≠ .error .noSpan := by
  intro h
  rw [dayResult] at h
  split at h
  · cases h
  · cases h
  · cases h
  · split at h
    · cases h
    · split at h
      · cases h
      · cases h

theorem mem_range (hdate : date ∈ dates) : ∃ lo hi, dates.min? = some lo ∧ dates.max? = some hi ∧
    lo ≤ date ∧ date ≤ hi := by
  cases hlo : dates.min? with
  | none =>
    rw [List.min?_eq_none_iff] at hlo
    rw [hlo] at hdate
    cases hdate
  | some lo =>
    cases hhi : dates.max? with
    | none =>
      rw [List.max?_eq_none_iff] at hhi
      rw [hhi] at hdate
      cases hdate
    | some hi =>
      exact ⟨lo, hi, rfl, rfl, (List.min?_eq_some_iff.mp hlo).2 date hdate,
        (List.max?_eq_some_iff.mp hhi).2 date hdate⟩

/-- Every day asked for is answered by the one segment of the range it is in. -/
theorem fetchAndStore_answers (m : Market) (f : PriceFetcher) (hnodup : dates.Nodup) :
    (m.fetchAndStore f dates).map Prod.fst = dates ∧ ∀ row ∈ m.fetchAndStore f dates,
      ∃ lo hi, dates.min? = some lo ∧ dates.max? = some hi ∧
        ∃ g ∈ m.identitySegments lo hi, g.holds row.1 = true ∧ row.2 = m.answer f g row.1 := by
  cases dates with
  | nil => exact ⟨rfl, fun _ h => absurd h List.not_mem_nil⟩
  | cons d rest =>
    obtain ⟨lo, hi, hlo, hhi, -, -⟩ := mem_range (List.mem_cons_self (a := d) (l := rest))
    have hrows : m.fetchAndStore f (d :: rest) = (d :: rest).map fun date => (date,
        ((m.identitySegments lo hi).foldl (m.segmentTurn f (d :: rest)) (fun _ => none) date).getD
          ⟨none, .error .noSpan⟩) := by
      rw [fetchAndStore, hlo, hhi]
      exact rowsFrom_eq hnodup
    rw [hrows]
    constructor
    · rw [List.map_map]
      exact List.map_id _
    · intro row hrow
      obtain ⟨date, hdate, rfl⟩ := List.mem_map.mp hrow
      obtain ⟨lo', hi', hlo', hhi', hfirst, hlast⟩ := mem_range hdate
      rw [hlo] at hlo'
      rw [hhi] at hhi'
      cases hlo'
      cases hhi'
      rw [identitySegments_eq]
      obtain ⟨g, hg, hholds⟩ := segmentsFrom_covers (m := m) hfirst hlast
      refine ⟨lo, hi, hlo, hhi, g, ?_, hholds, ?_⟩
      · rw [identitySegments_eq]
        exact hg
      · simp only [segmentTurns_apply (segmentsFrom_apart m hi lo) hg hholds hdate,
          Option.getD_some]

end Fetch

end Market

/-- The earliest span of a market is open-ended. -/
theorem Registry.market_open (s : Registry) (c : Calendars) (symbolOverride : Option String)
    (l : Listing) : ∃ i ∈ (s.market c symbolOverride l).identities, i.since = none := by
  have hopen : ∃ i ∈ s.identities l, i.start = none := by
    rw [identities]
    split
    · exact ⟨_, List.mem_cons_self, rfl⟩
    · exact ⟨_, List.mem_cons_self, rfl⟩
  obtain ⟨i, hi, hstart⟩ := hopen
  exact ⟨c.assemble i, List.mem_map_of_mem hi, hstart⟩

/-- After any run of the registry, a listing's identities split every range in
parts end to end, and a fetch of distinct days answers each under its own part. -/
theorem identitySegments_partition {exchangeCurrency : String → Option String}
    {digitalTokens : List String} {ws : List RegistryWrite} {s : Registry}
    (hrun : GuardedRun.run Registry.step (Registry.empty exchangeCurrency digitalTokens) ws = .ok s)
    (c : Calendars) (symbolOverride : Option String) (l : Listing) (first last : NaiveDate) :
    (s.market c symbolOverride l).Partitions first last
        ((s.market c symbolOverride l).identitySegments first last) ∧
      ∀ f dates, dates.Nodup →
        ((s.market c symbolOverride l).fetchAndStore f dates).map Prod.fst = dates ∧
        ∀ row ∈ (s.market c symbolOverride l).fetchAndStore f dates,
          row.2.result ≠ .error .noSpan ∧
          ∃ lo hi, dates.min? = some lo ∧ dates.max? = some hi ∧
            ∃ g ∈ (s.market c symbolOverride l).identitySegments lo hi, g.holds row.1 = true ∧
              row.2 = (s.market c symbolOverride l).answer f g row.1 ∧
              ∀ g' ∈ (s.market c symbolOverride l).identitySegments lo hi,
                g'.holds row.1 = true → g' = g := by
  have hasc := (Registry.dated_run hrun).market_ascending c symbolOverride l
  have hopen := s.market_open c symbolOverride l
  generalize s.market c symbolOverride l = m at hasc hopen
  refine ⟨m.partitions hasc hopen first last, ?_⟩
  intro f dates hnodup
  obtain ⟨hdates, hrows⟩ := m.fetchAndStore_answers f hnodup
  refine ⟨hdates, ?_⟩
  intro row hrow
  obtain ⟨lo, hi, hlo, hhi, g, hg, hholds, hanswer⟩ := hrows row hrow
  constructor
  · rw [hanswer]
    exact m.dayResult_ne f g row.1
  · refine ⟨lo, hi, hlo, hhi, g, hg, hholds, hanswer, ?_⟩
    intro g' hg' hholds'
    rw [Market.identitySegments_eq] at hg hg'
    exact Market.holds_unique (Market.segmentsFrom_apart m hi lo) hg' hg hholds' hholds

theorem identitySegments_partition_renamed :
    ∃ s, GuardedRun.run Registry.step (Registry.empty (fun _ => none) []) Registry.renamedTwice =
        .ok s ∧
      (s.market ⟨fun _ => true, fun _ => []⟩ none (Registry.shareListing 1 "LAR")).Partitions
        (ymd 2026 1 5) (ymd 2026 2 20)
        ((s.market ⟨fun _ => true, fun _ => []⟩ none (Registry.shareListing 1 "LAR")).identitySegments
          (ymd 2026 1 5) (ymd 2026 2 20)) := by
  have hruns : accepts (GuardedRun.run Registry.step (Registry.empty (fun _ => none) [])
      Registry.renamedTwice) (fun _ => true) = true := by
    decide
  obtain ⟨s, hs⟩ := exists_ok hruns
  exact ⟨s, hs, (identitySegments_partition hs ⟨fun _ => true, fun _ => []⟩ none
    (Registry.shareListing 1 "LAR") (ymd 2026 1 5) (ymd 2026 2 20)).1⟩

end ShareTracker.Renames
