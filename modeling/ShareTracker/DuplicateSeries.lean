import ShareTracker.TaxYear
import ShareTracker.Lib.Keyed
import ShareTracker.Lib.LongestRun

/-!
Listings that share one price series: the longest run of equal closes of each
pair, and what a run that never moves hides of it.
-/
namespace ShareTracker.DuplicateSeries

/-- The consecutive comparisons that make a copy. -/
def runDays : ℕ := 30

inductive PriceOrigin where
  | fetched
  | manual
  deriving DecidableEq

/-- A stored ok closing price. -/
structure StoredClose where
  listing : ℤ
  priceDate : NaiveDate
  price : ℚ
  origin : PriceOrigin
  deriving DecidableEq

def StoredClose.key (c : StoredClose) : ℤ × NaiveDate := (c.listing, c.priceDate)

/-- The ok closes: one a listing and day. -/
structure OkCloses where
  rows : List StoredClose
  unique : (rows.map StoredClose.key).Nodup

/-! ### The walk over two series -/

structure IdenticalRun where
  length : ℤ
  start : NaiveDate
  ends : NaiveDate
  firstPrice : ℚ
  varies : Bool
  manualDays : ℤ
  otherManualDays : ℤ
  deriving DecidableEq

def manualDay (c : StoredClose) : ℤ := if c.origin = .manual then 1 else 0

/-- A run no day has been counted into. -/
def IdenticalRun.opened (x : StoredClose) : IdenticalRun :=
  ⟨0, x.priceDate, x.priceDate, x.price, false, 0, 0⟩

def IdenticalRun.extended (run : IdenticalRun) (x y : StoredClose) : IdenticalRun where
  length := run.length + 1
  start := run.start
  ends := x.priceDate
  firstPrice := run.firstPrice
  varies := run.varies || x.price ≠ run.firstPrice
  manualDays := run.manualDays + manualDay x
  otherManualDays := run.otherManualDays + manualDay y

/-- The run the walk is in, and the best one so far. -/
structure Runs where
  current : Option IdenticalRun
  best : Option IdenticalRun

/-- One day both series have. -/
def Runs.compared (s : Runs) (x y : StoredClose) : Runs :=
  if x.price = y.price then
    let run := (s.current.getD (.opened x)).extended x y
    ⟨some run, if s.best.all fun b => b.length < run.length then some run else s.best⟩
  else ⟨none, s.best⟩

/-- The walk past the days of `b` up to the day of `x`; `rest` goes on with the
days of the other series after it. -/
def past (x : StoredClose) (rest : List StoredClose → Runs → Runs) : List StoredClose → Runs → Runs
  | [], s => s
  | y :: ys, s =>
    if x.priceDate < y.priceDate then rest (y :: ys) s
    else if y.priceDate < x.priceDate then past x rest ys s
    else rest ys (s.compared x y)

def merged : List StoredClose → List StoredClose → Runs → Runs
  | [], _, s => s
  | x :: xs, b, s => past x (merged xs) b s

/-- The longest run of consecutive shared days with an equal close. -/
def longestIdenticalRun (a b : List StoredClose) : Option IdenticalRun := (merged a b ⟨none, none⟩).best

/-! ### The report -/

structure DuplicatePriceSeries where
  listing : ℤ
  otherListing : ℤ
  identicalDays : ℤ
  earliestDate : NaiveDate
  latestDate : NaiveDate
  fetchedDays : ℤ
  manualDays : ℤ
  otherFetchedDays : ℤ
  otherManualDays : ℤ
  deriving DecidableEq

/-- The closes of a listing by date. -/
def OkCloses.series (t : OkCloses) (listing : ℤ) : List StoredClose :=
  StableSort.sortBy StoredClose.priceDate (t.rows.filter fun c => c.listing = listing)

/-- The listings with a close, ascending. -/
def OkCloses.listings (t : OkCloses) : List ℤ :=
  StableSort.sortBy id (t.rows.map StoredClose.listing).dedup

/-- Each pair once, by id. -/
def pairs : List ℤ → List (ℤ × ℤ)
  | [] => []
  | i :: ids => ids.map (fun j => (i, j)) ++ pairs ids

/-- What is reported of a pair. -/
def OkCloses.duplicate (t : OkCloses) (pair : ℤ × ℤ) : Option DuplicatePriceSeries :=
  match longestIdenticalRun (t.series pair.1) (t.series pair.2) with
  | none => none
  | some run =>
    if run.length < runDays || !run.varies then none
    else some ⟨pair.1, pair.2, run.length, run.start, run.ends, run.length - run.manualDays,
      run.manualDays, run.length - run.otherManualDays, run.otherManualDays⟩

/-- The pairs that share a series, the newest run first. -/
def dbDuplicatePriceSeries (t : OkCloses) : List DuplicatePriceSeries :=
  StableSort.sortBy (fun d => toLex (OrderDual.toDual d.latestDate, toLex (d.listing, d.otherListing)))
    ((pairs t.listings).filterMap t.duplicate)

/-! ### Comparisons -/

/-- The days both series have, by date. -/
def comparisons (a b : List StoredClose) : List (StoredClose × StoredClose) :=
  a.filterMap fun x => (b.find? fun y => y.priceDate = x.priceDate).map fun y => (x, y)

def equalCloses (c : StoredClose × StoredClose) : Bool := c.1.price = c.2.price

/-- Two days of the run close at different figures. -/
def Moves (r : List (StoredClose × StoredClose)) : Prop := ∃ c ∈ r, ∃ c' ∈ r, c.1.price ≠ c'.1.price

/-- A run of enough comparisons with equal closes that are not all one figure. -/
def IsCopy (cs r : List (StoredClose × StoredClose)) : Prop :=
  (∃ before after, LongestRun.IsRun equalCloses cs before r after) ∧ runDays ≤ r.length ∧ Moves r

abbrev Dated (l : List StoredClose) : Prop := l.Pairwise fun x y => x.priceDate < y.priceDate

section Walk

theorem find?_later {b : List StoredClose} {x : StoredClose} (h : ∀ y ∈ b, x.priceDate < y.priceDate) :
    (b.find? fun y => y.priceDate = x.priceDate) = none := by
  apply List.find?_eq_none.mpr
  intro y hy
  simpa using (h y hy).ne'

theorem comparisons_drop {a b : List StoredClose} {y : StoredClose}
    (h : ∀ x ∈ a, y.priceDate < x.priceDate) : comparisons a (y :: b) = comparisons a b := by
  unfold comparisons
  refine List.filterMap_congr fun x hx => ?_
  rw [List.find?_cons_of_neg (by simpa using (h x hx).ne)]

theorem past_eq {x : StoredClose} {xs : List StoredClose} (hx : Dated (x :: xs))
    (hrest : ∀ b s, Dated b → merged xs b s =
      (comparisons xs b).foldl (fun s c => s.compared c.1 c.2) s)
    {b : List StoredClose} (hb : Dated b) (s : Runs) :
    past x (merged xs) b s =
      (comparisons (x :: xs) b).foldl (fun s c => s.compared c.1 c.2) s := by
  obtain ⟨hfirst, -⟩ := List.pairwise_cons.mp hx
  induction b generalizing s with
  | nil => simp [past, comparisons]
  | cons y ys ih =>
    obtain ⟨hy, hys⟩ := List.pairwise_cons.mp hb
    rw [past]
    split
    · rename_i hlt
      have hnone : ((y :: ys).find? fun z => z.priceDate = x.priceDate) = none := by
        apply find?_later
        intro z hz
        rcases List.mem_cons.mp hz with rfl | hz
        · exact hlt
        · exact hlt.trans (hy z hz)
      have hskip : comparisons (x :: xs) (y :: ys) = comparisons xs (y :: ys) := by
        rw [comparisons, List.filterMap_cons, hnone]
        rfl
      rw [hrest _ s hb, hskip]
    · rename_i hle
      split
      · rename_i hgt
        have hdrop : comparisons (x :: xs) (y :: ys) = comparisons (x :: xs) ys := by
          apply comparisons_drop
          intro z hz
          rcases List.mem_cons.mp hz with rfl | hz
          · exact hgt
          · exact hgt.trans (hfirst z hz)
        rw [ih hys s, hdrop]
      · rename_i hge
        have hsame : y.priceDate = x.priceDate := le_antisymm (not_lt.mp hle) (not_lt.mp hge)
        have hmatch : comparisons (x :: xs) (y :: ys) = (x, y) :: comparisons xs ys := by
          have hdrop : comparisons xs (y :: ys) = comparisons xs ys :=
            comparisons_drop fun z hz => hsame ▸ hfirst z hz
          rw [comparisons, List.filterMap_cons, List.find?_cons_of_pos (by simpa using hsame)]
          exact congrArg _ hdrop
        rw [hrest _ _ hys, hmatch, List.foldl_cons]

/-- The walk goes through the comparisons in order. -/
theorem merged_eq {a : List StoredClose} (ha : Dated a) {b : List StoredClose} (hb : Dated b)
    (s : Runs) : merged a b s = (comparisons a b).foldl (fun s c => s.compared c.1 c.2) s := by
  induction a generalizing b s with
  | nil => rfl
  | cons x xs ih =>
    obtain ⟨-, hxs⟩ := List.pairwise_cons.mp ha
    exact past_eq ha (fun b s hb => ih hxs hb s) hb s

end Walk

/-! ### Runs as the walk keeps them -/

/-- What the walk keeps of a run. -/
def summary : List (StoredClose × StoredClose) → Option IdenticalRun
  | [] => none
  | c :: r => some ((c :: r).foldl (fun run d => run.extended d.1 d.2) (.opened c.1))

theorem summary_concat (r : List (StoredClose × StoredClose)) (c : StoredClose × StoredClose) :
    summary (r ++ [c]) = some (((summary r).getD (.opened c.1)).extended c.1 c.2) := by
  cases r with
  | nil => rfl
  | cons d r => simp [summary]

/-- A run's figures are those of its days. -/
structure Describes (run : IdenticalRun) (r : List (StoredClose × StoredClose)) : Prop where
  length : run.length = r.length
  start : (r.head?.map fun c => c.1.priceDate) = some run.start
  ends : (r.getLast?.map fun c => c.1.priceDate) = some run.ends
  first : (r.head?.map fun c => c.1.price) = some run.firstPrice
  varies : run.varies = true ↔ Moves r
  manual : run.manualDays = (r.filter fun c => c.1.origin = .manual).length
  otherManual : run.otherManualDays = (r.filter fun c => c.2.origin = .manual).length

theorem moves_iff_head {c : StoredClose × StoredClose} {r : List (StoredClose × StoredClose)} :
    Moves (c :: r) ↔ ∃ d ∈ c :: r, d.1.price ≠ c.1.price := by
  constructor
  · rintro ⟨d, hd, d', hd', hne⟩
    by_cases h : d.1.price = c.1.price
    · exact ⟨d', hd', fun h' => hne (h.trans h'.symm)⟩
    · exact ⟨d, hd, h⟩
  · rintro ⟨d, hd, hne⟩
    exact ⟨d, hd, c, List.mem_cons_self, hne⟩

theorem describes_one (c : StoredClose × StoredClose) :
    Describes ((IdenticalRun.opened c.1).extended c.1 c.2) [c] where
  length := by simp [IdenticalRun.extended, IdenticalRun.opened]
  start := rfl
  ends := rfl
  first := rfl
  varies := by
    rw [moves_iff_head]
    simp [IdenticalRun.extended, IdenticalRun.opened]
  manual := by
    by_cases h : c.1.origin = .manual <;>
      simp [IdenticalRun.extended, IdenticalRun.opened, manualDay, h]
  otherManual := by
    by_cases h : c.2.origin = .manual <;>
      simp [IdenticalRun.extended, IdenticalRun.opened, manualDay, h]

theorem Describes.extended {run : IdenticalRun} {d : StoredClose × StoredClose}
    {r : List (StoredClose × StoredClose)} (h : Describes run (d :: r))
    (c : StoredClose × StoredClose) : Describes (run.extended c.1 c.2) (d :: r ++ [c]) where
  length := by
    rw [IdenticalRun.extended, h.length]
    simp
  start := h.start
  ends := by
    rw [List.getLast?_concat]
    rfl
  first := h.first
  varies := by
    have hfirst : d.1.price = run.firstPrice := Option.some_inj.mp h.first
    have hvaries := h.varies
    rw [moves_iff_head] at hvaries
    rw [List.cons_append, moves_iff_head, IdenticalRun.extended]
    simp only [Bool.or_eq_true, hvaries, decide_eq_true_eq, ← hfirst]
    simp only [← List.cons_append, List.mem_append, List.mem_singleton, or_and_right, exists_or,
      exists_eq_left]
  manual := by
    rw [IdenticalRun.extended, h.manual, List.filter_append]
    by_cases hc : c.1.origin = .manual <;> simp [manualDay, hc]
  otherManual := by
    rw [IdenticalRun.extended, h.otherManual, List.filter_append]
    by_cases hc : c.2.origin = .manual <;> simp [manualDay, hc]

theorem summary_describes {r : List (StoredClose × StoredClose)} {run : IdenticalRun}
    (h : summary r = some run) : Describes run r := by
  induction r using List.reverseRecOn generalizing run with
  | nil => cases h
  | append_singleton r c ih =>
    rw [summary_concat] at h
    obtain rfl := Option.some_inj.mp h
    cases r with
    | nil => exact describes_one c
    | cons d r =>
      have hrest : summary (d :: r) = some _ := rfl
      rw [hrest, Option.getD_some]
      exact (ih hrest).extended c

/-- The walk keeps the runs of the scan. -/
theorem compared_scan (cs : List (StoredClose × StoredClose)) :
    cs.foldl (fun s c => s.compared c.1 c.2) ⟨none, none⟩ =
      (⟨summary (LongestRun.scan equalCloses cs).current,
        summary (LongestRun.scan equalCloses cs).best⟩ : Runs) := by
  induction cs using List.reverseRecOn with
  | nil => rfl
  | append_singleton cs c ih =>
    have hscan : LongestRun.scan equalCloses (cs ++ [c]) =
        (LongestRun.scan equalCloses cs).step equalCloses c := by simp [LongestRun.scan]
    rw [List.foldl_append, List.foldl_cons, List.foldl_nil, ih, hscan]
    generalize LongestRun.scan equalCloses cs = s
    unfold Runs.compared LongestRun.Scan.step
    by_cases hc : c.1.price = c.2.price
    · have heq : equalCloses c = true := decide_eq_true hc
      have hlonger : ((summary s.best).all fun b =>
          b.length < (((summary s.current).getD (.opened c.1)).extended c.1 c.2).length) =
            decide (s.best.length < (s.current ++ [c]).length) := by
        have hgrown := (summary_describes (summary_concat s.current c)).length
        rw [hgrown]
        cases hbest : summary s.best with
        | none =>
          cases hs : s.best with
          | nil => simp
          | cons d r => simp [hs, summary] at hbest
        | some run => simp [(summary_describes hbest).length]
      rw [if_pos hc, if_pos heq, summary_concat]
      simp only [hlonger, decide_eq_true_eq]
      split
      · rw [summary_concat]
      · rfl
    · have hne : ¬ equalCloses c = true := by simpa [equalCloses] using hc
      rw [if_neg hc, if_neg hne]
      rfl

theorem longestIdenticalRun_eq {a b : List StoredClose} (ha : Dated a) (hb : Dated b) :
    longestIdenticalRun a b = summary (LongestRun.scan equalCloses (comparisons a b)).best := by
  rw [longestIdenticalRun, merged_eq ha hb, compared_scan]

/-! ### What is reported -/

section Report
variable (t : OkCloses)

theorem OkCloses.series_dated (listing : ℤ) : Dated (t.series listing) := by
  refine StableSort.sortBy_strict ?_ ?_
  · have hrows := (List.Nodup.of_map _ t.unique).filter fun c => c.listing = listing
    exact hrows
  · intro a ha b hb hdate
    obtain ⟨ha, hla⟩ := List.mem_filter.mp ha
    obtain ⟨hb, hlb⟩ := List.mem_filter.mp hb
    refine Keyed.eq_of_key t.unique ha hb (Prod.ext ?_ hdate)
    exact (of_decide_eq_true hla).trans (of_decide_eq_true hlb).symm

theorem OkCloses.listings_ascending : t.listings.Pairwise (· < ·) :=
  StableSort.sortBy_strict (List.nodup_dedup _) fun _ _ _ _ h => h

theorem mem_pairs {ids : List ℤ} (h : ids.Pairwise (· < ·)) {i j : ℤ} :
    (i, j) ∈ pairs ids ↔ i ∈ ids ∧ j ∈ ids ∧ i < j := by
  induction ids with
  | nil => simp [pairs]
  | cons k ids ih =>
    obtain ⟨hk, hids⟩ := List.pairwise_cons.mp h
    rw [pairs, List.mem_append, ih hids, List.mem_map]
    constructor
    · rintro (⟨j', hj', heq⟩ | ⟨hi, hj, hij⟩)
      · obtain ⟨rfl, rfl⟩ := Prod.ext_iff.mp heq
        exact ⟨List.mem_cons_self, List.mem_cons_of_mem _ hj', hk _ hj'⟩
      · exact ⟨List.mem_cons_of_mem _ hi, List.mem_cons_of_mem _ hj, hij⟩
    · rintro ⟨hi, hj, hij⟩
      rcases List.mem_cons.mp hi with hik | hi'
      · rcases List.mem_cons.mp hj with hjk | hj'
        · exact absurd (hik.trans hjk.symm) hij.ne
        · exact Or.inl ⟨j, hj', Prod.ext hik.symm rfl⟩
      · rcases List.mem_cons.mp hj with hjk | hj'
        · exact absurd hij (not_lt.mpr (hjk ▸ (hk i hi').le))
        · exact Or.inr ⟨hi', hj', hij⟩

/-- The comparisons of a pair of listings. -/
def OkCloses.compared (l l' : ℤ) : List (StoredClose × StoredClose) :=
  comparisons (t.series l) (t.series l')

/-- The first of the longest runs of a pair's comparisons. -/
def OkCloses.longest (l l' : ℤ) : List (StoredClose × StoredClose) :=
  (LongestRun.scan equalCloses (t.compared l l')).best

variable {t} {l l' : ℤ}

theorem mem_listings_of_series {c : StoredClose} (h : c ∈ t.series l) : l ∈ t.listings := by
  obtain ⟨hc, hl⟩ := List.mem_filter.mp (StableSort.mem_sortBy.mp h)
  refine StableSort.mem_sortBy.mpr (List.mem_dedup.mpr ?_)
  exact of_decide_eq_true hl ▸ List.mem_map_of_mem hc

theorem mem_series_of_compared {c : StoredClose × StoredClose} (h : c ∈ t.compared l l') :
    c.1 ∈ t.series l ∧ c.2 ∈ t.series l' := by
  obtain ⟨x, hx, hy⟩ := List.mem_filterMap.mp h
  obtain ⟨y, hfind, rfl⟩ := Option.map_eq_some_iff.mp hy
  exact ⟨hx, List.mem_of_find?_eq_some hfind⟩

/-- A report of the pair shows the run's days. -/
structure Shows (d : DuplicatePriceSeries) (r : List (StoredClose × StoredClose)) : Prop where
  days : d.identicalDays = r.length
  earliest : (r.head?.map fun c => c.1.priceDate) = some d.earliestDate
  latest : (r.getLast?.map fun c => c.1.priceDate) = some d.latestDate
  fetched : d.fetchedDays = (r.filter fun c => c.1.origin = .fetched).length
  manual : d.manualDays = (r.filter fun c => c.1.origin = .manual).length
  otherFetched : d.otherFetchedDays = (r.filter fun c => c.2.origin = .fetched).length
  otherManual : d.otherManualDays = (r.filter fun c => c.2.origin = .manual).length

theorem fetched_days {origin : StoredClose × StoredClose → PriceOrigin}
    (r : List (StoredClose × StoredClose)) :
    (r.length : ℤ) - (r.filter fun c => origin c = .manual).length =
      (r.filter fun c => origin c = .fetched).length := by
  induction r with
  | nil => rfl
  | cons c r ih =>
    rw [List.filter_cons, List.filter_cons]
    cases origin c <;> simp <;> omega

theorem duplicate_eq_some {d : DuplicatePriceSeries} (h : t.duplicate (l, l') = some d) :
    runDays ≤ (t.longest l l').length ∧ Moves (t.longest l l') ∧ d.listing = l ∧
      d.otherListing = l' ∧ Shows d (t.longest l l') := by
  unfold OkCloses.duplicate at h
  rw [longestIdenticalRun_eq (t.series_dated l) (t.series_dated l')] at h
  change (match summary (t.longest l l') with | none => none | some run => _) = _ at h
  cases hrun : summary (t.longest l l') with
  | none => simp [hrun] at h
  | some run =>
    have hdescribes := summary_describes hrun
    simp only [hrun] at h
    split at h
    · cases h
    · rename_i hcopy
      obtain rfl := Option.some_inj.mp h
      simp only [Bool.or_eq_true, decide_eq_true_eq, Bool.not_eq_true', not_or, not_lt,
        Bool.not_eq_false] at hcopy
      rw [hdescribes.length] at hcopy
      refine ⟨by exact_mod_cast hcopy.1, hdescribes.varies.mp hcopy.2, rfl, rfl,
        hdescribes.length, hdescribes.start, hdescribes.ends, ?_, hdescribes.manual, ?_,
        hdescribes.otherManual⟩
      · simp only [hdescribes.length, hdescribes.manual]
        exact fetched_days _
      · simp only [hdescribes.length, hdescribes.otherManual]
        exact fetched_days _

theorem duplicate_of_copy (hdays : runDays ≤ (t.longest l l').length)
    (hmoves : Moves (t.longest l l')) : (t.duplicate (l, l')).isSome = true := by
  unfold OkCloses.duplicate
  rw [longestIdenticalRun_eq (t.series_dated l) (t.series_dated l')]
  change (match summary (t.longest l l') with | none => none | some run => _).isSome = true
  cases hrun : summary (t.longest l l') with
  | none =>
    cases hlongest : t.longest l l' with
    | nil => simp [hlongest, runDays] at hdays
    | cons c r => simp [hlongest, summary] at hrun
  | some run =>
    have hdescribes := summary_describes hrun
    have hlength : ¬ run.length < runDays := by
      rw [hdescribes.length]
      exact_mod_cast not_lt.mpr hdays
    simp [hlength, hdescribes.varies.mpr hmoves]

/-- A pair is reported where the first of its longest runs is a copy. -/
theorem mem_report (hl : l < l') {d : DuplicatePriceSeries} :
    (d ∈ dbDuplicatePriceSeries t ∧ d.listing = l ∧ d.otherListing = l') ↔
      t.duplicate (l, l') = some d := by
  unfold dbDuplicatePriceSeries
  rw [StableSort.mem_sortBy, List.mem_filterMap]
  constructor
  · rintro ⟨⟨⟨i, j⟩, -, hd⟩, rfl, rfl⟩
    obtain ⟨-, -, hi, hj, -⟩ := duplicate_eq_some hd
    rw [hi, hj]
    exact hd
  · intro hd
    obtain ⟨hdays, hmoves, hi, hj, -⟩ := duplicate_eq_some hd
    refine ⟨⟨(l, l'), ?_, hd⟩, hi, hj⟩
    obtain ⟨c, hc, -⟩ := hmoves
    obtain ⟨before, after, hlongest⟩ := LongestRun.scan_best (p := equalCloses) (t.compared l l')
    have hmem : c ∈ t.compared l l' := by
      rw [hlongest.split]
      exact List.mem_append_left _ (List.mem_append_right _ hc)
    obtain ⟨hx, hy⟩ := mem_series_of_compared hmem
    exact (mem_pairs t.listings_ascending).mpr
      ⟨mem_listings_of_series hx, mem_listings_of_series hy, hl⟩

/-- A pair with a copied series is reported, with the longest such run. -/
structure ReportsCopies (t : OkCloses) (l l' : ℤ) : Prop where
  reported : (∃ d ∈ dbDuplicatePriceSeries t, d.listing = l ∧ d.otherListing = l') ↔
    ∃ r, IsCopy (t.compared l l') r
  shown : ∀ d ∈ dbDuplicatePriceSeries t, d.listing = l → d.otherListing = l' →
    ∃ r, IsCopy (t.compared l l') r ∧ Shows d r ∧
      ∀ r', IsCopy (t.compared l l') r' → r'.length ≤ r.length

/-- Where a run is a copy, the first of the longest runs of equal closes moves. -/
def Unhidden (cs : List (StoredClose × StoredClose)) : Prop :=
  (∃ r, IsCopy cs r) →
    ∃ before r after, LongestRun.IsFirstLongest equalCloses cs before r after ∧ Moves r

theorem longest_copy (hdays : runDays ≤ (t.longest l l').length)
    (hmoves : Moves (t.longest l l')) : IsCopy (t.compared l l') (t.longest l l') := by
  obtain ⟨before, after, hlongest⟩ := LongestRun.scan_best (p := equalCloses) (t.compared l l')
  exact ⟨⟨before, after, hlongest.toIsRun⟩, hdays, hmoves⟩

theorem copy_le_longest {r : List (StoredClose × StoredClose)} (h : IsCopy (t.compared l l') r) :
    r.length ≤ (t.longest l l').length := by
  obtain ⟨⟨before, after, hr⟩, -, -⟩ := h
  obtain ⟨_, _, hlongest⟩ := LongestRun.scan_best (p := equalCloses) (t.compared l l')
  exact (hlongest.first before r after hr).1

/-- The report holds every copy of a pair exactly where no run that never moves is
longer than each copy, or as long and before it. -/
theorem reports_copies_iff_unhidden (t : OkCloses) (l l' : ℤ) (hl : l < l') :
    ReportsCopies t l l' ↔ Unhidden (t.compared l l') := by
  obtain ⟨before, after, hlongest⟩ := LongestRun.scan_best (p := equalCloses) (t.compared l l')
  constructor
  · rintro ⟨hreported, -⟩ hcopy
    obtain ⟨d, hd, hi, hj⟩ := hreported.mpr hcopy
    obtain ⟨-, hmoves, -⟩ := duplicate_eq_some ((mem_report hl).mp ⟨hd, hi, hj⟩)
    exact ⟨before, _, after, hlongest, hmoves⟩
  · intro hunhidden
    refine ⟨⟨?_, fun hcopy => ?_⟩, ?_⟩
    · rintro ⟨d, hd, hi, hj⟩
      obtain ⟨hdays, hmoves, -⟩ := duplicate_eq_some ((mem_report hl).mp ⟨hd, hi, hj⟩)
      exact ⟨_, longest_copy hdays hmoves⟩
    · obtain ⟨b, r, a, hr, hmoves⟩ := hunhidden hcopy
      obtain rfl := hr.unique hlongest
      obtain ⟨r', hr'⟩ := hcopy
      have hdays := hr'.2.1.trans (copy_le_longest hr')
      obtain ⟨d, hd⟩ := Option.isSome_iff_exists.mp (duplicate_of_copy hdays hmoves)
      obtain ⟨hmem, hi, hj⟩ := (mem_report hl).mpr hd
      exact ⟨d, hmem, hi, hj⟩
    · intro d hd hi hj
      obtain ⟨hdays, hmoves, -, -, hshows⟩ := duplicate_eq_some ((mem_report hl).mp ⟨hd, hi, hj⟩)
      exact ⟨_, longest_copy hdays hmoves, hshows, fun _ => copy_le_longest⟩

end Report

/-! ### A copy behind a pinned figure -/

/-- The closes of two listings: `31` days both are pinned at `1`, a day they differ
on, and `30` days the one repeats the other's moving closes. -/
def pinnedThenCopied (i : ℕ) : List StoredClose :=
  let date := ymd 2024 (1 + i / 28) (1 + i % 28)
  if i < 31 then [⟨7, date, 1, .fetched⟩, ⟨8, date, 1, .fetched⟩]
  else if i = 31 then [⟨7, date, 1, .fetched⟩, ⟨8, date, 2, .fetched⟩]
  else [⟨7, date, i, .fetched⟩, ⟨8, date, i, .manual⟩]

theorem pinnedThenCopied_unique :
    ((((List.range 62).flatMap pinnedThenCopied)).map StoredClose.key).Nodup := by
  decide +kernel

def hiddenCopy : OkCloses := ⟨(List.range 62).flatMap pinnedThenCopied, pinnedThenCopied_unique⟩

theorem reports_copies_iff_unhidden_pinned : (7 : ℤ) < 8 ∧
    (ReportsCopies hiddenCopy 7 8 ↔ Unhidden (hiddenCopy.compared 7 8)) :=
  ⟨by decide, reports_copies_iff_unhidden hiddenCopy 7 8 (by decide)⟩

theorem hiddenCopy_unreported : dbDuplicatePriceSeries hiddenCopy = [] := by decide +kernel

/-- Thirty days of one moving series under both listings, and nothing reported. -/
theorem reports_copies_fails : ¬ ∀ (t : OkCloses) (l l' : ℤ), l < l' → ReportsCopies t l l' := by
  intro hall
  obtain ⟨d, hd, -⟩ := (hall hiddenCopy 7 8 (by decide)).reported.mpr
    ⟨(hiddenCopy.compared 7 8).drop 32, ⟨⟨(hiddenCopy.compared 7 8).take 32, [],
      by rw [List.append_nil, List.take_append_drop], by decide⟩, by decide,
      ⟨(hiddenCopy.compared 7 8).get ⟨32, by decide⟩, by decide,
        (hiddenCopy.compared 7 8).get ⟨33, by decide⟩, by decide, by decide⟩⟩⟩
  rw [hiddenCopy_unreported] at hd
  cases hd

end ShareTracker.DuplicateSeries
