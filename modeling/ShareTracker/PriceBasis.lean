import ShareTracker.Lib.Checked
import ShareTracker.ClosingPrices

/-!
Every write that leaves the figures behind the demergers' factors alone leaves
every stored price in the basis the recorded facts imply.
-/
namespace ShareTracker.ClosingPrices
open CorporateActions

namespace Book

/-- A listing's fetched prices are what its events make of their figures. -/
def SettledOn (s : Book) (listing : ListingId) : Prop :=
  ∀ row ∈ s.prices, row.listing = listing → ∀ asObserved price,
    row.quote = .fetched asObserved price →
      price = contemporaneous asObserved (s.priceBasisEvents listing) row.priceDate row.observed

def Settled (s : Book) : Prop := ∀ listing, s.SettledOn listing

/-! ### What the events of a listing rest on -/

/-- Two books whose actions and referenced figures agree on a listing. -/
structure SameOn (s s' : Book) (listing : ListingId) : Prop where
  actions : s'.actionsOf listing = s.actionsOf listing
  references : ∀ statement ∈ s.statements listing,
    s'.reference listing statement = s.reference listing statement

theorem SameOn.events {s s' : Book} {listing : ListingId} (h : SameOn s s' listing) :
    s'.priceBasisEvents listing = s.priceBasisEvents listing := by
  have hsplits : s'.splits listing = s.splits listing := by rw [splits, h.actions, splits]
  have hstatements : s'.statements listing = s.statements listing := by
    rw [statements, h.actions, statements]
  unfold priceBasisEvents
  rw [hsplits, hstatements]
  refine List.foldl_ext _ _ _ fun events statement hmem => ?_
  rw [addStatement, h.references statement (List.mem_reverse.mp hmem), addStatement]

theorem SameOn.of_figures {s s' : Book} {listing : ListingId} (hactions : s'.actions = s.actions)
    (hfigures : ∀ date, s'.observedFigure listing date = s.observedFigure listing date) :
    SameOn s s' listing where
  actions := by rw [actionsOf, hactions, actionsOf]
  references := by
    intro statement _
    rw [reference, hfigures, reference]

theorem SettledOn.congr {s s' : Book} {listing : ListingId} (h : s.SettledOn listing)
    (hsame : SameOn s s' listing)
    (hrows : ∀ row ∈ s'.prices, row.listing = listing → ∀ asObserved price,
      row.quote = .fetched asObserved price → row ∈ s.prices) : s'.SettledOn listing := by
  intro row hrow hlisting asObserved price hquote
  rw [hsame.events]
  exact h row (hrows row hrow hlisting asObserved price hquote) hlisting asObserved price hquote

/-! ### Deriving a listing's prices again -/

theorem rederiveOn_of_ne {listing : ListingId} {events : List PriceBasisEvent} {row : ClosingPrice}
    (h : row.listing ≠ listing) : rederiveOn listing events row = row := if_neg h

theorem rederiveOn_listing (listing : ListingId) (events : List PriceBasisEvent)
    (row : ClosingPrice) : (rederiveOn listing events row).listing = row.listing :=
  congrArg Prod.fst (rederiveOn_day listing events row)

theorem figure_rederiveOn (listing : ListingId) (events : List PriceBasisEvent)
    (row : ClosingPrice) : (rederiveOn listing events row).figure = row.figure := by
  obtain ⟨l, date, observed, quote⟩ := row
  unfold rederiveOn
  split
  · cases quote <;> rfl
  · rfl

theorem observedFigure_rebase (s : Book) (rebased listing : ListingId) (date : NaiveDate) :
    (s.rebaseListingPrices rebased).observedFigure listing date =
      s.observedFigure listing date := by
  have hmap : Keyed.get? ClosingPrice.day (s.rebaseListingPrices rebased).prices (listing, date) =
      (Keyed.get? ClosingPrice.day s.prices (listing, date)).map
        (rederiveOn rebased (s.priceBasisEvents rebased)) :=
    Keyed.get?_map (rederiveOn_day rebased _) _
  rw [observedFigure, hmap, Option.bind_map]
  congr 1
  funext row
  exact figure_rederiveOn _ _ row

theorem rebase_sameOn (s : Book) (rebased listing : ListingId) :
    SameOn s (s.rebaseListingPrices rebased) listing :=
  SameOn.of_figures rfl (observedFigure_rebase s rebased listing)

theorem rebase_settledOn (s : Book) (listing : ListingId) :
    (s.rebaseListingPrices listing).SettledOn listing := by
  intro row hrow hlisting asObserved price hquote
  rw [(rebase_sameOn s listing listing).events]
  obtain ⟨⟨l, date, observed, quote⟩, -, rfl⟩ := List.mem_map.mp hrow
  rw [rederiveOn_listing] at hlisting
  subst hlisting
  cases quote with
  | fetched a p =>
    simp only [rederiveOn, if_true, ClosingPrice.rederived] at hquote ⊢
    cases hquote
    rfl
  | manual p sourcedFrom reason =>
    simp only [rederiveOn, if_true, ClosingPrice.rederived] at hquote
    cases hquote
  | errored message =>
    simp only [rederiveOn, if_true, ClosingPrice.rederived] at hquote
    cases hquote

theorem SettledOn.rebase {s : Book} {listing : ListingId} (h : s.SettledOn listing)
    (rebased : ListingId) : (s.rebaseListingPrices rebased).SettledOn listing := by
  by_cases hl : listing = rebased
  · rw [hl]
    exact rebase_settledOn s rebased
  · refine h.congr (rebase_sameOn s rebased listing) ?_
    intro row hrow hlisting _ _ _
    obtain ⟨old, hold, rfl⟩ := List.mem_map.mp hrow
    rw [rederiveOn_listing] at hlisting
    rw [rederiveOn_of_ne (hlisting ▸ hl)]
    exact hold

/-- Re-basing the listings that may be out of step settles every listing. -/
theorem settled_foldl_rebase {s : Book} {listings : List ListingId}
    (h : ∀ listing, listing ∉ listings → s.SettledOn listing) :
    (listings.foldl rebaseListingPrices s).Settled := by
  induction listings generalizing s with
  | nil => exact fun listing => h listing List.not_mem_nil
  | cons rebased listings ih =>
    refine ih fun listing hout => ?_
    by_cases hl : listing = rebased
    · rw [hl]
      exact rebase_settledOn s rebased
    · exact (h listing fun hmem => (List.mem_cons.mp hmem).elim hl hout).rebase rebased

/-- Nothing moves where every price is settled. -/
theorem Settled.rebase_eq {s : Book} (h : s.Settled) (listing : ListingId) :
    s.rebaseListingPrices listing = s := by
  have hprices : s.prices.map (rederiveOn listing (s.priceBasisEvents listing)) = s.prices := by
    refine (List.map_congr_left fun row hrow => ?_).trans (List.map_id _)
    obtain ⟨l, date, observed, quote⟩ := row
    by_cases hl : l = listing
    · cases quote with
      | fetched asObserved price =>
        have hprice := h listing _ hrow hl asObserved price rfl
        simp only [rederiveOn, hl, if_true, ClosingPrice.rederived, id_eq]
        rw [hprice]
      | manual price sourcedFrom reason => simp [rederiveOn, ClosingPrice.rederived]
      | errored message => simp [rederiveOn, ClosingPrice.rederived]
    · exact rederiveOn_of_ne hl
  cases s
  simp only [rebaseListingPrices] at hprices ⊢
  simp only [hprices]

theorem Settled.runRebase_eq {s : Book} (h : s.Settled) : s.runRebase = s := by
  unfold runRebase
  generalize ((s.actions.filter rebasesPrices).map Action.listing).dedup = listings
  induction listings with
  | nil => rfl
  | cons listing listings ih =>
    rw [List.foldl_cons, h.rebase_eq listing]
    exact ih

/-! ### Each write -/

/-- Storing rows of one listing leaves every other listing's alone. -/
theorem foldl_store_frame {s : Book} {rows : List ClosingPrice} {stored listing : ListingId}
    (hrows : ∀ row ∈ rows, row.listing = stored) (hne : listing ≠ stored) :
    SameOn s (rows.foldl store s) listing ∧
      ∀ row ∈ (rows.foldl store s).prices, row.listing = listing → row ∈ s.prices := by
  have hframe : (rows.foldl store s).actions = s.actions ∧
      (∀ date, (rows.foldl store s).observedFigure listing date = s.observedFigure listing date) ∧
      ∀ row ∈ (rows.foldl store s).prices, row.listing = listing → row ∈ s.prices := by
    induction rows generalizing s with
    | nil => exact ⟨rfl, fun _ => rfl, fun _ hrow _ => hrow⟩
    | cons first rows ih =>
      have hfirst := hrows first List.mem_cons_self
      obtain ⟨hactions, hfigures, hmem⟩ := ih (s := s.store first) fun row hrow =>
        hrows row (List.mem_cons_of_mem first hrow)
      refine ⟨hactions, ?_, ?_⟩
      · intro date
        have hday : (listing, date) ≠ first.day := fun h => hne ((congrArg Prod.fst h).trans hfirst)
        have hget : Keyed.get? ClosingPrice.day (s.store first).prices (listing, date) =
            Keyed.get? ClosingPrice.day s.prices (listing, date) :=
          Keyed.get?_put_ne s.days_unique hday
        refine (hfigures date).trans ?_
        rw [observedFigure, hget, observedFigure]
      · intro row hrow hlisting
        rcases Keyed.mem_put.mp (hmem row hrow hlisting) with ⟨hold, -⟩ | rfl
        · exact hold
        · exact absurd (hlisting.symm.trans hfirst) hne
  exact ⟨SameOn.of_figures hframe.1 hframe.2.1, hframe.2.2⟩

theorem Settled.fetchAndStore {s : Book} (h : s.Settled) (listing : ListingId)
    (observed : NaiveDate) (outcomes : List (NaiveDate × Except String ℚ)) :
    (s.fetchAndStore listing observed outcomes).Settled := by
  unfold Book.fetchAndStore
  split
  · exact h
  · intro l
    by_cases hl : l = listing
    · rw [hl]
      exact rebase_settledOn _ listing
    · have hrows : ∀ row ∈ outcomes.map (fetchedRow listing observed (s.priceBasisEvents listing)),
          row.listing = listing := by
        intro row hrow
        obtain ⟨outcome, -, rfl⟩ := List.mem_map.mp hrow
        rfl
      obtain ⟨hsame, hmem⟩ := foldl_store_frame (s := s) hrows hl
      exact ((h l).congr hsame fun row hrow hlisting _ _ _ => hmem row hrow hlisting).rebase listing

theorem isReference_false {s : Book} {listing : ListingId} {date : NaiveDate}
    (h : s.isReference listing date = false) {statement : DemergerPriceStatement}
    (hmem : statement ∈ s.statements listing) (hdate : statement.closeDate = date) :
    s.reference listing statement = none := by
  have hany := List.any_eq_false.mp h statement hmem
  simpa [hdate] using hany

/-- A row at one day that no factor rests on, with no provider figure there
after it, leaves every listing's events. -/
theorem sameOn_of_day {s s' : Book} {listing : ListingId} {date : NaiveDate}
    (hactions : s'.actions = s.actions) (hunreferenced : s.isReference listing date = false)
    (hday : s'.observedFigure listing date = none)
    (hother : ∀ l d, (l, d) ≠ (listing, date) → s'.observedFigure l d = s.observedFigure l d)
    (l : ListingId) : SameOn s s' l where
  actions := by rw [actionsOf, hactions, actionsOf]
  references := by
    intro statement hmem
    by_cases heq : (l, statement.closeDate) = (listing, date)
    · obtain ⟨rfl, hdate⟩ := Prod.mk.inj heq
      rw [isReference_false hunreferenced hmem hdate, reference, hdate, hday, Option.filter_none]
    · rw [reference, hother l statement.closeDate heq, reference]

theorem Settled.putManual {s s' : Book} (h : s.Settled) {listing : ListingId}
    {date observed : NaiveDate} {price : ℚ} {sourcedFrom reason : String}
    (hkeeps : s.isReference listing date = false)
    (hok : s.putManual listing date observed price sourcedFrom reason = .ok s') : s'.Settled := by
  unfold Book.putManual at hok
  split at hok
  · cases hok
  split at hok
  · cases hok
  split at hok
  · cases hok
  obtain rfl := Except.ok.inj hok
  generalize hrow : (⟨listing, date, observed, .manual price sourcedFrom reason⟩ : ClosingPrice) = row
  have hkey : row.day = (listing, date) := by rw [← hrow]; rfl
  have hactions : (s.store row).actions = s.actions := rfl
  intro l
  refine (h l).congr (sameOn_of_day hactions hkeeps ?_ ?_ l) ?_
  · have hget : Keyed.get? ClosingPrice.day (s.store row).prices (listing, date) = some row := by
      rw [← hkey]
      exact Keyed.get?_put_self s.days_unique row
    rw [observedFigure, hget, ← hrow]
    rfl
  · intro l d hne
    have hget : Keyed.get? ClosingPrice.day (s.store row).prices (l, d) =
        Keyed.get? ClosingPrice.day s.prices (l, d) :=
      Keyed.get?_put_ne s.days_unique (hkey ▸ hne)
    rw [observedFigure, hget, observedFigure]
  · intro stored hstored _ asObserved p hquote
    rcases Keyed.mem_put.mp hstored with ⟨hold, -⟩ | rfl
    · exact hold
    · rw [← hrow] at hquote
      cases hquote

theorem mem_deleteWhere {s : Book} {gone : ClosingPrice → Bool} {row : ClosingPrice} :
    row ∈ (s.deleteWhere gone).prices ↔ row ∈ s.prices ∧ gone row = false := by
  have hfilter : (s.deleteWhere gone).prices = s.prices.filter fun row => !gone row := rfl
  rw [hfilter, List.mem_filter, Bool.not_eq_true']

theorem observedFigure_deleteWhere {s : Book} {gone : ClosingPrice → Bool} {listing : ListingId}
    {date : NaiveDate} (h : ∀ row, row.day = (listing, date) → gone row = false) :
    (s.deleteWhere gone).observedFigure listing date = s.observedFigure listing date := by
  have hget : Keyed.get? ClosingPrice.day (s.deleteWhere gone).prices (listing, date) =
      Keyed.get? ClosingPrice.day s.prices (listing, date) := by
    refine Keyed.get?_congr (s.deleteWhere gone).days_unique s.days_unique fun row hday => ?_
    rw [mem_deleteWhere, h row hday]
    exact and_iff_left rfl
  rw [observedFigure, hget, observedFigure]

theorem observedFigure_deleted {s : Book} {gone : ClosingPrice → Bool} {listing : ListingId}
    {date : NaiveDate} (h : ∀ row, row.day = (listing, date) → gone row = true) :
    (s.deleteWhere gone).observedFigure listing date = none := by
  have hget : Keyed.get? ClosingPrice.day (s.deleteWhere gone).prices (listing, date) = none := by
    refine List.find?_eq_none.mpr fun row hrow hday => ?_
    have hgone := h row (of_decide_eq_true hday)
    rw [(mem_deleteWhere.mp hrow).2] at hgone
    cases hgone
  rw [observedFigure, hget, Option.bind_none]

theorem Settled.deleteOne {s s' : Book} (h : s.Settled) {listing : ListingId} {date : NaiveDate}
    (hkeeps : s.isReference listing date = false) (hok : s.deleteOne listing date = .ok s') :
    s'.Settled := by
  unfold Book.deleteOne at hok
  split at hok
  · cases hok
  split at hok
  · cases hok
  obtain rfl := Except.ok.inj hok
  have hactions : (s.deleteWhere fun row => row.day = (listing, date)).actions = s.actions := rfl
  intro l
  refine (h l).congr (sameOn_of_day hactions hkeeps ?_ ?_ l) ?_
  · exact observedFigure_deleted fun row hday => decide_eq_true hday
  · intro l d hne
    exact observedFigure_deleteWhere fun row hday => decide_eq_false (hday ▸ hne)
  · exact fun row hrow _ _ _ _ => (mem_deleteWhere.mp hrow).1

theorem Settled.clearUnpricedBefore {s s' : Book} (h : s.Settled) {listing : ListingId}
    (hkeeps : s.keepsReferences (.clearUnpricedBefore listing) = true)
    (hok : s.clearUnpricedBefore listing = .ok s') : s'.Settled := by
  unfold Book.clearUnpricedBefore at hok
  split at hok
  · cases hok
  rename_i before hmarker
  obtain rfl := Except.ok.inj hok
  intro l
  refine (h l).congr ⟨rfl, ?_⟩ fun row hrow _ _ _ _ => (mem_deleteWhere.mp hrow).1
  intro statement hmem
  by_cases hcleared : l = listing ∧ statement.closeDate < before
  · obtain ⟨rfl, hlt⟩ := hcleared
    have hall := List.all_eq_true.mp hkeeps statement hmem
    have hnone : s.reference l statement = none := by
      simpa [superseded, hmarker, hlt] using hall
    rw [hnone, reference, observedFigure_deleted, Option.filter_none]
    intro row hday
    obtain ⟨hl, hd⟩ := Prod.mk.inj hday
    simp [hl, hd, hlt]
  · rw [reference, observedFigure_deleteWhere, reference]
    intro row hday
    obtain ⟨hl, hd⟩ := Prod.mk.inj hday
    rw [← hl, ← hd] at hcleared
    simpa using hcleared

theorem Settled.writeAction {s : Book} (h : s.Settled) (row : Action) :
    (s.writeAction row).Settled := by
  unfold Book.writeAction
  refine settled_foldl_rebase fun listing hout => ?_
  have hnew : listing ≠ row.listing := fun heq => hout (heq ▸ List.mem_cons_self)
  have hold : ∀ a ∈ s.actions, a.id = row.id → a.listing ≠ listing := by
    intro a ha hid heq
    have hstored := (Keyed.get?_eq_some s.ids_unique).mpr ⟨ha, hid⟩
    refine hout (List.mem_cons_of_mem _ (List.mem_filter.mpr ⟨?_, by simpa using hnew⟩))
    rw [hstored, Option.toList_some, List.map_singleton, List.mem_singleton]
    exact heq.symm
  have hactions : (s.putAction row).actionsOf listing = s.actionsOf listing := by
    have hput : (s.putAction row).actions = Keyed.put Action.id s.actions row := rfl
    unfold actionsOf
    rw [hput, Keyed.put, List.filter_append, List.filter_cons_of_neg (by simpa using Ne.symm hnew),
      List.filter_nil, List.append_nil, List.filter_filter]
    congr 1
    refine List.filter_congr fun a ha => ?_
    by_cases hl : a.listing = listing
    · have hne : a.id ≠ row.id := fun hid => hold a ha hid hl
      simp [hl, hne]
    · simp [hl]
  exact (h listing).congr ⟨hactions, fun _ _ => rfl⟩ fun _ hrow _ _ _ _ => hrow

theorem Settled.deleteAction {s s' : Book} (h : s.Settled) {id : ℤ}
    (hok : s.deleteAction id = .ok s') : s'.Settled := by
  unfold Book.deleteAction at hok
  split at hok
  · cases hok
  rename_i action hget
  obtain rfl := Except.ok.inj hok
  obtain ⟨hmem, hid⟩ := (Keyed.get?_eq_some s.ids_unique).mp hget
  intro l
  by_cases hl : l = action.listing
  · rw [hl]
    exact rebase_settledOn _ _
  · have hactions : (s.dropAction id).actionsOf l = s.actionsOf l := by
      unfold actionsOf dropAction
      congr 1
      rw [List.filter_filter]
      refine List.filter_congr fun a ha => ?_
      by_cases hlisting : a.listing = l
      · have hne : a.id ≠ id := by
          intro heq
          have hsame := Keyed.eq_of_key s.ids_unique ha hmem (heq.trans hid.symm)
          exact hl (hlisting.symm.trans (congrArg Action.listing hsame))
        simp [hlisting, hne]
      · simp [hlisting]
    exact ((h l).congr ⟨hactions, fun _ _ => rfl⟩ fun _ hrow _ _ _ _ => hrow).rebase _

theorem Settled.step {s s' : Book} {w : Write} (h : s.Settled) (hkeeps : s.keepsReferences w = true)
    (hok : s.step w = .ok s') : s'.Settled := by
  cases w with
  | fetch listing observed outcomes =>
    obtain rfl := Except.ok.inj hok
    exact h.fetchAndStore listing observed outcomes
  | putManual listing date observed price sourcedFrom reason =>
    exact h.putManual (by simpa [keepsReferences] using hkeeps) hok
  | deleteOne listing date => exact h.deleteOne (by simpa [keepsReferences] using hkeeps) hok
  | clearUnpricedBefore listing => exact h.clearUnpricedBefore hkeeps hok
  | setUnpricedBefore listing marker =>
    obtain rfl := Except.ok.inj hok
    exact fun l => (h l).congr ⟨rfl, fun _ _ => rfl⟩ fun _ hrow _ _ _ _ => hrow
  | writeAction row =>
    obtain rfl := Except.ok.inj hok
    exact h.writeAction row
  | deleteAction id => exact h.deleteAction hok
  | runRebase =>
    obtain rfl := Except.ok.inj hok
    rw [h.runRebase_eq]
    exact h

theorem Settled.run {s s' : Book} {ws : List Write} (h : s.Settled) (hok : s.run ws = .ok s')
    (hkeeps : s.runKeepsReferences ws = true) : s'.Settled := by
  induction ws generalizing s with
  | nil =>
    cases hok
    exact h
  | cons w ws ih =>
    unfold Book.run at hok
    unfold Book.runKeepsReferences at hkeeps
    obtain ⟨hstep, hrest⟩ := (Bool.and_eq_true _ _).mp hkeeps
    cases hnext : s.step w with
    | error e =>
      rw [hnext] at hok
      cases hok
    | ok mid =>
      rw [hnext] at hok hrest
      exact ih (h.step hstep hnext) hok hrest

theorem settled_empty : Book.empty.Settled := fun _ _ hrow => absurd hrow List.not_mem_nil

/-! ### Prices as a function of the facts -/

/-- The row without the price derived for it. -/
def erased (row : ClosingPrice) : ClosingPrice :=
  match row.quote with
  | .fetched asObserved _ => { row with quote := .fetched asObserved 0 }
  | .manual .. | .errored .. => row

/-- The same actions, and the same rows but for the prices derived. -/
structure SameFacts (s s' : Book) : Prop where
  actions : ∀ a, a ∈ s.actions ↔ a ∈ s'.actions
  rows : ∀ row, row ∈ s.prices.map erased ↔ row ∈ s'.prices.map erased

theorem SameFacts.symm {s s' : Book} (h : SameFacts s s') : SameFacts s' s where
  actions := fun a => (h.actions a).symm
  rows := fun row => (h.rows row).symm

theorem erased_day (row : ClosingPrice) : (erased row).day = row.day := by
  unfold erased
  split <;> rfl

theorem erased_figure (row : ClosingPrice) : (erased row).figure = row.figure := by
  obtain ⟨listing, date, observed, quote⟩ := row
  cases quote <;> rfl

theorem SameFacts.row {s s' : Book} (h : SameFacts s s') {row : ClosingPrice}
    (hrow : row ∈ s.prices) : ∃ row' ∈ s'.prices, erased row' = erased row :=
  List.mem_map.mp ((h.rows (erased row)).mp (List.mem_map.mpr ⟨row, hrow, rfl⟩))

theorem observedFigure_eq_some {s : Book} {listing : ListingId} {date : NaiveDate}
    {figure : ObservedFigure} : s.observedFigure listing date = some figure ↔
      ∃ row ∈ s.prices, row.day = (listing, date) ∧ row.figure = some figure := by
  rw [observedFigure, Option.bind_eq_some_iff]
  constructor
  · rintro ⟨row, hget, hfigure⟩
    obtain ⟨hrow, hday⟩ := (Keyed.get?_eq_some s.days_unique).mp hget
    exact ⟨row, hrow, hday, hfigure⟩
  · rintro ⟨row, hrow, hday, hfigure⟩
    exact ⟨row, (Keyed.get?_eq_some s.days_unique).mpr ⟨hrow, hday⟩, hfigure⟩

theorem SameFacts.figure {s s' : Book} (h : SameFacts s s') {listing : ListingId}
    {date : NaiveDate} {figure : ObservedFigure}
    (hfigure : s.observedFigure listing date = some figure) :
    s'.observedFigure listing date = some figure := by
  obtain ⟨row, hrow, hday, hrowfigure⟩ := observedFigure_eq_some.mp hfigure
  obtain ⟨row', hrow', herased⟩ := h.row hrow
  refine observedFigure_eq_some.mpr ⟨row', hrow', ?_, ?_⟩
  · rw [← erased_day, herased, erased_day, hday]
  · rw [← erased_figure, herased, erased_figure, hrowfigure]

theorem SameFacts.actionsOf {s s' : Book} (h : SameFacts s s') (listing : ListingId) :
    s'.actionsOf listing = s.actionsOf listing := by
  have hnodup : ∀ t : Book, (t.actions.filter fun a => a.listing = listing).Nodup :=
    fun t => (t.ids_unique.of_map _).filter _
  refine Keyed.sortBy_eq (hnodup s') (hnodup s) (fun a => ?_) ?_
  · rw [List.mem_filter, List.mem_filter, h.actions a]
  · intro a ha b hb hrank
    have hid : a.id = b.id := congrArg Prod.snd (toLex.injective hrank)
    exact Keyed.eq_of_key s'.ids_unique (List.mem_filter.mp ha).1 (List.mem_filter.mp hb).1 hid

theorem SameFacts.events {s s' : Book} (h : SameFacts s s') (listing : ListingId) :
    s'.priceBasisEvents listing = s.priceBasisEvents listing := by
  refine SameOn.events ⟨h.actionsOf listing, ?_⟩
  intro statement _
  have hfigure : s'.observedFigure listing statement.closeDate =
      s.observedFigure listing statement.closeDate :=
    Option.ext fun figure => ⟨h.symm.figure, h.figure⟩
  rw [reference, hfigure, reference]

/-- Where both books are settled, the facts decide every stored price. -/
theorem SameFacts.mem_prices {s s' : Book} (h : SameFacts s s') (hs : s.Settled) (hs' : s'.Settled)
    {row : ClosingPrice} (hrow : row ∈ s.prices) : row ∈ s'.prices := by
  obtain ⟨row', hrow', herased⟩ := h.row hrow
  obtain ⟨l', d', o', quote'⟩ := row'
  obtain ⟨l, d, o, quote⟩ := row
  cases quote with
  | fetched asObserved price =>
    cases quote' with
    | fetched asObserved' price' =>
      obtain ⟨rfl, rfl, rfl, hquote⟩ := ClosingPrice.mk.inj herased
      obtain ⟨rfl, -⟩ := Quote.fetched.inj hquote
      have hprice := hs l' _ hrow rfl asObserved' price rfl
      have hprice' := hs' l' _ hrow' rfl asObserved' price' rfl
      rw [h.events, ← hprice] at hprice'
      rw [← hprice']
      exact hrow'
    | manual p sourcedFrom reason => cases herased
    | errored message => cases herased
  | manual p sourcedFrom reason =>
    cases quote' with
    | fetched asObserved' price' => cases herased
    | manual p' sourcedFrom' reason' =>
      cases herased
      exact hrow'
    | errored message => cases herased
  | errored message =>
    cases quote' with
    | fetched asObserved' price' => cases herased
    | manual p' sourcedFrom' reason' => cases herased
    | errored message' =>
      cases herased
      exact hrow'

/-- In every book that accepted writes reach from an empty one without taking
away a figure some demerger's factor rests on, every fetched price is in the
basis the recorded facts imply, re-basing changes nothing, and the prices are
decided by the facts. -/
theorem run_prices_settled (ws : List Write) (s : Book) (hrun : Book.empty.run ws = .ok s)
    (hkeeps : Book.empty.runKeepsReferences ws = true) :
    s.Settled ∧ s.runRebase = s ∧
      ∀ (ws' : List Write) (s' : Book), Book.empty.run ws' = .ok s' →
        Book.empty.runKeepsReferences ws' = true → SameFacts s s' →
        ∀ row, row ∈ s.prices ↔ row ∈ s'.prices := by
  have hsettled : s.Settled := settled_empty.run hrun hkeeps
  refine ⟨hsettled, hsettled.runRebase_eq, ?_⟩
  intro ws' s' hrun' hkeeps' hfacts row
  have hsettled' : s'.Settled := settled_empty.run hrun' hkeeps'
  exact ⟨hfacts.mem_prices hsettled hsettled', hfacts.symm.mem_prices hsettled' hsettled⟩

/-- A demerger on 3 June with a close of 10 stated for 31 May. -/
def statedDemerger : Action where
  id := 1
  listing := 1
  date := ymd 2024 6 3
  kind := .demerger 2 1 5 20
    (some ⟨ymd 2024 5 31, 10, "ASX", "spin-off"⟩)
    .exact none

/-- Two days fetched after the demerger, at 8 each by the provider. -/
def backfilled : List Write := [
  .writeAction statedDemerger,
  .fetch 1 (ymd 2024 7 1) [
    (ymd 2024 5 30, .ok 8),
    (ymd 2024 5 31, .ok 8)]]

theorem run_prices_settled_backfilled : ∃ s, Book.empty.run backfilled = .ok s ∧ s.Settled := by
  obtain ⟨s, h⟩ := Checked.exists_ok (x := Book.empty.run backfilled) (by decide)
  exact ⟨s, h, (run_prices_settled backfilled s h (by decide)).1⟩

/-- Whether a fetched close stands in another basis than its listing's events give. -/
def outOfBasis (s : Book) (row : ClosingPrice) : Bool :=
  match row.quote with
  | .fetched asObserved price => price ≠
      contemporaneous asObserved (s.priceBasisEvents row.listing) row.priceDate row.observed
  | .manual .. | .errored .. => false

/-- A price entered by hand for the stated close's day leaves the other day at
the basis of a factor that no longer resolves. -/
theorem run_unsettled_manual : ∃ s, Book.empty.run (backfilled ++
      [.putManual 1 (ymd 2024 5 31)
        (ymd 2024 7 2) 10 "ASX" "provider restated"]) =
      .ok s ∧ ¬ s.Settled := by
  have hstale : Checked.accepts (Book.empty.run (backfilled ++
      [.putManual 1 (ymd 2024 5 31)
        (ymd 2024 7 2) 10 "ASX" "provider restated"])) (fun s => s.prices.any s.outOfBasis) =
      true := by
    decide +kernel
  obtain ⟨s, h, hs⟩ := Checked.accepts_iff.mp hstale
  obtain ⟨row, hrow, hprice⟩ := List.any_eq_true.mp hs
  refine ⟨s, h, fun hsettled => ?_⟩
  unfold outOfBasis at hprice
  cases hquote : row.quote with
  | fetched asObserved price =>
    rw [hquote] at hprice
    exact of_decide_eq_true hprice (hsettled row.listing row hrow rfl asObserved price hquote)
  | manual price sourcedFrom reason =>
    rw [hquote] at hprice
    cases hprice
  | errored message =>
    rw [hquote] at hprice
    cases hprice

end Book

end ShareTracker.ClosingPrices
