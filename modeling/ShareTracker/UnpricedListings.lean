import ShareTracker.PriceFetches
import ShareTracker.Valuation

/-!
Listings the provider has stopped quoting, beside the stored prices and the
fetches in flight. The write that marks a listing checks that it has a close to
carry forward and that nothing fetched lies beyond the marker; the price rows
are rewritten by the fetches without either check.
-/
namespace ShareTracker.ClosingPrices
open CorporateActions Checked

/-- The system, with each listing's `unpriced_from`. -/
structure Desk where
  system : System
  unpricedFrom : ListingId → Option NaiveDate

inductive DeskRefusal where
  | fetch (why : FetchRefusal)
  | price (why : Refusal)
  | unpricedWindowEmpty (before unpricedFrom : NaiveDate)
  | unpricedFromWithoutEarlierPrice (unpricedFrom : NaiveDate)
  | unpricedFromWithProviderPrice (unpricedFrom priceDate : NaiveDate)
  deriving DecidableEq

inductive DeskStep where
  | fetches (step : DbStep)
  | putListing (listing : ListingId) (before unpricedFrom : Option NaiveDate)
  | deleteOne (listing : ListingId) (date : NaiveDate)
  | clearUnpricedBefore (listing : ListingId)
  | writeAction (row : Action)
  | deleteAction (id : ℤ)
  | runRebase

def isFetched (row : ClosingPrice) : Bool := isOk row && !isManual row

namespace Book

/-- The dates of a listing's rows that a test picks. -/
def datesOf (b : Book) (listing : ListingId) (picks : ClosingPrice → Bool) : List NaiveDate :=
  (b.prices.filter fun row => row.listing = listing && picks row).map ClosingPrice.priceDate

/-- The checks that pair `unpriced_from` with the stored rows. -/
def checkUnpricedFrom (b : Book) (listing : ListingId) (before : Option NaiveDate)
    (unpricedFrom : NaiveDate) : Except DeskRefusal Unit := do
  let _ ← orRefuse (b.datesOf listing fun row => isOk row && decide (row.priceDate < unpricedFrom) &&
    before.all fun day => decide (day ≤ row.priceDate)).max?
      (.unpricedFromWithoutEarlierPrice unpricedFrom)
  (b.datesOf listing fun row => isFetched row && decide (unpricedFrom ≤ row.priceDate)).min?.elim
    (.ok ()) fun date => .error (.unpricedFromWithProviderPrice unpricedFrom date)

end Book

namespace Desk

def idle (book : Book) : Desk := ⟨.idle book, fun _ => none⟩

def book (d : Desk) : Book := d.system.book

def withBook (d : Desk) (book : Book) : Desk := { d with system := { d.system with book } }

/-- The markers together leave a span to serve. -/
def checkWindow : Option NaiveDate → Option NaiveDate → Except DeskRefusal Unit
  | some before, some day => refuseIf (day ≤ before) (.unpricedWindowEmpty before day)
  | _, _ => .ok ()

/-- The markers of `PUT /listings/:id`, of a listing that may be new. -/
def putListing (d : Desk) (listing : ListingId) (before unpricedFrom : Option NaiveDate) :
    Except DeskRefusal Desk := do
  checkWindow before unpricedFrom
  unpricedFrom.elim (.ok ()) (d.book.checkUnpricedFrom listing before)
  return {
    system := { d.system with
      book := { d.book with
        unpricedBefore := fun l => if l = listing then before else d.book.unpricedBefore l } }
    unpricedFrom := fun l => if l = listing then unpricedFrom else d.unpricedFrom l }

def step (d : Desk) : DeskStep → Except DeskRefusal Desk
  | .fetches step => do
      let system ← (d.system.step step).mapError .fetch
      return { d with system }
  | .putListing listing before unpricedFrom => d.putListing listing before unpricedFrom
  | .deleteOne listing date => do
      let book ← (d.book.deleteOne listing date).mapError .price
      return d.withBook book
  | .clearUnpricedBefore listing => do
      let book ← (d.book.clearUnpricedBefore listing).mapError .price
      return d.withBook book
  | .writeAction row => .ok (d.withBook (d.book.writeAction row))
  | .deleteAction id => do
      let book ← (d.book.deleteAction id).mapError .price
      return d.withBook book
  | .runRebase => .ok (d.withBook d.book.runRebase)

/-- The row the step stores for a fetch. -/
def storing (d : Desk) : DeskStep → Option ClosingPrice
  | .fetches (.storeRow i) => d.system.fetches[i]?.bind Fetch.nextRow
  | _ => none

end Desk

/-- Whether a date is within the span the provider serves. -/
def servedDate (before : Option NaiveDate) (unpricedFrom date : NaiveDate) : Bool :=
  decide (date < unpricedFrom) && before.all fun day => decide (day ≤ date)

/-- The pairing a listing write checks: a close to carry, and none fetched beyond. -/
structure Carries (b : Book) (listing : ListingId) (unpricedFrom : NaiveDate) : Prop where
  earlier : ∃ date, b.okAt (listing, date) = true ∧
    servedDate (b.unpricedBefore listing) unpricedFrom date = true
  unserved : ∀ date, b.okAt (listing, date) = true → b.manualAt (listing, date) = false →
    date < unpricedFrom

namespace Desk

/-- Whether a row fetched for a marked listing leaves it its close: a close
fetched is from before the marker, and a failure is not stored over the one ok
row of the span served. -/
def keepsCarry (d : Desk) (step : DeskStep) : Bool :=
  (d.storing step).all fun row => (d.unpricedFrom row.listing).all fun unpricedFrom =>
    if isOk row then decide (row.priceDate < unpricedFrom)
    else d.book.prices.any fun other => other.listing = row.listing && isOk other &&
      decide (other.priceDate ≠ row.priceDate) &&
        servedDate (d.book.unpricedBefore row.listing) unpricedFrom other.priceDate

def Paired (d : Desk) : Prop :=
  ∀ listing unpricedFrom, d.unpricedFrom listing = some unpricedFrom →
    Carries d.book listing unpricedFrom

end Desk

/-! ### What each write leaves of the pairing -/

section Pairing
variable {b b' : Book} {listing : ListingId} {unpricedFrom : NaiveDate}

theorem Carries.congr (h : Carries b listing unpricedFrom) (hok : b'.okAt = b.okAt)
    (hmanual : b'.manualAt = b.manualAt) (hbefore : b'.unpricedBefore = b.unpricedBefore) :
    Carries b' listing unpricedFrom where
  earlier := by
    rw [hok, hbefore]
    exact h.earlier
  unserved := by
    rw [hok, hmanual]
    exact h.unserved

theorem carries_store {row : ClosingPrice} (h : Carries b listing unpricedFrom)
    (hserved : row.listing = listing → isOk row = true → isManual row = false →
      row.priceDate < unpricedFrom)
    (hfailed : row.listing = listing → isOk row = false → ∃ date, date ≠ row.priceDate ∧
      b.okAt (listing, date) = true ∧ servedDate (b.unpricedBefore listing) unpricedFrom date = true) :
    Carries (b.store row) listing unpricedFrom where
  earlier := by
    obtain ⟨date, hok, hdate⟩ := h.earlier
    by_cases hday : (listing, date) = row.day
    · obtain ⟨hlisting, hpriceDate⟩ := Prod.mk.inj hday
      cases hrow : isOk row with
      | true =>
        refine ⟨date, ?_, hdate⟩
        rw [Book.okAt_store, if_pos hday]
        exact hrow
      | false =>
        obtain ⟨other, hne, hother, hin⟩ := hfailed hlisting.symm hrow
        refine ⟨other, ?_, hin⟩
        rw [Book.okAt_store, if_neg fun heq : (listing, other) = row.day => hne (Prod.mk.inj heq).2]
        exact hother
    · refine ⟨date, ?_, hdate⟩
      rw [Book.okAt_store, if_neg hday]
      exact hok
  unserved := by
    intro date hok hmanual
    rw [Book.okAt_store] at hok
    rw [Book.manualAt_store] at hmanual
    split at hok
    · rename_i hday
      rw [if_pos hday] at hmanual
      obtain ⟨hlisting, hpriceDate⟩ := Prod.mk.inj hday
      rw [hpriceDate]
      exact hserved hlisting.symm hok hmanual
    · rename_i hday
      rw [if_neg hday] at hmanual
      exact h.unserved date hok hmanual

theorem rowAt_deleteWhere (gone : ClosingPrice → Bool) (day : ListingId × NaiveDate) :
    (b.deleteWhere gone).rowAt day = (b.rowAt day).filter fun row => !gone row :=
  Keyed.get?_filter b.days_unique _ day

/-- A delete that spares the rows the listing may carry. -/
theorem carries_deleteWhere {gone : ClosingPrice → Bool} (h : Carries b listing unpricedFrom)
    (hspares : ∀ row ∈ b.prices, row.listing = listing → isOk row = true →
      servedDate (b.unpricedBefore listing) unpricedFrom row.priceDate = true → gone row = false) :
    Carries (b.deleteWhere gone) listing unpricedFrom where
  earlier := by
    obtain ⟨date, hok, hdate⟩ := h.earlier
    obtain ⟨row, hrow, hrowok⟩ := (Option.any_eq_true _ _).mp hok
    obtain ⟨hmem, hday⟩ := (Keyed.get?_eq_some b.days_unique).mp hrow
    obtain ⟨hlisting, hpriceDate⟩ := Prod.mk.inj hday
    refine ⟨date, (Option.any_eq_true _ _).mpr ⟨row, ?_, hrowok⟩, hdate⟩
    rw [rowAt_deleteWhere, Option.filter_eq_some_iff]
    exact ⟨hrow, by rw [hspares row hmem hlisting hrowok (hpriceDate ▸ hdate), Bool.not_false]⟩
  unserved := by
    intro date hok hmanual
    obtain ⟨row, hrow, hrowok⟩ := (Option.any_eq_true _ _).mp hok
    have hfound := hrow
    rw [rowAt_deleteWhere, Option.filter_eq_some_iff] at hrow
    refine h.unserved date ((Option.any_eq_true _ _).mpr ⟨row, hrow.1, hrowok⟩) ?_
    rw [Book.manualAt, hfound, Option.any_some] at hmanual
    rw [Book.manualAt, hrow.1, Option.any_some]
    exact hmanual

theorem superseded_not_served {date : NaiveDate} (h : b.superseded listing date = true) :
    servedDate (b.unpricedBefore listing) unpricedFrom date = false := by
  obtain ⟨before, hbefore, hlate⟩ := (Option.any_eq_true _ _).mp h
  have hnot : ¬ before ≤ date := not_le.mpr (of_decide_eq_true hlate)
  rw [servedDate, hbefore, Option.all_some, decide_eq_false hnot, Bool.and_false]

theorem carries_deleteOne {from_ : ListingId} {date : NaiveDate} (h : Carries b listing unpricedFrom)
    (hok : b.deleteOne from_ date = .ok b') : Carries b' listing unpricedFrom := by
  unfold Book.deleteOne at hok
  split at hok
  · cases hok
  rename_i row hrow
  split at hok
  · cases hok
  rename_i hmay
  obtain rfl := Except.ok.inj hok
  refine carries_deleteWhere h fun other hmem hlisting hother hdate => decide_eq_false fun hday => ?_
  obtain ⟨hrowmem, hrowday⟩ := (Keyed.get?_eq_some b.days_unique).mp hrow
  obtain rfl : other = row := Keyed.eq_of_key b.days_unique hmem hrowmem (hday.trans hrowday.symm)
  obtain ⟨hfrom, hpriceDate⟩ := Prod.mk.inj hday
  have hsuperseded : b.superseded from_ date = true := by
    rw [isOk] at hother
    simpa [hother] using hmay
  rw [← hfrom, hlisting, ← hpriceDate] at hsuperseded
  rw [superseded_not_served hsuperseded] at hdate
  cases hdate

theorem carries_clear {from_ : ListingId} (h : Carries b listing unpricedFrom)
    (hok : b.clearUnpricedBefore from_ = .ok b') : Carries b' listing unpricedFrom := by
  unfold Book.clearUnpricedBefore at hok
  split at hok
  · cases hok
  rename_i before hbefore
  obtain rfl := Except.ok.inj hok
  refine carries_deleteWhere h fun row _ hlisting _ hdate => ?_
  rw [Bool.and_eq_false_iff, decide_eq_false_iff_not, decide_eq_false_iff_not, not_lt, or_iff_not_imp_left,
    not_not]
  rintro rfl
  rw [hlisting] at hbefore
  rw [servedDate, hbefore, Option.all_some, Bool.and_eq_true] at hdate
  exact of_decide_eq_true hdate.2

theorem carries_rebase (h : Carries b listing unpricedFrom) (rebased : ListingId) :
    Carries (b.rebaseListingPrices rebased) listing unpricedFrom :=
  h.congr (Book.okAt_rebase b rebased) (Book.manualAt_rebase b rebased) rfl

theorem carries_foldl_rebase (h : Carries b listing unpricedFrom) (rebased : List ListingId) :
    Carries (rebased.foldl Book.rebaseListingPrices b) listing unpricedFrom := by
  induction rebased generalizing b with
  | nil => exact h
  | cons l rebased ih => exact ih (carries_rebase h l)

theorem mem_datesOf {picks : ClosingPrice → Bool} {date : NaiveDate} :
    date ∈ b.datesOf listing picks ↔ ∃ row, b.rowAt (listing, date) = some row ∧ picks row = true := by
  unfold Book.datesOf Book.rowAt
  simp only [List.mem_map, List.mem_filter, Bool.and_eq_true, decide_eq_true_eq,
    Keyed.get?_eq_some b.days_unique]
  constructor
  · rintro ⟨row, ⟨hrow, rfl, hpicks⟩, rfl⟩
    exact ⟨row, ⟨hrow, rfl⟩, hpicks⟩
  · rintro ⟨row, ⟨hrow, hday⟩, hpicks⟩
    obtain ⟨hlisting, hdate⟩ := Prod.mk.inj hday
    exact ⟨row, ⟨hrow, hlisting, hpicks⟩, hdate⟩

/-- What the checks of a listing write find. -/
theorem checkUnpricedFrom_ok {before : Option NaiveDate}
    (h : b.checkUnpricedFrom listing before unpricedFrom = .ok ()) :
    (∃ date, b.okAt (listing, date) = true ∧ servedDate before unpricedFrom date = true) ∧
      ∀ date, b.okAt (listing, date) = true → b.manualAt (listing, date) = false →
        date < unpricedFrom := by
  obtain ⟨date, hdate, h⟩ := bind_ok h
  constructor
  · obtain ⟨row, hrow, hpicks⟩ := mem_datesOf.mp (List.max?_mem (orRefuse_ok.mp hdate))
    simp only [Bool.and_eq_true] at hpicks
    have hpriceDate := (Prod.mk.inj ((Keyed.get?_eq_some b.days_unique).mp hrow).2).2
    refine ⟨date, (Option.any_eq_true _ _).mpr ⟨row, hrow, hpicks.1.1⟩, ?_⟩
    rw [servedDate, ← hpriceDate, Bool.and_eq_true]
    exact ⟨hpicks.1.2, hpicks.2⟩
  · intro late hok hmanual
    by_contra hbeyond
    obtain ⟨row, hrow, hrowok⟩ := (Option.any_eq_true _ _).mp hok
    rw [Book.manualAt, hrow, Option.any_some] at hmanual
    have hpriceDate := (Prod.mk.inj ((Keyed.get?_eq_some b.days_unique).mp hrow).2).2
    have hmem : late ∈ b.datesOf listing fun row =>
        isFetched row && decide (unpricedFrom ≤ row.priceDate) := by
      refine mem_datesOf.mpr ⟨row, hrow, ?_⟩
      rw [isFetched, hrowok, hmanual, hpriceDate]
      simpa using hbeyond
    cases hmin : (b.datesOf listing fun row =>
        isFetched row && decide (unpricedFrom ≤ row.priceDate)).min? with
    | none =>
      rw [List.min?_eq_none_iff.mp hmin] at hmem
      cases hmem
    | some first =>
      rw [hmin] at h
      cases h

end Pairing

namespace Desk
variable {d d' : Desk}

theorem putListing_ok {listing : ListingId} {before unpricedFrom : Option NaiveDate}
    (hok : d.putListing listing before unpricedFrom = .ok d') :
    (∀ day ∈ unpricedFrom, d.book.checkUnpricedFrom listing before day = .ok ()) ∧
      d'.book = { d.book with
        unpricedBefore := fun l => if l = listing then before else d.book.unpricedBefore l } ∧
      d'.unpricedFrom = fun l => if l = listing then unpricedFrom else d.unpricedFrom l := by
  obtain ⟨_, -, hok⟩ := bind_ok hok
  obtain ⟨_, hcheck, hok⟩ := bind_ok hok
  obtain rfl := Except.ok.inj hok
  refine ⟨fun day hday => ?_, rfl, rfl⟩
  rw [Option.mem_def.mp hday] at hcheck
  exact hcheck

theorem Paired.putListing (h : d.Paired) {listing : ListingId} {before unpricedFrom : Option NaiveDate}
    (hok : d.putListing listing before unpricedFrom = .ok d') : d'.Paired := by
  obtain ⟨hchecked, hbook, hfrom⟩ := putListing_ok hok
  intro l day hday
  rw [hfrom] at hday
  rw [hbook]
  by_cases hl : l = listing
  · subst hl
    simp only [if_true] at hday
    obtain ⟨hearlier, hunserved⟩ := checkUnpricedFrom_ok (hchecked day hday)
    refine ⟨?_, hunserved⟩
    simp only [if_true]
    exact hearlier
  · simp only [if_neg hl] at hday
    obtain ⟨hearlier, hunserved⟩ := h l day hday
    refine ⟨?_, hunserved⟩
    simp only [if_neg hl]
    exact hearlier

/-- A change of the book that keeps each listing's pairing. -/
theorem Paired.withBook (h : d.Paired) {book : Book}
    (hkeeps : ∀ listing day, Carries d.book listing day → Carries book listing day) :
    (d.withBook book).Paired :=
  fun listing day hday => hkeeps listing day (h listing day hday)

theorem unpricedBefore_step {s s' : System} {w : DbStep} (hok : s.step w = .ok s') :
    s'.book.unpricedBefore = s.book.unpricedBefore := by
  cases w with
  | collect | backfill | fetchOne =>
    obtain rfl := Except.ok.inj hok
    rfl
  | putManual listing date observed price sourcedFrom reason =>
    obtain ⟨book, hbook, hs⟩ := bind_ok hok
    obtain rfl := Except.ok.inj hs
    have hstored := System.putManual_ok (mapError_ok.mp hbook)
    rw [hstored]
    rfl
  | read | answer | readEvents | storeRow | rebase =>
    obtain ⟨f, -, hrest⟩ := bind_ok hok
    obtain ⟨f', -, hs⟩ := bind_ok hrest
    obtain rfl := Except.ok.inj hs
    rfl
  | abandon i =>
    obtain ⟨f, -, hs⟩ := bind_ok hok
    obtain rfl := Except.ok.inj hs
    rfl

theorem Paired.fetches (h : d.Paired) {w : DbStep} {system : System}
    (hgood : d.keepsCarry (.fetches w) = true) (hok : d.system.step w = .ok system) :
    Paired { d with system } := by
  intro listing day hday
  have hcarries := h listing day hday
  have hbefore := unpricedBefore_step hok
  rcases System.step_book hok with
    ⟨hmanual, hokay⟩ | ⟨row, hbook, hmanual, hrowok⟩ | ⟨i, f, row, rfl, hf, hrow, hbook⟩
  · exact hcarries.congr hokay hmanual hbefore
  · change Carries system.book listing day
    rw [hbook]
    refine carries_store hcarries (fun _ _ hnot => ?_) fun _ hnot => ?_
    · rw [hmanual] at hnot
      cases hnot
    · rw [hrowok] at hnot
      cases hnot
  · change Carries system.book listing day
    rw [hbook]
    have hstoring : d.storing (.fetches (.storeRow i)) = some row := by
      rw [storing, orRefuse_ok.mp hf, Option.bind_some, hrow]
    rw [keepsCarry, hstoring, Option.all_some] at hgood
    refine carries_store hcarries (fun hlisting hrowok _ => ?_) fun hlisting hfailed => ?_
    · rw [hlisting, hday, Option.all_some, if_pos hrowok] at hgood
      exact of_decide_eq_true hgood
    · rw [hlisting, hday, Option.all_some, if_neg (by rw [hfailed]; decide)] at hgood
      obtain ⟨other, hother, hpicks⟩ := List.any_eq_true.mp hgood
      simp only [Bool.and_eq_true, decide_eq_true_eq] at hpicks
      obtain ⟨⟨⟨hlistingO, hotherok⟩, hne⟩, hserved⟩ := hpicks
      refine ⟨other.priceDate, hne, (Option.any_eq_true _ _).mpr ⟨other, ?_, hotherok⟩, hserved⟩
      exact (Keyed.get?_eq_some d.book.days_unique).mpr ⟨hother, by rw [ClosingPrice.day, hlistingO]⟩

theorem Paired.step (h : d.Paired) {w : DeskStep} (hgood : d.keepsCarry w = true)
    (hok : d.step w = .ok d') : d'.Paired := by
  cases w with
  | fetches w =>
    obtain ⟨system, hsystem, hd⟩ := bind_ok hok
    obtain rfl := Except.ok.inj hd
    exact h.fetches hgood (mapError_ok.mp hsystem)
  | putListing listing before unpricedFrom => exact h.putListing hok
  | deleteOne listing date =>
    obtain ⟨book, hbook, hd⟩ := bind_ok hok
    obtain rfl := Except.ok.inj hd
    exact h.withBook fun _ _ hc => carries_deleteOne hc (mapError_ok.mp hbook)
  | clearUnpricedBefore listing =>
    obtain ⟨book, hbook, hd⟩ := bind_ok hok
    obtain rfl := Except.ok.inj hd
    exact h.withBook fun _ _ hc => carries_clear hc (mapError_ok.mp hbook)
  | writeAction row =>
    obtain rfl := Except.ok.inj hok
    refine h.withBook fun listing day hc => ?_
    have hput : Carries (d.book.putAction row) listing day := hc.congr rfl rfl rfl
    exact carries_foldl_rebase hput _
  | deleteAction id =>
    obtain ⟨book, hbook, hd⟩ := bind_ok hok
    obtain rfl := Except.ok.inj hd
    refine h.withBook fun listing day hc => ?_
    have hdrop : Carries (d.book.dropAction id) listing day := hc.congr rfl rfl rfl
    have hbook := mapError_ok.mp hbook
    unfold Book.deleteAction at hbook
    split at hbook
    · cases hbook
    · obtain rfl := Except.ok.inj hbook
      exact carries_rebase hdrop _
  | runRebase =>
    obtain rfl := Except.ok.inj hok
    exact h.withBook fun _ _ hc => carries_foldl_rebase hc _

/-- A paired listing has a price to carry on every day from its marker on. -/
theorem Carries.carryForwardPrice {r : Valuation.Records} {m : Valuation.Market}
    {unpricedFrom day : NaiveDate} (h : Carries r.book m.listing unpricedFrom)
    (hday : unpricedFrom ≤ day) : (r.carryForwardPrice m day).isSome = true := by
  obtain ⟨date, hok, hserved⟩ := h.earlier
  obtain ⟨row, hrow, hrowok⟩ := (Option.any_eq_true _ _).mp hok
  obtain ⟨hmem, hrowday⟩ := (Keyed.get?_eq_some r.book.days_unique).mp hrow
  obtain ⟨hlisting, rfl⟩ := Prod.mk.inj hrowday
  obtain ⟨hearly, hfloor⟩ := (Bool.and_eq_true _ _).mp hserved
  have hprice : ∃ price, Valuation.okPrice row = some price := by
    obtain ⟨l, date, observed, quote⟩ := row
    cases quote with
    | fetched asObserved price => exact ⟨price, rfl⟩
    | manual price sourcedFrom reason => exact ⟨price, rfl⟩
    | errored message => cases hrowok
  obtain ⟨price, hprice⟩ := hprice
  rw [Valuation.Records.carryForwardPrice, Option.isSome_map,
    Valuation.Records.latestOkPriceOnOrBefore]
  rw [Option.isSome_iff_ne_none, Ne, List.getLast?_eq_none_iff]
  refine List.ne_nil_of_mem (a := (row.priceDate, price)) (StableSort.mem_sortBy.mpr ?_)
  refine List.mem_filterMap.mpr ⟨row, hmem, ?_⟩
  rw [if_pos ⟨hlisting, (of_decide_eq_true hearly).le.trans hday, hfloor⟩, hprice]
  rfl

/-- In a run in which no fetched row takes a marked listing's close away or
lands beyond its marker, every marked listing has an ok price to carry, none
fetched beyond the marker, and a price for every valuation day from it on. -/
theorem run_carries (book : Book) (ws : List DeskStep) (d : Desk)
    (hrun : GuardedRun.run step (idle book) ws = .ok d)
    (hmeets : GuardedRun.meets step keepsCarry (idle book) ws = true) :
    d.Paired ∧ ∀ (r : Valuation.Records) (m : Valuation.Market) (unpricedFrom day : NaiveDate),
      r.book = d.book → d.unpricedFrom m.listing = some unpricedFrom → unpricedFrom ≤ day →
        (r.carryForwardPrice m day).isSome = true := by
  have hpaired : d.Paired :=
    GuardedRun.invariant (fun _ _ _ h hgood hok => h.step hgood hok) (fun _ _ h => by cases h)
      hmeets hrun
  refine ⟨hpaired, fun r m unpricedFrom day hbook hfrom hday => ?_⟩
  exact Carries.carryForwardPrice (hbook ▸ hpaired m.listing unpricedFrom hfrom) hday

/-! ### A listing marked from 7 January 2026 -/

/-- A call of a caller for the days `first` to `last`, each with its answer. -/
def fetched (call : DbStep) (first last : NaiveDate)
    (outcome : NaiveDate → Option (Except String ℚ)) : List DeskStep :=
  [.fetches call, .fetches (.read 0 first last fun _ => true),
    .fetches (.answer 0 (ymd 2026 1 8) outcome), .fetches (.readEvents 0)]

def storeAll (rows : ℕ) : List DeskStep :=
  List.replicate rows (.fetches (.storeRow 0)) ++ [.fetches (.rebase 0), .fetches (.abandon 0)]

/-- The days from the 5th up to `last` backfilled, and the listing marked. -/
def marked (last : ℕ) : List DeskStep :=
  fetched (.backfill 1) (ymd 2026 1 5) (ymd 2026 1 last) (fun _ => some (.ok 3)) ++ storeAll (last - 4) ++
    [.putListing 1 none (some (ymd 2026 1 7))]

/-- The day before the marker fetched again, which the provider fails. -/
def refetched (day : ℕ) : List DeskStep :=
  fetched (.fetchOne 1) (ymd 2026 1 day) (ymd 2026 1 day) (fun _ => some (.error "no candle")) ++
    storeAll 1

theorem run_carries_refetched : ∃ d, GuardedRun.run step (idle Book.empty) (marked 6 ++ refetched 6) =
    .ok d ∧ d.Paired := by
  obtain ⟨d, hd⟩ := exists_ok (x := GuardedRun.run step (idle Book.empty) (marked 6 ++ refetched 6))
    (by decide)
  exact ⟨d, hd, (run_carries Book.empty _ d hd (by decide)).1⟩

/-- A backfill of the 6th and the 7th answered before the listing is marked,
and stored after. -/
def landing : List DeskStep :=
  fetched (.backfill 1) (ymd 2026 1 5) (ymd 2026 1 5) (fun _ => some (.ok 3)) ++ storeAll 1 ++
    fetched (.backfill 1) (ymd 2026 1 6) (ymd 2026 1 7) (fun _ => some (.ok 3)) ++
    [.putListing 1 none (some (ymd 2026 1 7))] ++ storeAll 2

/-- A break of the first listing's pairing. -/
def unpaired (d : Desk) : Bool :=
  (d.unpricedFrom 1).any fun day =>
    (d.book.prices.all fun row => !isOk row) ||
      (d.book.okAt (1, day) && !d.book.manualAt (1, day))

theorem not_paired (h : d.unpaired = true) : ¬ d.Paired := by
  intro hpaired
  obtain ⟨day, hday, hbreak⟩ := (Option.any_eq_true _ _).mp h
  have hcarries := hpaired 1 day hday
  rcases (Bool.or_eq_true _ _).mp hbreak with hbare | hbeyond
  · obtain ⟨date, hok, -⟩ := hcarries.earlier
    obtain ⟨row, hrow, -, hrowok⟩ := Book.okAt_of_row hok
    have hnot := List.all_eq_true.mp hbare row hrow
    rw [hrowok] at hnot
    cases hnot
  · simp only [Bool.and_eq_true, Bool.not_eq_true'] at hbeyond
    exact lt_irrefl day (hcarries.unserved day hbeyond.1 hbeyond.2)

/-- The one close before the marker fetched again and failed leaves nothing to
carry; a backfill in flight lands a fetched close on the marker's own day. -/
theorem run_loses_carry :
    (∃ d, GuardedRun.run step (idle Book.empty) (marked 5 ++ refetched 5) = .ok d ∧ ¬ d.Paired) ∧
      ∃ d, GuardedRun.run step (idle Book.empty) landing = .ok d ∧ ¬ d.Paired := by
  have hreach : ∀ ws, accepts (GuardedRun.run step (idle Book.empty) ws) unpaired = true →
      ∃ d, GuardedRun.run step (idle Book.empty) ws = .ok d ∧ ¬ d.Paired := by
    intro ws hws
    obtain ⟨d, hd, hunpaired⟩ := accepts_iff.mp hws
    exact ⟨d, hd, not_paired hunpaired⟩
  exact ⟨hreach _ (by decide), hreach _ (by decide)⟩

end Desk
end ShareTracker.ClosingPrices
