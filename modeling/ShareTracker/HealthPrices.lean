import ShareTracker.PriceFetches
import ShareTracker.ValuationBasis
import ShareTracker.Lib.Spans

/-!
The health report's two price lists, beside the valuation they speak for: the
trading days a listing was held at without a stored row, walked over the spans
it was held in, and its rows that are errored. Figures are exact here.
-/
namespace ShareTracker.HealthPrices
open ClosingPrices ShareTracker.Valuation Checked

/-! ### The last day published -/

/-- A UTC instant, or a local time: the date and the seconds into it. -/
structure Instant where
  date : NaiveDate
  second : ℕ
  deriving DecidableEq

def secondsInDay : ℕ := 86400

/-- `now - lag`, for a lag of less than a day. -/
def Instant.minus (now : Instant) (lag : ℕ) : Instant :=
  if lag ≤ now.second then ⟨now.date, now.second - lag⟩
  else ⟨now.date.pred, now.second + secondsInDay - lag⟩

structure Exchange where
  mic : String
  timezone : String
  closeTime : String
  deriving DecidableEq

/-- The readings of a time zone's name and of a time of day. -/
structure Clocks where
  timezone : String → Option (Instant → Instant)
  closeTime : String → Option ℕ

/-- What the report and the valuation read. Parcels reference their listing. -/
structure Store where
  book : Book
  markets : List Market
  parcels : List Valuation.ParcelRow
  allocations : List Allocation
  fx : FxRates
  /-- The exchange of a listing's current identity, where it has one. -/
  exchange : ListingId → Exchange
  markets_unique : (markets.map Market.listing).Nodup
  rates_pos : ∀ k, ∀ rate ∈ fx.rates k, 0 < rate
  parcels_listed : ∀ p ∈ parcels, ∃ m ∈ markets, m.listing = p.listing

/-- The day of the last close by the clock, whether or not it is a trading day. -/
def lastClose (clocks : Clocks) (now : Instant) : Option Exchange → Except String NaiveDate
  | none => .ok now.date.pred
  | some ex => do
      let close ← orRefuse (clocks.closeTime ex.closeTime)
        ("exchange " ++ ex.mic ++ " has malformed close_time " ++ ex.closeTime)
      let zone ← orRefuse (clocks.timezone ex.timezone)
        ("exchange " ++ ex.mic ++ " has unrecognised timezone " ++ ex.timezone)
      return if close ≤ (zone now).second then (zone now).date else (zone now).date.pred

/-- How long after midnight UTC a token's daily candle can be relied on. -/
def cryptoPublicationLagHours : ℕ := 7

namespace Store
variable (s : Store) (clocks : Clocks) (now : Instant)

def currentExchange (m : Market) : Option Exchange :=
  if (m.identities.getLast m.identities_ne).onExchange then some (s.exchange m.listing) else none

def latestCompleteTradingDay (m : Market) : Except String (Option NaiveDate) := do
  let candidate ← lastClose clocks now (s.currentExchange m)
  return m.latestTradingDayOnOrBefore candidate

def publicationLag (m : Market) : ℕ :=
  if (s.currentExchange m).isSome then 0 else cryptoPublicationLagHours * 3600

def latestPublishedTradingDay (m : Market) : Except String (Option NaiveDate) :=
  s.latestCompleteTradingDay clocks (now.minus (s.publicationLag m)) m

end Store

/-! ### What was held, and when -/

/-- A parcel with its sales, each in the parcel's as-acquired units. -/
structure ParcelHolding where
  acquired : NaiveDate
  qty : ℚ
  sales : List (NaiveDate × ℚ)
  deriving DecidableEq

namespace ParcelHolding

def remainingOn (p : ParcelHolding) (date : NaiveDate) : ℚ :=
  if date < p.acquired then 0
  else max (p.qty - ((p.sales.filter fun sale => sale.1 ≤ date).map Prod.snd).sum) 0

def anyHeld (ps : List ParcelHolding) (date : NaiveDate) : Bool :=
  ps.any fun p => decide (0 < p.remainingOn date)

/-- The dates up to `last` on which a holding changes. -/
def changes (ps : List ParcelHolding) (last : NaiveDate) : List NaiveDate :=
  (StableSort.sortBy id ((ps.flatMap fun p => p.acquired :: p.sales.map Prod.fst).filter
    fun date => date ≤ last)).dedup

end ParcelHolding

namespace Store
variable (s : Store)

def holding (p : Valuation.ParcelRow) : ParcelHolding where
  acquired := p.date
  qty := p.quantity
  sales := (s.allocations.filter fun a => a.purchaseTradeId = p.id).map fun a =>
    (a.saleDate, asAcquiredQuantity a.quantity (some a.saleDate) (s.book.splits p.listing) p.date)

def holdingsOf (listing : ListingId) : List ParcelHolding :=
  (s.parcels.filter fun p => p.listing = listing).map s.holding

def heldOn (listing : ListingId) (date : NaiveDate) : Bool :=
  ParcelHolding.anyHeld (s.holdingsOf listing) date

/-- Every listing ever held, ascending. -/
def listingIds : List ListingId := StableSort.sortBy id (s.parcels.map Valuation.ParcelRow.listing).dedup

def heldListingIds (date : NaiveDate) : List ListingId :=
  s.listingIds.filter fun listing => s.heldOn listing date

/-- The spans the listing was held in, ending no later than `last`. -/
def heldSpans (listing : ListingId) (last : NaiveDate) : List (NaiveDate × NaiveDate) :=
  Spans.collect (s.heldOn listing) last [] (ParcelHolding.changes (s.holdingsOf listing) last)

/-! ### The two lists -/

def market (listing : ListingId) : Option Market := Keyed.get? Market.listing s.markets listing

def stored (listing : ListingId) (day : NaiveDate) : Bool :=
  s.book.prices.any fun row => row.day = (listing, day)

/-- Whether a day lies in the span the provider serves the listing. -/
def served (m : Market) (day : NaiveDate) : Bool :=
  m.unpricedFrom.all (fun d => decide (day < d)) &&
    (s.book.unpricedBefore m.listing).all fun d => decide (d ≤ day)

end Store

structure UnpricedListing where
  listing : ListingId
  ticker : String
  unpricedDays : ℕ
  earliestDate : NaiveDate
  latestDate : NaiveDate
  deriving DecidableEq

structure ErroredPriceListing where
  listing : ListingId
  ticker : String
  erroredDays : ℕ
  latestErroredDate : NaiveDate
  latestError : String
  deriving DecidableEq

def errorOf (row : ClosingPrice) : String :=
  match row.quote with
  | .errored message => message
  | .fetched .. | .manual .. => ""

namespace Store
variable (s : Store) (clocks : Clocks) (now : Instant)

/-- The distinct valuation days of the days held up to `finalDay` that have no
row and are within the span served. -/
def missingDays (m : Market) (finalDay : NaiveDate) : List NaiveDate :=
  (StableSort.sortBy id ((s.heldSpans m.listing finalDay).flatMap fun span =>
    (daysBetween span.1 span.2).filterMap fun date =>
      (m.latestTradingDayOnOrBefore date).filter fun day =>
        !s.stored m.listing day && s.served m day)).dedup

def unpricedListing (m : Market) (finalDay : NaiveDate) : Option UnpricedListing :=
  let missing := s.missingDays m finalDay
  missing.head?.bind fun earliest => missing.getLast?.map fun latest =>
    ⟨m.listing, m.ticker, missing.length, earliest, latest⟩

/-- One listing's turn of the walk. -/
def unpricedTurn (listing : ListingId) : Except String (Option UnpricedListing) :=
  match s.market listing with
  | none => .ok none
  | some m => do
      let finalDay ← s.latestPublishedTradingDay clocks now m
      return finalDay.bind (s.unpricedListing m)

def dbUnpricedDays : Except String (List UnpricedListing) := do
  let rows ← s.listingIds.mapM (s.unpricedTurn clocks now)
  return StableSort.sortBy (fun row => toLex (row.earliestDate, row.listing)) rows.reduceOption

def erroredRows (m : Market) : List ClosingPrice :=
  s.book.prices.filter fun row =>
    row.listing = m.listing && Book.isErrored row && s.served m row.priceDate

def erroredListing (m : Market) : Option ErroredPriceListing :=
  let rows := s.erroredRows m
  (StableSort.sortBy ClosingPrice.priceDate rows).getLast?.map fun row =>
    ⟨m.listing, m.ticker, rows.length, row.priceDate, errorOf row⟩

/-- `errored_prices`, the newest error first. -/
def erroredPrices : List ErroredPriceListing :=
  StableSort.sortBy (fun row => OrderDual.toDual row.latestErroredDate)
    (s.markets.filterMap s.erroredListing)

/-! ### The valuation -/

/-- The markets of the listings held on a date. -/
def heldMarkets (date : NaiveDate) : List Market := (s.heldListingIds date).filterMap s.market

variable {s} in
theorem market_listing {listing : ListingId} {m : Market} (h : s.market listing = some m) :
    m.listing = listing := ((Keyed.get?_eq_some s.markets_unique).mp h).2

theorem listingIds_nodup : s.listingIds.Nodup :=
  (StableSort.sortBy_perm id _).nodup_iff.mpr (List.nodup_dedup _)

theorem heldMarkets_unique (date : NaiveDate) :
    ((s.heldMarkets date).map Market.listing).Nodup := by
  have hids : ((s.heldListingIds date).map id).Nodup := by
    rw [List.map_id]
    exact s.listingIds_nodup.filter _
  exact hids.sublist (Keyed.filterMap_sublist (fun _ _ => market_listing) _)

/-- What a valuation of a date reads. -/
def valuing (date : NaiveDate) : Valuation.Records where
  book := s.book
  markets := s.heldMarkets date
  parcels := s.parcels
  allocations := s.allocations
  fx := s.fx
  latestCompleteTradingDay := s.latestCompleteTradingDay clocks now
  markets_unique := s.heldMarkets_unique date
  rates_pos := s.rates_pos

end Store

/-- A blocker that says no price is stored: for the day, or to carry forward. -/
def wantsRow : Blocker → Bool
  | .noPrice .. | .nothingToCarry .. => true
  | .noTradingDay .. | .notFinal .. | .erroredPrice .. | .noRate .. => false

def wantsRefetch : Blocker → Bool
  | .erroredPrice .. => true
  | .noTradingDay .. | .notFinal .. | .nothingToCarry .. | .noPrice .. | .noRate .. => false

/-- The valuation is blocked, by a market's turn among others, for such a reason. -/
def Blocks (r : Valuation.Records) (date : NaiveDate) (m : Market) (why : Blocker → Bool) : Prop :=
  ∃ blockers b, r.valuationsOfMarkets date = .error (.blocked blockers) ∧ b ∈ blockers ∧
    r.valueMarket date m = .ok (.blocked b) ∧ why b = true

/-! ### Trading days -/

theorem latestTradingDayWithin_spec {m : Market} {n : ℕ} {date day : NaiveDate}
    (h : m.latestTradingDayWithin n date = some day) :
    m.isTradingDay day = true ∧ ∀ d, day < d → d ≤ date → m.isTradingDay d = false := by
  have hgreatest := Market.latestTradingDayWithin_isGreatest h
  refine ⟨hgreatest.1.2, fun d hafter hto => ?_⟩
  by_contra htrades
  exact absurd (hgreatest.2 ⟨hto, by simpa using htrades⟩) (not_le.mpr hafter)

theorem latestTradingDay_of_trading {m : Market} {day : NaiveDate} (h : m.isTradingDay day = true) :
    m.latestTradingDayOnOrBefore day = some day := by
  rw [Market.latestTradingDayOnOrBefore, Market.latestTradingDayWithin, if_pos h]

/-- A date past a trading day that values at or before it, values at it. -/
theorem valuationDay_eq {m : Market} {date day finalDay : NaiveDate}
    (hday : m.latestTradingDayOnOrBefore date = some day) (hfinal : m.isTradingDay finalDay = true)
    (hle : day ≤ finalDay) (hpast : finalDay ≤ date) : day = finalDay := by
  by_contra hne
  have hshut := (latestTradingDayWithin_spec hday).2 finalDay (lt_of_le_of_ne hle hne) hpast
  rw [hfinal] at hshut
  cases hshut

/-! ### Held spans -/

namespace ParcelHolding

theorem remainingOn_congr {p : ParcelHolding} {a b : NaiveDate} (hab : a ≤ b)
    (hacquired : p.acquired ≤ b → p.acquired ≤ a)
    (hsales : ∀ sale ∈ p.sales, sale.1 ≤ b → sale.1 ≤ a) : p.remainingOn b = p.remainingOn a := by
  have hbefore : b < p.acquired ↔ a < p.acquired :=
    ⟨hab.trans_lt, fun h => lt_of_not_ge fun hb => (hacquired hb).not_gt h⟩
  have hsold : p.sales.filter (fun sale => sale.1 ≤ b) = p.sales.filter fun sale => sale.1 ≤ a := by
    apply List.filter_congr
    intro sale hsale
    exact decide_eq_decide.mpr ⟨hsales sale hsale, fun h => h.trans hab⟩
  simp only [remainingOn, hbefore, hsold]

theorem mem_changes {ps : List ParcelHolding} {last date : NaiveDate} :
    date ∈ changes ps last ↔
      (∃ p ∈ ps, date = p.acquired ∨ ∃ sale ∈ p.sales, sale.1 = date) ∧ date ≤ last := by
  simp [changes]

theorem changes_sorted (ps : List ParcelHolding) (last : NaiveDate) :
    (changes ps last).Pairwise (· < ·) := by
  have hsorted := (StableSort.sortBy_sorted id ((ps.flatMap fun p =>
    p.acquired :: p.sales.map Prod.fst).filter fun date => date ≤ last)).sublist
      (List.dedup_sublist _)
  exact (hsorted.and (List.nodup_dedup _)).imp fun h => lt_of_le_of_ne h.1 h.2

/-- What is held changes on the dates of acquisitions and sales alone. -/
theorem anyHeld_steady {ps : List ParcelHolding} {last a b : NaiveDate} (hab : a ≤ b)
    (hlast : b ≤ last) (hnone : ∀ d ∈ changes ps last, d ≤ b → d ≤ a) :
    anyHeld ps b = anyHeld ps a := by
  unfold anyHeld
  rw [Bool.eq_iff_iff, List.any_eq_true, List.any_eq_true]
  refine exists_congr fun p => and_congr_right fun hp => ?_
  rw [remainingOn_congr hab]
  · intro hacquired
    exact hnone _ (mem_changes.mpr ⟨⟨p, hp, Or.inl rfl⟩, hacquired.trans hlast⟩) hacquired
  · intro sale hsale hsold
    exact hnone _ (mem_changes.mpr ⟨⟨p, hp, Or.inr ⟨sale, hsale, rfl⟩⟩, hsold.trans hlast⟩) hsold

theorem anyHeld_before {ps : List ParcelHolding} {last date : NaiveDate} (hlast : date ≤ last)
    (hnone : ∀ d ∈ changes ps last, date < d) : anyHeld ps date = false := by
  apply List.any_eq_false.mpr
  intro p hp
  have hbefore : date < p.acquired := lt_of_not_ge fun hacquired =>
    absurd hacquired (hnone _ (mem_changes.mpr ⟨⟨p, hp, Or.inl rfl⟩, hacquired.trans hlast⟩)).not_ge
  rw [remainingOn, if_pos hbefore]
  simp

end ParcelHolding

namespace Store
variable {s : Store} {clocks : Clocks} {now : Instant} {m : Market}

theorem covers_heldSpans {listing : ListingId} {last date : NaiveDate} :
    Spans.Covers (s.heldSpans listing last) date ↔ date ≤ last ∧ s.heldOn listing date = true := by
  apply Spans.covers_collect_nil (ParcelHolding.changes_sorted _ _)
  · exact fun p hp => (ParcelHolding.mem_changes.mp hp).2
  · exact fun h => ParcelHolding.anyHeld_before h
  · exact fun h p _ hp hlatest => ParcelHolding.anyHeld_steady hp h hlatest

/-- The days missing are the valuation days of the dates held up to the last
day published that have no row. -/
theorem mem_missingDays {finalDay day : NaiveDate} :
    day ∈ s.missingDays m finalDay ↔
      (s.stored m.listing day = false ∧ s.served m day = true) ∧
        ∃ date ≤ finalDay, s.heldOn m.listing date = true ∧
          m.latestTradingDayOnOrBefore date = some day := by
  rw [missingDays, List.mem_dedup, StableSort.mem_sortBy, List.mem_flatMap]
  constructor
  · rintro ⟨span, hspan, hday⟩
    obtain ⟨date, hdate, hpick⟩ := List.mem_filterMap.mp hday
    obtain ⟨hvalues, hcounts⟩ := Option.filter_eq_some_iff.mp hpick
    have hheld := covers_heldSpans.mp ⟨span, hspan, mem_daysBetween.mp hdate⟩
    refine ⟨?_, date, hheld.1, hheld.2, hvalues⟩
    simpa using hcounts
  · rintro ⟨hcounts, date, hle, hheld, hvalues⟩
    obtain ⟨span, hspan, hdate⟩ := covers_heldSpans.mpr ⟨hle, hheld⟩
    refine ⟨span, hspan, List.mem_filterMap.mpr ⟨date, mem_daysBetween.mpr hdate, ?_⟩⟩
    exact Option.filter_eq_some_iff.mpr ⟨hvalues, by simpa using hcounts⟩

/-- Whether the walk up to the last day published meets a date's valuation day. -/
def walked (s : Store) (m : Market) (date day finalDay : NaiveDate) : Bool :=
  decide (date ≤ finalDay) || s.heldOn m.listing day

theorem exists_walked {date day finalDay : NaiveDate} (hheld : s.heldOn m.listing date = true)
    (hday : m.latestTradingDayOnOrBefore date = some day) (hfinal : m.isTradingDay finalDay = true)
    (hle : day ≤ finalDay) :
    (∃ d ≤ finalDay, s.heldOn m.listing d = true ∧ m.latestTradingDayOnOrBefore d = some day) ↔
      s.walked m date day finalDay = true := by
  rw [walked, Bool.or_eq_true, decide_eq_true_eq]
  constructor
  · rintro ⟨d, hd, hheldThen, hvalues⟩
    by_cases hto : date ≤ finalDay
    · exact Or.inl hto
    · right
      have hfinalDay := valuationDay_eq hday hfinal hle (not_le.mp hto).le
      have hback := Market.latestTradingDayWithin_le hvalues
      obtain rfl : d = day := le_antisymm (hd.trans_eq hfinalDay.symm) hback
      exact hheldThen
  · rintro (hto | hthen)
    · exact ⟨date, hto, hheld, hday⟩
    · exact ⟨day, hle, hthen, latestTradingDay_of_trading (latestTradingDayWithin_spec hday).1⟩

/-! ### What blocks a date -/

theorem published_trades {finalDay : NaiveDate}
    (h : s.latestPublishedTradingDay clocks now m = .ok (some finalDay)) :
    m.isTradingDay finalDay = true := by
  obtain ⟨candidate, -, h⟩ := bind_ok h
  exact (latestTradingDayWithin_spec (Except.ok.inj h)).1

/-- The readings of an exchange's clock do not turn on the instant. -/
theorem complete_of_published {finalDay : Option NaiveDate}
    (h : s.latestPublishedTradingDay clocks now m = .ok finalDay) :
    ∃ f, s.latestCompleteTradingDay clocks now m = .ok f := by
  obtain ⟨candidate, hcandidate, -⟩ := bind_ok h
  unfold latestCompleteTradingDay
  cases hex : s.currentExchange m with
  | none => exact ⟨_, rfl⟩
  | some ex =>
    rw [hex] at hcandidate
    obtain ⟨close, hclose, hcandidate⟩ := bind_ok hcandidate
    obtain ⟨zone, hzone, -⟩ := bind_ok hcandidate
    exact ⟨_, by simp only [lastClose, hclose, hzone]; rfl⟩

variable (s clocks now m) in
/-- Whether the close of a day is final. -/
def isFinal (day : NaiveDate) : Bool :=
  accepts (s.latestCompleteTradingDay clocks now m) fun f => f.any fun f => decide (day ≤ f)

variable (s m) in
/-- Whether an ok row is dated up to the day, from the start of the series on. -/
def closeUpTo (day : NaiveDate) : Bool :=
  s.book.prices.any fun row => decide (row.listing = m.listing) && isOk row &&
    decide (row.priceDate ≤ day) &&
      (s.book.unpricedBefore m.listing).all fun d => decide (d ≤ row.priceDate)

variable (s m) in
def rowAt (day : NaiveDate) : Option ClosingPrice :=
  Keyed.get? ClosingPrice.day s.book.prices (m.listing, day)

theorem rowAt_isSome {day : NaiveDate} : (s.rowAt m day).isSome = s.stored m.listing day :=
  List.isSome_find?

theorem okPrice_isSome (row : ClosingPrice) : (okPrice row).isSome = isOk row := by
  rcases row with ⟨_, _, _, quote⟩
  cases quote <;> rfl

variable (r : Valuation.Records) in
theorem latestOkPrice_isSome {listing : ListingId} {day : NaiveDate} {before : Option NaiveDate} :
    (r.latestOkPriceOnOrBefore listing day before).isSome = true ↔
      ∃ row ∈ r.book.prices, row.listing = listing ∧ isOk row = true ∧ row.priceDate ≤ day ∧
        before.all (fun d => decide (d ≤ row.priceDate)) = true := by
  unfold Records.latestOkPriceOnOrBefore
  rw [List.getLast?_isSome, ← List.length_pos_iff_ne_nil, (StableSort.sortBy_perm _ _).length_eq,
    List.length_pos_iff_exists_mem]
  constructor
  · rintro ⟨p, hp⟩
    obtain ⟨row, hrow, hpick⟩ := List.mem_filterMap.mp hp
    split at hpick
    · rename_i hwindow
      refine ⟨row, hrow, hwindow.1, ?_, hwindow.2⟩
      rw [← okPrice_isSome, ← Option.isSome_map, hpick]
      rfl
    · cases hpick
  · rintro ⟨row, hrow, hlisting, hok, hwindow⟩
    rw [← okPrice_isSome] at hok
    obtain ⟨price, hprice⟩ := Option.isSome_iff_exists.mp hok
    refine ⟨(row.priceDate, price), List.mem_filterMap.mpr ⟨row, hrow, ?_⟩⟩
    rw [if_pos ⟨hlisting, hwindow⟩, hprice]
    rfl

variable {date day : NaiveDate}

variable (m) in
/-- Whether the provider is recorded as quoting the listing no longer. -/
def marked (day : NaiveDate) : Bool := m.unpricedFrom.any fun d => decide (d ≤ day)

variable (s m) in
/-- Whether the day is before the provider's series begins. -/
def unbegun (day : NaiveDate) : Bool :=
  (s.book.unpricedBefore m.listing).any fun d => decide (day < d)

theorem served_eq : s.served m day = (!marked m day && !s.unbegun m day) := by
  unfold served marked unbegun
  rw [Bool.eq_iff_iff]
  cases m.unpricedFrom <;> cases s.book.unpricedBefore m.listing <;> simp

theorem carryForward_none :
    ((s.valuing clocks now date).carryForwardPrice m day).isSome = s.closeUpTo m day := by
  unfold Records.carryForwardPrice
  rw [Option.isSome_map, Bool.eq_iff_iff, latestOkPrice_isSome, closeUpTo, List.any_eq_true]
  refine exists_congr fun row => and_congr_right fun _ => ?_
  simp only [Bool.and_eq_true, decide_eq_true_eq, and_assoc]
  rfl

theorem closeUpTo_of_row {row : ClosingPrice} (hrow : s.rowAt m day = some row)
    (hok : isOk row = true) (hbegun : s.unbegun m day = false) : s.closeUpTo m day = true := by
  have hday : row ∈ s.book.prices ∧ row.day = (m.listing, day) :=
    (Keyed.get?_eq_some s.book.days_unique).mp hrow
  obtain ⟨hlisting, hdate⟩ := Prod.mk.inj hday.2
  refine List.any_eq_true.mpr ⟨row, hday.1, ?_⟩
  unfold unbegun at hbegun
  cases hbefore : s.book.unpricedBefore m.listing with
  | none => simp [hlisting, hdate, hok]
  | some d =>
    rw [hbefore] at hbegun
    have hle : d ≤ day := by simpa using hbegun
    simp [hlisting, hdate, hok, hle]

/-- The price of a day whose row is not ok, if it has one. -/
theorem priceAt_of_none (h : (s.rowAt m day).bind okPrice = none) :
    (s.valuing clocks now date).priceAt m day =
      if marked m day then
        ((s.valuing clocks now date).carryForwardPrice m day).elim
          (.error (.nothingToCarry m.ticker day m.unpricedFrom)) fun price => .ok (price, true)
      else .error ((s.rowAt m day).elim (.noPrice m.ticker day) fun row =>
        .erroredPrice m.ticker day (errorOf row)) := by
  have hstored : Keyed.get? ClosingPrice.day (s.valuing clocks now date).book.prices
      (m.listing, day) = s.rowAt m day := rfl
  unfold Records.priceAt marked
  rw [hstored]
  simp only [h]
  split
  · cases (s.valuing clocks now date).carryForwardPrice m day <;> rfl
  · cases hrow : s.rowAt m day with
    | none => rfl
    | some row =>
      rw [hrow] at h
      rcases row with ⟨_, _, _, quote⟩
      cases quote with
      | fetched _ price => cases h
      | manual price _ _ => cases h
      | errored message => rfl

theorem priceAt_of_some {price : ℚ} (h : (s.rowAt m day).bind okPrice = some price) :
    (s.valuing clocks now date).priceAt m day = .ok (price, false) := by
  have hstored : Keyed.get? ClosingPrice.day (s.valuing clocks now date).book.prices
      (m.listing, day) = s.rowAt m day := rfl
  unfold Records.priceAt
  rw [hstored]
  simp only [h]

/-- A price is wanting where no row is stored or, of a listing no longer
quoted, no close to carry. -/
theorem priceAt_wantsRow (hbegun : s.unbegun m day = false) :
    (∃ b, (s.valuing clocks now date).priceAt m day = .error b ∧ wantsRow b = true) ↔
      (if marked m day then s.closeUpTo m day else s.stored m.listing day) = false := by
  rw [← rowAt_isSome]
  cases hclose : (s.rowAt m day).bind okPrice with
  | some price =>
    obtain ⟨row, hrow, hok⟩ := Option.bind_eq_some_iff.mp hclose
    have hisOk : isOk row = true := by rw [← okPrice_isSome, hok]; rfl
    rw [priceAt_of_some hclose, closeUpTo_of_row hrow hisOk hbegun, hrow]
    simp
  | none =>
    have hcarry : ((s.valuing clocks now date).carryForwardPrice m day).isSome =
      s.closeUpTo m day := carryForward_none
    rw [priceAt_of_none hclose, ← hcarry]
    cases marked m day with
    | true =>
      cases (s.valuing clocks now date).carryForwardPrice m day with
      | none => exact ⟨fun _ => rfl, fun _ => ⟨_, rfl, rfl⟩⟩
      | some price => exact ⟨fun ⟨b, hb, _⟩ => (nomatch hb), nofun⟩
    | false =>
      cases s.rowAt m day with
      | none => exact ⟨fun _ => rfl, fun _ => ⟨_, rfl, rfl⟩⟩
      | some row =>
        refine ⟨fun ⟨b, hb, hwants⟩ => ?_, nofun⟩
        obtain rfl := Except.error.inj hb
        cases hwants

/-- A price to fetch again is a row stored and not ok, of a listing quoted still. -/
theorem priceAt_wantsRefetch {b : Blocker}
    (h : (s.valuing clocks now date).priceAt m day = .error b) (hwants : wantsRefetch b = true) :
    marked m day = false ∧ ∃ row, s.rowAt m day = some row ∧ Book.isErrored row = true := by
  cases hclose : (s.rowAt m day).bind okPrice with
  | some price =>
    rw [priceAt_of_some hclose] at h
    cases h
  | none =>
    rw [priceAt_of_none hclose] at h
    split at h
    · cases hcarry : (s.valuing clocks now date).carryForwardPrice m day with
      | none =>
        rw [hcarry] at h
        obtain rfl := Except.error.inj h
        cases hwants
      | some price =>
        rw [hcarry] at h
        cases h
    · rename_i hmarked
      refine ⟨Bool.eq_false_of_not_eq_true hmarked, ?_⟩
      cases hrow : s.rowAt m day with
      | none =>
        rw [hrow] at h
        obtain rfl := Except.error.inj h
        cases hwants
      | some row =>
        refine ⟨row, rfl, ?_⟩
        rw [hrow] at hclose
        have hnot : isOk row = false := by rw [← okPrice_isSome, show okPrice row = none from hclose]; rfl
        exact (Bool.not_eq_false' ..).mp hnot

/-- A market's turn of the valuation, on a date it values at `day`. -/
theorem valueMarket_blocked (hday : m.latestTradingDayOnOrBefore date = some day) {b : Blocker}
    (hwants : wantsRow b = true ∨ wantsRefetch b = true) :
    (s.valuing clocks now date).valueMarket date m = .ok (.blocked b) ↔
      s.unbegun m day = false ∧ s.isFinal clocks now m day = true ∧
        (s.valuing clocks now date).priceAt m day = .error b := by
  have hbefore : (s.valuing clocks now date).book.unpricedBefore = s.book.unpricedBefore := rfl
  have hfinal : (s.valuing clocks now date).latestCompleteTradingDay =
    s.latestCompleteTradingDay clocks now := rfl
  unfold Records.valueMarket isFinal unbegun
  rw [hday, hbefore, hfinal]
  simp only
  cases hseries : (s.book.unpricedBefore m.listing).filter fun d => decide (day < d) with
  | some d =>
    obtain ⟨hd, hlt⟩ := Option.filter_eq_some_iff.mp hseries
    simp [hd, of_decide_eq_true hlt]
  | none =>
    have hbegun : (s.book.unpricedBefore m.listing).any (fun d => decide (day < d)) = false := by
      cases hd : s.book.unpricedBefore m.listing with
      | none => rfl
      | some d =>
        rw [hd] at hseries
        simpa using hseries
    rw [hbegun]
    cases hcomplete : s.latestCompleteTradingDay clocks now m with
    | error e =>
      constructor
      · intro h
        cases h
      · intro h
        exact absurd h.2.1 (by simp [accepts])
    | ok f =>
      have hany : accepts (Except.ok f : Except String _)
          (fun f => f.any fun f => decide (day ≤ f)) = !f.all fun f => decide (f < day) := by
        cases f <;> simp [accepts, ← not_lt]
      rw [hany]
      simp only [bind, Except.bind, pure, Except.pure]
      split
      · rename_i hnot
        rw [hnot]
        constructor
        · intro h
          cases h
          rcases hwants with h | h <;> cases h
        · intro h
          cases h.2.1
      · rename_i hfinal
        rw [Bool.eq_false_of_not_eq_true hfinal]
        simp only [Bool.not_false, true_and]
        cases hprice : (s.valuing clocks now date).priceAt m day with
        | error e => simp
        | ok p =>
          have hnot : ¬ ((Except.ok p : Except Blocker _) = .error b) := by
            intro h
            cases h
          refine iff_of_false (fun h => ?_) hnot
          cases hrate : resolveValuationRate (s.valuing clocks now date).fx m.currency day with
          | error e =>
            simp only [hrate] at h
            cases h
            rcases hwants with h | h <;> cases h
          | ok rate =>
            simp only [hrate] at h
            cases h

/-- Where every turn of the valuation answers, a market's turn that is blocked
blocks the date. -/
theorem blocks_iff {r : Valuation.Records} (hm : m ∈ r.markets)
    (hturns : ∀ m ∈ r.markets, ∃ o, r.valueMarket date m = .ok o) {why : Blocker → Bool} :
    Blocks r date m why ↔ ∃ b, r.valueMarket date m = .ok (.blocked b) ∧ why b = true := by
  constructor
  · rintro ⟨_, b, _, _, hb, hwhy⟩
    exact ⟨b, hb, hwhy⟩
  · rintro ⟨b, hb, hwhy⟩
    obtain ⟨outcomes, houtcomes⟩ := exists_mapM hturns
    obtain ⟨o, ho, hturn⟩ := exists_mem_mapM houtcomes hm
    obtain rfl : o = .blocked b := Except.ok.inj (hturn.symm.trans hb)
    unfold Blocks Records.valuationsOfMarkets
    rw [houtcomes]
    simp only
    rw [if_pos]
    · exact ⟨_, b, rfl, List.mem_filterMap.mpr ⟨_, ho, rfl⟩, hb, hwhy⟩
    · exact List.ne_nil_of_mem (List.mem_filterMap.mpr ⟨_, ho, rfl⟩)

/-- A turn answers where the market's clock can be read. -/
theorem valueMarket_answers (h : ∃ f, s.latestCompleteTradingDay clocks now m = .ok f) :
    ∃ o, (s.valuing clocks now date).valueMarket date m = .ok o := by
  obtain ⟨f, hf⟩ := h
  have hfinal : (s.valuing clocks now date).latestCompleteTradingDay m = .ok f := hf
  unfold Records.valueMarket
  split
  · exact ⟨_, rfl⟩
  split
  · exact ⟨_, rfl⟩
  rw [hfinal]
  simp only [bind, Except.bind]
  split
  · exact ⟨_, rfl⟩
  split
  · exact ⟨_, rfl⟩
  split <;> exact ⟨_, rfl⟩

/-- A report answered could read the clock of every market held. -/
theorem complete_of_report {report : List UnpricedListing}
    (h : s.dbUnpricedDays clocks now = .ok report) {listing : ListingId}
    (hlisting : listing ∈ s.listingIds) (hm : s.market listing = some m) :
    ∃ f, s.latestCompleteTradingDay clocks now m = .ok f := by
  obtain ⟨rows, hrows, -⟩ := bind_ok h
  obtain ⟨row, -, hturn⟩ := exists_mem_mapM hrows hlisting
  unfold unpricedTurn at hturn
  rw [hm] at hturn
  obtain ⟨finalDay, hfinal, -⟩ := bind_ok hturn
  exact complete_of_published hfinal

theorem market_eq (hm : m ∈ s.markets) : s.market m.listing = some m :=
  (Keyed.get?_eq_some s.markets_unique).mpr ⟨hm, rfl⟩

theorem mem_listingIds (h : s.heldOn m.listing date = true) : m.listing ∈ s.listingIds := by
  obtain ⟨holding, hholding, -⟩ := List.any_eq_true.mp h
  obtain ⟨p, hp, -⟩ := List.mem_map.mp hholding
  obtain ⟨hp, hlisting⟩ := List.mem_filter.mp hp
  rw [listingIds, StableSort.mem_sortBy, List.mem_dedup]
  exact List.mem_map.mpr ⟨p, hp, of_decide_eq_true hlisting⟩

/-- A listing with a day missing is in the report. -/
theorem mem_report {report : List UnpricedListing} (h : s.dbUnpricedDays clocks now = .ok report)
    (hm : m ∈ s.markets) (hlisting : m.listing ∈ s.listingIds) {finalDay : NaiveDate}
    (hfinal : s.latestPublishedTradingDay clocks now m = .ok (some finalDay))
    (hday : day ∈ s.missingDays m finalDay) : m.listing ∈ report.map UnpricedListing.listing := by
  obtain ⟨rows, hrows, h⟩ := bind_ok h
  cases h
  obtain ⟨row, hrow, hturn⟩ := exists_mem_mapM hrows hlisting
  unfold unpricedTurn at hturn
  rw [market_eq hm] at hturn
  simp only [hfinal, bind, Except.bind, pure, Except.pure, Option.bind_some] at hturn
  cases hturn
  have hne : s.missingDays m finalDay ≠ [] := List.ne_nil_of_mem hday
  have hsome : s.unpricedListing m finalDay = some ⟨m.listing, m.ticker,
      (s.missingDays m finalDay).length, (s.missingDays m finalDay).head hne,
      (s.missingDays m finalDay).getLast hne⟩ := by
    simp only [unpricedListing, List.head?_eq_some_head hne, List.getLast?_eq_some_getLast hne,
      Option.bind_some, Option.map_some]
  rw [hsome] at hrow
  exact List.mem_map.mpr ⟨_, StableSort.mem_sortBy.mpr (List.reduceOption_mem_iff.mpr hrow), rfl⟩

theorem mem_erroredPrices (hm : m ∈ s.markets) {row : ClosingPrice} (hrow : row ∈ s.erroredRows m) :
    m.listing ∈ s.erroredPrices.map ErroredPriceListing.listing := by
  have hne : StableSort.sortBy ClosingPrice.priceDate (s.erroredRows m) ≠ [] :=
    List.ne_nil_of_mem (StableSort.mem_sortBy.mpr hrow)
  have hlast := List.getLast?_eq_some_getLast hne
  generalize (StableSort.sortBy ClosingPrice.priceDate (s.erroredRows m)).getLast hne = last at hlast
  have hlisting : s.erroredListing m = some ⟨m.listing, m.ticker, (s.erroredRows m).length,
      last.priceDate, errorOf last⟩ := by
    simp only [erroredListing, hlast, Option.map_some]
  exact List.mem_map.mpr
    ⟨_, StableSort.mem_sortBy.mpr (List.mem_filterMap.mpr ⟨m, hm, hlisting⟩), rfl⟩

end Store

/-- The two lists of the report are what blocks the valuation of a date. -/
structure ListsBlock (s : Store) (clocks : Clocks) (now : Instant) (report : List UnpricedListing)
    (m : Market) (date day finalDay : NaiveDate) : Prop where
  missing : Blocks (s.valuing clocks now date) date m wantsRow ↔ day ∈ s.missingDays m finalDay
  errored : Blocks (s.valuing clocks now date) date m wantsRefetch →
    (∃ row ∈ s.erroredRows m, row.priceDate = day) ∧ day ∉ s.missingDays m finalDay
  absent : m.listing ∉ report.map UnpricedListing.listing →
    m.listing ∉ s.erroredPrices.map ErroredPriceListing.listing →
      ¬ Blocks (s.valuing clocks now date) date m fun b => wantsRow b || wantsRefetch b

/-- Whether the walk and the valuation come to the same of a date: a listing no
longer quoted has a close to carry, and a day without a row is walked when its
close is final. -/
def Store.sameOf (s : Store) (clocks : Clocks) (now : Instant) (m : Market)
    (date day finalDay : NaiveDate) : Bool :=
  s.unbegun m day ||
    if Store.marked m day then !s.isFinal clocks now m day || s.closeUpTo m day
    else s.stored m.listing day || s.isFinal clocks now m day == s.walked m date day finalDay

section
variable {s : Store} {clocks : Clocks} {now : Instant} {report : List UnpricedListing} {m : Market}
  {date day finalDay : NaiveDate}

/-- The lists are what blocks a date held and published just where the walk and
the valuation come to the same of it. -/
theorem lists_are_what_blocks (hreport : s.dbUnpricedDays clocks now = .ok report)
    (hm : m ∈ s.markets) (hheld : s.heldOn m.listing date = true)
    (hday : m.latestTradingDayOnOrBefore date = some day)
    (hfinal : s.latestPublishedTradingDay clocks now m = .ok (some finalDay))
    (hpublished : day ≤ finalDay) :
    ListsBlock s clocks now report m date day finalDay ↔
      s.sameOf clocks now m date day finalDay = true := by
  have hlisting := Store.mem_listingIds hheld
  have hheldMarket : m ∈ (s.valuing clocks now date).markets :=
    List.mem_filterMap.mpr ⟨m.listing, List.mem_filter.mpr ⟨hlisting, hheld⟩, Store.market_eq hm⟩
  have hturns : ∀ m ∈ (s.valuing clocks now date).markets,
      ∃ o, (s.valuing clocks now date).valueMarket date m = .ok o := by
    intro m' hm'
    obtain ⟨listing, hids, hmarket⟩ := List.mem_filterMap.mp hm'
    exact Store.valueMarket_answers
      (Store.complete_of_report hreport (List.mem_filter.mp hids).1 hmarket)
  have hrow : Blocks (s.valuing clocks now date) date m wantsRow ↔
      s.unbegun m day = false ∧ s.isFinal clocks now m day = true ∧
        (if Store.marked m day then s.closeUpTo m day else s.stored m.listing day) = false := by
    rw [Store.blocks_iff hheldMarket hturns]
    constructor
    · rintro ⟨b, hb, hwants⟩
      obtain ⟨hbegun, hclose, hprice⟩ := (Store.valueMarket_blocked hday (Or.inl hwants)).mp hb
      exact ⟨hbegun, hclose, (Store.priceAt_wantsRow hbegun).mp ⟨b, hprice, hwants⟩⟩
    · rintro ⟨hbegun, hclose, hwanting⟩
      have hprices : ∃ b, (s.valuing clocks now date).priceAt m day = .error b ∧ wantsRow b = true :=
        (Store.priceAt_wantsRow hbegun).mpr hwanting
      obtain ⟨b, hprice, hwants⟩ := hprices
      exact ⟨b, (Store.valueMarket_blocked hday (Or.inl hwants)).mpr ⟨hbegun, hclose, hprice⟩, hwants⟩
  have hmissing : day ∈ s.missingDays m finalDay ↔
      s.stored m.listing day = false ∧ (Store.marked m day = false ∧ s.unbegun m day = false) ∧
        s.walked m date day finalDay = true := by
    rw [Store.mem_missingDays, Store.exists_walked hheld hday (Store.published_trades hfinal)
      hpublished, Store.served_eq]
    simp [and_assoc]
  have herrored : Blocks (s.valuing clocks now date) date m wantsRefetch →
      (∃ row ∈ s.erroredRows m, row.priceDate = day) ∧ day ∉ s.missingDays m finalDay := by
    rw [Store.blocks_iff hheldMarket hturns]
    rintro ⟨b, hb, hwants⟩
    obtain ⟨hbegun, -, hprice⟩ := (Store.valueMarket_blocked hday (Or.inr hwants)).mp hb
    obtain ⟨hmarked, row, hrowAt, hnotOk⟩ := Store.priceAt_wantsRefetch hprice hwants
    have hstored : s.stored m.listing day = true := by rw [← Store.rowAt_isSome, hrowAt]; rfl
    have hkey : row ∈ s.book.prices ∧ row.day = (m.listing, day) :=
      (Keyed.get?_eq_some s.book.days_unique).mp hrowAt
    obtain ⟨hlistingRow, hdate⟩ := Prod.mk.inj hkey.2
    refine ⟨⟨row, List.mem_filter.mpr ⟨hkey.1, ?_⟩, hdate⟩, fun hmem => ?_⟩
    · rw [hdate, Store.served_eq, hmarked, hbegun, hnotOk]
      simpa using hlistingRow
    · rw [(hmissing.mp hmem).1] at hstored
      cases hstored
  have hsame : (Blocks (s.valuing clocks now date) date m wantsRow ↔
      day ∈ s.missingDays m finalDay) ↔ s.sameOf clocks now m date day finalDay = true := by
    rw [hrow, hmissing, Store.sameOf]
    cases s.unbegun m day <;> cases s.isFinal clocks now m day <;> cases Store.marked m day <;>
      cases s.closeUpTo m day <;> cases s.stored m.listing day <;>
        cases s.walked m date day finalDay <;> simp
  refine ⟨fun h => hsame.mp h.missing, fun h => ⟨hsame.mpr h, herrored, ?_⟩⟩
  intro hunlisted hnoErrors hblocks
  rw [Store.blocks_iff hheldMarket hturns] at hblocks
  obtain ⟨b, hb, hwants⟩ := hblocks
  rcases (Bool.or_eq_true _ _).mp hwants with hwants | hwants
  · have hrowBlocks := (Store.blocks_iff hheldMarket hturns).mpr ⟨b, hb, hwants⟩
    exact hunlisted (Store.mem_report hreport hm hlisting hfinal ((hsame.mpr h).mp hrowBlocks))
  · have hrefetch := (Store.blocks_iff hheldMarket hturns).mpr ⟨b, hb, hwants⟩
    obtain ⟨⟨row, hrowMem, -⟩, -⟩ := herrored hrefetch
    exact hnoErrors (Store.mem_erroredPrices hm hrowMem)

end

/-! A holding on an exchange of ten units, without a price. -/

theorem xasx_identities_ne : [(⟨none, true, []⟩ : MarketIdentity)] ≠ [] := List.cons_ne_nil _ _

def xasx : Market where
  listing := 1
  ticker := "ABC"
  currency := ⟨"AUD"⟩
  unpricedFrom := none
  identities := [⟨none, true, []⟩]
  identities_ne := xasx_identities_ne

theorem xasx_unique : ([xasx].map Market.listing).Nodup := List.nodup_singleton _

theorem no_rates : ∀ k, ∀ rate ∈ (⟨fun _ => none⟩ : FxRates).rates k, (0 : ℚ) < rate := by
  intro k rate h
  cases h

theorem parcel_listed (acquired : NaiveDate) :
    ∀ p ∈ [(⟨1, 1, 1, 10, acquired⟩ : Valuation.ParcelRow)], ∃ m ∈ [xasx], m.listing = p.listing :=
  fun _ hp => ⟨xasx, List.mem_cons_self, by rw [List.mem_singleton.mp hp]; rfl⟩

def heldSince (acquired : NaiveDate) : Store where
  book := Book.empty
  markets := [xasx]
  parcels := [⟨1, 1, 1, 10, acquired⟩]
  allocations := []
  fx := ⟨fun _ => none⟩
  exchange := fun _ => ⟨"XASX", "Australia/Sydney", "16:00"⟩
  markets_unique := xasx_unique
  rates_pos := no_rates
  parcels_listed := parcel_listed acquired

/-- Sydney's clock over the summer. -/
def sydney (now : Instant) : Instant :=
  if now.second + 39600 < secondsInDay then ⟨now.date, now.second + 39600⟩
  else ⟨now.date.succ, now.second + 39600 - secondsInDay⟩

def clocks : Clocks where
  timezone := fun name => if name = "Australia/Sydney" then some sydney else none
  closeTime := fun time => if time = "16:00" then some 57600 else none

/-- Noon in Sydney on Saturday 3 January 2026. -/
def saturday : Instant := ⟨ymd 2026 1 3, 3600⟩

theorem lists_are_what_blocks_friday :
    ListsBlock (heldSince (ymd 2026 1 2)) clocks saturday
      [⟨1, "ABC", 1, ymd 2026 1 2, ymd 2026 1 2⟩] xasx (ymd 2026 1 3) (ymd 2026 1 2) (ymd 2026 1 2) :=
  (lists_are_what_blocks (by decide +kernel) List.mem_cons_self (by decide +kernel)
    (by decide +kernel) (by decide +kernel) le_rfl).mpr (by decide +kernel)

/-- Units vested on the Saturday are held on no day up to the last one
published, whose close their valuation lacks. -/
theorem lists_miss_weekend : ∃ s report m date day finalDay,
    s.dbUnpricedDays clocks saturday = .ok report ∧ m ∈ s.markets ∧
      s.heldOn m.listing date = true ∧ m.latestTradingDayOnOrBefore date = some day ∧
        s.latestPublishedTradingDay clocks saturday m = .ok (some finalDay) ∧ day ≤ finalDay ∧
          ¬ ListsBlock s clocks saturday report m date day finalDay := by
  refine ⟨heldSince (ymd 2026 1 3), [], xasx, ymd 2026 1 3, ymd 2026 1 2, ymd 2026 1 2,
    by decide +kernel, List.mem_cons_self, by decide +kernel, by decide +kernel, by decide +kernel,
    le_rfl, fun h => ?_⟩
  have hblocks : Blocks ((heldSince (ymd 2026 1 3)).valuing clocks saturday (ymd 2026 1 3))
      (ymd 2026 1 3) xasx wantsRow :=
    ⟨[.noPrice "ABC" (ymd 2026 1 2)], .noPrice "ABC" (ymd 2026 1 2), by decide +kernel,
      List.mem_cons_self, by decide, rfl⟩
  have hmissing : ymd 2026 1 2 ∉ (heldSince (ymd 2026 1 3)).missingDays xasx (ymd 2026 1 2) := by
    decide
  exact hmissing (h.missing.mp hblocks)

end ShareTracker.HealthPrices
