import ShareTracker.CorporateActions
import ShareTracker.Lib.ScaledRounding

/-!
Stored closing prices, kept in the unit and price basis of their own date by the
re-basing events recorded for the listing.
-/
namespace ShareTracker.ClosingPrices
open CorporateActions

/-- What a stored row holds: a provider's figure with the price derived from
it, a price entered by hand, or the failure to fetch one. -/
inductive Quote where
  | fetched (asObserved price : ℚ)
  | manual (price : ℚ) (sourcedFrom reason : String)
  | errored (message : String)
  deriving DecidableEq

structure ClosingPrice where
  listing : ListingId
  priceDate : NaiveDate
  /-- The UTC date of `fetched_at`. -/
  observed : NaiveDate
  quote : Quote
  deriving DecidableEq

def ClosingPrice.day (row : ClosingPrice) : ListingId × NaiveDate := (row.listing, row.priceDate)

/-- An event that restated the provider's series. -/
structure PriceBasisEvent where
  date : NaiveDate
  recoverNew : ℚ
  recoverOld : ℚ
  deriving DecidableEq

def PriceBasisEvent.ofSplit (split : SplitEvent) : PriceBasisEvent :=
  ⟨split.date, split.newUnits, split.oldUnits⟩

/-- A demerger with the close stated for the last day before it. -/
structure DemergerPriceStatement where
  date : NaiveDate
  closeDate : NaiveDate
  closePrice : ℚ
  deriving DecidableEq

/-- The terms of the ratio over the events dated in `(since, upTo]`. -/
def priceBasisRatio (events : List PriceBasisEvent) (since upTo : NaiveDate) : ℚ × ℚ :=
  events.foldl (fun r e =>
    if e.date ≤ since ∨ upTo < e.date then r else (r.1 * e.recoverNew, r.2 * e.recoverOld)) (1, 1)

def contemporaneousPrice (price : ℚ) (events : List PriceBasisEvent)
    (priceDate observed : NaiveDate) : ℚ :=
  let (new, old) := priceBasisRatio events priceDate observed
  if new = old then price else price * new / old

/-- The places that keep seven digits from the first non-zero one, 28 at most. -/
def significantPlaces (price : ℚ) : ℕ :=
  ((List.range 29).find? fun places => decide (10 ^ 6 ≤ |price| * 10 ^ places)).getD 28

def cleanPrice (price : ℚ) : ℚ :=
  if price = 0 then 0 else ScaledRounding.atScale (significantPlaces price) price

/-- A provider's figure in the basis of its own trading day. -/
def contemporaneous (asObserved : ℚ) (events : List PriceBasisEvent)
    (priceDate observed : NaiveDate) : ℚ :=
  cleanPrice (contemporaneousPrice asObserved events priceDate observed)

/-- The row with its price derived again from the figure observed. -/
def ClosingPrice.rederived (events : List PriceBasisEvent) (row : ClosingPrice) : ClosingPrice :=
  match row.quote with
  | .fetched asObserved _ =>
    { row with
      quote := .fetched asObserved (contemporaneous asObserved events row.priceDate row.observed) }
  | .manual .. | .errored .. => row

/-- The recorded actions and the stored prices, one row a listing and day. -/
structure Book where
  actions : List Action
  prices : List ClosingPrice
  unpricedBefore : ListingId → Option NaiveDate
  ids_unique : (actions.map Action.id).Nodup
  days_unique : (prices.map ClosingPrice.day).Nodup

/-- The event of a split or a bonus issue. -/
def splitEvent (a : Action) : Option SplitEvent :=
  match a.kind with
  | .shareSplit new old _ _ => some (.shareSplit a.date new old new.2 old.2)
  | .bonusIssue bonus held _ _ => some (.bonusIssue a.date bonus held bonus.2 held.2)
  | _ => none

def priceStatement (a : Action) : Option DemergerPriceStatement :=
  match a.kind with
  | .demerger _ _ _ _ (some close) _ _ => some ⟨a.date, close.date, close.price⟩
  | _ => none

structure ObservedFigure where
  asObserved : ℚ
  observed : NaiveDate
  deriving DecidableEq

/-- The provider's figure a row holds, which a manual price is not. -/
def ClosingPrice.figure (row : ClosingPrice) : Option ObservedFigure :=
  match row.quote with
  | .fetched asObserved _ => some ⟨asObserved, row.observed⟩
  | .manual .. | .errored .. => none

namespace Book

/-- A listing's actions, by date and then id. -/
def actionsOf (s : Book) (listing : ListingId) : List Action :=
  StableSort.sortBy (fun a => toLex (a.date, a.id))
    (s.actions.filter fun a => a.listing = listing)

def splits (s : Book) (listing : ListingId) : List SplitEvent :=
  (s.actionsOf listing).filterMap splitEvent

def statements (s : Book) (listing : ListingId) : List DemergerPriceStatement :=
  (s.actionsOf listing).filterMap priceStatement

/-- The provider's figure stored for a day. -/
def observedFigure (s : Book) (listing : ListingId) (date : NaiveDate) : Option ObservedFigure :=
  (Keyed.get? ClosingPrice.day s.prices (listing, date)).bind ClosingPrice.figure

/-- The figure a statement's factor is derived from: one observed before the
demerger is in its own day's basis already. -/
def reference (s : Book) (listing : ListingId) (statement : DemergerPriceStatement) :
    Option ObservedFigure :=
  (s.observedFigure listing statement.closeDate).filter fun figure =>
    statement.date ≤ figure.observed

def addStatement (s : Book) (listing : ListingId) (events : List PriceBasisEvent)
    (statement : DemergerPriceStatement) : List PriceBasisEvent :=
  match s.reference listing statement with
  | none => events
  | some figure =>
    let partly := contemporaneousPrice figure.asObserved events statement.closeDate figure.observed
    -- no factor is recoverable from a non-positive figure
    if partly ≤ 0 then events else events ++ [⟨statement.date, statement.closePrice, partly⟩]

/-- Every event that restated the listing's series: its splits, then a factor
for each stated close, the latest resolved first. -/
def priceBasisEvents (s : Book) (listing : ListingId) : List PriceBasisEvent :=
  (s.statements listing).reverse.foldl (s.addStatement listing)
    ((s.splits listing).map PriceBasisEvent.ofSplit)

theorem rederived_day (events : List PriceBasisEvent) (row : ClosingPrice) :
    (row.rederived events).day = row.day := by
  unfold ClosingPrice.rederived
  split <;> rfl

def rederiveOn (listing : ListingId) (events : List PriceBasisEvent) (row : ClosingPrice) :
    ClosingPrice :=
  if row.listing = listing then row.rederived events else row

theorem rederiveOn_day (listing : ListingId) (events : List PriceBasisEvent) (row : ClosingPrice) :
    (rederiveOn listing events row).day = row.day := by
  unfold rederiveOn
  split
  · exact rederived_day events row
  · rfl

/-- `db_rebase_listing_prices`. -/
def rebaseListingPrices (s : Book) (listing : ListingId) : Book :=
  { s with
    prices := s.prices.map (rederiveOn listing (s.priceBasisEvents listing))
    days_unique := Keyed.nodup_map s.days_unique (rederiveOn_day listing _) }

/-- `db_store`: a write replaces whatever is stored for the day. -/
def store (s : Book) (row : ClosingPrice) : Book :=
  { s with
    prices := Keyed.put ClosingPrice.day s.prices row
    days_unique := Keyed.nodup_put s.days_unique row }

def deleteWhere (s : Book) (gone : ClosingPrice → Bool) : Book :=
  { s with
    prices := s.prices.filter fun row => !gone row
    days_unique := Keyed.nodup_filter s.days_unique _ }

/-! ### The writes -/

/-- The row a fetched day is stored as. -/
def fetchedRow (listing : ListingId) (observed : NaiveDate) (events : List PriceBasisEvent)
    (outcome : NaiveDate × Except String ℚ) : ClosingPrice where
  listing := listing
  priceDate := outcome.1
  observed := observed
  quote := match outcome.2 with
    | .ok asObserved =>
      .fetched asObserved (contemporaneous asObserved events outcome.1 observed)
    | .error message => .errored message

/-- Store each day's outcome, and derive the listing's prices again: a fetched
day may be the one a demerger's factor rests on. -/
def fetchAndStore (s : Book) (listing : ListingId) (observed : NaiveDate)
    (outcomes : List (NaiveDate × Except String ℚ)) : Book :=
  if outcomes = [] then s
  else
    let events := s.priceBasisEvents listing
    ((outcomes.map (fetchedRow listing observed events)).foldl store s).rebaseListingPrices listing

end Book

inductive Refusal where
  | priceNotPositive
  | sourcedFromRequired
  | reasonRequired
  | notFound
  | okPrice
  | noMarker
  deriving DecidableEq

def blank (text : String) : Bool := text.toList.all Char.isWhitespace

namespace Book

/-- `PUT /closing_prices/:listing_id/:price_date`, for a day the calendar admits. -/
def putManual (s : Book) (listing : ListingId) (date observed : NaiveDate) (price : ℚ)
    (sourcedFrom reason : String) : Except Refusal Book :=
  if price ≤ 0 then .error .priceNotPositive
  else if blank sourcedFrom then .error .sourcedFromRequired
  else if blank reason then .error .reasonRequired
  else .ok (s.store ⟨listing, date, observed, .manual price sourcedFrom reason⟩)

def isErrored (row : ClosingPrice) : Bool :=
  match row.quote with
  | .errored _ => true
  | .fetched .. | .manual .. => false

/-- A date before the listing's provider series begins. -/
def superseded (s : Book) (listing : ListingId) (date : NaiveDate) : Bool :=
  (s.unpricedBefore listing).any fun before => decide (date < before)

/-- `DELETE /closing_prices/:listing_id/:price_date`. -/
def deleteOne (s : Book) (listing : ListingId) (date : NaiveDate) : Except Refusal Book :=
  match Keyed.get? ClosingPrice.day s.prices (listing, date) with
  | none => .error .notFound
  | some row =>
    if !isErrored row && !s.superseded listing date then .error .okPrice
    else .ok (s.deleteWhere fun row => row.day = (listing, date))

def clearUnpricedBefore (s : Book) (listing : ListingId) : Except Refusal Book :=
  match s.unpricedBefore listing with
  | none => .error .noMarker
  | some before => .ok (s.deleteWhere fun row => row.listing = listing && decide (row.priceDate < before))

def putAction (s : Book) (row : Action) : Book :=
  { s with
    actions := Keyed.put Action.id s.actions row
    ids_unique := Keyed.nodup_put s.ids_unique row }

/-- An accepted action write: the listing it is on, and the one it left, are
re-based. -/
def writeAction (s : Book) (row : Action) : Book :=
  let previous := (Keyed.get? Action.id s.actions row.id).toList.map Action.listing
  (row.listing :: previous.filter fun l => l ≠ row.listing).foldl rebaseListingPrices (s.putAction row)

def dropAction (s : Book) (id : ℤ) : Book :=
  { s with
    actions := s.actions.filter fun a => a.id ≠ id
    ids_unique := Keyed.nodup_filter s.ids_unique _ }

def deleteAction (s : Book) (id : ℤ) : Except Refusal Book :=
  match Keyed.get? Action.id s.actions id with
  | none => .error .notFound
  | some action => .ok ((s.dropAction id).rebaseListingPrices action.listing)

/-- The kinds that re-base a price. -/
def rebasesPrices (a : Action) : Bool := (splitEvent a).isSome || (priceStatement a).isSome

/-- The `price-rebase` job, over every listing with a re-basing action. -/
def runRebase (s : Book) : Book :=
  ((s.actions.filter rebasesPrices).map Action.listing).dedup.foldl rebaseListingPrices s

end Book

inductive Write where
  | fetch (listing : ListingId) (observed : NaiveDate)
      (outcomes : List (NaiveDate × Except String ℚ))
  | putManual (listing : ListingId) (date observed : NaiveDate) (price : ℚ)
      (sourcedFrom reason : String)
  | deleteOne (listing : ListingId) (date : NaiveDate)
  | clearUnpricedBefore (listing : ListingId)
  | setUnpricedBefore (listing : ListingId) (marker : Option NaiveDate)
  | writeAction (row : Action)
  | deleteAction (id : ℤ)
  | runRebase

namespace Book

def step (s : Book) : Write → Except Refusal Book
  | .fetch listing observed outcomes => .ok (s.fetchAndStore listing observed outcomes)
  | .putManual listing date observed price sourcedFrom reason =>
    s.putManual listing date observed price sourcedFrom reason
  | .deleteOne listing date => s.deleteOne listing date
  | .clearUnpricedBefore listing => s.clearUnpricedBefore listing
  | .setUnpricedBefore listing marker =>
    .ok { s with unpricedBefore := fun l => if l = listing then marker else s.unpricedBefore l }
  | .writeAction row => .ok (s.writeAction row)
  | .deleteAction id => s.deleteAction id
  | .runRebase => .ok s.runRebase

def empty : Book := ⟨[], [], fun _ => none, List.nodup_nil, List.nodup_nil⟩

/-- The book a sequence of accepted writes reaches. -/
def run (s : Book) : List Write → Except Refusal Book
  | [] => .ok s
  | w :: ws =>
    match s.step w with
    | .ok s' => s'.run ws
    | .error e => .error e

/-- Whether a day's stored figure is the one some demerger's factor rests on. -/
def isReference (s : Book) (listing : ListingId) (date : NaiveDate) : Bool :=
  (s.statements listing).any fun statement =>
    statement.closeDate = date && (s.reference listing statement).isSome

/-- Whether the write replaces or removes no figure a demerger's factor rests
on without deriving the prices again. -/
def keepsReferences (s : Book) : Write → Bool
  | .putManual listing date .. | .deleteOne listing date => !s.isReference listing date
  | .clearUnpricedBefore listing =>
    (s.statements listing).all fun statement =>
      !(s.reference listing statement).isSome || !s.superseded listing statement.closeDate
  | _ => true

def runKeepsReferences (s : Book) : List Write → Bool
  | [] => true
  | w :: ws =>
    s.keepsReferences w &&
      match s.step w with
      | .ok s' => s'.runKeepsReferences ws
      | .error _ => true

end Book

end ShareTracker.ClosingPrices
