import ShareTracker.Lib.GuardedRun
import ShareTracker.Lib.Checked
import ShareTracker.Lib.Keyed
import ShareTracker.ClosingPrices

/-!
Listings and the dated chain of their renames. A rename records the identity it
replaces beside the one it gives the listing; undoing the newest one puts the
old identity back.
-/
namespace ShareTracker.Renames
open Checked

inductive SecurityType where
  | share
  | etf
  | lic
  | trust
  | crypto
  deriving DecidableEq

structure Listing where
  id : ListingId
  exchangeMic : Option String
  ticker : String
  name : String
  isin : Option String
  securityType : SecurityType
  currency : String
  amit : Bool
  amitFrom : Option NaiveDate
  unpricedFrom : Option NaiveDate
  unpricedBefore : Option NaiveDate
  preference : Bool
  priceSymbol : Option String
  deriving DecidableEq

/-- What a security is called and where it trades. -/
def Listing.identity (l : Listing) : Option String × String := (l.exchangeMic, l.ticker)

structure ListingRename where
  id : ℤ
  listing : ListingId
  effectiveDate : NaiveDate
  oldTicker : String
  newTicker : String
  oldExchangeMic : Option String
  newExchangeMic : Option String
  /-- Absent on a rename recorded before names were kept. -/
  oldName : Option String
  oldPriceSymbol : Option String
  note : Option String
  deriving DecidableEq

def ListingRename.oldIdentity (r : ListingRename) : Option String × String :=
  (r.oldExchangeMic, r.oldTicker)

def ListingRename.newIdentity (r : ListingRename) : Option String × String :=
  (r.newExchangeMic, r.newTicker)

structure RenameBody where
  effectiveDate : NaiveDate
  ticker : String
  exchangeMic : Option String
  name : Option String
  priceSymbol : Option String
  note : Option String

/-- The rename a request records, the old identity taken from the listing. -/
def RenameBody.row (body : RenameBody) (id : ℤ) (current : Listing) : ListingRename where
  id := id
  listing := current.id
  effectiveDate := body.effectiveDate
  oldTicker := current.ticker
  newTicker := body.ticker
  oldExchangeMic := current.exchangeMic
  newExchangeMic := body.exchangeMic.or current.exchangeMic
  oldName := some current.name
  oldPriceSymbol := current.priceSymbol
  note := body.note

/-- The listing under its new identity; what the request omits it keeps. -/
def RenameBody.renamed (body : RenameBody) (current : Listing) : Listing :=
  { current with
    ticker := body.ticker
    exchangeMic := body.exchangeMic.or current.exchangeMic
    name := body.name.getD current.name
    priceSymbol := body.priceSymbol.or current.priceSymbol }

/-- The listing as it was before a rename, as far as the rename recorded it. -/
def ListingRename.restored (r : ListingRename) (current : Listing) : Listing :=
  match r.oldName with
  | some name =>
    { current with
      ticker := r.oldTicker
      exchangeMic := r.oldExchangeMic
      name := name
      priceSymbol := r.oldPriceSymbol }
  | none => { current with ticker := r.oldTicker, exchangeMic := r.oldExchangeMic }

/-- What the listing's checks read of a stored price. -/
structure PriceMark where
  listing : ListingId
  priceDate : NaiveDate
  ok : Bool
  fetched : Bool

/-- The listings and renames, with the rows and reference tables their writes read. -/
@[ext] structure Registry where
  listings : List Listing
  renames : List ListingRename
  /-- The listing of each trade and of each income row. -/
  trades : List ListingId
  income : List ListingId
  prices : List PriceMark
  exchangeCurrency : String → Option String
  digitalTokens : List String
  ids_unique : (listings.map Listing.id).Nodup
  identities_unique : (listings.map Listing.identity).Nodup
  rename_ids_unique : (renames.map ListingRename.id).Nodup

inductive Refusal where
  | blankTicker
  | blankName
  | identityChangeRequiresRename
  | currencyChangeWithHistory
  | cryptoCannotBeAmit
  | amitFromWithoutAmit
  | amitFromNotFinancialYearStart
  | unpricedWindowEmpty
  | unpricedFromWithoutEarlierPrice
  | unpricedFromWithProviderPrice
  | cryptoWithExchange
  | exchangeRequired
  | unrecognisedDigitalToken
  | listingNotFound
  | noOp
  | futureDated
  | outOfOrder
  | exchangeCurrencyMismatch
  | tickerCollision
  | renameNotFound
  | notNewest
  | idTaken
  | referenced
  deriving DecidableEq

namespace Registry

def listing? (s : Registry) (id : ListingId) : Option Listing :=
  Keyed.get? Listing.id s.listings id

def hasDependents (s : Registry) (id : ListingId) : Bool :=
  decide (id ∈ s.trades) || decide (id ∈ s.income) || s.prices.any fun p => p.listing = id

def renamesOf (s : Registry) (id : ListingId) : List ListingRename :=
  s.renames.filter fun r => r.listing = id

/-- A listing's chain, `ORDER BY effective_date ASC`. -/
def chainOf (s : Registry) (id : ListingId) : List ListingRename :=
  StableSort.sortBy ListingRename.effectiveDate (s.renamesOf id)

/-- `MAX(effective_date)`. -/
def latestRename (s : Registry) (id : ListingId) : WithBot NaiveDate :=
  ((s.renamesOf id).map ListingRename.effectiveDate).maximum

/-- Another listing that holds the identity. -/
def holder (s : Registry) (id : ListingId) (identity : Option String × String) : Option Listing :=
  s.listings.find? fun l => l.identity = identity && l.id ≠ id

/-- The row in place of the one at its id. -/
def replaceAt (row l : Listing) : Listing := if l.id = row.id then row else l

theorem replaceAt_id (row l : Listing) : (replaceAt row l).id = l.id := by
  unfold replaceAt
  split
  · rename_i h
    exact h.symm
  · rfl

theorem replaced_unique {s : Registry} {row : Listing} (h : s.holder row.id row.identity = none) :
    ((s.listings.map (replaceAt row)).map Listing.identity).Nodup := by
  have hfree : ∀ l ∈ s.listings, l.id ≠ row.id → l.identity ≠ row.identity := by
    intro l hl hid heq
    have hnot := List.find?_eq_none.mp h l hl
    simp [heq, hid] at hnot
  rw [List.map_map]
  refine List.Nodup.map_on ?_ (List.Nodup.of_map _ s.ids_unique)
  intro a ha b hb heq
  simp only [Function.comp_apply, replaceAt] at heq
  split at heq <;> split at heq <;> rename_i hida hidb
  · exact Keyed.eq_of_key s.ids_unique ha hb (hida.trans hidb.symm)
  · exact absurd heq.symm (hfree b hb hidb)
  · exact absurd heq (hfree a ha hida)
  · exact Keyed.eq_of_key s.identities_unique ha hb heq

/-- `UPDATE listings … WHERE id = ?`, refused by the unique identity. -/
def updateListing (s : Registry) (row : Listing) : Except Refusal Registry :=
  if h : s.holder row.id row.identity = none then
    .ok { s with
      listings := s.listings.map (replaceAt row)
      ids_unique := Keyed.nodup_map s.ids_unique (replaceAt_id row)
      identities_unique := replaced_unique h }
  else .error .tickerCollision

/-- `INSERT INTO listings`. -/
def insertListing (s : Registry) (row : Listing) : Except Refusal Registry :=
  if hid : row.id ∈ s.listings.map Listing.id then .error .idTaken
  else if hrow : row.identity ∈ s.listings.map Listing.identity then .error .tickerCollision
  else
    .ok { s with
      listings := s.listings ++ [row]
      ids_unique := by
        rw [List.map_append]
        exact s.ids_unique.append (List.nodup_singleton _) (List.disjoint_singleton.mpr hid)
      identities_unique := by
        rw [List.map_append]
        exact s.identities_unique.append (List.nodup_singleton _)
          (List.disjoint_singleton.mpr hrow) }

/-- `INSERT INTO listing_renames`. -/
def insertRename (s : Registry) (row : ListingRename) : Except Refusal Registry :=
  if hid : row.id ∈ s.renames.map ListingRename.id then .error .idTaken
  else
    .ok { s with
      renames := s.renames ++ [row]
      rename_ids_unique := by
        rw [List.map_append]
        exact s.rename_ids_unique.append (List.nodup_singleton _)
          (List.disjoint_singleton.mpr hid) }

def deleteRename (s : Registry) (id : ℤ) : Registry :=
  { s with
    renames := s.renames.filter fun r => r.id ≠ id
    rename_ids_unique := Keyed.nodup_filter s.rename_ids_unique _ }

/-- A change of identity or currency on a listing with history is refused. -/
def checkIdentity (s : Registry) (row current : Listing) : Except Refusal Unit := do
  refuseIf (s.hasDependents row.id = true ∧ current.currency ≠ row.currency) .currencyChangeWithHistory
  refuseIf (s.hasDependents row.id = true ∧ current.identity ≠ row.identity)
    .identityChangeRequiresRename

/-- An ok price inside the served span, before the date the provider stops. -/
def earlierPrice (s : Registry) (row : Listing) (before : NaiveDate) : Bool :=
  s.prices.any fun p => p.listing = row.id && p.ok && decide (p.priceDate < before) &&
    row.unpricedBefore.all fun b => decide (b ≤ p.priceDate)

/-- A fetched price the provider is recorded as not serving. -/
def servedPrice (s : Registry) (row : Listing) (start : NaiveDate) : Bool :=
  s.prices.any fun p => p.listing = row.id && p.ok && p.fetched && decide (start ≤ p.priceDate)

/-- The checks on a listing row that do not read the stored one. -/
def checkListing (s : Registry) (row : Listing) : Except Refusal Unit := do
  refuseIf (row.securityType = .crypto ∧ (row.amit = true ∨ row.amitFrom.isSome = true))
    .cryptoCannotBeAmit
  refuseIf (row.amitFrom.isSome = true ∧ row.amit = false) .amitFromWithoutAmit
  refuseIf (∃ start ∈ row.amitFrom, (start.month, start.day) ≠ (7, 1)) .amitFromNotFinancialYearStart
  refuseIf (∃ before ∈ row.unpricedBefore, ∃ start ∈ row.unpricedFrom, start ≤ before)
    .unpricedWindowEmpty
  refuseIf (∃ start ∈ row.unpricedFrom, s.earlierPrice row start = false)
    .unpricedFromWithoutEarlierPrice
  refuseIf (∃ start ∈ row.unpricedFrom, s.servedPrice row start = true)
    .unpricedFromWithProviderPrice
  refuseIf (row.securityType = .crypto ∧ row.exchangeMic.isSome = true) .cryptoWithExchange
  refuseIf (row.securityType ≠ .crypto ∧ row.exchangeMic = none) .exchangeRequired
  refuseIf (row.securityType = .crypto ∧ row.ticker ∉ s.digitalTokens) .unrecognisedDigitalToken

/-- `PUT /listings/:id`; a create is the same write at an id no row holds. -/
def write (s : Registry) (row : Listing) : Except Refusal Registry := do
  refuseIf (ClosingPrices.blank row.ticker = true) .blankTicker
  refuseIf (ClosingPrices.blank row.name = true) .blankName
  match s.listing? row.id with
  | some current => do
      s.checkIdentity row current
      s.checkListing row
      s.updateListing row
  | none => do
      s.checkListing row
      s.insertListing row

/-- A changed exchange quotes in the listing's own currency, where it is known. -/
def quotesOtherwise (s : Registry) (current : Listing) (mic : Option String) : Bool :=
  decide (mic ≠ current.exchangeMic) && mic.any fun m =>
    (s.exchangeCurrency m).any fun currency => decide (currency ≠ current.currency)

def rename (s : Registry) (today : NaiveDate) (listing : ListingId) (id : ℤ) (body : RenameBody) :
    Except Refusal Registry := do
  let current ← orRefuse (s.listing? listing) .listingNotFound
  refuseIf (ClosingPrices.blank body.ticker = true) .blankTicker
  refuseIf (body.name.any ClosingPrices.blank = true) .blankName
  let row := body.row id current
  refuseIf (row.newIdentity = row.oldIdentity) .noOp
  refuseIf (today < body.effectiveDate) .futureDated
  refuseIf ((body.effectiveDate : WithBot NaiveDate) ≤ s.latestRename listing) .outOfOrder
  refuseIf (current.securityType = .crypto ∧ row.newExchangeMic.isSome = true) .cryptoWithExchange
  refuseIf (s.quotesOtherwise current row.newExchangeMic = true) .exchangeCurrencyMismatch
  refuseIf (current.securityType = .crypto ∧ body.ticker ∉ s.digitalTokens)
    .unrecognisedDigitalToken
  let s ← s.insertRename row
  s.updateListing (body.renamed current)

def undo (s : Registry) (listing : ListingId) (id : ℤ) : Except Refusal Registry := do
  let target ← orRefuse (s.renames.find? fun r => r.id = id && r.listing = listing) .renameNotFound
  refuseIf (s.latestRename listing ≠ (target.effectiveDate : WithBot NaiveDate)) .notNewest
  let current ← orRefuse (s.listing? listing) .listingNotFound
  let s ← s.updateListing (target.restored current)
  .ok (s.deleteRename id)

/-- `DELETE /listings/:id`, refused by every row that refers to it. -/
def delete (s : Registry) (id : ListingId) : Except Refusal Registry := do
  refuseIf (s.listing? id = none) .listingNotFound
  refuseIf (s.hasDependents id = true ∨ s.renamesOf id ≠ []) .referenced
  .ok { s with
    listings := s.listings.filter fun l => l.id ≠ id
    ids_unique := Keyed.nodup_filter s.ids_unique _
    identities_unique := Keyed.nodup_filter s.identities_unique _ }

end Registry

inductive RegistryWrite where
  | write (row : Listing)
  | rename (today : NaiveDate) (listing : ListingId) (id : ℤ) (body : RenameBody)
  | undo (listing : ListingId) (id : ℤ)
  | delete (listing : ListingId)
  /-- The trades, income and prices other writes leave stored. -/
  | dependents (trades income : List ListingId) (prices : List PriceMark)

namespace Registry

def step (s : Registry) : RegistryWrite → Except Refusal Registry
  | .write row => s.write row
  | .rename today listing id body => s.rename today listing id body
  | .undo listing id => s.undo listing id
  | .delete listing => s.delete listing
  | .dependents trades income prices => .ok { s with trades, income, prices }

/-- A database with no listing, over its reference tables. -/
def empty (exchangeCurrency : String → Option String) (digitalTokens : List String) : Registry :=
  ⟨[], [], [], [], [], exchangeCurrency, digitalTokens, List.nodup_nil, List.nodup_nil,
    List.nodup_nil⟩

/-- Whether a write changes the ticker or exchange of no renamed listing but
by a rename. -/
def recordsIdentity (s : Registry) : RegistryWrite → Bool
  | .write row => (s.listing? row.id).all fun current =>
    decide (current.identity = row.identity) || (s.renamesOf row.id).isEmpty
  | _ => true

end Registry

/-! ### The identity in force at a date -/

structure Identity where
  start : Option NaiveDate
  ticker : String
  exchangeMic : Option String
  deriving DecidableEq

def Identity.inEffectAt (i : Identity) (date : NaiveDate) : Bool :=
  i.start.all fun start => decide (start ≤ date)

/-- The spans of a chain after its first: one from each rename's date, the last
under the identity the listing has now. -/
def renamedSpans (current : Listing) : List ListingRename → List Identity
  | [] => []
  | [r] => [⟨some r.effectiveDate, current.ticker, current.exchangeMic⟩]
  | r :: rs => ⟨some r.effectiveDate, r.newTicker, r.newExchangeMic⟩ :: renamedSpans current rs

namespace Registry

/-- `RenameHistory::identities`. -/
def identities (s : Registry) (current : Listing) : List Identity :=
  match s.chainOf current.id with
  | [] => [⟨none, current.ticker, current.exchangeMic⟩]
  | r :: rs => ⟨none, r.oldTicker, r.oldExchangeMic⟩ :: renamedSpans current (r :: rs)

/-- `RenameHistory::identity_as_at`. -/
def identityAsAt (s : Registry) (current : Listing) (date : NaiveDate) : Option Identity :=
  (s.identities current).reverse.find? fun i => i.inEffectAt date

end Registry

/-! ### Consistent chains -/

/-- Renames of strictly increasing date, each from the identity the one before
gave, the last to the identity held now. -/
structure Consistent (identity : Option String × String) (chain : List ListingRename) : Prop where
  dates : chain.Pairwise fun a b => a.effectiveDate < b.effectiveDate
  linked : chain.IsChain fun a b => a.newIdentity = b.oldIdentity
  current : ∀ r ∈ chain.getLast?, r.newIdentity = identity

theorem Consistent.nil (identity : Option String × String) : Consistent identity [] where
  dates := List.Pairwise.nil
  linked := List.IsChain.nil
  current := by simp

/-- A later rename of the identity held now extends the chain. -/
theorem Consistent.append {identity : Option String × String} {chain : List ListingRename}
    {row : ListingRename} (h : Consistent identity chain)
    (hlater : ∀ r ∈ chain, r.effectiveDate < row.effectiveDate) (hold : row.oldIdentity = identity) :
    Consistent row.newIdentity (chain ++ [row]) where
  dates := by
    rw [List.pairwise_append]
    refine ⟨h.dates, List.pairwise_singleton _ _, fun a ha b hb => ?_⟩
    rw [List.mem_singleton.mp hb]
    exact hlater a ha
  linked := by
    rw [List.isChain_append]
    refine ⟨h.linked, List.IsChain.singleton _, fun a ha b hb => ?_⟩
    obtain rfl : row = b := by simpa using hb
    rw [h.current a ha, hold]
  current := by simp

/-- The chain without its newest rename ends at the identity that one replaced. -/
theorem Consistent.dropLast {identity : Option String × String} {chain : List ListingRename}
    {row : ListingRename} (h : Consistent identity (chain ++ [row])) :
    Consistent row.oldIdentity chain where
  dates := (List.pairwise_append.mp h.dates).1
  linked := (List.isChain_append.mp h.linked).1
  current := fun a ha => (List.isChain_append.mp h.linked).2.2 a ha row (by simp)

/-- Consistent chains are kept in the order of their dates. -/
theorem Consistent.sorted {identity : Option String × String} {chain : List ListingRename}
    (h : Consistent identity chain) : StableSort.sortBy ListingRename.effectiveDate chain = chain :=
  List.Pairwise.insertionSort_eq (h.dates.imp fun hlt => hlt.le)

namespace Registry

/-- Every listing's chain is consistent, and every rename is a listing's. -/
structure Sound (s : Registry) : Prop where
  chains : ∀ l ∈ s.listings, Consistent l.identity (s.renamesOf l.id)
  owned : ∀ r ∈ s.renames, ∃ l ∈ s.listings, l.id = r.listing

variable {s s' : Registry}

theorem listing?_eq_some {id : ListingId} {l : Listing} :
    s.listing? id = some l ↔ l ∈ s.listings ∧ l.id = id := Keyed.get?_eq_some s.ids_unique

theorem updateListing_ok {row : Listing} (h : s.updateListing row = .ok s') :
    s'.listings = s.listings.map (replaceAt row) ∧ s'.renames = s.renames := by
  unfold updateListing at h
  split at h
  · obtain rfl := Except.ok.inj h
    exact ⟨rfl, rfl⟩
  · cases h

theorem insertListing_ok {row : Listing} (h : s.insertListing row = .ok s') :
    s'.listings = s.listings ++ [row] ∧ s'.renames = s.renames := by
  unfold insertListing at h
  split at h
  · cases h
  · split at h
    · cases h
    · obtain rfl := Except.ok.inj h
      exact ⟨rfl, rfl⟩

theorem insertRename_ok {row : ListingRename} (h : s.insertRename row = .ok s') :
    row.id ∉ s.renames.map ListingRename.id ∧ s'.listings = s.listings ∧
      s'.renames = s.renames ++ [row] := by
  unfold insertRename at h
  split at h
  · cases h
  · rename_i hid
    obtain rfl := Except.ok.inj h
    exact ⟨hid, rfl, rfl⟩

theorem replaceAt_of_ne {row l : Listing} (h : l.id ≠ row.id) : replaceAt row l = l := if_neg h

/-- The listings of a table in which one row was replaced. -/
theorem mem_replaced {row l : Listing} (h : l ∈ s.listings.map (replaceAt row)) :
    l = row ∨ (l ∈ s.listings ∧ l.id ≠ row.id) := by
  obtain ⟨old, hold, rfl⟩ := List.mem_map.mp h
  by_cases hid : old.id = row.id
  · exact Or.inl (if_pos hid)
  · rw [replaceAt_of_ne hid]
    exact Or.inr ⟨hold, hid⟩

theorem owned_replaced {row : Listing} {renames : List ListingRename}
    (h : ∀ r ∈ renames, ∃ l ∈ s.listings, l.id = r.listing) :
    ∀ r ∈ renames, ∃ l ∈ s.listings.map (replaceAt row), l.id = r.listing := by
  intro r hr
  obtain ⟨l, hl, hid⟩ := h r hr
  exact ⟨replaceAt row l, List.mem_map_of_mem hl, (replaceAt_id row l).trans hid⟩

theorem latestRename_lt {id : ListingId} {date : NaiveDate}
    (h : ¬ (date : WithBot NaiveDate) ≤ s.latestRename id) :
    ∀ r ∈ s.renamesOf id, r.effectiveDate < date := by
  intro r hr
  have hle : (r.effectiveDate : WithBot NaiveDate) ≤ s.latestRename id :=
    List.le_maximum_of_mem' (List.mem_map_of_mem hr)
  exact WithBot.coe_lt_coe.mp (hle.trans_lt (not_le.mp h))

theorem rename_ok {today : NaiveDate} {listing : ListingId} {id : ℤ} {body : RenameBody}
    (h : s.rename today listing id body = .ok s') :
    ∃ current ∈ s.listings, current.id = listing ∧
      ¬ (body.effectiveDate : WithBot NaiveDate) ≤ s.latestRename listing ∧
      ∃ mid, s.insertRename (body.row id current) = .ok mid ∧
        mid.updateListing (body.renamed current) = .ok s' := by
  obtain ⟨current, hcurrent, h⟩ := bind_ok h
  obtain ⟨_, -, h⟩ := bind_ok h
  obtain ⟨_, -, h⟩ := bind_ok h
  obtain ⟨_, -, h⟩ := bind_ok h
  obtain ⟨_, -, h⟩ := bind_ok h
  obtain ⟨_, horder, h⟩ := bind_ok h
  obtain ⟨_, -, h⟩ := bind_ok h
  obtain ⟨_, -, h⟩ := bind_ok h
  obtain ⟨_, -, h⟩ := bind_ok h
  obtain ⟨mid, hmid, h⟩ := bind_ok h
  obtain ⟨hmem, hid⟩ := listing?_eq_some.mp (orRefuse_ok.mp hcurrent)
  exact ⟨current, hmem, hid, refuseIf_ok.mp horder, mid, hmid, h⟩

theorem Sound.rename {today : NaiveDate} {listing : ListingId} {id : ℤ} {body : RenameBody}
    (h : s.Sound) (hok : s.rename today listing id body = .ok s') : s'.Sound := by
  obtain ⟨current, hcurrent, rfl, hlater, mid, hmid, hupdate⟩ := rename_ok hok
  obtain ⟨-, hlistings, hrenames⟩ := insertRename_ok hmid
  obtain ⟨hlistings', hrenames'⟩ := updateListing_ok hupdate
  rw [hlistings] at hlistings'
  rw [hrenames] at hrenames'
  have hself : (body.renamed current).id = current.id := rfl
  constructor
  · intro l hl
    rw [hlistings'] at hl
    rw [renamesOf, hrenames', List.filter_append]
    rcases mem_replaced hl with rfl | ⟨hold, hne⟩
    · have hrow : [body.row id current].filter (fun r => r.listing = (body.renamed current).id) =
          [body.row id current] := List.filter_eq_self.mpr (by simp [RenameBody.row, hself])
      have hdates : ∀ r ∈ s.renamesOf current.id,
          r.effectiveDate < (body.row id current).effectiveDate := latestRename_lt hlater
      rw [hrow]
      exact (h.chains current hcurrent).append hdates rfl
    · have hother : ¬ current.id = l.id := fun heq => hne (hself ▸ heq.symm)
      rw [List.filter_singleton]
      simp only [RenameBody.row, hother, decide_false, Bool.cond_false, List.append_nil]
      exact h.chains l hold
  · rw [hlistings', hrenames']
    refine owned_replaced fun r hr => ?_
    rcases List.mem_append.mp hr with hr | hr
    · exact h.owned r hr
    · exact ⟨current, hcurrent, by rw [List.mem_singleton.mp hr]; rfl⟩

/-- The rename a listing's newest date names is the last of its chain. -/
theorem Sound.newest {target : ListingRename} (h : s.Sound) (hmem : target ∈ s.renames)
    (hnewest : s.latestRename target.listing = (target.effectiveDate : WithBot NaiveDate)) :
    ∃ chain, s.renamesOf target.listing = chain ++ [target] := by
  have hof : target ∈ s.renamesOf target.listing :=
    List.mem_filter.mpr ⟨hmem, decide_eq_true rfl⟩
  obtain ⟨l, hl, hid⟩ := h.owned target hmem
  have hdates := (h.chains l hl).dates
  rw [hid] at hdates
  obtain ⟨chain, last, hlast⟩ := 
    (List.eq_nil_or_concat (s.renamesOf target.listing)).resolve_left (List.ne_nil_of_mem hof)
  rw [List.concat_eq_append] at hlast
  refine ⟨chain, ?_⟩
  rw [hlast] at hof hdates ⊢
  rcases List.mem_append.mp hof with hin | hin
  · have hlt := (List.pairwise_append.mp hdates).2.2 target hin last (List.mem_singleton_self _)
    have hle : (last.effectiveDate : WithBot NaiveDate) ≤ s.latestRename target.listing := by
      refine List.le_maximum_of_mem' (List.mem_map_of_mem ?_)
      rw [hlast]
      exact List.mem_append_right _ (List.mem_singleton_self _)
    rw [hnewest] at hle
    exact absurd hlt (not_lt.mpr (WithBot.coe_le_coe.mp hle))
  · rw [List.mem_singleton.mp hin]

theorem undo_ok {listing : ListingId} {id : ℤ} (h : s.undo listing id = .ok s') :
    ∃ target ∈ s.renames, target.id = id ∧ target.listing = listing ∧
      s.latestRename listing = (target.effectiveDate : WithBot NaiveDate) ∧
      ∃ current ∈ s.listings, current.id = listing ∧ ∃ mid,
        s.updateListing (target.restored current) = .ok mid ∧ s' = mid.deleteRename id := by
  obtain ⟨target, htarget, h⟩ := bind_ok h
  obtain ⟨_, hnewest, h⟩ := bind_ok h
  obtain ⟨current, hcurrent, h⟩ := bind_ok h
  obtain ⟨mid, hmid, h⟩ := bind_ok h
  have hfound := List.find?_some (orRefuse_ok.mp htarget)
  simp only [Bool.and_eq_true, decide_eq_true_eq] at hfound
  obtain ⟨hmem, hid⟩ := listing?_eq_some.mp (orRefuse_ok.mp hcurrent)
  exact ⟨target, List.mem_of_find?_eq_some (orRefuse_ok.mp htarget), hfound.1, hfound.2,
    not_not.mp (refuseIf_ok.mp hnewest), current, hmem, hid, mid, hmid, (Except.ok.inj h).symm⟩

theorem restored_id (r : ListingRename) (l : Listing) : (r.restored l).id = l.id := by
  unfold ListingRename.restored
  split <;> rfl

theorem restored_identity (r : ListingRename) (l : Listing) :
    (r.restored l).identity = r.oldIdentity := by
  unfold ListingRename.restored
  split <;> rfl

theorem Sound.undo {listing : ListingId} {id : ℤ} (h : s.Sound)
    (hok : s.undo listing id = .ok s') : s'.Sound := by
  obtain ⟨target, hmem, rfl, rfl, hnewest, current, hcurrent, hid, mid, hmid, rfl⟩ := undo_ok hok
  obtain ⟨hlistings, hrenames⟩ := updateListing_ok hmid
  obtain ⟨chain, hchain⟩ := h.newest hmem hnewest
  have hrest : ∀ i, (mid.deleteRename target.id).renamesOf i =
      (s.renamesOf i).filter fun r => r.id ≠ target.id := by
    intro i
    simp only [renamesOf, deleteRename, hrenames, List.filter_filter, Bool.and_comm]
  constructor
  · intro l hl
    change l ∈ mid.listings at hl
    rw [hlistings] at hl
    rw [hrest]
    rcases mem_replaced hl with rfl | ⟨hold, hne⟩
    · -- the chain of the listing undone loses its newest rename
      have hdrop := (hid ▸ h.chains current hcurrent : Consistent current.identity
        (s.renamesOf target.listing))
      rw [hchain] at hdrop
      have hids := Keyed.nodup_filter s.rename_ids_unique fun r => r.listing = target.listing
      change ((s.renamesOf target.listing).map ListingRename.id).Nodup at hids
      rw [hchain, List.map_append] at hids
      have hkept : ∀ r ∈ chain, r.id ≠ target.id := fun r hr heq =>
        (List.nodup_append.mp hids).2.2 r.id (List.mem_map_of_mem hr) target.id
          (List.mem_map_of_mem (List.mem_singleton_self _)) heq
      rw [restored_id, restored_identity, hid, hchain, List.filter_append,
        List.filter_eq_self.mpr fun r hr => decide_eq_true (hkept r hr)]
      simpa using hdrop.dropLast
    · have hsame : (s.renamesOf l.id).filter (fun r => r.id ≠ target.id) = s.renamesOf l.id := by
        refine List.filter_eq_self.mpr fun r hr => decide_eq_true fun heq => ?_
        obtain ⟨hr, hlisting⟩ := List.mem_filter.mp hr
        have hrow := Keyed.eq_of_key s.rename_ids_unique hr hmem heq
        rw [restored_id, hid] at hne
        exact hne (by rw [← of_decide_eq_true hlisting, hrow])
      rw [hsame]
      exact h.chains l hold
  · change ∀ r ∈ mid.renames.filter _, ∃ l ∈ mid.listings, l.id = r.listing
    rw [hlistings, hrenames]
    exact owned_replaced fun r hr => h.owned r (List.mem_filter.mp hr).1

theorem write_ok {row : Listing} (h : s.write row = .ok s') :
    (∃ current ∈ s.listings, current.id = row.id ∧ s.updateListing row = .ok s') ∨
      (s.listing? row.id = none ∧ s.insertListing row = .ok s') := by
  obtain ⟨_, -, h⟩ := bind_ok h
  obtain ⟨_, -, h⟩ := bind_ok h
  cases hcurrent : s.listing? row.id with
  | some current =>
    simp only [hcurrent] at h
    obtain ⟨_, -, h⟩ := bind_ok h
    obtain ⟨_, -, h⟩ := bind_ok h
    obtain ⟨hmem, hid⟩ := listing?_eq_some.mp hcurrent
    exact Or.inl ⟨current, hmem, hid, h⟩
  | none =>
    simp only [hcurrent] at h
    obtain ⟨_, -, h⟩ := bind_ok h
    exact Or.inr ⟨rfl, h⟩

theorem Sound.write {row : Listing} (h : s.Sound) (hkeeps : s.recordsIdentity (.write row) = true)
    (hok : s.write row = .ok s') : s'.Sound := by
  rcases write_ok hok with ⟨current, hcurrent, hid, hupdate⟩ | ⟨hnone, hinsert⟩
  · obtain ⟨hlistings, hrenames⟩ := updateListing_ok hupdate
    have hchain : Consistent row.identity (s.renamesOf row.id) := by
      have hstored : s.listing? row.id = some current := listing?_eq_some.mpr ⟨hcurrent, hid⟩
      simp only [recordsIdentity, hstored, Option.all_some, Bool.or_eq_true, decide_eq_true_eq,
        List.isEmpty_iff] at hkeeps
      rcases hkeeps with hsame | hnone
      · rw [← hsame, ← hid]
        exact h.chains current hcurrent
      · rw [hnone]
        exact Consistent.nil _
    constructor
    · intro l hl
      rw [hlistings] at hl
      rw [renamesOf, hrenames]
      rcases mem_replaced hl with rfl | ⟨hold, -⟩
      · exact hchain
      · exact h.chains l hold
    · rw [hlistings, hrenames]
      exact owned_replaced h.owned
  · obtain ⟨hlistings, hrenames⟩ := insertListing_ok hinsert
    constructor
    · intro l hl
      rw [hlistings] at hl
      rw [renamesOf, hrenames]
      rcases List.mem_append.mp hl with hl | hl
      · exact h.chains l hl
      · rw [List.mem_singleton.mp hl]
        have hempty : s.renames.filter (fun r => r.listing = row.id) = [] := by
          refine List.filter_eq_nil_iff.mpr fun r hr hlisting => ?_
          obtain ⟨l, hl, hid⟩ := h.owned r hr
          have hfound := listing?_eq_some.mpr ⟨hl, hid.trans (of_decide_eq_true hlisting)⟩
          rw [hnone] at hfound
          cases hfound
        rw [hempty]
        exact Consistent.nil _
    · rw [hlistings, hrenames]
      intro r hr
      obtain ⟨l, hl, hid⟩ := h.owned r hr
      exact ⟨l, List.mem_append_left _ hl, hid⟩

theorem Sound.delete {id : ListingId} (h : s.Sound) (hok : s.delete id = .ok s') : s'.Sound := by
  obtain ⟨_, -, hok⟩ := bind_ok hok
  obtain ⟨_, hfree, hok⟩ := bind_ok hok
  have hnone : s.renamesOf id = [] := by
    by_contra hsome
    exact refuseIf_ok.mp hfree (Or.inr hsome)
  obtain rfl := Except.ok.inj hok
  constructor
  · intro l hl
    exact h.chains l (List.mem_filter.mp hl).1
  · intro r hr
    obtain ⟨l, hl, hid⟩ := h.owned r hr
    refine ⟨l, List.mem_filter.mpr ⟨hl, decide_eq_true ?_⟩, hid⟩
    rintro rfl
    have hmem : r ∈ s.renamesOf l.id := List.mem_filter.mpr ⟨hr, decide_eq_true hid.symm⟩
    rw [hnone] at hmem
    exact List.not_mem_nil hmem

theorem Sound.step {w : RegistryWrite} (h : s.Sound) (hkeeps : s.recordsIdentity w = true)
    (hok : s.step w = .ok s') : s'.Sound := by
  cases w with
  | write row => exact h.write hkeeps hok
  | rename today listing id body => exact h.rename hok
  | undo listing id => exact h.undo hok
  | delete listing => exact h.delete hok
  | dependents trades income prices =>
    obtain rfl := Except.ok.inj hok
    exact ⟨h.chains, h.owned⟩

theorem sound_empty (exchangeCurrency : String → Option String) (digitalTokens : List String) :
    (empty exchangeCurrency digitalTokens).Sound where
  chains := fun _ hl => absurd hl List.not_mem_nil
  owned := fun _ hr => absurd hr List.not_mem_nil

/-! ### Undoing a rename -/

theorem replaceAt_back {current renamed : Listing} (hid : renamed.id = current.id)
    (hcurrent : current ∈ s.listings) :
    (s.listings.map (replaceAt renamed)).map (replaceAt current) = s.listings := by
  rw [List.map_map]
  refine (List.map_congr_left fun l hl => ?_).trans (List.map_id _)
  by_cases heq : l.id = current.id
  · have hl := Keyed.eq_of_key s.ids_unique hl hcurrent heq
    simp [replaceAt, hl, hid]
  · simp [replaceAt, heq, hid]

/-- A listing's own old identity is free once another has replaced it. -/
theorem holder_replaced {current renamed : Listing} (hid : renamed.id = current.id)
    (hcurrent : current ∈ s.listings) :
    (s.listings.map (replaceAt renamed)).find?
      (fun l => l.identity = current.identity && l.id ≠ current.id) = none := by
  refine List.find?_eq_none.mpr fun l hl hheld => ?_
  simp only [Bool.and_eq_true, decide_eq_true_eq] at hheld
  rcases mem_replaced hl with rfl | ⟨hold, -⟩
  · exact hheld.2 hid
  · exact hheld.2 (congrArg Listing.id (Keyed.eq_of_key s.identities_unique hold hcurrent hheld.1))

theorem renamed_state {today : NaiveDate} {listing : ListingId} {id : ℤ} {body : RenameBody}
    (hok : s.rename today listing id body = .ok s') :
    ∃ current ∈ s.listings, current.id = listing ∧ id ∉ s.renames.map ListingRename.id ∧
      ¬ (body.effectiveDate : WithBot NaiveDate) ≤ s.latestRename listing ∧
      s'.listings = s.listings.map (replaceAt (body.renamed current)) ∧
      s'.renames = s.renames ++ [body.row id current] ∧
      s'.trades = s.trades ∧ s'.income = s.income ∧ s'.prices = s.prices ∧
      s'.exchangeCurrency = s.exchangeCurrency ∧ s'.digitalTokens = s.digitalTokens := by
  obtain ⟨current, hcurrent, hlisting, hlater, mid, hmid, hupdate⟩ := rename_ok hok
  refine ⟨current, hcurrent, hlisting, (insertRename_ok hmid).1, hlater, ?_⟩
  unfold insertRename at hmid
  split at hmid
  · cases hmid
  · obtain rfl := Except.ok.inj hmid
    unfold updateListing at hupdate
    split at hupdate
    · obtain rfl := Except.ok.inj hupdate
      exact ⟨rfl, rfl, rfl, rfl, rfl, rfl, rfl⟩
    · cases hupdate

/-- Renaming a listing and undoing the rename leaves everything as it was. -/
theorem undo_of_rename {today : NaiveDate} {listing : ListingId} {id : ℤ} {body : RenameBody}
    (hok : s.rename today listing id body = .ok s') : s'.undo listing id = .ok s := by
  obtain ⟨current, hcurrent, rfl, hfresh, hlater, hlistings, hrenames, htrades, hincome, hprices,
    hexchange, htokens⟩ := renamed_state hok
  have hself : (body.renamed current).id = current.id := rfl
  have htarget : s'.renames.find? (fun r => r.id = id && r.listing = current.id) =
      some (body.row id current) := by
    have hnone : s.renames.find? (fun r => r.id = id && r.listing = current.id) = none := by
      refine List.find?_eq_none.mpr fun r hr hboth => ?_
      simp only [Bool.and_eq_true, decide_eq_true_eq] at hboth
      exact hfresh (List.mem_map.mpr ⟨r, hr, hboth.1⟩)
    rw [hrenames, List.find?_append, hnone]
    simp [RenameBody.row]
  have hnewest : s'.latestRename current.id =
      ((body.row id current).effectiveDate : WithBot NaiveDate) := by
    have hrow : [body.row id current].filter (fun r => r.listing = current.id) =
        [body.row id current] := List.filter_eq_self.mpr (by simp [RenameBody.row])
    rw [latestRename, renamesOf, hrenames, List.filter_append, hrow, List.map_append,
      List.map_singleton, List.maximum_concat]
    exact max_eq_right (not_le.mp hlater).le
  have hstored : s'.listing? current.id = some (body.renamed current) := by
    have hbefore : s.listing? current.id = some current := listing?_eq_some.mpr ⟨hcurrent, rfl⟩
    rw [listing?, hlistings, Keyed.get?_map (replaceAt_id _)]
    change (s.listing? current.id).map _ = _
    rw [hbefore, Option.map_some, replaceAt, if_pos hself.symm]
  have hrestored : (body.row id current).restored (body.renamed current) = current := rfl
  have hfree : s'.holder current.id current.identity = none := by
    rw [holder, hlistings]
    exact holder_replaced hself hcurrent
  have hundone : s'.undo current.id id = .ok (({ s' with
      listings := s'.listings.map (replaceAt current)
      ids_unique := Keyed.nodup_map s'.ids_unique (replaceAt_id current)
      identities_unique := replaced_unique hfree } : Registry).deleteRename id) := by
    have hcheck : refuseIf (s'.latestRename current.id ≠
        ((body.row id current).effectiveDate : WithBot NaiveDate)) Refusal.notNewest = .ok () :=
      refuseIf_ok.mpr (not_not.mpr hnewest)
    have hupdate : s'.updateListing current = .ok { s' with
        listings := s'.listings.map (replaceAt current)
        ids_unique := Keyed.nodup_map s'.ids_unique (replaceAt_id current)
        identities_unique := replaced_unique hfree } := dif_pos hfree
    unfold undo
    rw [htarget, hstored]
    change (do
      refuseIf (s'.latestRename current.id ≠
        ((body.row id current).effectiveDate : WithBot NaiveDate)) Refusal.notNewest
      let s ← s'.updateListing current
      Except.ok (s.deleteRename id)) = _
    rw [hcheck, hupdate]
    rfl
  rw [hundone]
  refine congrArg Except.ok (Registry.ext ?_ ?_ htrades hincome hprices hexchange htokens)
  · change s'.listings.map (replaceAt current) = s.listings
    rw [hlistings]
    exact replaceAt_back hself hcurrent
  · change s'.renames.filter (fun r => r.id ≠ id) = s.renames
    rw [hrenames, List.filter_append]
    have hgone : [body.row id current].filter (fun r => r.id ≠ id) = [] := by
      simp [RenameBody.row]
    rw [hgone, List.append_nil]
    refine List.filter_eq_self.mpr fun r hr => decide_eq_true fun heq => ?_
    exact hfresh (List.mem_map.mpr ⟨r, hr, heq⟩)

/-- In a run that changes no renamed listing's ticker or exchange but by renames,
every chain is dated in order, linked, and ends at the listing's identity;
and from any state an accepted rename undone leaves everything as it was. -/
theorem run_chains_consistent (exchangeCurrency : String → Option String)
    (digitalTokens : List String) :
    (∀ ws s, GuardedRun.run step (empty exchangeCurrency digitalTokens) ws = .ok s →
      GuardedRun.meets step recordsIdentity (empty exchangeCurrency digitalTokens) ws = true →
      ∀ l ∈ s.listings,
        (s.chainOf l.id).Pairwise (fun a b => a.effectiveDate < b.effectiveDate) ∧
        (s.chainOf l.id).IsChain (fun a b => a.newIdentity = b.oldIdentity) ∧
        ∀ r ∈ (s.chainOf l.id).getLast?, r.newIdentity = l.identity) ∧
    ∀ (s s' : Registry) today listing id body, s.rename today listing id body = .ok s' →
      s'.undo listing id = .ok s := by
  refine ⟨fun ws s hrun hmeets l hl => ?_, fun s s' today listing id body => undo_of_rename⟩
  have hsound : s.Sound :=
    GuardedRun.invariant (fun _ _ _ h hgood hok => h.step hgood hok)
      (sound_empty exchangeCurrency digitalTokens) hmeets hrun
  have hchain := hsound.chains l hl
  rw [chainOf, hchain.sorted]
  exact ⟨hchain.dates, hchain.linked, hchain.current⟩

/-- A share listing of a given ticker. -/
def shareListing (id : ListingId) (ticker : String) : Listing :=
  ⟨id, some "XASX", ticker, "Lithium Americas", none, .share, "AUD", false, none, none, none, false,
    none⟩

/-- A listing renamed twice, the second rename undone. -/
def renamedTwice : List RegistryWrite := [
  .write (shareListing 1 "LAAC"),
  .rename (ymd 2026 3 1) 1 1 ⟨ymd 2026 1 12, "LAR", none, none, none, none⟩,
  .rename (ymd 2026 3 1) 1 2 ⟨ymd 2026 2 9, "LARX", none, some "Lithium Argentina", none, none⟩,
  .undo 1 2]

theorem run_chains_consistent_twice :
    ∃ s s', GuardedRun.run step (empty (fun _ => none) []) renamedTwice = .ok s ∧
      (∀ l ∈ s.listings, ∀ r ∈ (s.chainOf l.id).getLast?, r.newIdentity = l.identity) ∧
      s.rename (ymd 2026 3 1) 1 2 ⟨ymd 2026 2 9, "LARX", none, none, none, none⟩ = .ok s' ∧
      s'.undo 1 2 = .ok s := by
  have hruns : accepts (GuardedRun.run step (empty (fun _ => none) []) renamedTwice) (fun s =>
      accepts (s.rename (ymd 2026 3 1) 1 2 ⟨ymd 2026 2 9, "LARX", none, none, none, none⟩)
        fun _ => true) = true := by
    decide
  obtain ⟨s, hs, hrest⟩ := accepts_iff.mp hruns
  obtain ⟨s', hs'⟩ := exists_ok hrest
  obtain ⟨hchains, hundo⟩ := run_chains_consistent (fun _ => none) []
  refine ⟨s, s', hs, fun l hl => ?_, hs', hundo s s' _ 1 2 _ hs'⟩
  exact (hchains renamedTwice s hs (by decide) l hl).2.2

/-- A renamed listing with no trade, income or price yet, its ticker edited. -/
theorem run_chain_broken :
    ∃ s, GuardedRun.run step (empty (fun _ => none) []) [
        .write (shareListing 1 "LAAC"),
        .rename (ymd 2026 3 1) 1 1 ⟨ymd 2026 1 12, "LAR", none, none, none, none⟩,
        .write (shareListing 1 "LITH"),
        .rename (ymd 2026 3 1) 1 2 ⟨ymd 2026 2 9, "LARX", none, none, none, none⟩] = .ok s ∧
      (s.chainOf 1).map (fun r => (r.oldTicker, r.newTicker)) = [("LAAC", "LAR"), ("LITH", "LARX")] := by
  have hruns : accepts (GuardedRun.run step (empty (fun _ => none) []) [
        .write (shareListing 1 "LAAC"),
        .rename (ymd 2026 3 1) 1 1 ⟨ymd 2026 1 12, "LAR", none, none, none, none⟩,
        .write (shareListing 1 "LITH"),
        .rename (ymd 2026 3 1) 1 2 ⟨ymd 2026 2 9, "LARX", none, none, none, none⟩]) (fun s =>
      decide ((s.chainOf 1).map (fun r => (r.oldTicker, r.newTicker)) =
        [("LAAC", "LAR"), ("LITH", "LARX")])) = true := by
    decide
  obtain ⟨s, hs, hchain⟩ := accepts_iff.mp hruns
  exact ⟨s, hs, of_decide_eq_true hchain⟩

end Registry

end ShareTracker.Renames
