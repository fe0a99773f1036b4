import ShareTracker.Performance
import ShareTracker.Lib.GuardedRun

/-!
The trades behind the performance report and the writes that move them. A
rollover writes one closing Sell that consumes parcels, and the replacement
Buys that carry their cost: a transfer's Sell stands in the account it leaves,
an exchange's or a demerger's in the default account, whatever it consumes.
-/
namespace ShareTracker.Performance
open Checked

/-! ### Rows -/

/-- A trade that belongs to no rollover. -/
abbrev Recorded := { t : TradeRow // t.group = none }

/-- A replacement Buy: no price, the carried cost base as its brokerage. -/
structure Replacement where
  id : TradeId
  listing : ListingId
  account : HoldingAccountId
  quantity : ℚ
  costBase : ℚ
  currency : CurrencyCode
  fxRate : ℚ
  spotFxRate : Option ℚ
  deemedAcquisitionDate : NaiveDate

/-- The units a closing Sell takes out of one parcel, and what replaces them. -/
structure Moved where
  parcel : TradeId
  units : ℚ
  into : List Replacement

structure Rollover where
  group : Group
  date : NaiveDate
  closingId : TradeId
  listing : ListingId
  account : HoldingAccountId
  averagePrice : ℚ
  currency : CurrencyCode
  fxRate : ℚ
  moved : List Moved

namespace Rollover

/-- The provenance column of one kind of rollover. -/
def column (r : Rollover) (kind : GroupKind) : Option ℤ :=
  if r.group.1 = kind then some r.group.2 else none

def closing (r : Rollover) : TradeRow where
  id := r.closingId
  listing := r.listing
  account := r.account
  date := r.date
  isSell := true
  averagePrice := r.averagePrice
  quantity := (r.moved.map Moved.units).sum
  brokerage := 0
  gstOnBrokerage := 0
  currency := r.currency
  fxRate := r.fxRate
  spotFxRate := none
  deemedAcquisitionDate := none
  transferId := r.column .transfer
  scripActionId := r.column .scrip
  demergerActionId := r.column .demerger

def buy (r : Rollover) (p : Replacement) : TradeRow where
  id := p.id
  listing := p.listing
  account := p.account
  date := r.date
  isSell := false
  averagePrice := 0
  quantity := p.quantity
  brokerage := p.costBase
  gstOnBrokerage := 0
  currency := p.currency
  fxRate := p.fxRate
  spotFxRate := p.spotFxRate
  deemedAcquisitionDate := some p.deemedAcquisitionDate
  transferId := r.column .transfer
  scripActionId := r.column .scrip
  demergerActionId := r.column .demerger

def buys (r : Rollover) : List TradeRow := r.moved.flatMap fun m => m.into.map r.buy

def rows (r : Rollover) : List TradeRow := r.closing :: r.buys

theorem columns_group (r : Rollover) :
    (((r.column .transfer).map fun i => (GroupKind.transfer, i)).or
      ((r.column .scrip).map fun i => (GroupKind.scrip, i))).or
      ((r.column .demerger).map fun i => (GroupKind.demerger, i)) = some r.group := by
  rcases hg : r.group with ⟨kind, id⟩
  cases kind <;> simp [column, hg]

theorem closing_group (r : Rollover) : r.closing.group = some r.group := r.columns_group

theorem group_of_mem {r : Rollover} {t : TradeRow} (h : t ∈ r.rows) : t.group = some r.group := by
  rcases List.mem_cons.mp h with rfl | h
  · exact r.columns_group
  · obtain ⟨m, -, h⟩ := List.mem_flatMap.mp h
    obtain ⟨p, -, rfl⟩ := List.mem_map.mp h
    exact r.columns_group

theorem date_of_mem {r : Rollover} {t : TradeRow} (h : t ∈ r.rows) : t.date = r.date := by
  rcases List.mem_cons.mp h with rfl | h
  · rfl
  · obtain ⟨m, -, h⟩ := List.mem_flatMap.mp h
    obtain ⟨p, -, rfl⟩ := List.mem_map.mp h
    rfl

theorem buys_isSell {r : Rollover} {t : TradeRow} (h : t ∈ r.buys) : t.isSell = false := by
  obtain ⟨m, -, h⟩ := List.mem_flatMap.mp h
  obtain ⟨p, -, rfl⟩ := List.mem_map.mp h
  rfl

end Rollover

/-! ### The book -/

/-- A recorded Sell's draw on a parcel. -/
structure Draw where
  sale : TradeId
  purchase : TradeId
  quantity : ℚ
  deriving DecidableEq

structure Book where
  recorded : List Recorded
  rollovers : List Rollover
  income : List Drp.Income
  draws : List Draw
  splits : ListingId → List SplitEvent

namespace Book

def empty : Book := ⟨[], [], [], [], fun _ => []⟩

def trades (b : Book) : List TradeRow := b.recorded.map Subtype.val ++ b.rollovers.flatMap Rollover.rows

def trade? (b : Book) (id : TradeId) : Option TradeRow := Keyed.get? TradeRow.id b.trades id

/-- Every allocation, with the date of its sale. -/
def allocations (b : Book) : List Valuation.Allocation :=
  (b.draws.filterMap fun d => (b.trade? d.sale).map fun s => ⟨d.purchase, d.quantity, s.date⟩) ++
    b.rollovers.flatMap fun r => r.moved.map fun m => ⟨m.parcel, m.units, r.date⟩

/-- What the report reads, with the rates imported by then. -/
def records (b : Book) (fx : FxRates) : Records :=
  ⟨b.trades, b.income, b.allocations, b.splits, fx⟩

/-- Whether an allocation draws on the parcel. -/
def drawnOn (b : Book) (id : TradeId) : Bool :=
  (b.draws.any fun d => d.purchase = id) ||
    b.rollovers.any fun r => r.moved.any fun m => m.parcel = id

/-- Whether the row is one a rollover wrote. -/
def rolled (b : Book) (id : TradeId) : Bool := b.rollovers.any fun r => r.rows.any fun t => t.id = id

end Book

/-! ### Writes -/

inductive Refusal where
  | operationTrade
  | tradeTypeChange
  | listingChangeReferenced
  | accountChangeReferenced
  | referenced
  | notFound
  | notAParcel
  | parcelListingMismatch
  | parcelAccountMismatch
  | sameAccount
  | nothingToTransfer
  | nothingHeld
  | alreadyApplied
  | tradedOnOrAfter
  | idTaken
  deriving DecidableEq

namespace Book

/-- The parcel an allocation may draw on: a purchase of the listing, and in the
account where one is named. -/
def drawable (b : Book) (listing : ListingId) (account : Option HoldingAccountId) (id : TradeId) :
    Except Refusal TradeRow := do
  let t ← orRefuse (b.trade? id) .notAParcel
  refuseIf (t.isSell = true) .notAParcel
  refuseIf (t.listing ≠ listing) .parcelListingMismatch
  refuseIf (∃ a ∈ account, t.account ≠ a) .parcelAccountMismatch
  return t

/-- A trade stated by its own body, with its draws where it is a Sell. -/
def putTrade (b : Book) (row : Recorded) (draws : List (TradeId × ℚ)) : Except Refusal Book := do
  refuseIf (b.rolled row.1.id = true) .operationTrade
  refuseIf (∃ t ∈ b.trade? row.1.id, t.isSell ≠ row.1.isSell) .tradeTypeChange
  refuseIf (b.drawnOn row.1.id = true ∧ ∃ t ∈ b.trade? row.1.id, t.listing ≠ row.1.listing)
    .listingChangeReferenced
  refuseIf (b.drawnOn row.1.id = true ∧ ∃ t ∈ b.trade? row.1.id, t.account ≠ row.1.account)
    .accountChangeReferenced
  refuseIf (draws ≠ [] ∧ row.1.isSell = false) .notAParcel
  let _ ← draws.mapM fun d => b.drawable row.1.listing (some row.1.account) d.1
  return { b with
    recorded := Keyed.put (fun t => t.1.id) b.recorded row
    draws := (b.draws.filter fun d => d.sale ≠ row.1.id) ++
      draws.map fun d => ⟨row.1.id, d.1, d.2⟩ }

def deleteTrade (b : Book) (id : TradeId) : Except Refusal Book := do
  refuseIf (b.rolled id = true) .operationTrade
  refuseIf (b.trade? id = none) .notFound
  refuseIf (b.drawnOn id = true) .referenced
  return { b with
    recorded := b.recorded.filter fun t => t.1.id ≠ id
    draws := b.draws.filter fun d => d.sale ≠ id }

def putIncome (b : Book) (row : Drp.Income) : Book :=
  { b with income := Keyed.put Drp.Income.id b.income row }

def deleteIncome (b : Book) (id : ℤ) : Book :=
  { b with income := b.income.filter fun i => i.id ≠ id }

/-- The rows of an operation, written together under ids nobody uses. -/
def writeRollover (b : Book) (r : Rollover) : Except Refusal Book := do
  refuseIf (∃ r' ∈ b.rollovers, r'.group = r.group) .alreadyApplied
  refuseIf (¬ (r.rows.map TradeRow.id).Nodup ∨ ∃ t ∈ r.rows, (b.trade? t.id).isSome = true) .idTaken
  return { b with rollovers := b.rollovers ++ [r] }

/-- One replacement to write for a parcel, its share of the carried cost base
the cost-base pipeline's answer. -/
structure Share where
  id : TradeId
  listing : ListingId
  quantity : ℚ
  costBase : ℚ

/-- The replacement carries the parcel's currency, rates and acquisition date. -/
def Share.replacing (share : Share) (parcel : TradeRow) (account : HoldingAccountId) :
    Replacement where
  id := share.id
  listing := share.listing
  account := account
  quantity := share.quantity
  costBase := share.costBase
  currency := parcel.currency
  fxRate := parcel.fxRate
  spotFxRate := parcel.spotFxRate
  deemedAcquisitionDate := parcel.acquired

/-- One requested move of a transfer: the units, the id of the transfer-in Buy
and the cost base it carries. -/
structure TransferAllocation where
  parcel : TradeId
  units : ℚ
  transferInId : TradeId
  carriedCostBase : ℚ

structure TransferBody where
  id : ℤ
  date : NaiveDate
  listing : ListingId
  fromAccount : HoldingAccountId
  toAccount : HoldingAccountId
  listingCurrency : CurrencyCode
  closingId : TradeId
  allocations : List TransferAllocation

def transferIn (b : Book) (body : TransferBody) (a : TransferAllocation) : Except Refusal Moved := do
  let parcel ← b.drawable body.listing (some body.fromAccount) a.parcel
  let share : Share := ⟨a.transferInId, body.listing, a.units, a.carriedCostBase⟩
  return ⟨a.parcel, a.units, [share.replacing parcel body.toAccount]⟩

def transfer (b : Book) (body : TransferBody) : Except Refusal Book := do
  refuseIf (body.fromAccount = body.toAccount) .sameAccount
  refuseIf (body.allocations = []) .nothingToTransfer
  let moved ← body.allocations.mapM (b.transferIn body)
  b.writeRollover
    ⟨(.transfer, body.id), body.date, body.closingId, body.listing, body.fromAccount, 0,
      body.listingCurrency, 1, moved⟩

/-- A parcel of the listing with units open, and those units at `date`. -/
def openAt (b : Book) (listing : ListingId) (date : NaiveDate) (t : TradeRow) : Option (TradeRow × ℚ) :=
  let remaining := t.quantity - Valuation.soldInAcquiredUnits (b.splits listing) t.parcel
    (b.allocations.filter fun a => a.purchaseTradeId = t.id)
  if t.isSell = false ∧ t.listing = listing ∧ 0 < remaining then
    some (t, splitAdjustedQuantity remaining (b.splits listing) t.date (some date))
  else none

def openParcels (b : Book) (listing : ListingId) (date : NaiveDate) : List (TradeRow × ℚ) :=
  b.trades.filterMap (b.openAt listing date)

/-- An action's terms, with its answers for each parcel: what replaces its units
at the date, and at which share of its cost base. -/
structure Terms where
  actionId : ℤ
  listing : ListingId
  date : NaiveDate
  averagePrice : ℚ
  currency : CurrencyCode
  fxRate : ℚ
  closingId : TradeId
  shares : TradeRow → ℚ → List Share

def defaultHoldingAccountId : HoldingAccountId := 1

/-- Every open parcel of the listing, each replaced in its own account; the
closing Sell stands in the default account. -/
def substitute (b : Book) (kind : GroupKind) (terms : Terms) : Except Refusal Book := do
  refuseIf (∃ r ∈ b.rollovers, r.group = (kind, terms.actionId)) .alreadyApplied
  refuseIf (∃ t ∈ b.trades, t.listing = terms.listing ∧ terms.date ≤ t.date) .tradedOnOrAfter
  let parcels := b.openParcels terms.listing terms.date
  refuseIf (parcels = []) .nothingHeld
  b.writeRollover
    ⟨(kind, terms.actionId), terms.date, terms.closingId, terms.listing, defaultHoldingAccountId,
      terms.averagePrice, terms.currency, terms.fxRate,
      parcels.map fun p =>
        ⟨p.1.id, p.2, (terms.shares p.1 p.2).map fun s => s.replacing p.1 p.1.account⟩⟩

/-- A scrip-for-scrip exchange; its price is the cash paid a unit. -/
def exchange (b : Book) (terms : Terms) : Except Refusal Book := b.substitute .scrip terms

/-- A demerger: no cash. -/
def demerge (b : Book) (terms : Terms) : Except Refusal Book :=
  b.substitute .demerger { terms with averagePrice := 0, fxRate := 1 }

/-- Take an operation back, unless something draws on what it wrote. -/
def undo (b : Book) (group : Group) : Except Refusal Book := do
  refuseIf (∀ r ∈ b.rollovers, r.group ≠ group) .notFound
  refuseIf (∃ r ∈ b.rollovers, r.group = group ∧ ∃ t ∈ r.buys, b.drawnOn t.id = true) .referenced
  return { b with rollovers := b.rollovers.filter fun r => r.group ≠ group }

inductive Write where
  | putTrade (row : Recorded) (draws : List (TradeId × ℚ))
  | deleteTrade (id : TradeId)
  | putIncome (row : Drp.Income)
  | deleteIncome (id : ℤ)
  | putSplits (splits : ListingId → List SplitEvent)
  | transfer (body : TransferBody)
  | exchange (terms : Terms)
  | demerge (terms : Terms)
  | undo (group : Group)

def step (b : Book) : Write → Except Refusal Book
  | .putTrade row draws => b.putTrade row draws
  | .deleteTrade id => b.deleteTrade id
  | .putIncome row => .ok (b.putIncome row)
  | .deleteIncome id => .ok (b.deleteIncome id)
  | .putSplits splits => .ok { b with splits }
  | .transfer body => b.transfer body
  | .exchange terms => b.exchange terms
  | .demerge terms => b.demerge terms
  | .undo group => b.undo group

abbrev run : Book → List Write → Except Refusal Book := GuardedRun.run step

/-! ### What every write keeps -/

/-- Ids and groups are not shared, and a closing Sell consumes parcels of its
own listing, a transfer's those of its own account. -/
structure Sound (b : Book) : Prop where
  ids : (b.trades.map TradeRow.id).Nodup
  groups : (b.rollovers.map Rollover.group).Nodup
  consumed : ∀ r ∈ b.rollovers, ∀ m ∈ r.moved, ∃ t ∈ b.trades, t.id = m.parcel ∧
    t.isSell = false ∧ t.listing = r.listing ∧ (r.group.1 = .transfer → t.account = r.account)

theorem sound_empty : Sound empty := ⟨List.nodup_nil, List.nodup_nil, nofun⟩

section Steps
variable {b b' : Book}

theorem mem_trades {t : TradeRow} :
    t ∈ b.trades ↔ (∃ row ∈ b.recorded, row.1 = t) ∨ ∃ r ∈ b.rollovers, t ∈ r.rows := by
  rw [trades, List.mem_append, List.mem_map, List.mem_flatMap]

theorem rolled_iff {id : TradeId} :
    b.rolled id = true ↔ ∃ r ∈ b.rollovers, ∃ t ∈ r.rows, t.id = id := by
  simp only [rolled, List.any_eq_true, decide_eq_true_eq]

theorem trade?_eq_some (hs : Sound b) {id : TradeId} {t : TradeRow} :
    b.trade? id = some t ↔ t ∈ b.trades ∧ t.id = id := Keyed.get?_eq_some hs.ids

theorem trade?_isSome {id : TradeId} : (b.trade? id).isSome = true ↔ ∃ t ∈ b.trades, t.id = id := by
  rw [trade?, Keyed.get?, List.find?_isSome]
  simp only [decide_eq_true_eq]

theorem drawnOn_of_moved {r : Rollover} {m : Moved} (hr : r ∈ b.rollovers) (hm : m ∈ r.moved) :
    b.drawnOn m.parcel = true := by
  rw [drawnOn, Bool.or_eq_true, List.any_eq_true, List.any_eq_true]
  exact Or.inr ⟨r, hr, List.any_eq_true.mpr ⟨m, hm, decide_eq_true rfl⟩⟩

theorem drawable_ok {listing : ListingId} {account : Option HoldingAccountId} {id : TradeId}
    {t : TradeRow} (h : b.drawable listing account id = .ok t) : b.trade? id = some t ∧
      t.isSell = false ∧ t.listing = listing ∧ ∀ a ∈ account, t.account = a := by
  unfold drawable at h
  obtain ⟨t', ht, h⟩ := bind_ok h
  obtain ⟨_, hsell, h⟩ := bind_ok h
  obtain ⟨_, hlisting, h⟩ := bind_ok h
  obtain ⟨_, haccount, h⟩ := bind_ok h
  obtain rfl : t' = t := Except.ok.inj h
  refine ⟨orRefuse_ok.mp ht, ?_, not_not.mp (refuseIf_ok.mp hlisting), fun a ha => ?_⟩
  · simpa using refuseIf_ok.mp hsell
  · by_contra hne
    exact refuseIf_ok.mp haccount ⟨a, ha, hne⟩

/-- What a write to the recorded trades leaves sound. -/
theorem Sound.of_recorded (hs : Sound b) (hrollovers : b'.rollovers = b.rollovers)
    (hids : (b'.trades.map TradeRow.id).Nodup)
    (hkept : ∀ t ∈ b.trades, b.drawnOn t.id = true → ∃ t' ∈ b'.trades, t'.id = t.id ∧
      t'.isSell = t.isSell ∧ t'.listing = t.listing ∧ t'.account = t.account) : Sound b' := by
  refine ⟨hids, hrollovers ▸ hs.groups, fun r hr m hm => ?_⟩
  rw [hrollovers] at hr
  obtain ⟨t, ht, hid, hsell, hlisting, haccount⟩ := hs.consumed r hr m hm
  obtain ⟨t', ht', hid', hsell', hlisting', haccount'⟩ :=
    hkept t ht (hid ▸ drawnOn_of_moved hr hm)
  exact ⟨t', ht', hid'.trans hid, hsell'.trans hsell, hlisting'.trans hlisting,
    fun hkind => haccount'.trans (haccount hkind)⟩

theorem nodup_trades {recorded : List Recorded} {rollovers : List Rollover}
    (hrecorded : (recorded.map fun t => t.1.id).Nodup)
    (hrows : ((rollovers.flatMap Rollover.rows).map TradeRow.id).Nodup)
    (happart : ∀ row ∈ recorded, ∀ r ∈ rollovers, ∀ t ∈ r.rows, t.id ≠ row.1.id) :
    ((recorded.map Subtype.val ++ rollovers.flatMap Rollover.rows).map TradeRow.id).Nodup := by
  rw [List.map_append, List.map_map, List.nodup_append]
  refine ⟨hrecorded, hrows, fun i hi j hj => ?_⟩
  obtain ⟨row, hrow, rfl⟩ := List.mem_map.mp hi
  obtain ⟨t, ht, rfl⟩ := List.mem_map.mp hj
  obtain ⟨r, hr, htr⟩ := List.mem_flatMap.mp ht
  exact (happart row hrow r hr t htr).symm

theorem Sound.recorded_nodup (hs : Sound b) : (b.recorded.map fun t => t.1.id).Nodup := by
  have h := hs.ids
  rw [trades, List.map_append, List.map_map] at h
  exact h.of_append_left

theorem Sound.rows_nodup (hs : Sound b) : ((b.rollovers.flatMap Rollover.rows).map TradeRow.id).Nodup := by
  have h := hs.ids
  rw [trades, List.map_append] at h
  exact h.of_append_right

theorem Sound.apart (hs : Sound b) {row : Recorded} (hrow : row ∈ b.recorded) {r : Rollover}
    (hr : r ∈ b.rollovers) {t : TradeRow} (ht : t ∈ r.rows) : t.id ≠ row.1.id := by
  intro heq
  have h := hs.ids
  rw [trades, List.map_append, List.nodup_append] at h
  exact h.2.2 _ (List.mem_map_of_mem (List.mem_map_of_mem hrow)) _
    (List.mem_map_of_mem (List.mem_flatMap.mpr ⟨r, hr, ht⟩)) heq.symm

theorem putTrade_sound {row : Recorded} {draws : List (TradeId × ℚ)} (hs : Sound b)
    (hok : b.putTrade row draws = .ok b') : Sound b' := by
  unfold putTrade at hok
  obtain ⟨_, hrolled, hok⟩ := bind_ok hok
  obtain ⟨_, htype, hok⟩ := bind_ok hok
  obtain ⟨_, hlisting, hok⟩ := bind_ok hok
  obtain ⟨_, haccount, hok⟩ := bind_ok hok
  obtain ⟨_, -, hok⟩ := bind_ok hok
  obtain ⟨_, -, hok⟩ := bind_ok hok
  obtain rfl := Except.ok.inj hok
  have hrolled := refuseIf_ok.mp hrolled
  refine hs.of_recorded rfl (nodup_trades (Keyed.nodup_put hs.recorded_nodup row) hs.rows_nodup ?_) ?_
  · intro row' hrow' r hr t ht heq
    rcases Keyed.mem_put.mp hrow' with ⟨hold, -⟩ | rfl
    · exact hs.apart hold hr ht heq
    · exact hrolled (rolled_iff.mpr ⟨r, hr, t, ht, heq⟩)
  · intro t ht hdrawn
    by_cases hid : t.id = row.1.id
    · -- the row it replaces, whose type, listing and account may not move
      have hget : t ∈ b.trade? row.1.id := (trade?_eq_some hs).mpr ⟨ht, hid⟩
      rw [hid] at hdrawn
      refine ⟨row.1, mem_trades.mpr (Or.inl ⟨row, Keyed.mem_put.mpr (Or.inr rfl), rfl⟩), hid.symm,
        ?_, ?_, ?_⟩
      · by_contra hne
        exact refuseIf_ok.mp htype ⟨t, hget, Ne.symm hne⟩
      · by_contra hne
        exact refuseIf_ok.mp hlisting ⟨hdrawn, t, hget, Ne.symm hne⟩
      · by_contra hne
        exact refuseIf_ok.mp haccount ⟨hdrawn, t, hget, Ne.symm hne⟩
    · refine ⟨t, mem_trades.mpr ?_, rfl, rfl, rfl, rfl⟩
      rcases mem_trades.mp ht with ⟨row', hrow', rfl⟩ | hr
      · exact Or.inl ⟨row', Keyed.mem_put.mpr (Or.inl ⟨hrow', hid⟩), rfl⟩
      · exact Or.inr hr

theorem deleteTrade_sound {id : TradeId} (hs : Sound b) (hok : b.deleteTrade id = .ok b') : Sound b' := by
  unfold deleteTrade at hok
  obtain ⟨_, -, hok⟩ := bind_ok hok
  obtain ⟨_, -, hok⟩ := bind_ok hok
  obtain ⟨_, hdrawn, hok⟩ := bind_ok hok
  obtain rfl := Except.ok.inj hok
  refine hs.of_recorded rfl (nodup_trades (Keyed.nodup_filter hs.recorded_nodup _) hs.rows_nodup ?_) ?_
  · intro row hrow r hr t ht
    exact hs.apart (List.mem_filter.mp hrow).1 hr ht
  · intro t ht ht'
    have hne : t.id ≠ id := fun h => refuseIf_ok.mp hdrawn (h ▸ ht')
    refine ⟨t, mem_trades.mpr ?_, rfl, rfl, rfl, rfl⟩
    rcases mem_trades.mp ht with ⟨row, hrow, rfl⟩ | hr
    · exact Or.inl ⟨row, List.mem_filter.mpr ⟨hrow, decide_eq_true hne⟩, rfl⟩
    · exact Or.inr hr

theorem writeRollover_sound {r : Rollover} (hs : Sound b)
    (hconsumed : ∀ m ∈ r.moved, ∃ t ∈ b.trades, t.id = m.parcel ∧ t.isSell = false ∧
      t.listing = r.listing ∧ (r.group.1 = .transfer → t.account = r.account))
    (hok : b.writeRollover r = .ok b') : Sound b' := by
  unfold writeRollover at hok
  obtain ⟨_, hgroup, hok⟩ := bind_ok hok
  obtain ⟨_, hids, hok⟩ := bind_ok hok
  obtain rfl := Except.ok.inj hok
  have hgroup := refuseIf_ok.mp hgroup
  obtain ⟨hnodup, hfresh⟩ := not_or.mp (refuseIf_ok.mp hids)
  have hfresh : ∀ t ∈ r.rows, ∀ t' ∈ b.trades, t'.id ≠ t.id :=
    fun t ht t' ht' heq => hfresh ⟨t, ht, trade?_isSome.mpr ⟨t', ht', heq⟩⟩
  have hmono : ∀ t ∈ b.trades, t ∈ ({ b with rollovers := b.rollovers ++ [r] } : Book).trades := by
    intro t ht
    refine mem_trades.mpr ((mem_trades.mp ht).imp_right fun ⟨r', hr', htr'⟩ => ?_)
    exact ⟨r', List.mem_append_left _ hr', htr'⟩
  refine ⟨nodup_trades hs.recorded_nodup ?_ ?_, ?_, ?_⟩
  · rw [List.flatMap_append, List.flatMap_singleton, List.map_append, List.nodup_append]
    refine ⟨hs.rows_nodup, not_not.mp hnodup, fun i hi j hj heq => ?_⟩
    obtain ⟨t', ht', rfl⟩ := List.mem_map.mp hi
    obtain ⟨t, ht, rfl⟩ := List.mem_map.mp hj
    exact hfresh t ht t' (List.mem_append_right _ ht') heq
  · intro row hrow r' hr' t ht
    rcases List.mem_append.mp hr' with hold | hnew
    · exact hs.apart hrow hold ht
    · obtain rfl := List.mem_singleton.mp hnew
      exact (hfresh t ht row.1 (mem_trades.mpr (Or.inl ⟨row, hrow, rfl⟩))).symm
  · rw [List.map_append, List.map_singleton, List.nodup_append]
    refine ⟨hs.groups, List.nodup_singleton _, fun g hg g' hg' heq => ?_⟩
    obtain ⟨r', hr', rfl⟩ := List.mem_map.mp hg
    rw [List.mem_singleton.mp hg'] at heq
    exact hgroup ⟨r', hr', heq⟩
  · intro r' hr' m hm
    rcases List.mem_append.mp hr' with hold | hnew
    · obtain ⟨t, ht, hrest⟩ := hs.consumed r' hold m hm
      exact ⟨t, hmono t ht, hrest⟩
    · obtain rfl := List.mem_singleton.mp hnew
      obtain ⟨t, ht, hrest⟩ := hconsumed m hm
      exact ⟨t, hmono t ht, hrest⟩

theorem transferIn_ok {body : TransferBody} {a : TransferAllocation} {m : Moved} (hs : Sound b)
    (h : b.transferIn body a = .ok m) : ∃ t ∈ b.trades, t.id = m.parcel ∧ t.isSell = false ∧
      t.listing = body.listing ∧ t.account = body.fromAccount := by
  unfold transferIn at h
  obtain ⟨t, ht, h⟩ := bind_ok h
  obtain rfl := Except.ok.inj h
  obtain ⟨hget, hsell, hlisting, haccount⟩ := drawable_ok ht
  obtain ⟨hmem, hid⟩ := (trade?_eq_some hs).mp hget
  exact ⟨t, hmem, hid, hsell, hlisting, haccount _ rfl⟩

theorem transfer_sound {body : TransferBody} (hs : Sound b) (hok : b.transfer body = .ok b') :
    Sound b' := by
  unfold transfer at hok
  obtain ⟨_, -, hok⟩ := bind_ok hok
  obtain ⟨_, -, hok⟩ := bind_ok hok
  obtain ⟨moved, hmoved, hok⟩ := bind_ok hok
  refine writeRollover_sound hs (fun m hm => ?_) hok
  obtain ⟨a, -, ha⟩ := mem_mapM_ok hmoved hm
  obtain ⟨t, ht, hid, hsell, hlisting, haccount⟩ := transferIn_ok hs ha
  exact ⟨t, ht, hid, hsell, hlisting, fun _ => haccount⟩

theorem substitute_sound {kind : GroupKind} {terms : Terms} (hkind : kind ≠ .transfer) (hs : Sound b)
    (hok : b.substitute kind terms = .ok b') : Sound b' := by
  unfold substitute at hok
  obtain ⟨_, -, hok⟩ := bind_ok hok
  obtain ⟨_, -, hok⟩ := bind_ok hok
  obtain ⟨_, -, hok⟩ := bind_ok hok
  refine writeRollover_sound hs (fun m hm => ?_) hok
  obtain ⟨p, hp, rfl⟩ := List.mem_map.mp hm
  obtain ⟨t, ht, hopen⟩ := List.mem_filterMap.mp hp
  unfold openAt at hopen
  dsimp only at hopen
  split at hopen
  · rename_i hheld
    obtain rfl := Option.some.inj hopen
    exact ⟨t, ht, rfl, hheld.1, hheld.2.1, fun h => absurd h hkind⟩
  · cases hopen

theorem undo_sound {group : Group} (hs : Sound b) (hok : b.undo group = .ok b') : Sound b' := by
  unfold undo at hok
  obtain ⟨_, -, hok⟩ := bind_ok hok
  obtain ⟨_, hdrawn, hok⟩ := bind_ok hok
  obtain rfl := Except.ok.inj hok
  have hkeep := List.filter_sublist (p := fun r : Rollover => r.group ≠ group) (l := b.rollovers)
  refine ⟨nodup_trades hs.recorded_nodup ?_ ?_, Keyed.nodup_filter hs.groups _, ?_⟩
  · exact hs.rows_nodup.sublist ((hkeep.flatMap Rollover.rows).map TradeRow.id)
  · intro row hrow r hr t ht
    exact hs.apart hrow (List.mem_filter.mp hr).1 ht
  · intro r hr m hm
    have hr := (List.mem_filter.mp hr).1
    obtain ⟨t, ht, hid, hsell, hrest⟩ := hs.consumed r hr m hm
    refine ⟨t, mem_trades.mpr ((mem_trades.mp ht).imp_right fun ⟨r', hr', htr'⟩ => ?_), hid, hsell, hrest⟩
    refine ⟨r', List.mem_filter.mpr ⟨hr', decide_eq_true fun hg => ?_⟩, htr'⟩
    -- a parcel another rollover consumed is a replacement still drawn on
    rcases List.mem_cons.mp htr' with rfl | hbuy
    · cases hsell
    · exact refuseIf_ok.mp hdrawn ⟨r', hr', hg, t, hbuy, hid ▸ drawnOn_of_moved hr hm⟩

theorem step_sound {w : Write} (hs : Sound b) (hok : b.step w = .ok b') : Sound b' := by
  cases w with
  | putTrade row draws => exact putTrade_sound hs hok
  | deleteTrade id => exact deleteTrade_sound hs hok
  | putIncome row =>
    obtain rfl := Except.ok.inj hok
    exact ⟨hs.ids, hs.groups, hs.consumed⟩
  | deleteIncome id =>
    obtain rfl := Except.ok.inj hok
    exact ⟨hs.ids, hs.groups, hs.consumed⟩
  | putSplits splits =>
    obtain rfl := Except.ok.inj hok
    exact ⟨hs.ids, hs.groups, hs.consumed⟩
  | transfer body => exact transfer_sound hs hok
  | exchange terms =>
    have hok : b.substitute .scrip terms = .ok b' := hok
    exact substitute_sound (by decide) hs hok
  | demerge terms =>
    have hok : b.substitute .demerger _ = .ok b' := hok
    exact substitute_sound (by decide) hs hok
  | undo group => exact undo_sound hs hok

theorem run_sound {ws : List Write} (hs : Sound b) (hok : b.run ws = .ok b') : Sound b' := by
  induction ws generalizing b with
  | nil =>
    obtain rfl : b = b' := Except.ok.inj hok
    exact hs
  | cons w ws ih =>
    obtain ⟨m, hm, hrest⟩ := GuardedRun.run_cons.mp hok
    exact ih (step_sound hs hm) hrest

end Steps
end Book
end ShareTracker.Performance
