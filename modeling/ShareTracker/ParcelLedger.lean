import ShareTracker.SaleWalk
import ShareTracker.EntitlementRounding

/-!
The ledger of parcels, the Sells drawn on them and the re-basing actions, with
the writes that change it. Each write carries the checks made on these rows;
the checks on prices, currencies and calendars only refuse more.
-/
namespace ShareTracker

abbrev ListingId := ℤ
abbrev HoldingAccountId := ℤ

inductive TradeType where
  | buy
  | sell
  | drp
  deriving DecidableEq

def TradeType.isAcquisition : TradeType → Bool
  | .buy | .drp => true
  | .sell => false

/-- The operation that wrote a trade. -/
inductive Provenance where
  | essVest (id : ℤ)
  | inheritance (id : ℤ)
  | rightsAction (id : ℤ)
  | buybackAction (id : ℤ)
  | scripAction (id : ℤ)
  | demergerAction (id : ℤ)
  | transfer (id : ℤ)
  | worthlessAction (id : ℤ)
  | cashInLieuAction (id : ℤ)
  deriving DecidableEq

namespace Provenance

/-- The operations whose Sell closes the whole holding, across every account. -/
def closesWholeHolding : Provenance → Bool
  | .scripAction _ | .demergerAction _ | .worthlessAction _ => true
  | _ => false

/-- The operations whose Sell's quantity was computed, not stated. -/
def computesQuantity (p : Provenance) : Bool :=
  p.closesWholeHolding || match p with
    | .cashInLieuAction _ => true
    | _ => false

/-- Whether a trade of it is deleted on its own rather than with its group. -/
def deletedAlone : Provenance → Bool
  | .rightsAction _ | .buybackAction _ => true
  | _ => false

def isTransfer : Provenance → Bool
  | .transfer _ => true
  | _ => false

/-- The corporate action the trade was written from. -/
def action : Provenance → Option ℤ
  | .rightsAction id | .buybackAction id | .scripAction id | .demergerAction id
  | .worthlessAction id | .cashInLieuAction id => some id
  | .essVest _ | .inheritance _ | .transfer _ => none

end Provenance

structure Trade where
  id : TradeId
  tradeType : TradeType
  date : NaiveDate
  listing : ListingId
  account : HoldingAccountId
  quantity : ℚ
  provenance : Option Provenance
  deriving DecidableEq

structure ParcelAllocation where
  sale : TradeId
  purchase : TradeId
  quantity : Decimal
  deriving DecidableEq

/-- One parcel's units either side of a rounded action. -/
structure StoredCount where
  before : ℚ
  after : ℚ
  before_pos : 0 < before
  after_pos : 0 < after

/-- A corporate action; one that re-bases carries its event, and where its
fractions are rounded the stored count of each parcel. -/
structure CorporateAction where
  id : ℤ
  listing : ListingId
  date : NaiveDate
  rebase : Option SplitEvent
  rounded : Bool
  counts : List (TradeId × StoredCount)
  rebase_date : ∀ e ∈ rebase, e.date = date

/-- The event as it re-bases one parcel: its stored count in place of the ratio. -/
def CorporateAction.eventFor (a : CorporateAction) (parcel : TradeId) : Option SplitEvent :=
  a.rebase.map fun event =>
    match a.counts.find? fun c => c.1 = parcel with
    | some (_, count) =>
      { event with
        newUnits := count.after
        oldUnits := count.before
        newUnits_pos := count.after_pos
        oldUnits_pos := count.before_pos }
    | none => event

structure Transfer where
  id : ℤ
  feeSale : Option TradeId
  deriving DecidableEq

structure Ledger where
  trades : List Trade
  allocations : List ParcelAllocation
  actions : List CorporateAction
  transfers : List Transfer
  /-- The decimal places a holding's quantities may carry, where constrained. -/
  unitScale : HoldingAccountId → ListingId → Option ℕ

inductive Refusal where
  | overflow
  | allocationNotPositive
  | allocationMismatch (allocated quantity : ℚ)
  | quantityNotPositive
  | unitScale (quantity : ℚ) (scale : ℕ)
  | purchaseParcelMissing
  | purchaseTradeNotBuyOrDrp
  | purchaseInDifferentAccount
  | purchaseListingMismatch
  | purchaseAfterSale
  | purchaseQuantityExceeded
  | notASell (existing : TradeType)
  | operationTrade (provenance : Provenance)
  | transferSell
  | tradeTypeChange (existing : TradeType)
  | listingChangeReferenced
  | accountChangeReferenced
  | dateAfterAllocatedSale
  | quantityBelowAllocated
  | notFound
  | referenced
  | replacementReferenced
  | sameAccount
  | nothingToTransfer
  | alreadyExists
  | listingMismatch
  | transferInReferenced
  | referencedByTrade
  | allocationsExceedParcel
  | rebasedTrades
  | stillReferenced
  deriving DecidableEq

instance : Panics Refusal := ⟨.overflow⟩

namespace Ledger

def trade? (s : Ledger) (id : TradeId) : Option Trade := s.trades.find? fun t => t.id = id

/-- `INSERT … ON CONFLICT(id) DO UPDATE`. -/
def putTrade (s : Ledger) (t : Trade) : Ledger :=
  { s with trades := s.trades.filter (fun u => u.id ≠ t.id) ++ [t] }

/-- A row at an id the database has just assigned. -/
def insertTrade (s : Ledger) (t : Trade) : Attempt Refusal Ledger := do
  Attempt.refuseIf (s.trade? t.id).isSome .alreadyExists
  return { s with trades := s.trades ++ [t] }

/-- Whether any allocation names the trade on either side. -/
def allocated (s : Ledger) (id : TradeId) : Bool :=
  s.allocations.any fun a => a.purchase = id || a.sale = id

def drawnOn (s : Ledger) (id : TradeId) : Bool := s.allocations.any fun a => a.purchase = id

/-- The listing's re-basing events as they re-base one parcel. -/
def splitsForParcel (s : Ledger) (listing : ListingId) (parcel : TradeId) : List SplitEvent :=
  (StableSort.sortBy (fun a => toLex (a.date, a.id))
    (s.actions.filter fun a => a.listing = listing)).filterMap (·.eventFor parcel)

/-- The allocations drawn on a parcel, each with its Sell, in the basis of the
sale date. -/
def saleRows (s : Ledger) (parcel : TradeId) : List (TradeId × UnitsAt) :=
  s.allocations.filterMap fun a =>
    if a.purchase = parcel then (s.trade? a.sale).map fun t => (a.sale, ⟨a.quantity, t.date⟩)
    else none

def parcelSales (s : Ledger) (parcel : TradeId) : List UnitsAt := (s.saleRows parcel).map Prod.snd

/-- The scale a quantity is finer than, in its holding. -/
def tooFine (s : Ledger) (account : HoldingAccountId) (listing : ListingId) (quantity : ℚ) :
    Option ℕ :=
  (s.unitScale account listing).filter fun scale => (quantity * 10 ^ scale).den ≠ 1

def refuseTooFine (s : Ledger) (account : HoldingAccountId) (listing : ListingId) (quantity : ℚ) :
    Attempt Refusal Unit :=
  match s.tooFine account listing quantity with
  | some scale => Attempt.refuse (.unitScale quantity scale)
  | none => pure ()

end Ledger

variable (D : DecimalRounding)

/-! ### The checks on a parcel's units -/

/-- The as-acquired units a parcel's allocations draw. -/
def Ledger.soldUnits (s : Ledger) (t : Trade) : Attempt Refusal AcquiredUnits :=
  D.soldInAcquiredUnits (s.splitsForParcel t.listing t.id) t.date (.new t.quantity)
    (s.parcelSales t.id)

/-- Whether a parcel covers what is drawn on it. -/
def Ledger.covers (s : Ledger) (t : Trade) : Attempt Refusal Bool := do
  let total ← s.soldUnits D t
  return !(← AcquiredUnits.lt D (.new t.quantity) total)

def Ledger.coversAll (s : Ledger) : List Trade → Attempt Refusal Bool
  | [] => pure true
  | t :: rest => do
      if ← s.covers D t then coversAll s rest else return false

/-- Whether every parcel of a listing that is drawn on covers its allocations. -/
def Ledger.allocationsFitParcels (s : Ledger) (listing : ListingId) : Attempt Refusal Bool :=
  s.coversAll D (s.trades.filter fun t => t.listing = listing && s.drawnOn t.id)

def Ledger.refuseUnlessFit (s : Ledger) (listing : ListingId) : Attempt Refusal Unit := do
  Attempt.refuseIf (!(← s.allocationsFitParcels D listing)) .allocationsExceedParcel

/-! ### Settling rounded actions -/

/-- The counts a recompute stores for each of a listing's actions. -/
abbrev Recount := ListingId → ℤ → List (TradeId × StoredCount)

/-- The listings among those touched that have a rounded re-basing action. -/
def Ledger.dirty (s : Ledger) (touched : List ListingId) : List ListingId :=
  touched.filter fun l => s.actions.any fun a => a.listing = l && a.rebase.isSome && a.rounded

def Ledger.recompute (s : Ledger) (recount : Recount) (listing : ListingId) : Ledger :=
  { s with
    actions := s.actions.map fun a =>
      if a.listing = listing then { a with counts := recount listing a.id } else a }

def Ledger.settleListing (s : Ledger) (recount : Recount) (listing : ListingId) :
    Attempt Refusal Ledger := do
  let s := s.recompute recount listing
  s.refuseUnlessFit D listing
  return s

/-- Recompute each dirty listing, whatever counts the recompute stores, and
check the state it leaves. -/
def Ledger.dbSettle (s : Ledger) (recount : Recount) (dirty : List ListingId) :
    Attempt Refusal Ledger :=
  dirty.foldlM (fun s listing => s.settleListing D recount listing) s

/-! ### Sells -/

structure AllocationInput where
  purchaseTradeId : TradeId
  quantityAllocated : Decimal
  deriving DecidableEq

structure SellBody where
  date : NaiveDate
  listing : ListingId
  account : HoldingAccountId
  quantity : ℚ
  allocations : List AllocationInput
  deriving DecidableEq

def SellBody.row (body : SellBody) (id : TradeId) (provenance : Option Provenance) : Trade :=
  ⟨id, .sell, body.date, body.listing, body.account, body.quantity, provenance⟩

def Ledger.dropAllocations (s : Ledger) (id : TradeId) : Ledger :=
  { s with allocations := s.allocations.filter fun a => a.sale ≠ id }

def Ledger.addAllocation (s : Ledger) (a : ParcelAllocation) : Ledger :=
  { s with allocations := s.allocations ++ [a] }

def AllocationInput.row (a : AllocationInput) (sale : TradeId) : ParcelAllocation :=
  ⟨sale, a.purchaseTradeId, a.quantityAllocated⟩

def Provenance.stated (p : Option Provenance) : Bool := !p.any Provenance.computesQuantity

/-- A stated quantity sits on its holding's unit grid. -/
def Ledger.checkScale (s : Ledger) (provenance : Option Provenance) (account : HoldingAccountId)
    (listing : ListingId) (quantity : ℚ) : Attempt Refusal Unit :=
  if Provenance.stated provenance then s.refuseTooFine account listing quantity else pure ()

/-- One allocation: the parcel's own checks, the row, and the parcel's cover. -/
def Ledger.allocate (sellId : TradeId) (body : SellBody) (provenance : Option Provenance)
    (s : Ledger) (alloc : AllocationInput) : Attempt Refusal Ledger := do
  let parcel ← Attempt.orRefuse (s.trade? alloc.purchaseTradeId) .purchaseParcelMissing
  Attempt.refuseIf (!parcel.tradeType.isAcquisition) .purchaseTradeNotBuyOrDrp
  Attempt.refuseIf (!provenance.any Provenance.closesWholeHolding ∧ parcel.account ≠ body.account)
    .purchaseInDifferentAccount
  Attempt.refuseIf (parcel.listing ≠ body.listing) .purchaseListingMismatch
  Attempt.refuseIf (body.date < parcel.date) .purchaseAfterSale
  s.checkScale provenance parcel.account parcel.listing alloc.quantityAllocated.value
  let s := s.addAllocation (alloc.row sellId)
  Attempt.refuseIf (!(← s.covers D parcel)) .purchaseQuantityExceeded
  return s

def Ledger.upsertSellInTx (s : Ledger) (id : TradeId) (provenance : Option Provenance)
    (body : SellBody) : Attempt Refusal Ledger := do
  Attempt.refuseIf (∃ a ∈ body.allocations, a.quantityAllocated.value ≤ 0) .allocationNotPositive
  let total ← D.sum (body.allocations.map fun a => a.quantityAllocated.value)
  Attempt.refuseIf (total ≠ body.quantity) (.allocationMismatch total body.quantity)
  Attempt.refuseIf (body.quantity ≤ 0) .quantityNotPositive
  let s := s.putTrade (body.row id provenance)
  s.checkScale provenance body.account body.listing body.quantity
  -- the sale's allocations are replaced wholesale
  body.allocations.foldlM (Ledger.allocate D id body provenance) (s.dropAllocations id)

def Ledger.isTransferFeeSale (s : Ledger) (id : TradeId) : Bool :=
  s.transfers.any fun t => t.feeSale = some id

/-- A trade an operation wrote is edited through the operation. -/
def Ledger.refuseOperation (s : Ledger) (stored : Trade) : Attempt Refusal Unit :=
  match stored.provenance with
  | some p => Attempt.refuse (.operationTrade p)
  | none => Attempt.refuseIf (s.isTransferFeeSale stored.id) .transferSell

/-- The checks on the row an upsert would rewrite. -/
def Ledger.checkSellEdit (s : Ledger) (stored : Trade) : Attempt Refusal Unit := do
  Attempt.refuseIf (stored.tradeType ≠ .sell) (.notASell stored.tradeType)
  s.refuseOperation stored

/-- `PUT /sells/:id`; a create is the same write at an id no row holds. -/
def Ledger.writeSell (s : Ledger) (id : TradeId) (body : SellBody) (recount : Recount) :
    Attempt Refusal Ledger := do
  let stored := (s.trade? id).toList
  stored.forM s.checkSellEdit
  let s ← s.upsertSellInTx D id none body
  s.dbSettle D recount (s.dirty (stored.map Trade.listing ++ [body.listing]))

/-! ### Removing rows -/

/-- Delete the trades `gone` with the allocations of their own sales; a trade
another sale still draws on stays. -/
def Ledger.remove (s : Ledger) (gone : TradeId → Bool) : Attempt Refusal Ledger := do
  let allocations := s.allocations.filter fun a => !gone a.sale
  Attempt.refuseIf (∃ a ∈ allocations, gone a.purchase) .stillReferenced
  return { s with
    trades := s.trades.filter fun t => !gone t.id
    allocations := allocations
    actions := s.actions.map fun a =>
      { a with counts := a.counts.filter fun c => !gone c.1 } }

/-- The trades of the group a closing Sell belongs to, the Sell apart. -/
def Ledger.replacements (s : Ledger) (t : Trade) : List Trade :=
  match t.provenance with
  | some (.scripAction a) =>
    s.trades.filter fun u => u.provenance = some (.scripAction a) && u.id ≠ t.id
  | some (.demergerAction a) =>
    s.trades.filter fun u => u.provenance = some (.demergerAction a) && u.id ≠ t.id
  | _ => []

def Ledger.deleteSell (s : Ledger) (id : TradeId) (recount : Recount) :
    Attempt Refusal Ledger := do
  let t ← Attempt.orRefuse (s.trade? id) .notFound
  Attempt.refuseIf (t.tradeType ≠ .sell) (.notASell t.tradeType)
  Attempt.refuseIf (t.provenance.any Provenance.isTransfer || s.isTransferFeeSale id) .transferSell
  let group := s.replacements t
  Attempt.refuseIf (∃ u ∈ group, s.allocated u.id) .replacementReferenced
  let s ← s.remove fun i => i = id || group.any fun u => u.id = i
  s.dbSettle D recount (s.dirty (t.listing :: group.map Trade.listing))

/-! ### Trades -/

structure TradeBody where
  date : NaiveDate
  listing : ListingId
  account : HoldingAccountId
  quantity : ℚ
  deriving DecidableEq

/-- The checks on the row an upsert would rewrite. -/
def Ledger.checkEdit (s : Ledger) (body : TradeBody) (stored : Trade) : Attempt Refusal Unit := do
  s.refuseOperation stored
  Attempt.refuseIf (stored.tradeType ≠ .buy) (.tradeTypeChange stored.tradeType)
  Attempt.refuseIf (stored.listing ≠ body.listing ∧ s.drawnOn stored.id) .listingChangeReferenced
  Attempt.refuseIf (stored.account ≠ body.account ∧ s.drawnOn stored.id) .accountChangeReferenced
  Attempt.refuseIf (stored.date < body.date ∧
    ∃ sale ∈ s.parcelSales stored.id, sale.basis < body.date) .dateAfterAllocatedSale

/-- `PUT /trades/:id` of a Buy; a create is the same write at an id no row holds. -/
def Ledger.writeTrade (s : Ledger) (id : TradeId) (body : TradeBody) (recount : Recount) :
    Attempt Refusal Ledger := do
  Attempt.refuseIf (body.quantity ≤ 0) .quantityNotPositive
  let stored := (s.trade? id).toList
  stored.forM (s.checkEdit body)
  let t : Trade := ⟨id, .buy, body.date, body.listing, body.account, body.quantity, none⟩
  -- the sales are measured against the quantity, date and listing written
  Attempt.refuseIf (!(← s.covers D t)) .quantityBelowAllocated
  let s := s.putTrade t
  s.refuseTooFine body.account body.listing body.quantity
  s.dbSettle D recount (s.dirty (stored.map Trade.listing ++ [body.listing]))

/-- A parcel an operation writes, at an id the database assigns. -/
def Ledger.recordParcel (s : Ledger) (t : Trade) : Attempt Refusal Ledger := do
  Attempt.refuseIf (!t.tradeType.isAcquisition) .purchaseTradeNotBuyOrDrp
  Attempt.refuseIf (t.quantity ≤ 0) .quantityNotPositive
  s.insertTrade t

def Ledger.recordParcels (s : Ledger) (ts : List Trade) : Attempt Refusal Ledger :=
  ts.foldlM Ledger.recordParcel s

def Ledger.deleteTrade (s : Ledger) (id : TradeId) (recount : Recount) :
    Attempt Refusal Ledger := do
  let t ← Attempt.orRefuse (s.trade? id) .notFound
  Attempt.refuseIf (t.provenance.any fun p => !p.deletedAlone) .referenced
  Attempt.refuseIf (s.allocated id) .referenced
  let s ← s.remove fun i => i = id
  s.dbSettle D recount (s.dirty [t.listing])

/-! ### Transfers and the other operations that close a holding -/

structure TransferBody where
  listing : ListingId
  date : NaiveDate
  fromAccount : HoldingAccountId
  toAccount : HoldingAccountId
  allocations : List AllocationInput
  feeAllocations : List AllocationInput
  deriving DecidableEq

/-- The Sell that closes `allocations`: its quantity is their sum. -/
def closingSellBody (date : NaiveDate) (listing : ListingId) (account : HoldingAccountId)
    (allocations : List AllocationInput) : Attempt Refusal SellBody := do
  return ⟨date, listing, account,
    ← D.sum (allocations.map fun a => a.quantityAllocated.value), allocations⟩

/-- An operation's Sell, at an id the database assigns. -/
def Ledger.insertSell (s : Ledger) (id : TradeId) (provenance : Option Provenance)
    (body : SellBody) : Attempt Refusal Ledger := do
  Attempt.refuseIf (s.trade? id).isSome .alreadyExists
  s.upsertSellInTx D id provenance body

/-- The ids the database assigns a transfer's rows. -/
structure TransferIds where
  transfer : ℤ
  sell : TradeId
  buy : TradeId → TradeId
  feeSell : TradeId

def TransferBody.transferIn (body : TransferBody) (ids : TransferIds) (a : AllocationInput) :
    Trade :=
  ⟨ids.buy a.purchaseTradeId, .buy, body.date, body.listing, body.toAccount,
    a.quantityAllocated.value, some (.transfer ids.transfer)⟩

def Ledger.checkTransferParcel (s : Ledger) (body : TransferBody) (a : AllocationInput) :
    Attempt Refusal Unit := do
  let parcel ← Attempt.orRefuse (s.trade? a.purchaseTradeId) .purchaseParcelMissing
  Attempt.refuseIf (parcel.listing ≠ body.listing) .listingMismatch

def Ledger.writeTransferIn (body : TransferBody) (ids : TransferIds) (s : Ledger)
    (a : AllocationInput) : Attempt Refusal Ledger := do
  s.refuseTooFine body.toAccount body.listing a.quantityAllocated.value
  s.recordParcel (body.transferIn ids a)

/-- The network fee's own disposal, where the transfer paid one in units. -/
def Ledger.writeFeeSale (s : Ledger) (body : TransferBody) (ids : TransferIds) :
    Attempt Refusal Ledger := do
  if body.feeAllocations = [] then
    return { s with transfers := s.transfers ++ [⟨ids.transfer, none⟩] }
  else do
    body.feeAllocations.forM (s.checkTransferParcel body)
    let feeBody ← closingSellBody D body.date body.listing body.fromAccount body.feeAllocations
    let s ← s.insertSell D ids.feeSell none feeBody
    return { s with transfers := s.transfers ++ [⟨ids.transfer, some ids.feeSell⟩] }

def Ledger.writeTransfer (s : Ledger) (ids : TransferIds) (body : TransferBody)
    (recount : Recount) : Attempt Refusal Ledger := do
  Attempt.refuseIf (body.fromAccount = body.toAccount) .sameAccount
  Attempt.refuseIf (body.allocations = []) .nothingToTransfer
  Attempt.refuseIf (s.transfers.any fun t => t.id = ids.transfer) .alreadyExists
  body.allocations.forM (s.checkTransferParcel body)
  let sellBody ← closingSellBody D body.date body.listing body.fromAccount body.allocations
  let s ← s.insertSell D ids.sell (some (.transfer ids.transfer)) sellBody
  let s ← body.allocations.foldlM (Ledger.writeTransferIn body ids) s
  let s ← s.writeFeeSale D body ids
  s.dbSettle D recount (s.dirty [body.listing])

def Ledger.deleteTransfer (s : Ledger) (id : ℤ) (recount : Recount) :
    Attempt Refusal Ledger := do
  let transfer ← Attempt.orRefuse (s.transfers.find? fun (t : Transfer) => t.id = id) .notFound
  let group := s.trades.filter fun t =>
    t.provenance = some (.transfer id) || transfer.feeSale = some t.id
  Attempt.refuseIf (∃ t ∈ group, t.provenance = some (.transfer id) ∧ t.tradeType ≠ .sell ∧
    s.drawnOn t.id) .transferInReferenced
  let s ← s.remove fun i => group.any fun t => t.id = i
  let s := { s with transfers := s.transfers.filter fun t => t.id ≠ id }
  s.dbSettle D recount (s.dirty (group.map Trade.listing))

/-- An exchange, demerger, recognise, buy-back or cash-in-lieu: a Sell of its
own and the parcels that replace what it closed. -/
def Ledger.operate (s : Ledger) (id : TradeId) (provenance : Provenance) (body : SellBody)
    (replacements : List Trade) (recount : Recount) : Attempt Refusal Ledger := do
  let s ← s.insertSell D id (some provenance) body
  let s ← s.recordParcels replacements
  s.dbSettle D recount (s.dirty (body.listing :: replacements.map Trade.listing))

/-! ### Corporate actions -/

def CorporateAction.isRounded (a : CorporateAction) : Bool := a.rebase.isSome && a.rounded

def Ledger.putAction (s : Ledger) (action : CorporateAction) : Ledger :=
  { s with actions := s.actions.filter (fun a => a.id ≠ action.id) ++ [action] }

/-- `PUT /corporate_actions/:id`; `changed` is whether it differs from the
stored row, whose counts were the old terms'. -/
def Ledger.writeAction (s : Ledger) (action : CorporateAction) (changed : Bool)
    (recount : Recount) : Attempt Refusal Ledger := do
  let stored := s.actions.find? fun a => a.id = action.id
  Attempt.refuseIf (∃ t ∈ s.trades, ∃ p ∈ t.provenance, p.action = some action.id)
    .referencedByTrade
  let counts := match stored with
    | some old => if changed then [] else old.counts
    | none => []
  let s := s.putAction { action with counts := counts }
  let previous := (stored.toList.map CorporateAction.listing).filter fun l => l ≠ action.listing
  let listings := action.listing :: previous
  let dirty := if action.isRounded || stored.any CorporateAction.isRounded then listings else []
  let s ← s.dbSettle D recount dirty
  listings.forM (s.refuseUnlessFit D)
  return s

def Ledger.deleteAction (s : Ledger) (id : ℤ) (recount : Recount) : Attempt Refusal Ledger := do
  let action ← Attempt.orRefuse (s.actions.find? fun (a : CorporateAction) => a.id = id) .notFound
  Attempt.refuseIf (action.rebase.isSome ∧
    ∃ t ∈ s.trades, t.listing = action.listing ∧ action.date ≤ t.date) .rebasedTrades
  Attempt.refuseIf (∃ t ∈ s.trades, ∃ p ∈ t.provenance, p.action = some id) .stillReferenced
  let s := { s with actions := s.actions.filter fun a => a.id ≠ id }
  s.dbSettle D recount (if action.isRounded then [action.listing] else [])

/-! ### Runs -/

/-- A write, with the counts the recompute it triggers stores. -/
inductive Write where
  | writeSell (id : TradeId) (body : SellBody) (recount : Recount)
  | deleteSell (id : TradeId) (recount : Recount)
  | writeTrade (id : TradeId) (body : TradeBody) (recount : Recount)
  | recordParcel (t : Trade) (recount : Recount)
  | deleteTrade (id : TradeId) (recount : Recount)
  | writeTransfer (ids : TransferIds) (body : TransferBody) (recount : Recount)
  | deleteTransfer (id : ℤ) (recount : Recount)
  | operate (id : TradeId) (provenance : Provenance) (body : SellBody) (replacements : List Trade)
      (recount : Recount)
  | writeAction (action : CorporateAction) (changed : Bool) (recount : Recount)
  | deleteAction (id : ℤ) (recount : Recount)
  | setUnitScale (scale : HoldingAccountId → ListingId → Option ℕ) (recount : Recount)
      (touched : List ListingId)

def Ledger.step (s : Ledger) : Write → Attempt Refusal Ledger
  | .writeSell id body recount => s.writeSell D id body recount
  | .deleteSell id recount => s.deleteSell D id recount
  | .writeTrade id body recount => s.writeTrade D id body recount
  | .recordParcel t recount => do
      let s ← s.recordParcel t
      s.dbSettle D recount (s.dirty [t.listing])
  | .deleteTrade id recount => s.deleteTrade D id recount
  | .writeTransfer ids body recount => s.writeTransfer D ids body recount
  | .deleteTransfer id recount => s.deleteTransfer D id recount
  | .operate id provenance body replacements recount =>
    s.operate D id provenance body replacements recount
  | .writeAction action changed recount => s.writeAction D action changed recount
  | .deleteAction id recount => s.deleteAction D id recount
  | .setUnitScale scale recount touched =>
    { s with unitScale := scale }.dbSettle D recount (s.dirty touched)

/-- The ledger of a new database. -/
def Ledger.empty : Ledger := ⟨[], [], [], [], fun _ _ => none⟩

/-- The ledger a sequence of accepted writes reaches. -/
def Ledger.run (s : Ledger) : List Write → Except Refusal Ledger
  | [] => .ok s
  | w :: ws =>
    match (s.step D w).answer with
    | .ok s' => s'.run ws
    | .error e => .error e

/-- Whether no write of the sequence rounds in the arithmetic of its checks. -/
def Ledger.roundsNowhere (s : Ledger) : List Write → Bool
  | [] => true
  | w :: ws =>
    (s.step D w).exact &&
      match (s.step D w).answer with
      | .ok s' => s'.roundsNowhere ws
      | .error _ => true

end ShareTracker
