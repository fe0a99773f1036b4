import ShareTracker.ParcelLedger

/-!
The operations that close a whole holding: the exchange, the demerger and the
worthless-shares recognise. Each consumes every open parcel of its listing, and
every write that creates a parcel is refused where the parcel would land behind
one that has already run.
-/
namespace ShareTracker.WholeHolding

/-- Whether a trade is an executed operation's closing Sell. -/
def closes (t : Trade) : Bool :=
  t.tradeType = .sell && t.provenance.any Provenance.closesWholeHolding

/-- `db_executed_from`: the operations a parcel of that date lands behind, newest first. -/
def executedFrom (s : Ledger) (listing : ListingId) (date : NaiveDate) : List Trade :=
  (StableSort.sortBy (fun t => toLex (t.date, t.id)) (s.trades.filter fun t =>
    t.listing = listing && closes t && date ≤ t.date)).reverse

/-- `db_back_dated_parcel`; `stored` is where the parcel already stands. -/
def backDatedParcel (s : Ledger) (listing : ListingId) (date : NaiveDate)
    (stored : Option (ListingId × NaiveDate)) : Option (List Trade) :=
  let operations := executedFrom s listing date
  if operations = [] then none
  else if stored.any fun p => executedFrom s p.1 p.2 ≠ [] then none
  else some operations

inductive Refusal where
  | ledger (refusal : ShareTracker.Refusal)
  | actionNotFound
  | alreadyExecuted
  | tradedOnOrAfter
  | backDatedOverWholeHolding (operations : List Trade)
  | nothingHeld
  deriving DecidableEq

inductive Operation where
  | exchange (scripListing : ListingId)
  | demerge (demergerListing : ListingId)
  | recognise

/-- Executing an action: the figures and the ids its rows are written with. -/
structure Execution where
  action : ℤ
  operation : Operation
  sell : TradeId
  /-- The stored figure of each parcel's units at the operation's date. -/
  atDateUnits : TradeId → Decimal
  /-- The units received for a parcel, on the listing that replaces it. -/
  received : TradeId → ℚ
  head : TradeId → TradeId
  replacement : TradeId → TradeId

def Execution.provenance (x : Execution) : Provenance :=
  match x.operation with
  | .exchange _ => .scripAction x.action
  | .demerge _ => .demergerAction x.action
  | .recognise => .worthlessAction x.action

/-- The listing that replaces the holding, or is spun off from it. -/
def Execution.destination (x : Execution) : Option ListingId :=
  match x.operation with
  | .exchange listing | .demerge listing => some listing
  | .recognise => none

def defaultAccount : HoldingAccountId := 1

variable (D : DecimalRounding)

/-- One parcel's draw by the closing Sell: all it has left, in the units of the date. -/
def consume (s : Ledger) (atDateUnits : TradeId → Decimal) (date : NaiveDate) (t : Trade) :
    Attempt ShareTracker.Refusal (Option AllocationInput) := do
  let sold ← s.soldUnits D t
  let remaining ← AcquiredUnits.sub D (.new t.quantity) sold
  if ← AcquiredUnits.lt D .zero remaining then
    let figure ←
      D.splitAdjustedQuantity remaining (s.splitsForParcel t.listing t.id) t.date date
    -- the figure is the one stored
    Attempt.refuseIf ((atDateUnits t.id).value ≠ figure) .overflow
    return some ⟨t.id, atDateUnits t.id⟩
  else return none

def consumeAll (s : Ledger) (atDateUnits : TradeId → Decimal) (date : NaiveDate) :
    List Trade → Attempt ShareTracker.Refusal (List AllocationInput)
  | [] => pure []
  | t :: rest => do
      let draw ← consume D s atDateUnits date t
      return draw.toList ++ (← consumeAll s atDateUnits date rest)

/-- The listing's parcels, in date order. -/
def parcels (s : Ledger) (listing : ListingId) : List Trade :=
  StableSort.sortBy (fun t => toLex (t.date, t.id))
    (s.trades.filter fun t => t.listing = listing && t.tradeType.isAcquisition)

/-- The parcels written for one consumed: none for a recognise. -/
def Execution.replacements (x : Execution) (s : Ledger) (listing : ListingId) (date : NaiveDate)
    (a : AllocationInput) : List Trade :=
  let account := ((s.trade? a.purchaseTradeId).map Trade.account).getD defaultAccount
  let buy (id : TradeId) (on : ListingId) (quantity : ℚ) : Trade :=
    ⟨id, .buy, date, on, account, quantity, some x.provenance⟩
  match x.operation with
  | .exchange scrip => [buy (x.replacement a.purchaseTradeId) scrip (x.received a.purchaseTradeId)]
  | .demerge demerged =>
    [buy (x.head a.purchaseTradeId) listing a.quantityAllocated.value,
      buy (x.replacement a.purchaseTradeId) demerged (x.received a.purchaseTradeId)]
  | .recognise => []

def refuseBackDated (s : Ledger) (listing : ListingId) (date : NaiveDate)
    (stored : Option (ListingId × NaiveDate)) : Attempt Refusal Unit :=
  match backDatedParcel s listing date stored with
  | some operations => Attempt.refuse (.backDatedOverWholeHolding operations)
  | none => pure ()

/-- `POST /corporate_actions/:id/exchange`, `…/demerge` and `…/recognise`. -/
def execute (s : Ledger) (x : Execution) (recount : Recount) : Attempt Refusal Ledger := do
  let action ← Attempt.orRefuse (s.actions.find? fun a => a.id = x.action) .actionNotFound
  Attempt.refuseIf (s.trades.any fun t => t.provenance = some x.provenance) .alreadyExecuted
  Attempt.refuseIf
    (s.trades.any fun t => t.listing = action.listing && action.date ≤ t.date) .tradedOnOrAfter
  x.destination.toList.forM fun listing => refuseBackDated s listing action.date none
  let allocations ← Attempt.mapError Refusal.ledger
    (consumeAll D s x.atDateUnits action.date (parcels s action.listing))
  Attempt.refuseIf (allocations = []) .nothingHeld
  Attempt.mapError Refusal.ledger do
    let body ← closingSellBody D action.date action.listing defaultAccount allocations
    s.operate D x.sell x.provenance body
      (allocations.flatMap (x.replacements s action.listing action.date)) recount

/-! ### Writes -/

/-- The ledger's own writes, but for the operations and the parcels they write. -/
def ordinary : ShareTracker.Write → Bool
  | .operate _ provenance _ replacements _ =>
    !provenance.closesWholeHolding && replacements.isEmpty
  | .recordParcel t _ => !t.provenance.any Provenance.closesWholeHolding
  | _ => true

inductive Write where
  | ledger (w : ShareTracker.Write) (ordinary : ordinary w = true)
  | execute (x : Execution) (recount : Recount)

/-- The guard of the writes that create a parcel. -/
def guardParcel (s : Ledger) : ShareTracker.Write → Attempt Refusal Unit
  | .writeTrade id body _ =>
    refuseBackDated s body.listing body.date ((s.trade? id).map fun t => (t.listing, t.date))
  | .recordParcel t _ => refuseBackDated s t.listing t.date none
  | .writeTransfer _ body _ => refuseBackDated s body.listing body.date none
  | _ => pure ()

def step (s : Ledger) : Write → Attempt Refusal Ledger
  | .ledger w _ => do
      guardParcel s w
      Attempt.mapError Refusal.ledger (s.step D w)
  | .execute x recount => execute D s x recount

/-- The ledger a sequence of accepted writes reaches. -/
def run (s : Ledger) : List Write → Except Refusal Ledger
  | [] => .ok s
  | w :: ws =>
    match (step D s w).answer with
    | .ok s' => run s' ws
    | .error e => .error e

/-- Whether no write of the sequence rounds in the arithmetic of its checks. -/
def roundsNowhere (s : Ledger) : List Write → Bool
  | [] => true
  | w :: ws =>
    (step D s w).exact &&
      match (step D s w).answer with
      | .ok s' => roundsNowhere s' ws
      | .error _ => true

end ShareTracker.WholeHolding
