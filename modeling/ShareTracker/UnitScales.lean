import ShareTracker.LedgerInvariant
import ShareTracker.Lib.GuardedRun
import ShareTracker.Lib.Keyed

/-!
The unit scale of a holding: its account's, or that of the override for the
pair. A quantity finer than it is refused, and so is a scale below what the
holding already carries.
-/
namespace ShareTracker

/-- Whether a quantity has at most the places a scale allows. -/
def fitsScale (scale : Option ℕ) (quantity : ℚ) : Bool :=
  scale.all fun n => decide ((quantity * 10 ^ n).den = 1)

/-- The decimal places a quantity carries, trailing zeros dropped; 29 where no
`Decimal` holds it. -/
def places (quantity : ℚ) : ℕ :=
  ((List.range 29).find? fun n => decide ((quantity * 10 ^ n).den = 1)).getD 29

/-- `MAX_UNIT_SCALE`. -/
def maxUnitScale : ℕ := 28

structure HoldingUnitScale where
  id : ℤ
  account : HoldingAccountId
  listing : ListingId
  unitScale : Option ℕ
  deriving DecidableEq

def HoldingUnitScale.pair (o : HoldingUnitScale) : HoldingAccountId × ListingId :=
  (o.account, o.listing)

/-- The ledger beside the two tables its holdings' scales are read from. -/
structure Custody where
  ledger : Ledger
  accountScale : HoldingAccountId → Option ℕ
  overrides : List HoldingUnitScale
  ids_unique : (overrides.map HoldingUnitScale.id).Nodup
  pairs_unique : (overrides.map HoldingUnitScale.pair).Nodup

/-- Which stored quantities a scale change must still fit. -/
inductive Holding where
  | account (id : HoldingAccountId)
  | pair (account : HoldingAccountId) (listing : ListingId)

inductive ScaleRefusal where
  | outOfRange (scale : ℕ)
  | belowHeld (scale : ℕ) (finest : ℚ)
  | pairTaken
  | notFound
  | ledger (why : Refusal)
  | notAWrite
  deriving DecidableEq

namespace Custody

def override? (s : Custody) (account : HoldingAccountId) (listing : ListingId) :
    Option HoldingUnitScale := Keyed.get? HoldingUnitScale.pair s.overrides (account, listing)

/-- `db_unit_scale`. -/
def unitScale (s : Custody) (account : HoldingAccountId) (listing : ListingId) : Option ℕ :=
  match s.override? account listing with
  | some o => o.unitScale
  | none => s.accountScale account

/-- The ledger as its writes read it: each holding at its scale. -/
def scaled (s : Custody) : Ledger := { s.ledger with unitScale := s.unitScale }

/-- Whether a scale change of the holding reads a trade's quantity. -/
def governs (s : Custody) : Holding → Trade → Bool
  | .account id, t => t.account = id && (s.override? id t.listing).isNone
  | .pair account listing, t => t.account = account && t.listing = listing

end Custody

/-- The quantities of trades and of allocations drawn on them. -/
def Ledger.quantitiesOf (s : Ledger) (held : Trade → Bool) : List ℚ :=
  (s.trades.filter held).map Trade.quantity ++
    (s.allocations.filter fun a => (s.trade? a.purchase).any held).map fun a => a.quantity.value

/-- The quantity with the most places, the first of equals. -/
def finest : List ℚ → Option ℚ :=
  List.foldl (fun best q => if best.all fun f => decide (places f < places q) then some q else best)
    none

namespace Custody

/-- `db_finest_held`. -/
def finestHeld (s : Custody) (holding : Holding) : Option ℚ :=
  finest (s.ledger.quantitiesOf (s.governs holding))

/-- `check_new_scale`. -/
def checkNewScale (s : Custody) (holding : Holding) : Option ℕ → Except ScaleRefusal Unit
  | none => .ok ()
  | some scale =>
    if maxUnitScale < scale then .error (.outOfRange scale)
    else
      match s.finestHeld holding with
      | none => .ok ()
      | some held => if scale < places held then .error (.belowHeld scale held) else .ok ()

end Custody

/-- A write of the ledger, of an account's scale or of the overrides, with the
counts the recompute it triggers stores. -/
inductive ScaleWrite where
  | ledger (w : Write)
  | writeAccount (account : HoldingAccountId) (scale : Option ℕ) (recount : Recount)
      (touched : List ListingId)
  | writeOverride (row : HoldingUnitScale) (recount : Recount) (touched : List ListingId)
  | deleteOverride (id : ℤ) (recount : Recount) (touched : List ListingId)

/-- The check made on the parcels an operation writes: a stated quantity sits
on its holding's grid, a computed one need not. -/
def Ledger.checkEntered (s : Ledger) : Write → Attempt Refusal Unit
  | .recordParcel t _ => s.checkScale t.provenance t.account t.listing t.quantity
  | .operate _ _ _ replacements _ =>
    replacements.forM fun t => s.checkScale t.provenance t.account t.listing t.quantity
  | _ => pure ()

def Write.setsScale : Write → Bool
  | .setUnitScale .. => true
  | _ => false

variable (D : DecimalRounding)

namespace Custody

/-- A ledger write, against the scales in force. -/
def writeLedger (s : Custody) (w : Write) : Except ScaleRefusal Custody := do
  Checked.refuseIf (w.setsScale = true) .notAWrite
  (s.scaled.checkEntered w).answer.mapError .ledger
  let ledger ← (s.scaled.step D w).answer.mapError .ledger
  .ok { s with ledger := ledger }

/-- Recompute what the scales round, and store the tables. -/
def settle (s : Custody) (recount : Recount) (touched : List ListingId) :
    Except ScaleRefusal Custody := do
  let ledger ← (s.scaled.dbSettle D recount (s.scaled.dirty touched)).answer.mapError .ledger
  .ok { s with ledger := ledger }

def setAccountScale (s : Custody) (account : HoldingAccountId) (scale : Option ℕ) : Custody :=
  { s with accountScale := Function.update s.accountScale account scale }

/-- `PUT /holding_accounts/:id`; a create is the same write at an id that holds nothing. -/
def writeAccount (s : Custody) (account : HoldingAccountId) (scale : Option ℕ) (recount : Recount)
    (touched : List ListingId) : Except ScaleRefusal Custody := do
  s.checkNewScale (.account account) scale
  (s.setAccountScale account scale).settle D recount touched

/-- The overrides with the row put at its id, where no other holds its pair. -/
def putOverride (s : Custody) (row : HoldingUnitScale) : Except ScaleRefusal Custody :=
  if h : row.pair ∈ (s.overrides.filter fun o => o.id ≠ row.id).map HoldingUnitScale.pair then
    .error .pairTaken
  else
    .ok { s with
      overrides := Keyed.put HoldingUnitScale.id s.overrides row
      ids_unique := Keyed.nodup_put s.ids_unique row
      pairs_unique := by
        rw [Keyed.put, List.map_append, List.nodup_append]
        refine ⟨Keyed.nodup_filter s.pairs_unique _, List.nodup_singleton _, ?_⟩
        intro p hp q hq heq
        obtain rfl : q = row.pair := List.mem_singleton.mp hq
        exact h (heq ▸ hp) }

/-- `PUT /holding_unit_scales/:id`; a create is the same write at an id no row holds. -/
def writeOverride (s : Custody) (row : HoldingUnitScale) (recount : Recount)
    (touched : List ListingId) : Except ScaleRefusal Custody := do
  s.checkNewScale (.pair row.account row.listing) row.unitScale
  let s ← s.putOverride row
  s.settle D recount touched

def dropOverride (s : Custody) (id : ℤ) : Custody :=
  { s with
    overrides := s.overrides.filter fun o => o.id ≠ id
    ids_unique := Keyed.nodup_filter s.ids_unique _
    pairs_unique := Keyed.nodup_filter s.pairs_unique _ }

/-- `DELETE /holding_unit_scales/:id`: nothing is checked against the account's scale. -/
def deleteOverride (s : Custody) (id : ℤ) (recount : Recount) (touched : List ListingId) :
    Except ScaleRefusal Custody := do
  Checked.refuseIf (s.overrides.all fun o => o.id ≠ id) .notFound
  (s.dropOverride id).settle D recount touched

def step (s : Custody) : ScaleWrite → Except ScaleRefusal Custody
  | .ledger w => s.writeLedger D w
  | .writeAccount account scale recount touched => s.writeAccount D account scale recount touched
  | .writeOverride row recount touched => s.writeOverride D row recount touched
  | .deleteOverride id recount touched => s.deleteOverride D id recount touched

def empty : Custody := ⟨Ledger.empty, fun _ => none, [], List.nodup_nil, List.nodup_nil⟩

end Custody

/-- The quantities stated for a pair: of its trades, and of its own Sells'
allocations on its parcels. -/
def Ledger.statedQuantities (s : Ledger) (account : HoldingAccountId) (listing : ListingId) :
    List ℚ :=
  ((s.trades.filter fun t => t.account = account && t.listing = listing &&
      Provenance.stated t.provenance).map Trade.quantity) ++
    (s.allocations.filter fun a => (s.trade? a.purchase).any (fun p => p.account = account &&
        p.listing = listing) && (s.trade? a.sale).any fun t => Provenance.stated t.provenance).map
      fun a => a.quantity.value

namespace Custody

/-- Whether what is stated for a pair fits its account's own scale. -/
def fitsAccount (s : Custody) (o : HoldingUnitScale) : Bool :=
  (s.ledger.statedQuantities o.account o.listing).all (fitsScale (s.accountScale o.account))

/-- Whether a write takes an override off no pair but one that fits the
account's scale it falls back to. -/
def keepsPairs (s : Custody) : ScaleWrite → Bool
  | .deleteOverride id _ _ => s.overrides.all fun o => o.id ≠ id || s.fitsAccount o
  | .writeOverride row _ _ =>
    s.overrides.all fun o => o.id ≠ row.id || o.pair = row.pair || s.fitsAccount o
  | _ => true

end Custody

/-! ### Places and scales -/

theorem fitsScale_mono {quantity : ℚ} {m n : ℕ} (hmn : m ≤ n)
    (h : (quantity * 10 ^ m).den = 1) : (quantity * 10 ^ n).den = 1 := by
  have hwhole := (Rat.den_eq_one_iff _).mp h
  have hsplit : quantity * 10 ^ n = ((quantity * 10 ^ m).num * 10 ^ (n - m) : ℤ) := by
    push_cast
    rw [hwhole, mul_assoc, ← pow_add, Nat.add_sub_cancel' hmn]
  rw [hsplit]
  exact Rat.den_intCast _

theorem fits_of_places {quantity : ℚ} {n : ℕ} (hn : n ≤ maxUnitScale) (h : places quantity ≤ n) :
    (quantity * 10 ^ n).den = 1 := by
  unfold places at h
  cases hfind : (List.range 29).find? fun m => decide ((quantity * 10 ^ m).den = 1) with
  | none =>
    rw [hfind, Option.getD_none] at h
    unfold maxUnitScale at hn
    omega
  | some m =>
    rw [hfind, Option.getD_some] at h
    have hm := List.find?_some hfind
    exact fitsScale_mono h (of_decide_eq_true hm)

theorem finest_from (qs : List ℚ) (best : Option ℚ) :
    (∀ f ∈ best, ∃ g, qs.foldl (fun best q =>
        if best.all fun f => decide (places f < places q) then some q else best) best = some g ∧
      places f ≤ places g) ∧
    ∀ q ∈ qs, ∃ g, qs.foldl (fun best q =>
        if best.all fun f => decide (places f < places q) then some q else best) best = some g ∧
      places q ≤ places g := by
  induction qs generalizing best with
  | nil => exact ⟨fun f hf => ⟨f, hf, le_rfl⟩, fun q hq => absurd hq List.not_mem_nil⟩
  | cons q qs ih =>
    simp only [List.foldl_cons]
    split
    · rename_i hfiner
      obtain ⟨hbest, hrest⟩ := ih (some q)
      refine ⟨fun f hf => ?_, fun r hr => ?_⟩
      · obtain ⟨g, hg, hle⟩ := hbest q rfl
        have hlt : places f < places q := by
          obtain rfl : best = some f := hf
          simpa using hfiner
        exact ⟨g, hg, hlt.le.trans hle⟩
      · rcases List.mem_cons.mp hr with rfl | hr
        · exact hbest r rfl
        · exact hrest r hr
    · rename_i hcoarser
      obtain ⟨hbest, hrest⟩ := ih best
      refine ⟨hbest, fun r hr => ?_⟩
      rcases List.mem_cons.mp hr with rfl | hr
      · cases best with
        | none => exact absurd rfl hcoarser
        | some f =>
          obtain ⟨g, hg, hle⟩ := hbest f rfl
          have hge : places r ≤ places f := by simpa using hcoarser
          exact ⟨g, hg, hge.trans hle⟩
      · exact hrest r hr

/-- No quantity of a list has more places than the finest. -/
theorem finest_places {qs : List ℚ} {q : ℚ} (hq : q ∈ qs) :
    ∃ f, finest qs = some f ∧ places q ≤ places f := (finest_from qs none).2 q hq

namespace Ledger

theorem tooFine_eq_none {s : Ledger} {account : HoldingAccountId} {listing : ListingId}
    {quantity : ℚ} :
    s.tooFine account listing quantity = none ↔
      fitsScale (s.unitScale account listing) quantity = true := by
  unfold tooFine fitsScale
  cases s.unitScale account listing with
  | none => simp
  | some n => simp [Option.filter]

theorem refuseTooFine_answer {s : Ledger} {account : HoldingAccountId} {listing : ListingId}
    {quantity : ℚ} {u : Unit} (h : (s.refuseTooFine account listing quantity).answer = .ok u) :
    fitsScale (s.unitScale account listing) quantity = true := by
  unfold refuseTooFine at h
  cases hfine : s.tooFine account listing quantity with
  | none => exact tooFine_eq_none.mp hfine
  | some n =>
    rw [hfine] at h
    cases h

theorem checkScale_answer {s : Ledger} {provenance : Option Provenance}
    {account : HoldingAccountId} {listing : ListingId} {quantity : ℚ} {u : Unit}
    (h : (s.checkScale provenance account listing quantity).answer = .ok u)
    (hstated : Provenance.stated provenance = true) :
    fitsScale (s.unitScale account listing) quantity = true := by
  rw [checkScale, if_pos hstated] at h
  exact refuseTooFine_answer h

/-! ### Rows on their holdings' grids -/

/-- An allocation of a Sell on a Buy or DRP, on the parcel's grid where the
Sell's quantities are stated. -/
def DrawnOnGrid (scale : HoldingAccountId → ListingId → Option ℕ) (s : Ledger)
    (a : ParcelAllocation) : Prop :=
  ∃ sale parcel, s.trade? a.sale = some sale ∧ sale.tradeType = .sell ∧
    s.trade? a.purchase = some parcel ∧ parcel.tradeType.isAcquisition = true ∧
    (Provenance.stated sale.provenance = true →
      fitsScale (scale parcel.account parcel.listing) a.quantity.value = true)

/-- Every stated quantity of the ledger is on its holding's grid. -/
structure OnGrid (scale : HoldingAccountId → ListingId → Option ℕ) (s : Ledger) : Prop where
  scales : s.unitScale = scale
  stated : ∀ t ∈ s.trades, Provenance.stated t.provenance = true →
    fitsScale (scale t.account t.listing) t.quantity = true
  drawn : ∀ a ∈ s.allocations, s.DrawnOnGrid scale a

section Steps
variable {D} {scale : HoldingAccountId → ListingId → Option ℕ} {s s' : Ledger}

theorem OnGrid.congr (h : s.OnGrid scale) (htrades : s'.trades = s.trades)
    (hallocations : s'.allocations = s.allocations) (hscale : s'.unitScale = s.unitScale) :
    s'.OnGrid scale where
  scales := hscale.trans h.scales
  stated := htrades ▸ h.stated
  drawn := by
    have hfind : ∀ id, s'.trade? id = s.trade? id := fun id => by rw [trade?, htrades, trade?]
    intro a ha
    obtain ⟨sale, parcel, hsale, hsell, hparcel, hrest⟩ := h.drawn a (hallocations ▸ ha)
    exact ⟨sale, parcel, (hfind _).trans hsale, hsell, (hfind _).trans hparcel, hrest⟩

theorem OnGrid.dbSettle {recount : Recount} {dirty : List ListingId} (h : s.OnGrid scale)
    (hok : (s.dbSettle D recount dirty).answer = .ok s') : s'.OnGrid scale := by
  refine Attempt.answer_foldlM (fun m hm listing _ m' hm' => ?_) h hok
  unfold settleListing at hm'
  obtain ⟨_, -, hm'⟩ := answer_bind.mp hm'
  obtain rfl := answer_pure.mp hm'
  exact hm.congr rfl rfl rfl

theorem OnGrid.allocate {id : TradeId} {body : SellBody} {provenance : Option Provenance}
    {alloc : AllocationInput} {sale : Trade} (h : s.OnGrid scale)
    (hsale : s.trade? id = some sale) (hsell : sale.tradeType = .sell)
    (hprovenance : sale.provenance = provenance)
    (hok : (s.allocate D id body provenance alloc).answer = .ok s') :
    s'.OnGrid scale ∧ s'.trade? id = some sale := by
  unfold Ledger.allocate at hok
  obtain ⟨parcel, hparcel, hok⟩ := answer_bind.mp hok
  obtain ⟨_, hacq, hok⟩ := answer_bind.mp hok
  obtain ⟨_, -, hok⟩ := answer_bind.mp hok
  obtain ⟨_, -, hok⟩ := answer_bind.mp hok
  obtain ⟨_, -, hok⟩ := answer_bind.mp hok
  obtain ⟨_, hscale, hok⟩ := answer_bind.mp hok
  obtain ⟨_, -, hok⟩ := answer_bind.mp hok
  obtain ⟨_, -, hok⟩ := answer_bind.mp hok
  obtain rfl := answer_pure.mp hok
  refine ⟨⟨h.scales, h.stated, fun a ha => ?_⟩, hsale⟩
  rcases List.mem_append.mp ha with ha | ha
  · exact h.drawn a ha
  · obtain rfl := List.mem_singleton.mp ha
    refine ⟨sale, parcel, hsale, hsell, Attempt.answer_orRefuse.mp hparcel, ?_, fun hstated => ?_⟩
    · simpa using Attempt.answer_refuseIf.mp hacq
    · rw [← h.scales]
      exact checkScale_answer hscale (hprovenance ▸ hstated)

/-- The Sell core, where its id holds a Sell or nothing. -/
theorem OnGrid.upsertSellInTx {id : TradeId} {provenance : Option Provenance} {body : SellBody}
    (h : s.OnGrid scale) (hstored : ∀ u, s.trade? id = some u → u.tradeType = .sell)
    (hok : (s.upsertSellInTx D id provenance body).answer = .ok s') : s'.OnGrid scale := by
  unfold Ledger.upsertSellInTx at hok
  obtain ⟨_, -, hok⟩ := answer_bind.mp hok
  obtain ⟨total, -, hok⟩ := answer_bind.mp hok
  obtain ⟨_, -, hok⟩ := answer_bind.mp hok
  obtain ⟨_, -, hok⟩ := answer_bind.mp hok
  obtain ⟨_, hscale, hok⟩ := answer_bind.mp hok
  have hself : (s.putTrade (body.row id provenance)).trade? id = some (body.row id provenance) :=
    trade?_putTrade_self s (body.row id provenance)
  have hput : ((s.putTrade (body.row id provenance)).dropAllocations id).OnGrid scale := by
    refine ⟨h.scales, fun t ht hstated => ?_, fun a ha => ?_⟩
    · rcases List.mem_append.mp ht with ht | ht
      · exact h.stated t (List.mem_filter.mp ht).1 hstated
      · obtain rfl := List.mem_singleton.mp ht
        rw [← h.scales]
        exact checkScale_answer hscale hstated
    · obtain ⟨hmem, hother⟩ := List.mem_filter.mp ha
      obtain ⟨sale, parcel, hsale, hsell, hparcel, hacq, hfits⟩ := h.drawn a hmem
      have hpurchase : a.purchase ≠ id := by
        rintro rfl
        rw [hstored parcel hparcel] at hacq
        cases hacq
      exact ⟨sale, parcel, (trade?_putTrade_ne s (of_decide_eq_true hother)).trans hsale, hsell,
        (trade?_putTrade_ne s hpurchase).trans hparcel, hacq, hfits⟩
  have hkeeps : ∀ m : Ledger, m.OnGrid scale ∧ m.trade? id = some (body.row id provenance) →
      ∀ a ∈ body.allocations, ∀ m', (m.allocate D id body provenance a).answer = .ok m' →
        m'.OnGrid scale ∧ m'.trade? id = some (body.row id provenance) :=
    fun m hm a _ m' hm' => hm.1.allocate hm.2 rfl rfl hm'
  exact (Attempt.answer_foldlM hkeeps ⟨hput, hself⟩ hok).1

theorem OnGrid.insertSell {id : TradeId} {provenance : Option Provenance} {body : SellBody}
    (h : s.OnGrid scale) (hok : (s.insertSell D id provenance body).answer = .ok s') :
    s'.OnGrid scale := by
  unfold Ledger.insertSell at hok
  obtain ⟨_, hfresh, hok⟩ := answer_bind.mp hok
  have hfresh : s.trade? id = none := by simpa using Attempt.answer_refuseIf.mp hfresh
  refine h.upsertSellInTx (fun t ht => ?_) hok
  rw [hfresh] at ht
  cases ht

theorem OnGrid.remove {gone : TradeId → Bool} (h : s.OnGrid scale)
    (hok : (s.remove gone).answer = .ok s') : s'.OnGrid scale := by
  unfold Ledger.remove at hok
  obtain ⟨_, hkept, hok⟩ := answer_bind.mp hok
  have hkept := Attempt.answer_refuseIf.mp hkept
  obtain rfl := answer_pure.mp hok
  refine ⟨h.scales, fun t ht => h.stated t (List.mem_filter.mp ht).1, fun a ha => ?_⟩
  have hsale : gone a.sale = false := by simpa using (List.mem_filter.mp ha).2
  have hpurchase : gone a.purchase = false := by
    by_contra hp
    exact hkept ⟨a, ha, by simpa using hp⟩
  obtain ⟨sale, parcel, hs, hsell, hp, hrest⟩ := h.drawn a (List.mem_filter.mp ha).1
  have hfind : ∀ id, gone id = false →
      (s.trades.filter fun t => !gone t.id).find? (fun t => t.id = id) = s.trade? id :=
    fun id hid => find?_filter_keep (fun i => !gone i) (by simp [hid])
  exact ⟨sale, parcel, (hfind _ hsale).trans hs, hsell, (hfind _ hpurchase).trans hp, hrest⟩

theorem OnGrid.recordParcel {t : Trade} (h : s.OnGrid scale)
    (hfits : Provenance.stated t.provenance = true →
      fitsScale (scale t.account t.listing) t.quantity = true)
    (hok : (s.recordParcel t).answer = .ok s') : s'.OnGrid scale := by
  unfold Ledger.recordParcel Ledger.insertTrade at hok
  obtain ⟨_, -, hok⟩ := answer_bind.mp hok
  obtain ⟨_, -, hok⟩ := answer_bind.mp hok
  obtain ⟨_, hfresh, hok⟩ := answer_bind.mp hok
  obtain rfl := answer_pure.mp hok
  have hfind : ∀ id u, s.trade? id = some u →
      (s.trades ++ [t]).find? (fun v => v.id = id) = some u := by
    intro id u hu
    rw [List.find?_append]
    exact Option.or_of_isSome (Option.isSome_of_eq_some hu) |>.trans hu
  refine ⟨h.scales, fun u hu hstated => ?_, fun a ha => ?_⟩
  · rcases List.mem_append.mp hu with hu | hu
    · exact h.stated u hu hstated
    · obtain rfl := List.mem_singleton.mp hu
      exact hfits hstated
  · obtain ⟨sale, parcel, hs, hsell, hp, hrest⟩ := h.drawn a ha
    exact ⟨sale, parcel, hfind _ _ hs, hsell, hfind _ _ hp, hrest⟩

theorem OnGrid.recordParcels {ts : List Trade} (h : s.OnGrid scale)
    (hfits : ∀ t ∈ ts, Provenance.stated t.provenance = true →
      fitsScale (scale t.account t.listing) t.quantity = true)
    (hok : (s.recordParcels ts).answer = .ok s') : s'.OnGrid scale :=
  Attempt.answer_foldlM (fun _ hm t ht _ hm' => hm.recordParcel (hfits t ht) hm') h hok

/-- A Buy rewritten: where it is drawn on, its holding stays. -/
theorem OnGrid.writeTrade {id : TradeId} {body : TradeBody} {recount : Recount}
    (h : s.OnGrid scale) (hok : (s.writeTrade D id body recount).answer = .ok s') :
    s'.OnGrid scale := by
  unfold Ledger.writeTrade at hok
  obtain ⟨_, -, hok⟩ := answer_bind.mp hok
  obtain ⟨_, hedit, hok⟩ := answer_bind.mp hok
  obtain ⟨covered, -, hok⟩ := answer_bind.mp hok
  obtain ⟨_, -, hok⟩ := answer_bind.mp hok
  obtain ⟨_, hscale, hok⟩ := answer_bind.mp hok
  have hstored : ∀ t, s.trade? id = some t → t.tradeType = .buy ∧
      (s.drawnOn t.id = true → t.listing = body.listing ∧ t.account = body.account) := by
    intro t ht
    have hcheck := Attempt.answer_forM hedit t (by simp [ht])
    unfold checkEdit at hcheck
    obtain ⟨_, -, hcheck⟩ := answer_bind.mp hcheck
    obtain ⟨_, hbuy, hcheck⟩ := answer_bind.mp hcheck
    obtain ⟨_, hlisting, hcheck⟩ := answer_bind.mp hcheck
    obtain ⟨_, haccount, -⟩ := answer_bind.mp hcheck
    refine ⟨not_not.mp (Attempt.answer_refuseIf.mp hbuy), fun hdrawn => ⟨?_, ?_⟩⟩
    · by_contra hne
      exact Attempt.answer_refuseIf.mp hlisting ⟨hne, hdrawn⟩
    · by_contra hne
      exact Attempt.answer_refuseIf.mp haccount ⟨hne, hdrawn⟩
  refine OnGrid.dbSettle ?_ hok
  refine ⟨h.scales, fun t ht hstated => ?_, fun a ha => ?_⟩
  · rcases List.mem_append.mp ht with ht | ht
    · exact h.stated t (List.mem_filter.mp ht).1 hstated
    · obtain rfl := List.mem_singleton.mp ht
      rw [← h.scales]
      exact refuseTooFine_answer hscale
  · obtain ⟨sale, parcel, hs, hsell, hp, hacq, hfits⟩ := h.drawn a ha
    have hsale : a.sale ≠ id := by
      rintro rfl
      rw [(hstored sale hs).1] at hsell
      cases hsell
    by_cases hpurchase : a.purchase = id
    · have hparcel := hpurchase ▸ hp
      have hdrawn : s.drawnOn parcel.id = true := by
        rw [trade?_id hparcel]
        exact List.any_eq_true.mpr ⟨a, ha, decide_eq_true hpurchase⟩
      obtain ⟨hlisting, haccount⟩ := (hstored parcel hparcel).2 hdrawn
      refine ⟨sale, ⟨id, .buy, body.date, body.listing, body.account, body.quantity, none⟩,
        (trade?_putTrade_ne s hsale).trans hs, hsell, ?_, rfl, ?_⟩
      · rw [hpurchase]
        exact trade?_putTrade_self s _
      · rw [← hlisting, ← haccount]
        exact hfits
    · exact ⟨sale, parcel, (trade?_putTrade_ne s hsale).trans hs, hsell,
        (trade?_putTrade_ne s hpurchase).trans hp, hacq, hfits⟩

theorem OnGrid.writeFeeSale {body : TransferBody} {ids : TransferIds} (h : s.OnGrid scale)
    (hok : (s.writeFeeSale D body ids).answer = .ok s') : s'.OnGrid scale := by
  unfold Ledger.writeFeeSale at hok
  split at hok
  · obtain rfl := answer_pure.mp hok
    exact h.congr rfl rfl rfl
  · obtain ⟨_, -, hok⟩ := answer_bind.mp hok
    obtain ⟨feeBody, -, hok⟩ := answer_bind.mp hok
    obtain ⟨mid, hmid, hok⟩ := answer_bind.mp hok
    obtain rfl := answer_pure.mp hok
    exact (h.insertSell hmid).congr rfl rfl rfl

theorem OnGrid.writeTransfer {ids : TransferIds} {body : TransferBody} {recount : Recount}
    (h : s.OnGrid scale) (hok : (s.writeTransfer D ids body recount).answer = .ok s') :
    s'.OnGrid scale := by
  unfold Ledger.writeTransfer at hok
  obtain ⟨_, -, hok⟩ := answer_bind.mp hok
  obtain ⟨_, -, hok⟩ := answer_bind.mp hok
  obtain ⟨_, -, hok⟩ := answer_bind.mp hok
  obtain ⟨_, -, hok⟩ := answer_bind.mp hok
  obtain ⟨sellBody, -, hok⟩ := answer_bind.mp hok
  obtain ⟨closed, hclosed, hok⟩ := answer_bind.mp hok
  obtain ⟨moved, hmoved, hok⟩ := answer_bind.mp hok
  obtain ⟨paid, hpaid, hok⟩ := answer_bind.mp hok
  have hin : moved.OnGrid scale := by
    refine Attempt.answer_foldlM (fun m hm a _ m' hm' => ?_) (h.insertSell hclosed) hmoved
    unfold Ledger.writeTransferIn at hm'
    obtain ⟨_, hscale, hm'⟩ := answer_bind.mp hm'
    refine hm.recordParcel (fun _ => ?_) hm'
    rw [← hm.scales]
    exact refuseTooFine_answer hscale
  exact (hin.writeFeeSale hpaid).dbSettle hok

/-- Every ledger write, once the parcels it enters are checked. -/
theorem OnGrid.step {w : Write} {u : Unit} (h : s.OnGrid scale) (hscale : w.setsScale = false)
    (hentered : (s.checkEntered w).answer = .ok u) (hok : (s.step D w).answer = .ok s') :
    s'.OnGrid scale := by
  cases w with
  | setUnitScale => cases hscale
  | writeSell id body recount =>
    unfold Ledger.step Ledger.writeSell at hok
    obtain ⟨_, hedit, hok⟩ := answer_bind.mp hok
    obtain ⟨mid, hmid, hok⟩ := answer_bind.mp hok
    refine (h.upsertSellInTx (fun t ht => ?_) hmid).dbSettle hok
    have hcheck := Attempt.answer_forM hedit t (by simp [ht])
    unfold checkSellEdit at hcheck
    obtain ⟨_, hsell, -⟩ := answer_bind.mp hcheck
    exact not_not.mp (Attempt.answer_refuseIf.mp hsell)
  | deleteSell id recount =>
    unfold Ledger.step Ledger.deleteSell at hok
    obtain ⟨t, -, hok⟩ := answer_bind.mp hok
    obtain ⟨_, -, hok⟩ := answer_bind.mp hok
    obtain ⟨_, -, hok⟩ := answer_bind.mp hok
    obtain ⟨_, -, hok⟩ := answer_bind.mp hok
    obtain ⟨mid, hmid, hok⟩ := answer_bind.mp hok
    exact (h.remove hmid).dbSettle hok
  | writeTrade id body recount => exact h.writeTrade hok
  | recordParcel t recount =>
    obtain ⟨mid, hmid, hok⟩ := answer_bind.mp hok
    refine (h.recordParcel (fun hstated => ?_) hmid).dbSettle hok
    rw [← h.scales]
    exact checkScale_answer hentered hstated
  | deleteTrade id recount =>
    unfold Ledger.step Ledger.deleteTrade at hok
    obtain ⟨t, -, hok⟩ := answer_bind.mp hok
    obtain ⟨_, -, hok⟩ := answer_bind.mp hok
    obtain ⟨_, -, hok⟩ := answer_bind.mp hok
    obtain ⟨mid, hmid, hok⟩ := answer_bind.mp hok
    exact (h.remove hmid).dbSettle hok
  | writeTransfer ids body recount => exact h.writeTransfer hok
  | deleteTransfer id recount =>
    unfold Ledger.step Ledger.deleteTransfer at hok
    obtain ⟨t, -, hok⟩ := answer_bind.mp hok
    obtain ⟨_, -, hok⟩ := answer_bind.mp hok
    obtain ⟨mid, hmid, hok⟩ := answer_bind.mp hok
    refine OnGrid.dbSettle ?_ hok
    exact (h.remove hmid).congr rfl rfl rfl
  | operate id provenance body replacements recount =>
    unfold Ledger.step Ledger.operate at hok
    obtain ⟨closed, hclosed, hok⟩ := answer_bind.mp hok
    obtain ⟨replaced, hreplaced, hok⟩ := answer_bind.mp hok
    refine ((h.insertSell hclosed).recordParcels (fun t ht hstated => ?_) hreplaced).dbSettle hok
    rw [← h.scales]
    exact checkScale_answer (Attempt.answer_forM hentered t ht) hstated
  | writeAction action changed recount =>
    unfold Ledger.step Ledger.writeAction at hok
    obtain ⟨_, -, hok⟩ := answer_bind.mp hok
    obtain ⟨mid, hmid, hok⟩ := answer_bind.mp hok
    obtain ⟨_, -, hok⟩ := answer_bind.mp hok
    obtain rfl := answer_pure.mp hok
    refine OnGrid.dbSettle ?_ hmid
    exact h.congr rfl rfl rfl
  | deleteAction id recount =>
    unfold Ledger.step Ledger.deleteAction at hok
    obtain ⟨action, -, hok⟩ := answer_bind.mp hok
    obtain ⟨_, -, hok⟩ := answer_bind.mp hok
    obtain ⟨_, -, hok⟩ := answer_bind.mp hok
    refine OnGrid.dbSettle ?_ hok
    exact h.congr rfl rfl rfl

end Steps

end Ledger

/-! ### A holding's quantities under another scale -/

namespace Ledger

variable {scale scale' : HoldingAccountId → ListingId → Option ℕ} {s : Ledger}

theorem OnGrid.fits (h : s.OnGrid scale) {account : HoldingAccountId} {listing : ListingId} {q : ℚ}
    (hq : q ∈ s.statedQuantities account listing) : fitsScale (scale account listing) q = true := by
  rcases List.mem_append.mp hq with hq | hq
  · obtain ⟨t, ht, rfl⟩ := List.mem_map.mp hq
    obtain ⟨hmem, hpair⟩ := List.mem_filter.mp ht
    simp only [Bool.and_eq_true, decide_eq_true_eq] at hpair
    obtain ⟨⟨rfl, rfl⟩, hstated⟩ := hpair
    exact h.stated t hmem hstated
  · obtain ⟨a, ha, rfl⟩ := List.mem_map.mp hq
    obtain ⟨hmem, hpair⟩ := List.mem_filter.mp ha
    obtain ⟨sale, parcel, hsale, -, hparcel, -, hfits⟩ := h.drawn a hmem
    rw [hsale, hparcel] at hpair
    simp only [Option.any_some, Bool.and_eq_true, decide_eq_true_eq] at hpair
    obtain ⟨⟨rfl, rfl⟩, hstated⟩ := hpair
    exact hfits hstated

/-- The rows keep their grid under another scale where every pair's stated
quantities fit it. -/
theorem OnGrid.rescale (h : s.OnGrid scale)
    (hfits : ∀ account listing, ∀ q ∈ s.statedQuantities account listing,
      fitsScale (scale' account listing) q = true) :
    ({ s with unitScale := scale' } : Ledger).OnGrid scale' where
  scales := rfl
  stated := by
    intro t ht hstated
    refine hfits t.account t.listing t.quantity (List.mem_append_left _ ?_)
    exact List.mem_map.mpr ⟨t, List.mem_filter.mpr ⟨ht, by simp [hstated]⟩, rfl⟩
  drawn := by
    intro a ha
    obtain ⟨sale, parcel, hsale, hsell, hparcel, hacq, -⟩ := h.drawn a ha
    refine ⟨sale, parcel, hsale, hsell, hparcel, hacq, fun hstated => ?_⟩
    refine hfits parcel.account parcel.listing _ (List.mem_append_right _ ?_)
    exact List.mem_map.mpr ⟨a, List.mem_filter.mpr ⟨ha, by simp [hsale, hparcel, hstated]⟩, rfl⟩

/-- What is stated for a pair is among the quantities of any holding that
governs every trade of the pair. -/
theorem statedQuantities_subset {account : HoldingAccountId} {listing : ListingId}
    {held : Trade → Bool}
    (hheld : ∀ t : Trade, t.account = account → t.listing = listing → held t = true) {q : ℚ}
    (hq : q ∈ s.statedQuantities account listing) : q ∈ s.quantitiesOf held := by
  rcases List.mem_append.mp hq with hq | hq
  · obtain ⟨t, ht, rfl⟩ := List.mem_map.mp hq
    obtain ⟨hmem, hpair⟩ := List.mem_filter.mp ht
    simp only [Bool.and_eq_true, decide_eq_true_eq] at hpair
    exact List.mem_append_left _ (List.mem_map.mpr
      ⟨t, List.mem_filter.mpr ⟨hmem, hheld t hpair.1.1 hpair.1.2⟩, rfl⟩)
  · obtain ⟨a, ha, rfl⟩ := List.mem_map.mp hq
    obtain ⟨hmem, hpair⟩ := List.mem_filter.mp ha
    refine List.mem_append_right _ (List.mem_map.mpr ⟨a, List.mem_filter.mpr ⟨hmem, ?_⟩, rfl⟩)
    cases hparcel : s.trade? a.purchase with
    | none => simp [hparcel] at hpair
    | some parcel =>
      simp only [hparcel, Option.any_some, Bool.and_eq_true, decide_eq_true_eq] at hpair
      exact hheld parcel hpair.1.1 hpair.1.2

end Ledger

namespace Custody

variable {D} {s s' : Custody}

/-- A new scale that is accepted fits all the holding carries. -/
theorem checkNewScale_ok {holding : Holding} {scale : Option ℕ} {u : Unit}
    (h : s.checkNewScale holding scale = .ok u) {q : ℚ}
    (hq : q ∈ s.ledger.quantitiesOf (s.governs holding)) : fitsScale scale q = true := by
  cases scale with
  | none => rfl
  | some n =>
    obtain ⟨held, hheld, hle⟩ := finest_places hq
    have hfound : s.finestHeld holding = some held := hheld
    simp only [checkNewScale, hfound] at h
    split at h
    · cases h
    · rename_i hmax
      split at h
      · cases h
      · rename_i hplaces
        exact decide_eq_true (fits_of_places (not_lt.mp hmax) (hle.trans (not_lt.mp hplaces)))

/-- Every stated quantity is on the grid `db_unit_scale` gives its holding. -/
def Fits (s : Custody) : Prop := s.scaled.OnGrid s.unitScale

theorem Fits.settle {recount : Recount} {touched : List ListingId} (h : s.Fits)
    (hok : s.settle D recount touched = .ok s') : s'.Fits := by
  obtain ⟨ledger, hledger, hs⟩ := bind_ok hok
  obtain rfl := Except.ok.inj hs
  exact (h.dbSettle (Checked.mapError_ok.mp hledger)).congr rfl rfl
    (h.dbSettle (Checked.mapError_ok.mp hledger)).scales.symm

theorem Fits.writeLedger {w : Write} (h : s.Fits) (hok : s.writeLedger D w = .ok s') :
    s'.Fits := by
  obtain ⟨_, hscale, hok⟩ := bind_ok hok
  obtain ⟨_, hentered, hok⟩ := bind_ok hok
  obtain ⟨ledger, hledger, hs⟩ := bind_ok hok
  obtain rfl := Except.ok.inj hs
  have hstep := h.step (Bool.eq_false_iff.mpr (Checked.refuseIf_ok.mp hscale))
    (Checked.mapError_ok.mp hentered) (Checked.mapError_ok.mp hledger)
  exact hstep.congr rfl rfl hstep.scales.symm

/-- The same ledger under tables whose scales fit what is stated for each pair. -/
theorem Fits.rescale (h : s.Fits) (hledger : s'.ledger = s.ledger)
    (hfits : ∀ account listing, ∀ q ∈ s.ledger.statedQuantities account listing,
      fitsScale (s'.unitScale account listing) q = true) : s'.Fits := by
  have hgrid : ({ s.scaled with unitScale := s'.unitScale } : Ledger).OnGrid s'.unitScale :=
    Ledger.OnGrid.rescale h hfits
  unfold Fits scaled
  rw [hledger]
  exact hgrid

theorem Fits.stated (h : s.Fits) {account : HoldingAccountId} {listing : ListingId} {q : ℚ}
    (hq : q ∈ s.ledger.statedQuantities account listing) :
    fitsScale (s.unitScale account listing) q = true := Ledger.OnGrid.fits h hq

theorem unitScale_of_override {o : HoldingUnitScale} (ho : o ∈ s.overrides) :
    s.unitScale o.account o.listing = o.unitScale := by
  have hget : s.override? o.account o.listing = some o :=
    (Keyed.get?_eq_some s.pairs_unique).mpr ⟨ho, rfl⟩
  rw [unitScale, hget]

theorem unitScale_none {account : HoldingAccountId} {listing : ListingId}
    (h : ∀ o ∈ s.overrides, o.pair ≠ (account, listing)) :
    s.unitScale account listing = s.accountScale account := by
  have hget : s.override? account listing = none :=
    List.find?_eq_none.mpr fun o ho => by simpa using h o ho
  rw [unitScale, hget]

/-- The override of a pair, or none of any. -/
theorem override_or_none (s : Custody) (account : HoldingAccountId) (listing : ListingId) :
    (∃ o ∈ s.overrides, o.account = account ∧ o.listing = listing) ∨
      ∀ o ∈ s.overrides, o.pair ≠ (account, listing) := by
  by_cases h : ∃ o ∈ s.overrides, o.pair = (account, listing)
  · obtain ⟨o, ho, hpair⟩ := h
    exact Or.inl ⟨o, ho, congrArg Prod.fst hpair, congrArg Prod.snd hpair⟩
  · exact Or.inr fun o ho hpair => h ⟨o, ho, hpair⟩

theorem Fits.writeAccount {account : HoldingAccountId} {scale : Option ℕ} {recount : Recount}
    {touched : List ListingId} (h : s.Fits)
    (hok : s.writeAccount D account scale recount touched = .ok s') : s'.Fits := by
  obtain ⟨_, hcheck, hok⟩ := bind_ok hok
  refine Fits.settle ?_ hok
  refine Fits.rescale h rfl fun a l q hq => ?_
  rcases s.override_or_none a l with ⟨o, ho, rfl, rfl⟩ | hnone
  · -- an overridden pair keeps its own scale
    rw [unitScale_of_override (s := s.setAccountScale account scale) ho,
      ← unitScale_of_override ho]
    exact h.stated hq
  · rw [unitScale_none (s := s.setAccountScale account scale) hnone]
    by_cases ha : a = account
    · subst ha
      simp only [setAccountScale, Function.update_self]
      refine checkNewScale_ok hcheck (Ledger.statedQuantities_subset (fun t hacc hlist => ?_) hq)
      have hfree : s.override? a t.listing = none :=
        List.find?_eq_none.mpr fun o ho => by simpa [hlist] using hnone o ho
      simp [governs, hacc, hfree]
    · simp only [setAccountScale, Function.update_of_ne ha]
      rw [← unitScale_none hnone]
      exact h.stated hq

/-- A pair an override is taken off falls back to its account's scale. -/
theorem fits_fallback {o : HoldingUnitScale} (hfits : s.fitsAccount o = true) {q : ℚ} (hq : q ∈ s.ledger.statedQuantities o.account o.listing) :
    fitsScale (s.accountScale o.account) q = true := List.all_eq_true.mp hfits q hq

theorem putOverride_ok {row : HoldingUnitScale} (hok : s.putOverride row = .ok s') :
    s'.ledger = s.ledger ∧ s'.accountScale = s.accountScale ∧
      s'.overrides = Keyed.put HoldingUnitScale.id s.overrides row := by
  unfold putOverride at hok
  split at hok
  · cases hok
  · obtain rfl := Except.ok.inj hok
    exact ⟨rfl, rfl, rfl⟩

theorem Fits.writeOverride {row : HoldingUnitScale} {recount : Recount}
    {touched : List ListingId} (h : s.Fits)
    (hkeeps : s.keepsPairs (.writeOverride row recount touched) = true)
    (hok : s.writeOverride D row recount touched = .ok s') : s'.Fits := by
  obtain ⟨_, hcheck, hok⟩ := bind_ok hok
  obtain ⟨put, hput, hok⟩ := bind_ok hok
  obtain ⟨hledger, haccounts, hoverrides⟩ := putOverride_ok hput
  have hmem : ∀ o, o ∈ put.overrides ↔ (o ∈ s.overrides ∧ o.id ≠ row.id) ∨ o = row := by
    intro o
    rw [hoverrides, Keyed.mem_put]
  refine Fits.settle ?_ hok
  refine Fits.rescale h hledger fun a l q hq => ?_
  rcases put.override_or_none a l with ⟨o, ho, rfl, rfl⟩ | hnone
  · rw [unitScale_of_override ho]
    rcases (hmem o).mp ho with ⟨hold, -⟩ | rfl
    · rw [← unitScale_of_override hold]
      exact h.stated hq
    · exact checkNewScale_ok hcheck (Ledger.statedQuantities_subset
        (fun t hacc hlist => by simp [governs, hacc, hlist]) hq)
  · rw [unitScale_none hnone, haccounts]
    rcases s.override_or_none a l with ⟨o, ho, rfl, rfl⟩ | hbefore
    · -- the pair's override was the row that has moved away
      have hid : o.id = row.id := by
        by_contra hne
        exact hnone o ((hmem o).mpr (Or.inl ⟨ho, hne⟩)) rfl
      have hpair : o.pair ≠ row.pair := fun heq =>
        hnone row ((hmem row).mpr (Or.inr rfl)) heq.symm
      have hleft := List.all_eq_true.mp hkeeps o ho
      simp only [hid, ne_eq, not_true_eq_false, decide_false, Bool.false_or, hpair] at hleft
      exact fits_fallback hleft hq
    · rw [← unitScale_none hbefore]
      exact h.stated hq

theorem Fits.deleteOverride {id : ℤ} {recount : Recount} {touched : List ListingId} (h : s.Fits)
    (hkeeps : s.keepsPairs (.deleteOverride id recount touched) = true)
    (hok : s.deleteOverride D id recount touched = .ok s') : s'.Fits := by
  obtain ⟨_, -, hok⟩ := bind_ok hok
  refine Fits.settle ?_ hok
  refine Fits.rescale h rfl fun a l q hq => ?_
  rcases (s.dropOverride id).override_or_none a l with ⟨o, ho, rfl, rfl⟩ | hnone
  · rw [unitScale_of_override ho, ← unitScale_of_override (s := s) (List.mem_filter.mp ho).1]
    exact h.stated hq
  · rw [unitScale_none hnone]
    change fitsScale (s.accountScale a) q = true
    rcases s.override_or_none a l with ⟨o, ho, rfl, rfl⟩ | hbefore
    · have hid : o.id = id := by
        by_contra hne
        exact hnone o (List.mem_filter.mpr ⟨ho, decide_eq_true hne⟩) rfl
      have hleft := List.all_eq_true.mp hkeeps o ho
      simp only [hid, ne_eq, not_true_eq_false, decide_false, Bool.false_or] at hleft
      exact fits_fallback hleft hq
    · rw [← unitScale_none hbefore]
      exact h.stated hq

theorem Fits.step {w : ScaleWrite} (h : s.Fits) (hkeeps : s.keepsPairs w = true)
    (hok : s.step D w = .ok s') : s'.Fits := by
  cases w with
  | ledger w => exact h.writeLedger hok
  | writeAccount account scale recount touched => exact h.writeAccount hok
  | writeOverride row recount touched => exact h.writeOverride hkeeps hok
  | deleteOverride id recount touched => exact h.deleteOverride hkeeps hok

theorem fits_empty : empty.Fits where
  scales := rfl
  stated := fun _ ht => absurd ht List.not_mem_nil
  drawn := fun _ ha => absurd ha List.not_mem_nil

variable (D) in
/-- In a run that takes no override off a pair its account's scale does not fit,
no stored row is one its own re-save would refuse as too fine. -/
theorem run_rows_fit (ws : List ScaleWrite) (s : Custody)
    (hrun : GuardedRun.run (step D) empty ws = .ok s)
    (hkeeps : GuardedRun.meets (step D) keepsPairs empty ws = true) :
    (∀ t ∈ s.ledger.trades, Provenance.stated t.provenance = true →
      s.scaled.tooFine t.account t.listing t.quantity = none) ∧
    ∀ a ∈ s.ledger.allocations, ∃ sale parcel, s.ledger.trade? a.sale = some sale ∧
      s.ledger.trade? a.purchase = some parcel ∧ (Provenance.stated sale.provenance = true →
        s.scaled.tooFine parcel.account parcel.listing a.quantity.value = none) := by
  have hfits : s.Fits :=
    GuardedRun.invariant (fun _ _ _ h hgood hok => h.step hgood hok) fits_empty hkeeps hrun
  constructor
  · intro t ht hstated
    exact Ledger.tooFine_eq_none.mpr (Ledger.OnGrid.stated hfits t ht hstated)
  · intro a ha
    obtain ⟨sale, parcel, hsale, -, hparcel, -, hrest⟩ := hfits.drawn a ha
    exact ⟨sale, parcel, hsale, hparcel, fun hstated => Ledger.tooFine_eq_none.mpr (hrest hstated)⟩

/-- A whole-unit account holding one listing to three places, part of it sold. -/
def planHolding : List ScaleWrite := [
  .writeAccount 1 (some 0) Ledger.noCounts [],
  .writeOverride ⟨1, 1, 7, some 3⟩ Ledger.noCounts [],
  .ledger (.writeTrade 1 ⟨ymd 2024 1 10, 7, 1, 1234 / 1000⟩ Ledger.noCounts),
  .ledger (.writeSell 2 ⟨ymd 2024 3 1, 7, 1, 1 / 2, [⟨1, .new 5 1⟩]⟩ Ledger.noCounts)]

theorem run_rows_fit_plan : ∃ s, GuardedRun.run (step halfEvenRounding) empty planHolding = .ok s ∧
    ∀ t ∈ s.ledger.trades, Provenance.stated t.provenance = true →
      s.scaled.tooFine t.account t.listing t.quantity = none := by
  obtain ⟨s, hs⟩ := Checked.exists_ok
    (x := GuardedRun.run (step halfEvenRounding) empty planHolding) (by decide +kernel)
  exact ⟨s, hs, (run_rows_fit halfEvenRounding planHolding s hs (by decide +kernel)).1⟩

/-- The override deleted, or edited onto another listing: the stored Buy is
finer than its holding's scale. -/
theorem run_rows_too_fine :
    (∃ s, GuardedRun.run (step halfEvenRounding) empty
        (planHolding ++ [.deleteOverride 1 Ledger.noCounts []]) = .ok s ∧
      ∃ t ∈ s.ledger.trades, Provenance.stated t.provenance = true ∧
        s.scaled.tooFine t.account t.listing t.quantity = some 0) ∧
    ∃ s, GuardedRun.run (step halfEvenRounding) empty
        (planHolding ++ [.writeOverride ⟨1, 1, 8, some 3⟩ Ledger.noCounts []]) = .ok s ∧
      ∃ t ∈ s.ledger.trades, Provenance.stated t.provenance = true ∧
        s.scaled.tooFine t.account t.listing t.quantity = some 0 := by
  have hruns : ∀ w ∈ [ScaleWrite.deleteOverride 1 Ledger.noCounts [],
      .writeOverride ⟨1, 1, 8, some 3⟩ Ledger.noCounts []],
      Checked.accepts (GuardedRun.run (step halfEvenRounding) empty (planHolding ++ [w])) (fun s =>
        s.ledger.trades.any fun t => Provenance.stated t.provenance &&
          decide (s.scaled.tooFine t.account t.listing t.quantity = some 0)) = true := by
    intro w hw
    rcases List.mem_cons.mp hw with rfl | hw
    · decide +kernel
    · obtain rfl := List.mem_singleton.mp hw
      decide +kernel
  have hfound : ∀ w ∈ [ScaleWrite.deleteOverride 1 Ledger.noCounts [],
      .writeOverride ⟨1, 1, 8, some 3⟩ Ledger.noCounts []],
      ∃ s, GuardedRun.run (step halfEvenRounding) empty (planHolding ++ [w]) = .ok s ∧
        ∃ t ∈ s.ledger.trades, Provenance.stated t.provenance = true ∧
          s.scaled.tooFine t.account t.listing t.quantity = some 0 := by
    intro w hw
    obtain ⟨s, hs, hany⟩ := Checked.accepts_iff.mp (hruns w hw)
    obtain ⟨t, ht, hfine⟩ := List.any_eq_true.mp hany
    simp only [Bool.and_eq_true, decide_eq_true_eq] at hfine
    exact ⟨s, hs, t, ht, hfine⟩
  exact ⟨hfound _ List.mem_cons_self, hfound _ (List.mem_cons_of_mem _ List.mem_cons_self)⟩

end Custody

end ShareTracker
