import ShareTracker.Lib.Checked
import ShareTracker.TaxYear
import ShareTracker.WholeHoldingWrites

/-!
Executing a whole-holding operation leaves nothing of its listing open at its
date, and a run leaves it so while each of its writes keeps what the operation
consumed. A Sell deleted from before the operation does not.
-/
namespace ShareTracker.WholeHolding

variable {D : DecimalRounding}

/-! ### Trade ids -/

/-- No two trades share an id. -/
def UniqueIds (s : Ledger) : Prop := (s.trades.map Trade.id).Nodup

theorem UniqueIds.trade? {s : Ledger} (h : UniqueIds s) {t : Trade} (ht : t ∈ s.trades) :
    s.trade? t.id = some t := (Keyed.get?_eq_some h).mpr ⟨ht, rfl⟩

/-- A property of ledgers that each change a write makes keeps. -/
structure KeptByChanges (D : DecimalRounding) (P : Ledger → Prop) : Prop where
  upsertSell : ∀ {s s' : Ledger} {id : TradeId} {provenance : Option Provenance} {body : SellBody},
    P s → (s.upsertSellInTx D id provenance body).Yields s' → P s'
  recordParcel : ∀ {s s' : Ledger} {t : Trade}, P s → (s.recordParcel t).Yields s' → P s'
  remove : ∀ {s s' : Ledger} {gone : TradeId → Bool}, P s → (s.remove gone).Yields s' → P s'
  recompute : ∀ {s : Ledger} (recount : Recount) (listing : ListingId),
    P s → P (s.recompute recount listing)
  putTrade : ∀ {s : Ledger} (t : Trade), P s → P (s.putTrade t)
  putTransfers : ∀ {s : Ledger} (transfers : List Transfer), P s → P { s with transfers := transfers }
  putAction : ∀ {s : Ledger} (action : CorporateAction), P s → P (s.putAction action)
  dropAction : ∀ {s : Ledger} (id : ℤ),
    P s → P { s with actions := s.actions.filter fun a => a.id ≠ id }
  setUnitScale : ∀ {s : Ledger} (scale : HoldingAccountId → ListingId → Option ℕ),
    P s → P { s with unitScale := scale }

namespace KeptByChanges
variable {P : Ledger → Prop} {s s' : Ledger}

theorem recordParcels (hP : KeptByChanges D P) {ts : List Trade} (h : P s)
    (ht : (s.recordParcels ts).Yields s') : P s' := by
  unfold Ledger.recordParcels at ht
  induction ts generalizing s with
  | nil =>
    obtain rfl := yields_pure.mp ht
    exact h
  | cons t ts ih =>
    rw [List.foldlM_cons] at ht
    obtain ⟨mid, hmid, ht⟩ := yields_bind.mp ht
    exact ih (hP.recordParcel h hmid) ht

theorem insertSell (hP : KeptByChanges D P) {id : TradeId} {provenance : Option Provenance}
    {body : SellBody} (h : P s) (ht : (s.insertSell D id provenance body).Yields s') : P s' := by
  unfold Ledger.insertSell at ht
  obtain ⟨_, -, ht⟩ := yields_bind.mp ht
  exact hP.upsertSell h ht

theorem dbSettle (hP : KeptByChanges D P) {recount : Recount} {dirty : List ListingId} (h : P s)
    (ht : (s.dbSettle D recount dirty).Yields s') : P s' := by
  unfold Ledger.dbSettle at ht
  induction dirty generalizing s with
  | nil =>
    obtain rfl := yields_pure.mp ht
    exact h
  | cons l dirty ih =>
    rw [List.foldlM_cons] at ht
    obtain ⟨mid, hmid, ht⟩ := yields_bind.mp ht
    unfold Ledger.settleListing at hmid
    obtain ⟨_, -, hmid⟩ := yields_bind.mp hmid
    obtain rfl := yields_pure.mp hmid
    exact ih (hP.recompute recount l h) ht

theorem writeTransferIns (hP : KeptByChanges D P) {body : TransferBody} {ids : TransferIds}
    {allocs : List AllocationInput} (h : P s)
    (ht : (allocs.foldlM (Ledger.writeTransferIn body ids) s).Yields s') : P s' := by
  induction allocs generalizing s with
  | nil =>
    obtain rfl := yields_pure.mp ht
    exact h
  | cons a allocs ih =>
    rw [List.foldlM_cons] at ht
    obtain ⟨mid, hmid, ht⟩ := yields_bind.mp ht
    unfold Ledger.writeTransferIn at hmid
    obtain ⟨_, -, hmid⟩ := yields_bind.mp hmid
    exact ih (hP.recordParcel h hmid) ht

theorem writeFeeSale (hP : KeptByChanges D P) {body : TransferBody} {ids : TransferIds} (h : P s)
    (ht : (s.writeFeeSale D body ids).Yields s') : P s' := by
  unfold Ledger.writeFeeSale at ht
  split at ht
  · obtain rfl := yields_pure.mp ht
    exact hP.putTransfers _ h
  · obtain ⟨_, -, ht⟩ := yields_bind.mp ht
    obtain ⟨feeBody, -, ht⟩ := yields_bind.mp ht
    obtain ⟨mid, hmid, ht⟩ := yields_bind.mp ht
    obtain rfl := yields_pure.mp ht
    exact hP.putTransfers _ (hP.insertSell h hmid)

theorem operate (hP : KeptByChanges D P) {id : TradeId} {provenance : Provenance}
    {body : SellBody} {replacements : List Trade} {recount : Recount} (h : P s)
    (ht : (s.operate D id provenance body replacements recount).Yields s') : P s' := by
  unfold Ledger.operate at ht
  obtain ⟨mid, hsell, ht⟩ := yields_bind.mp ht
  obtain ⟨mid', hparcels, ht⟩ := yields_bind.mp ht
  exact hP.dbSettle (hP.recordParcels (hP.insertSell h hsell) hparcels) ht

/-- What each change keeps, every accepted write that rounds nowhere keeps. -/
theorem step (hP : KeptByChanges D P) {w : ShareTracker.Write} (h : P s)
    (ht : (s.step D w).Yields s') : P s' := by
  cases w with
  | writeSell id body recount =>
    change (s.writeSell D id body recount).Yields s' at ht
    unfold Ledger.writeSell at ht
    obtain ⟨_, -, ht⟩ := yields_bind.mp ht
    obtain ⟨mid, hmid, ht⟩ := yields_bind.mp ht
    exact hP.dbSettle (hP.upsertSell h hmid) ht
  | deleteSell id recount =>
    change (s.deleteSell D id recount).Yields s' at ht
    unfold Ledger.deleteSell at ht
    obtain ⟨_, -, ht⟩ := yields_bind.mp ht
    obtain ⟨_, -, ht⟩ := yields_bind.mp ht
    obtain ⟨_, -, ht⟩ := yields_bind.mp ht
    obtain ⟨_, -, ht⟩ := yields_bind.mp ht
    obtain ⟨mid, hmid, ht⟩ := yields_bind.mp ht
    exact hP.dbSettle (hP.remove h hmid) ht
  | writeTrade id body recount =>
    change (s.writeTrade D id body recount).Yields s' at ht
    unfold Ledger.writeTrade at ht
    obtain ⟨_, -, ht⟩ := yields_bind.mp ht
    obtain ⟨_, -, ht⟩ := yields_bind.mp ht
    obtain ⟨_, -, ht⟩ := yields_bind.mp ht
    obtain ⟨_, -, ht⟩ := yields_bind.mp ht
    obtain ⟨_, -, ht⟩ := yields_bind.mp ht
    exact hP.dbSettle (hP.putTrade _ h) ht
  | recordParcel t recount =>
    obtain ⟨mid, hmid, ht⟩ := yields_bind.mp ht
    exact hP.dbSettle (hP.recordParcel h hmid) ht
  | deleteTrade id recount =>
    change (s.deleteTrade D id recount).Yields s' at ht
    unfold Ledger.deleteTrade at ht
    obtain ⟨_, -, ht⟩ := yields_bind.mp ht
    obtain ⟨_, -, ht⟩ := yields_bind.mp ht
    obtain ⟨_, -, ht⟩ := yields_bind.mp ht
    obtain ⟨mid, hmid, ht⟩ := yields_bind.mp ht
    exact hP.dbSettle (hP.remove h hmid) ht
  | writeTransfer ids body recount =>
    change (s.writeTransfer D ids body recount).Yields s' at ht
    unfold Ledger.writeTransfer at ht
    obtain ⟨_, -, ht⟩ := yields_bind.mp ht
    obtain ⟨_, -, ht⟩ := yields_bind.mp ht
    obtain ⟨_, -, ht⟩ := yields_bind.mp ht
    obtain ⟨_, -, ht⟩ := yields_bind.mp ht
    obtain ⟨sellBody, -, ht⟩ := yields_bind.mp ht
    obtain ⟨mid, hsell, ht⟩ := yields_bind.mp ht
    obtain ⟨mid', hins, ht⟩ := yields_bind.mp ht
    obtain ⟨mid'', hfee, ht⟩ := yields_bind.mp ht
    have hmoved := hP.writeTransferIns (hP.insertSell h hsell) hins
    exact hP.dbSettle (hP.writeFeeSale hmoved hfee) ht
  | deleteTransfer id recount =>
    change (s.deleteTransfer D id recount).Yields s' at ht
    unfold Ledger.deleteTransfer at ht
    obtain ⟨_, -, ht⟩ := yields_bind.mp ht
    obtain ⟨_, -, ht⟩ := yields_bind.mp ht
    obtain ⟨mid, hmid, ht⟩ := yields_bind.mp ht
    exact hP.dbSettle (hP.putTransfers _ (hP.remove h hmid)) ht
  | operate id provenance body replacements recount => exact hP.operate h ht
  | writeAction action changed recount =>
    change (s.writeAction D action changed recount).Yields s' at ht
    unfold Ledger.writeAction at ht
    obtain ⟨_, -, ht⟩ := yields_bind.mp ht
    obtain ⟨settled, hsettled, ht⟩ := yields_bind.mp ht
    obtain ⟨_, -, ht⟩ := yields_bind.mp ht
    obtain rfl := yields_pure.mp ht
    exact hP.dbSettle (hP.putAction _ h) hsettled
  | deleteAction id recount =>
    change (s.deleteAction D id recount).Yields s' at ht
    unfold Ledger.deleteAction at ht
    obtain ⟨_, -, ht⟩ := yields_bind.mp ht
    obtain ⟨_, -, ht⟩ := yields_bind.mp ht
    obtain ⟨_, -, ht⟩ := yields_bind.mp ht
    exact hP.dbSettle (hP.dropAction id h) ht
  | setUnitScale scale recount touched => exact hP.dbSettle (hP.setUnitScale scale h) ht

theorem run (hP : KeptByChanges D P) {ws : List ShareTracker.Write} (h : P s)
    (hrun : s.run D ws = .ok s') (hexact : s.roundsNowhere D ws = true) : P s' := by
  induction ws generalizing s with
  | nil =>
    cases hrun
    exact h
  | cons w ws ih =>
    unfold Ledger.run at hrun
    unfold Ledger.roundsNowhere at hexact
    obtain ⟨hstep, hrest⟩ := (Bool.and_eq_true _ _).mp hexact
    cases hanswer : (s.step D w).answer with
    | error e =>
      rw [hanswer] at hrun
      cases hrun
    | ok mid =>
      rw [hanswer] at hrun hrest
      exact ih (hP.step h ⟨hanswer, hstep⟩) hrun hrest

end KeptByChanges

theorem uniqueIds_kept (D : DecimalRounding) : KeptByChanges D UniqueIds where
  upsertSell := by
    intro s s' id provenance body h ht
    rw [upsertSellInTx_effect ht]
    exact Keyed.nodup_put h (body.row id provenance)
  recordParcel := by
    intro s s' t h ht
    obtain ⟨rfl, -, hfresh⟩ := recordParcel_effect ht
    unfold UniqueIds
    rw [List.map_append, List.nodup_append]
    refine ⟨h, List.nodup_singleton _, ?_⟩
    intro i hi j hj hij
    obtain ⟨u, hu, rfl⟩ := List.mem_map.mp hi
    rw [List.map_singleton, List.mem_singleton] at hj
    have hstored := h.trade? hu
    rw [hij.trans hj, hfresh] at hstored
    cases hstored
  remove := by
    intro s s' gone h ht
    rw [remove_effect ht]
    exact Keyed.nodup_filter h _
  recompute := fun _ _ h => h
  putTrade := fun t h => Keyed.nodup_put h t
  putTransfers := fun _ h => h
  putAction := fun _ h => h
  dropAction := fun _ h => h
  setUnitScale := fun _ h => h

/-! ### The closing Sell -/

/-- A parcel's units still open. -/
noncomputable def left (D : DecimalRounding) (s : Ledger) (t : Trade) : ℚ :=
  unitsLeft D (s.splitsForParcel t.listing t.id) t.date t.quantity (s.parcelSales t.id)

/-- A parcel is drawn for what it has left, stated in the units of the date, or not at all. -/
theorem consume_yields {s : Ledger} {atDateUnits : TradeId → Decimal} {date : NaiveDate}
    {t : Trade} {draw : Option AllocationInput}
    (h : (consume D s atDateUnits date t).Yields draw) :
    (draw = none ∧ left D s t ≤ 0) ∨
      (draw = some ⟨t.id, atDateUnits t.id⟩ ∧ 0 < left D s t ∧ (atDateUnits t.id).value =
        D.round (left D s t * basisFactor (s.splitsForParcel t.listing t.id) t.date date)) := by
  unfold consume at h
  obtain ⟨sold, hsold, h⟩ := yields_bind.mp h
  obtain ⟨remaining, hremaining, h⟩ := yields_bind.mp h
  obtain ⟨open_, hopen, h⟩ := yields_bind.mp h
  unfold Ledger.soldUnits at hsold
  obtain ⟨hvalue, hden⟩ := soldInAcquiredUnits_yields one_pos hsold
  obtain ⟨hleft, hleftden⟩ := AcquiredUnits.sub_yields one_pos hden hremaining
  have hopen := AcquiredUnits.lt_yields one_pos hleftden hopen
  have hremains : remaining.value = left D s t := by
    rw [hleft, hvalue, AcquiredUnits.new_value, sub_sub_cancel]
    rfl
  rw [AcquiredUnits.zero_value, hremains] at hopen
  split at h
  · rename_i hpos
    obtain ⟨figure, hfigure, h⟩ := yields_bind.mp h
    obtain ⟨_, hstored, h⟩ := yields_bind.mp h
    refine .inr ⟨(yields_pure.mp h).symm, of_decide_eq_true (hopen ▸ hpos), ?_⟩
    have hsame := not_not.mp (yields_refuseIf.mp hstored)
    rw [hsame, splitAdjustedQuantity_yields hfigure, hremains]
  · rename_i hnot
    refine .inl ⟨(yields_pure.mp h).symm, not_lt.mp fun hpos => hnot ?_⟩
    rw [hopen]
    exact decide_eq_true hpos

theorem consume_id {s : Ledger} {atDateUnits : TradeId → Decimal} {date : NaiveDate}
    {t : Trade} {draw : Option AllocationInput}
    (h : (consume D s atDateUnits date t).Yields draw) : ∀ a ∈ draw.toList,
      a.purchaseTradeId = t.id := by
  intro a ha
  rcases consume_yields h with ⟨rfl, -⟩ | ⟨rfl, -⟩
  · cases ha
  · rw [Option.toList_some, List.mem_singleton] at ha
    rw [ha]

theorem consumeAll_ids {s : Ledger} {atDateUnits : TradeId → Decimal} {date : NaiveDate}
    {ts : List Trade} {allocs : List AllocationInput}
    (h : (consumeAll D s atDateUnits date ts).Yields allocs) :
    ∀ a ∈ allocs, a.purchaseTradeId ∈ ts.map Trade.id := by
  induction ts generalizing allocs with
  | nil =>
    obtain rfl := yields_pure.mp h
    exact fun a ha => absurd ha List.not_mem_nil
  | cons t ts ih =>
    obtain ⟨draw, hdraw, h⟩ := yields_bind.mp h
    obtain ⟨rest, hrest, h⟩ := yields_bind.mp h
    obtain rfl := yields_pure.mp h
    intro a ha
    rw [List.map_cons]
    rcases List.mem_append.mp ha with ha | ha
    · rw [consume_id hdraw a ha]
      exact List.mem_cons_self
    · exact List.mem_cons_of_mem _ (ih hrest a ha)

/-- The allocations on a parcel are the one draw made of it. -/
theorem consumeAll_yields {s : Ledger} {atDateUnits : TradeId → Decimal} {date : NaiveDate}
    {ts : List Trade} {allocs : List AllocationInput} (hunique : (ts.map Trade.id).Nodup)
    (h : (consumeAll D s atDateUnits date ts).Yields allocs) {t : Trade} (ht : t ∈ ts) :
    ∃ draw, (consume D s atDateUnits date t).Yields draw ∧
      (allocs.filter fun a => a.purchaseTradeId = t.id) = draw.toList := by
  induction ts generalizing allocs with
  | nil => exact absurd ht List.not_mem_nil
  | cons u ts ih =>
    obtain ⟨draw, hdraw, h⟩ := yields_bind.mp h
    obtain ⟨rest, hrest, h⟩ := yields_bind.mp h
    obtain rfl := yields_pure.mp h
    rw [List.map_cons, List.nodup_cons] at hunique
    rw [List.filter_append]
    rcases List.mem_cons.mp ht with rfl | ht
    · have hnone : (rest.filter fun a => a.purchaseTradeId = t.id) = [] := by
        refine List.filter_eq_nil_iff.mpr fun a ha hid => hunique.1 ?_
        exact of_decide_eq_true hid ▸ consumeAll_ids hrest a ha
      have hall : (draw.toList.filter fun a => a.purchaseTradeId = t.id) = draw.toList :=
        List.filter_eq_self.mpr fun a ha => decide_eq_true (consume_id hdraw a ha)
      exact ⟨draw, hdraw, by rw [hnone, hall, List.append_nil]⟩
    · obtain ⟨drawn, hdrawn, heq⟩ := ih hunique.2 hrest ht
      have hnone : (draw.toList.filter fun a => a.purchaseTradeId = t.id) = [] := by
        refine List.filter_eq_nil_iff.mpr fun a ha hid => hunique.1 ?_
        rw [← consume_id hdraw a ha, of_decide_eq_true hid]
        exact List.mem_map_of_mem ht
      exact ⟨drawn, hdrawn, by rw [hnone, heq, List.nil_append]⟩

/-- A parcel drawn for what it has left, after every other sale of it, is closed. -/
theorem openAt_closed {s mid : Ledger} {id : TradeId} {provenance : Option Provenance}
    {body : SellBody} {atDateUnits : TradeId → Decimal} {t : Trade} {draw : Option AllocationInput}
    (hfresh : s.trade? id = none) (hearlier : ∀ r ∈ s.saleRows t.id, r.2.basis < body.date)
    (hdraw : (consume D s atDateUnits body.date t).Yields draw)
    (hallocs : (body.allocations.filter fun a => a.purchaseTradeId = t.id) = draw.toList)
    (hsell : (s.upsertSellInTx D id provenance body).Yields mid) :
    openAt D mid t body.date ≤ 0 := by
  have hsplits : mid.splitsForParcel t.listing t.id = s.splitsForParcel t.listing t.id := by
    rw [Ledger.splitsForParcel, actions_upsert hsell, Ledger.splitsForParcel]
  have hrows : mid.saleRows t.id = s.saleRows t.id ++ drawsOn id body t.id := by
    rw [saleRows_upsert hsell, rowsAfterSell, saleRows_fresh hfresh]
  have hnew : ∀ r ∈ drawsOn id body t.id, r.2.basis = body.date := by
    intro r hr
    obtain ⟨a, -, rfl⟩ := List.mem_map.mp hr
    rfl
  have hwalk : walkBy (mid.saleRows t.id) body.date =
      StableSort.sortBy UnitsAt.basis (s.parcelSales t.id) ++
        StableSort.sortBy UnitsAt.basis ((drawsOn id body t.id).map Prod.snd) := by
    have hall : (mid.saleRows t.id).filter (fun r => r.2.basis ≤ body.date) =
        s.saleRows t.id ++ drawsOn id body t.id := by
      rw [hrows, List.filter_eq_self]
      intro r hr
      rcases List.mem_append.mp hr with hr | hr
      · exact decide_eq_true (hearlier r hr).le
      · exact decide_eq_true (hnew r hr).le
    rw [walkBy, hall, List.map_append]
    refine StableSort.sortBy_append fun a ha b hb => ?_
    obtain ⟨r, hr, rfl⟩ := List.mem_map.mp ha
    obtain ⟨r', hr', rfl⟩ := List.mem_map.mp hb
    rw [hnew r' hr']
    exact (hearlier r hr).le
  unfold openAt
  rw [hwalk, hsplits, List.map_append]
  unfold EmptyingWalk.remaining
  rw [List.foldl_append]
  change List.foldl EmptyingWalk.after (left D s t) _ ≤ 0
  rcases consume_yields hdraw with ⟨rfl, hnone⟩ | ⟨rfl, hpos, hprint⟩
  · have hempty : drawsOn id body t.id = [] := by rw [drawsOn, hallocs]; rfl
    rw [hempty]
    exact hnone
  · have hone : drawsOn id body t.id = [(id, ⟨atDateUnits t.id, body.date⟩)] := by
      rw [drawsOn, hallocs]
      rfl
    rw [hone]
    exact (EmptyingWalk.after_of_prints hpos hprint.symm).le

/-! ### Executing -/

/-- The row of an operation's closing Sell, its quantity apart. -/
def Execution.closing (x : Execution) (action : CorporateAction) : Trade :=
  ⟨x.sell, .sell, action.date, action.listing, defaultAccount, 0, some x.provenance⟩

theorem mem_parcels {s : Ledger} {listing : ListingId} {t : Trade} :
    t ∈ parcels s listing ↔
      t ∈ s.trades ∧ t.listing = listing ∧ t.tradeType.isAcquisition = true := by
  unfold parcels
  rw [StableSort.mem_sortBy, List.mem_filter]
  simp only [Bool.and_eq_true, decide_eq_true_eq]

theorem UniqueIds.parcels {s : Ledger} (h : UniqueIds s) (listing : ListingId) :
    ((parcels s listing).map Trade.id).Nodup := by
  unfold WholeHolding.parcels
  have hperm := StableSort.sortBy_perm (fun t : Trade => toLex (t.date, t.id))
    (s.trades.filter fun t => t.listing = listing && t.tradeType.isAcquisition)
  exact (hperm.map Trade.id).nodup_iff.mpr (Keyed.nodup_filter h _)

/-- Where nothing of the listing trades on or after a date, every sale of it is before. -/
theorem saleRows_before {s : Ledger} (hs : s.Rows) (hunique : UniqueIds s) {listing : ListingId}
    {date : NaiveDate} (hlate : ∀ t ∈ s.trades, t.listing = listing → t.date < date) {t : Trade}
    (ht : t ∈ s.trades) (hlisting : t.listing = listing) :
    ∀ r ∈ s.saleRows t.id, r.2.basis < date := by
  intro r hr
  obtain ⟨a, ha, sale, hpurchase, hsale, rfl⟩ := Ledger.mem_saleRows hr
  obtain ⟨sale', parcel, hsale', -, hparcel, -, hsame, -⟩ := (hs.drawn a ha).rows
  obtain rfl : sale = sale' := Option.some.inj (hsale.symm.trans hsale')
  have hparcel : parcel = t := by
    rw [hpurchase, hunique.trade? ht] at hparcel
    exact (Option.some.inj hparcel).symm
  rw [hparcel, hlisting] at hsame
  exact hlate sale (Ledger.mem_of_trade? hsale) hsame.symm

/-- The closing Sell of a whole holding leaves it, and every earlier one, whole. -/
theorem Whole.closed {s mid : Ledger} {id : TradeId} {provenance : Option Provenance}
    {body : SellBody} {atDateUnits : TradeId → Decimal} (hs : s.Valid D) (hunique : UniqueIds s)
    (hwhole : Whole D s) (hlate : ∀ t ∈ s.trades, t.listing = body.listing → t.date < body.date)
    (hconsumed : (consumeAll D s atDateUnits body.date (parcels s body.listing)).Yields
      body.allocations)
    (hsell : (s.insertSell D id provenance body).Yields mid) : Whole D mid := by
  have hmid : mid.Valid D := hs.insertSell hsell
  unfold Ledger.insertSell at hsell
  obtain ⟨_, hfresh, hsell⟩ := yields_bind.mp hsell
  have hfresh : s.trade? id = none := by simpa using yields_refuseIf.mp hfresh
  intro c hc hcloses t ht hb
  have ht₀ : t ∈ s.trades := by
    rcases (mem_trades_upsert hsell).mp ht with ⟨ht, -⟩ | rfl
    · exact ht
    · cases hb.1
  rcases (mem_trades_upsert hsell).mp hc with ⟨hc₀, -⟩ | rfl
  · have hsales : (walkBy (s.saleRows t.id) c.date).Sublist (walkBy (mid.saleRows t.id) c.date) := by
      rw [saleRows_upsert hsell]
      exact walkBy_fresh hfresh t.id c.date
    have hactions := actions_upsert hsell
    have hkept : Kept s mid c t t :=
      .same hsales (eventsBy_congr hactions c t.id) (counts_congr hactions c t.id)
    refine (hkept.openAt_le hb hb ?_).trans (hwhole c hc₀ hcloses t ht₀ hb)
    exact Ledger.saleRows_pos hmid.rows.drawn t.id
  · obtain ⟨draw, hdraw, hallocs⟩ := consumeAll_yields (hunique.parcels body.listing) hconsumed
      (mem_parcels.mpr ⟨ht₀, hb.2.1, hb.1⟩)
    exact openAt_closed hfresh (saleRows_before hs.rows hunique hlate ht₀ hb.2.1) hdraw hallocs
      hsell

theorem Execution.mem_replacements {x : Execution} {s : Ledger} {listing : ListingId}
    {date : NaiveDate} {a : AllocationInput} {t : Trade}
    (h : t ∈ x.replacements s listing date a) :
    t.provenance = some x.provenance ∧ t.date = date ∧
      (t.listing = listing ∨ some t.listing = x.destination) := by
  unfold Execution.replacements at h
  unfold Execution.destination
  cases hop : x.operation with
  | exchange scrip =>
    rw [hop] at h
    obtain rfl := List.mem_singleton.mp h
    exact ⟨rfl, rfl, .inr rfl⟩
  | demerge demerged =>
    rw [hop] at h
    rcases List.mem_pair.mp h with rfl | rfl
    · exact ⟨rfl, rfl, .inl rfl⟩
    · exact ⟨rfl, rfl, .inr rfl⟩
  | recognise =>
    rw [hop] at h
    cases h

/-- What an accepted execution checked, and the writes it made. -/
theorem execute_yields {s s' : Ledger} {x : Execution} {recount : Recount}
    (h : (execute D s x recount).Yields s') :
    ∃ action body, s.actions.find? (fun a => a.id = x.action) = some action ∧
      body.date = action.date ∧ body.listing = action.listing ∧
      (∀ t ∈ s.trades, t.listing = body.listing → t.date < body.date) ∧
      (∀ listing, some listing = x.destination → Clear s listing body.date) ∧
      (consumeAll D s x.atDateUnits body.date (parcels s body.listing)).Yields
        body.allocations ∧
      (s.operate D x.sell x.provenance body
        (body.allocations.flatMap (x.replacements s body.listing body.date)) recount).Yields s' := by
  unfold execute at h
  obtain ⟨action, haction, h⟩ := yields_bind.mp h
  obtain ⟨_, -, h⟩ := yields_bind.mp h
  obtain ⟨_, hlate, h⟩ := yields_bind.mp h
  obtain ⟨u, hguard, h⟩ := yields_bind.mp h
  obtain ⟨allocs, hconsumed, h⟩ := yields_bind.mp h
  obtain ⟨_, -, h⟩ := yields_bind.mp h
  obtain ⟨body, hbody, h⟩ := yields_bind.mp (Attempt.yields_mapError.mp h)
  unfold closingSellBody at hbody
  obtain ⟨total, -, hbody⟩ := yields_bind.mp hbody
  obtain rfl := yields_pure.mp hbody
  refine ⟨action, _, Attempt.yields_orRefuse.mp haction, rfl, rfl, ?_, ?_,
    Attempt.yields_mapError.mp hconsumed, h⟩
  · intro t ht hlisting
    have hnot := yields_refuseIf.mp hlate
    by_contra hlt
    refine hnot (List.any_eq_true.mpr ⟨t, ht, ?_⟩)
    exact (Bool.and_eq_true _ _).mpr ⟨decide_eq_true hlisting, decide_eq_true (not_lt.mp hlt)⟩
  · intro listing hdest
    have hmem : listing ∈ x.destination.toList := by
      rw [← hdest]
      exact List.mem_singleton_self listing
    exact refuseBackDated_yields (Attempt.yields_forM hguard listing hmem)

theorem Whole.execute {s s' : Ledger} {x : Execution} {recount : Recount} (hs : s.Valid D)
    (hunique : UniqueIds s) (hwhole : Whole D s) (hcounts : KeepsCounts s recount)
    (hclosing : ∀ action ∈ s.actions.find? fun a => a.id = x.action,
      KeepsCountsBehind s recount (x.closing action))
    (h : (execute D s x recount).Yields s') : Whole D s' := by
  obtain ⟨action, body, haction, hdate, hlisting, hlate, hclear, hconsumed, h⟩ :=
    execute_yields h
  have hvalid : s'.Valid D := hs.operate h
  unfold Ledger.operate at h
  obtain ⟨mid, hsell, h⟩ := yields_bind.mp h
  obtain ⟨mid', hparcels, h⟩ := yields_bind.mp h
  have hmid : mid.Valid D := hs.insertSell hsell
  have hclosed : Whole D mid := hwhole.closed hs hunique hlate hconsumed hsell
  unfold Ledger.insertSell at hsell
  obtain ⟨_, -, hsell⟩ := yields_bind.mp hsell
  -- the replacements are the operation's own, and clear of every other
  have hrecorded : Carries mid mid' := by
    refine .recordParcels hmid (fun c hc hcloses t ht hb => ?_) hparcels
    obtain ⟨a, -, ht⟩ := List.mem_flatMap.mp ht
    obtain ⟨hprovenance, hon, hwhere⟩ := Execution.mem_replacements ht
    rcases (mem_trades_upsert hsell).mp hc with ⟨hc₀, -⟩ | rfl
    · have hbefore : c.date < body.date := by
        rcases hwhere with hown | hdest
        · exact hlate c hc₀ (hb.2.1.symm.trans hown)
        · exact hclear t.listing hdest c hc₀ hcloses hb.2.1
      exact absurd (hon ▸ hb.2.2.1) (not_le.mpr hbefore)
    · exact hb.2.2.2 hprovenance
  have hkeeps : KeepsCounts mid recount := by
    intro c hc hcloses t ht hb a ha hrel
    have ht₀ : t ∈ s.trades := by
      rcases (mem_trades_upsert hsell).mp ht with ⟨ht, -⟩ | rfl
      · exact ht
      · cases hb.1
    rw [actions_upsert hsell] at ha
    rcases (mem_trades_upsert hsell).mp hc with ⟨hc₀, -⟩ | rfl
    · exact hcounts c hc₀ hcloses t ht₀ hb a ha hrel
    · refine hclosing action haction t ht₀ ?_ a ha ?_
      · exact ⟨hb.1, hb.2.1.trans hlisting, hb.2.2.1.trans_eq hdate, hb.2.2.2⟩
      · unfold relevant at hrel ⊢
        rw [SellBody.row, hdate, hlisting] at hrel
        exact hrel
  exact hclosed.carried (hrecorded.settled hkeeps h) hvalid.rows

/-! ### Runs -/

def recountOf : ShareTracker.Write → Recount
  | .writeSell _ _ recount | .deleteSell _ recount | .writeTrade _ _ recount
  | .recordParcel _ recount | .deleteTrade _ recount | .writeTransfer _ _ recount
  | .deleteTransfer _ recount | .operate _ _ _ _ recount | .writeAction _ _ recount
  | .deleteAction _ recount | .setUnitScale _ recount _ => recount

/-- Whether an ordinary write leaves what every executed operation consumed. -/
def KeepsWrite (s : Ledger) : ShareTracker.Write → Prop
  | .writeSell id body _ => Stays s (fun _ => true) (rowsAfterSell s id body)
  | .deleteSell id _ => Stays s (fun c => !deletedWith s id c.id) fun parcel =>
    (s.saleRows parcel).filter fun r => !deletedWith s id r.1
  | .writeTrade id body _ => KeepsParcel s id body
  | .deleteTransfer id _ => Stays s (fun c => !transferredWith s id c.id) fun parcel =>
    (s.saleRows parcel).filter fun r => !transferredWith s id r.1
  | .writeAction action _ _ => KeepsEvents s action
  | _ => True

instance (s : Ledger) (w : ShareTracker.Write) : Decidable (KeepsWrite s w) := by
  cases w <;> dsimp only [KeepsWrite] <;> infer_instance

/-- Whether a write leaves what every executed operation consumed, and the
recompute that follows it the counts stored of that. -/
def Keeps (s : Ledger) : Write → Prop
  | .ledger w _ => KeepsWrite s w ∧ KeepsCounts s (recountOf w)
  | .execute x recount => KeepsCounts s recount ∧
      ∀ action ∈ s.actions.find? fun a => a.id = x.action,
        KeepsCountsBehind s recount (x.closing action)

instance (s : Ledger) (w : Write) : Decidable (Keeps s w) := by
  cases w <;> dsimp only [Keeps] <;> infer_instance

variable (D) in
/-- Whether every write of the sequence does. -/
def keepsThroughout (s : Ledger) : List Write → Bool
  | [] => true
  | w :: ws =>
    decide (Keeps s w) &&
      match (step D s w).answer with
      | .ok s' => keepsThroughout s' ws
      | .error _ => true

/-- An ordinary write opens no parcel an operation consumed. -/
theorem Carries.step {s s' : Ledger} {w : ShareTracker.Write} {u : Unit} (hs : s.Valid D)
    (hordinary : ordinary w = true) (hguard : (guardParcel s w).Yields u)
    (hkeeps : KeepsWrite s w) (hcounts : KeepsCounts s (recountOf w))
    (h : (s.step D w).Yields s') : Carries s s' := by
  cases w with
  | writeSell id body recount => exact .writeSell hkeeps hcounts h
  | deleteSell id recount => exact .deleteSell hkeeps hcounts h
  | writeTrade id body recount => exact .writeTrade hs hguard hkeeps hcounts h
  | recordParcel t recount =>
    obtain ⟨mid, hmid, h⟩ := yields_bind.mp h
    have hclear : Clear s t.listing t.date := refuseBackDated_yields hguard
    exact .settled (.recordParcelAt hs.rows hclear hmid) hcounts h
  | deleteTrade id recount => exact .deleteTrade hcounts h
  | writeTransfer ids body recount =>
    exact .writeTransfer hs (refuseBackDated_yields hguard) hcounts h
  | deleteTransfer id recount => exact .deleteTransfer hkeeps hcounts h
  | operate id provenance body replacements recount =>
    obtain ⟨hopen, hnone⟩ := (Bool.and_eq_true _ _).mp hordinary
    obtain rfl := List.isEmpty_iff.mp hnone
    exact .operateOpen (by simpa using hopen) hcounts h
  | writeAction action changed recount => exact .writeAction hkeeps hcounts h
  | deleteAction id recount => exact .deleteAction hs hcounts h
  | setUnitScale scale recount touched => exact .setUnitScale hcounts h

/-- The ledger's invariant, with every executed operation whole. -/
structure Invariant (D : DecimalRounding) (s : Ledger) : Prop where
  valid : s.Valid D
  unique : UniqueIds s
  whole : Whole D s

theorem Invariant.step {s s' : Ledger} {w : Write} (hs : Invariant D s) (hkeeps : Keeps s w)
    (h : (step D s w).Yields s') : Invariant D s' := by
  cases w with
  | ledger w hordinary =>
    obtain ⟨hwrite, hcounts⟩ := hkeeps
    obtain ⟨u, hguard, h⟩ := yields_bind.mp h
    have h := Attempt.yields_mapError.mp h
    have hvalid : s'.Valid D := hs.valid.step h
    exact ⟨hvalid, (uniqueIds_kept D).step hs.unique h,
      hs.whole.carried (.step hs.valid hordinary hguard hwrite hcounts h) hvalid.rows⟩
  | execute x recount =>
    obtain ⟨hcounts, hclosing⟩ := hkeeps
    obtain ⟨action, body, -, -, -, -, -, -, hoperate⟩ := execute_yields h
    exact ⟨hs.valid.operate hoperate, (uniqueIds_kept D).operate hs.unique hoperate,
      hs.whole.execute hs.valid hs.unique hcounts hclosing h⟩

theorem Invariant.run {s s' : Ledger} {ws : List Write} (hs : Invariant D s)
    (hrun : run D s ws = .ok s') (hexact : roundsNowhere D s ws = true)
    (hkeeps : keepsThroughout D s ws = true) : Invariant D s' := by
  induction ws generalizing s with
  | nil =>
    obtain rfl := Except.ok.inj hrun
    exact hs
  | cons w ws ih =>
    unfold WholeHolding.run at hrun
    obtain ⟨hfirst, hexact⟩ := (Bool.and_eq_true _ _).mp hexact
    obtain ⟨hkept, hkeeps⟩ := (Bool.and_eq_true _ _).mp hkeeps
    cases hstep : (WholeHolding.step D s w).answer with
    | error e =>
      rw [hstep] at hrun
      cases hrun
    | ok mid =>
      rw [hstep] at hrun hexact hkeeps
      exact ih (hs.step (of_decide_eq_true hkept) ⟨hstep, hfirst⟩) hrun hexact hkeeps

theorem invariant_empty (D : DecimalRounding) : Invariant D .empty :=
  ⟨Ledger.valid_empty D, List.nodup_nil, fun _ hc => absurd hc List.not_mem_nil⟩

/-- Where no check rounds and every write keeps what the operations before it
consumed, no operation has a parcel behind it open at its date. -/
theorem run_whole (ws : List Write) (s : Ledger) (hrun : run D .empty ws = .ok s)
    (hexact : roundsNowhere D .empty ws = true)
    (hkeeps : keepsThroughout D .empty ws = true) : Whole D s :=
  ((invariant_empty D).run hrun hexact hkeeps).whole

/-- A parcel of 100 with 40 sold before an exchange of what was left for 120 of
another listing, and half of those sold after it. -/
def exchanged : List Write := [
  .ledger (.writeTrade 1 ⟨ymd 2024 1 2, 1, 1, 100⟩ Ledger.noCounts) rfl,
  .ledger (.writeSell 2 ⟨ymd 2024 2 1, 1, 1, 40,
    [⟨1, .new 40 0⟩]⟩ Ledger.noCounts) rfl,
  .ledger (.writeAction ⟨7, 1, ymd 2024 6 3, none, false, [], nofun⟩ true
    Ledger.noCounts) rfl,
  .execute ⟨7, .exchange 2, 3, fun _ => .new 60 0, fun _ => 120, fun _ => 4,
    fun _ => 5⟩ Ledger.noCounts,
  .ledger (.writeSell 6 ⟨ymd 2024 7 1, 2, 1, 60,
    [⟨5, .new 60 0⟩]⟩ Ledger.noCounts) rfl]

theorem run_whole_exchanged : ∃ s, run halfEvenRounding .empty exchanged = .ok s ∧
    Whole halfEvenRounding s := by
  obtain ⟨s, h⟩ := Checked.exists_ok (x := run halfEvenRounding .empty exchanged)
    (by decide +kernel)
  exact ⟨s, h, run_whole exchanged s h (by decide +kernel) (by decide +kernel)⟩

/-- One draw that does not state what the parcel prints as takes what it reads. -/
theorem openAt_one {s : Ledger} {t : Trade} {date : NaiveDate} {u : UnitsAt}
    (hwalk : walkBy (s.saleRows t.id) date = [u])
    (hprint : D.round (t.quantity *
      basisFactor (s.splitsForParcel t.listing t.id) t.date u.basis) ≠ u.quantity.value) :
    openAt D s t date = t.quantity -
      restated D u.quantity (basisFactor (s.splitsForParcel t.listing t.id) t.date u.basis) := by
  unfold openAt
  rw [hwalk]
  change EmptyingWalk.after t.quantity _ = _
  rw [EmptyingWalk.after, EmptyingWalk.Draw.units, if_neg fun h => hprint h.2]
  rfl

/-- Whether a parcel behind a closing Sell is left open by the one draw before it. -/
def strands (s : Ledger) (c t : Trade) : Bool :=
  closes c && decide (Behind t c) &&
    match walkBy (s.saleRows t.id) c.date with
    | [u] =>
      let factor := basisFactor (s.splitsForParcel t.listing t.id) t.date u.basis
      decide (halfEvenRounding.round (t.quantity * factor) ≠ u.quantity.value) &&
        decide (0 < t.quantity - restated halfEvenRounding u.quantity factor)
    | _ => false

/-- The earlier Sell deleted leaves its 40 units open behind the exchange. -/
theorem run_stranded : ∃ ws s, run halfEvenRounding .empty ws = .ok s ∧
    roundsNowhere halfEvenRounding .empty ws = true ∧ ¬ Whole halfEvenRounding s := by
  have hopen : Checked.accepts (run halfEvenRounding .empty
      (exchanged ++ [.ledger (.deleteSell 2 Ledger.noCounts) rfl]))
        (fun s => s.trades.any fun c => s.trades.any (strands s c)) = true := by
    decide +kernel
  obtain ⟨s, h, hs⟩ := Checked.accepts_iff.mp hopen
  obtain ⟨c, hc, hs⟩ := List.any_eq_true.mp hs
  obtain ⟨t, ht, hs⟩ := List.any_eq_true.mp hs
  obtain ⟨hbehind, hwalk⟩ := (Bool.and_eq_true _ _).mp hs
  obtain ⟨hcloses, hbehind⟩ := (Bool.and_eq_true _ _).mp hbehind
  refine ⟨_, s, h, by decide +kernel, fun hwhole => ?_⟩
  have hle := hwhole c hc hcloses t ht (of_decide_eq_true hbehind)
  split at hwalk
  · rename_i u hone
    obtain ⟨hprint, hpos⟩ := (Bool.and_eq_true _ _).mp hwalk
    rw [openAt_one hone (of_decide_eq_true hprint)] at hle
    exact absurd hle (not_le.mpr (of_decide_eq_true hpos))
  · cases hwalk

end ShareTracker.WholeHolding
