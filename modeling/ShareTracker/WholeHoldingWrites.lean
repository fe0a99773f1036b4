import ShareTracker.StaysWhole

/-!
The ordinary writes, each under the condition on it that leaves every executed
operation whole.
-/
namespace ShareTracker.WholeHolding

variable {D : DecimalRounding}

/-! ### The guard -/

theorem mem_executedFrom {s : Ledger} {listing : ListingId} {date : NaiveDate} {c : Trade} :
    c ∈ executedFrom s listing date ↔
      c ∈ s.trades ∧ c.listing = listing ∧ closes c = true ∧ date ≤ c.date := by
  unfold executedFrom
  rw [List.mem_reverse, StableSort.mem_sortBy, List.mem_filter]
  simp only [Bool.and_eq_true, decide_eq_true_eq, and_assoc]

/-- No operation of a listing has run on or after a date. -/
def Clear (s : Ledger) (listing : ListingId) (date : NaiveDate) : Prop :=
  ∀ c ∈ s.trades, closes c = true → listing = c.listing → c.date < date

theorem refuseBackDated_yields {s : Ledger} {listing : ListingId} {date : NaiveDate} {u : Unit}
    (h : (refuseBackDated s listing date none).Yields u) : Clear s listing date := by
  intro c hc hcloses hlisting
  by_contra hnot
  have hmem : c ∈ executedFrom s listing date :=
    mem_executedFrom.mpr ⟨hc, hlisting.symm, hcloses, not_lt.mp hnot⟩
  have hback : backDatedParcel s listing date none = some (executedFrom s listing date) :=
    (if_neg (List.ne_nil_of_mem hmem)).trans (if_neg Bool.false_ne_true)
  unfold refuseBackDated at h
  rw [hback] at h
  exact Attempt.not_yields_refuse h

theorem Clear.not_behind {s : Ledger} {t c : Trade} (h : Clear s t.listing t.date)
    (hc : c ∈ s.trades) (hcloses : closes c = true) : ¬ Behind t c := by
  intro hb
  exact absurd hb.2.2.1 (not_le.mpr (h c hc hcloses hb.2.1))

/-- Whether an edit leaves a parcel where an operation consumed it: no larger,
in the same basis, and behind no operation it was clear of. -/
def KeepsParcel (s : Ledger) (id : TradeId) (body : TradeBody) : Prop :=
  ∀ c ∈ s.trades, closes c = true → body.listing = c.listing → body.date ≤ c.date →
    ∀ t ∈ s.trade? id, Behind t c ∧ body.quantity ≤ t.quantity ∧
      basisFactor (s.splitsForParcel c.listing t.id) t.date body.date = 1

instance (s : Ledger) (id : TradeId) (body : TradeBody) : Decidable (KeepsParcel s id body) :=
  inferInstanceAs (Decidable (∀ c ∈ s.trades, _ → _ → _ → ∀ t ∈ s.trade? id, _))

/-- A parcel's row rewritten moves no sale. -/
theorem saleRows_putParcel {s : Ledger} (hs : s.Rows) {t : Trade}
    (hstored : ∀ u, s.trade? t.id = some u → u.tradeType ≠ .sell) (parcel : TradeId) :
    (s.putTrade t).saleRows parcel = s.saleRows parcel := by
  refine @Ledger.saleRows_congr s (s.putTrade t) rfl (fun a ha => ?_) parcel
  obtain ⟨sale, _, hsale, hsell, -⟩ := (hs.drawn a ha).rows
  have hne : a.sale ≠ t.id := fun h => hstored sale (h ▸ hsale) hsell
  rw [Ledger.trade?_putTrade_ne s hne]

theorem Carries.writeTrade {s s' : Ledger} {id : TradeId} {body : TradeBody} {recount : Recount}
    {u : Unit} (hs : s.Valid D) (hguard : (guardParcel s (.writeTrade id body recount)).Yields u)
    (hkeeps : KeepsParcel s id body) (hcounts : KeepsCounts s recount)
    (h : (s.writeTrade D id body recount).Yields s') : Carries s s' := by
  unfold Ledger.writeTrade at h
  obtain ⟨_, -, h⟩ := yields_bind.mp h
  obtain ⟨_, hedit, h⟩ := yields_bind.mp h
  obtain ⟨_, -, h⟩ := yields_bind.mp h
  obtain ⟨_, -, h⟩ := yields_bind.mp h
  obtain ⟨_, -, h⟩ := yields_bind.mp h
  refine Carries.settled ?_ hcounts h
  have hrows : ∀ parcel, (s.putTrade ⟨id, .buy, body.date, body.listing, body.account,
      body.quantity, none⟩).saleRows parcel = s.saleRows parcel := by
    refine saleRows_putParcel hs.rows fun u hu hsell => ?_
    have hbuy := (Ledger.checkEdit_yields (Attempt.yields_forM hedit u (by simpa using hu))).1
    rw [hsell] at hbuy
    cases hbuy
  intro c hc hcloses t' ht' hb'
  have hc₀ : c ∈ s.trades := by
    rcases Keyed.mem_put.mp hc with ⟨hc, -⟩ | rfl
    · exact hc
    · cases hcloses
  refine ⟨hc₀, ?_⟩
  rcases Keyed.mem_put.mp ht' with ⟨ht, -⟩ | rfl
  · refine ⟨t', ht, hb', .same ?_ (eventsBy_congr rfl c t'.id) (counts_congr rfl c t'.id)⟩
    rw [hrows]
  · cases hstored : s.trade? id with
    | none =>
      change (refuseBackDated s body.listing body.date ((s.trade? id).map _)).Yields u at hguard
      rw [hstored] at hguard
      have hlt := refuseBackDated_yields hguard c hc₀ hcloses hb'.2.1
      exact absurd hb'.2.2.1 (not_le.mpr hlt)
    | some t =>
      obtain ⟨hb, hquantity, hmoved⟩ := hkeeps c hc₀ hcloses hb'.2.1 hb'.2.2.1 t hstored
      refine ⟨t, Ledger.mem_of_trade? hstored, hb, ⟨(Ledger.trade?_id hstored).symm, hquantity, ?_,
        eventsBy_congr rfl c t.id, hmoved, counts_congr rfl c t.id⟩⟩
      rw [hrows]

/-! ### Actions written and deleted -/

/-- The same re-basing actions reach every parcel behind an operation. -/
theorem Carries.of_relevant {s s' : Ledger} (htrades : s'.trades = s.trades)
    (hallocations : s'.allocations = s.allocations)
    (hactions : ∀ c ∈ s.trades, closes c = true →
      s'.actions.filter (relevant c) = s.actions.filter (relevant c)) : Carries s s' := by
  intro c hc hcloses t ht hb
  rw [htrades] at hc ht
  have hsame := hactions c hc hcloses
  refine ⟨hc, t, ht, hb, .same ?_ ?_ ?_⟩
  · have hrows : s'.saleRows t.id = s.saleRows t.id :=
      (Ledger.SameRows.mk htrades hallocations).saleRows t.id
    rw [hrows]
  · unfold eventsBy
    rw [hsame]
  · intro a ha hrel
    have hmem : a ∈ s'.actions.filter (relevant c) := List.mem_filter.mpr ⟨ha, hrel⟩
    rw [hsame] at hmem
    exact ⟨a, (List.mem_filter.mp hmem).1, hrel, rfl, rfl, rfl⟩

/-- Whether an action written re-bases no holding an operation consumed, nor did before. -/
def KeepsEvents (s : Ledger) (action : CorporateAction) : Prop :=
  ∀ c ∈ s.trades, closes c = true → relevant c action = false ∧
    ∀ stored ∈ s.actions, stored.id = action.id → relevant c stored = false

instance (s : Ledger) (action : CorporateAction) : Decidable (KeepsEvents s action) :=
  inferInstanceAs (Decidable (∀ c ∈ s.trades, _ → _ ∧ ∀ stored ∈ s.actions, _ → _))

theorem Carries.writeAction {s s' : Ledger} {action : CorporateAction} {changed : Bool}
    {recount : Recount} (hkeeps : KeepsEvents s action) (hcounts : KeepsCounts s recount)
    (h : (s.writeAction D action changed recount).Yields s') : Carries s s' := by
  unfold Ledger.writeAction at h
  obtain ⟨_, -, h⟩ := yields_bind.mp h
  obtain ⟨settled, hsettled, h⟩ := yields_bind.mp h
  obtain ⟨_, -, h⟩ := yields_bind.mp h
  obtain rfl := yields_pure.mp h
  refine Carries.settled ?_ hcounts hsettled
  refine .of_relevant rfl rfl fun c hc hcloses => ?_
  obtain ⟨hnew, hold⟩ := hkeeps c hc hcloses
  unfold Ledger.putAction
  rw [List.filter_append, List.filter_cons_of_neg, List.filter_nil, List.append_nil,
    List.filter_filter]
  · refine List.filter_congr fun a ha => ?_
    by_cases hid : a.id = action.id
    · rw [hold a ha hid, Bool.false_and]
    · simp [hid]
  · rw [Bool.not_eq_true]
    exact hnew

theorem Carries.deleteAction {s s' : Ledger} {id : ℤ} {recount : Recount} (hs : s.Valid D)
    (hcounts : KeepsCounts s recount) (h : (s.deleteAction D id recount).Yields s') :
    Carries s s' := by
  unfold Ledger.deleteAction at h
  obtain ⟨action, haction, h⟩ := yields_bind.mp h
  obtain ⟨_, hlater, h⟩ := yields_bind.mp h
  obtain ⟨_, -, h⟩ := yields_bind.mp h
  have haction := Attempt.yields_orRefuse.mp haction
  have hlater := yields_refuseIf.mp hlater
  refine Carries.settled ?_ hcounts h
  refine .of_relevant rfl rfl fun c hc hcloses => ?_
  rw [List.filter_filter]
  refine List.filter_congr fun a ha => ?_
  by_cases hid : a.id = id
  · have hfound := List.find?_some haction
    have heq : a = action := hs.rows.unique_actions a ha action (List.mem_of_find?_eq_some haction)
      (hid.trans (of_decide_eq_true hfound).symm)
    have hirrelevant : relevant c a = false := by
      refine Bool.eq_false_iff.mpr fun hrel => hlater ?_
      unfold relevant at hrel
      simp only [Bool.and_eq_true, decide_eq_true_eq] at hrel
      rw [heq] at hrel
      exact ⟨hrel.2, c, hc, hrel.1.1.symm, hrel.1.2⟩
    rw [hirrelevant, Bool.false_and]
  · simp [hid]

/-! ### Sells written and deleted -/

theorem Carries.writeSell {s s' : Ledger} {id : TradeId} {body : SellBody} {recount : Recount}
    (hstays : Stays s (fun _ => true) (rowsAfterSell s id body)) (hcounts : KeepsCounts s recount)
    (h : (s.writeSell D id body recount).Yields s') : Carries s s' := by
  unfold Ledger.writeSell at h
  obtain ⟨_, -, h⟩ := yields_bind.mp h
  obtain ⟨mid, hmid, h⟩ := yields_bind.mp h
  exact Carries.settled (.upsertSell rfl hstays hmid) hcounts h

/-- Whether a trade is deleted with the Sell `id`. -/
def deletedWith (s : Ledger) (id i : TradeId) : Bool :=
  i = id || (s.trade? id).any fun t => (s.replacements t).any fun u => u.id = i

theorem Carries.deleteSell {s s' : Ledger} {id : TradeId} {recount : Recount}
    (hstays : Stays s (fun c => !deletedWith s id c.id) fun parcel =>
      (s.saleRows parcel).filter fun r => !deletedWith s id r.1)
    (hcounts : KeepsCounts s recount) (h : (s.deleteSell D id recount).Yields s') :
    Carries s s' := by
  unfold Ledger.deleteSell at h
  obtain ⟨t, ht, h⟩ := yields_bind.mp h
  obtain ⟨_, -, h⟩ := yields_bind.mp h
  obtain ⟨_, -, h⟩ := yields_bind.mp h
  obtain ⟨_, -, h⟩ := yields_bind.mp h
  obtain ⟨mid, hmid, h⟩ := yields_bind.mp h
  have hgone : (deletedWith s id) = fun i =>
      decide (i = id) || (s.replacements t).any fun u => decide (u.id = i) := by
    funext i
    unfold deletedWith
    rw [Attempt.yields_orRefuse.mp ht, Option.any_some]
  rw [hgone] at hstays
  exact Carries.settled (.remove hstays hmid) hcounts h

/-- Only a trade no allocation names is deleted on its own. -/
theorem Carries.deleteTrade {s s' : Ledger} {id : TradeId} {recount : Recount}
    (hcounts : KeepsCounts s recount) (h : (s.deleteTrade D id recount).Yields s') :
    Carries s s' := by
  unfold Ledger.deleteTrade at h
  obtain ⟨_, -, h⟩ := yields_bind.mp h
  obtain ⟨_, -, h⟩ := yields_bind.mp h
  obtain ⟨_, hfree, h⟩ := yields_bind.mp h
  obtain ⟨mid, hmid, h⟩ := yields_bind.mp h
  have hfree := yields_refuseIf.mp hfree
  refine Carries.settled (.remove ?_ hmid) hcounts h
  intro c _ _ _ t _ _
  have hall : (s.saleRows t.id).filter (fun r => !decide (r.1 = id)) = s.saleRows t.id := by
    refine List.filter_eq_self.mpr fun r hr => ?_
    obtain ⟨a, ha, -, -, -, rfl⟩ := Ledger.mem_saleRows hr
    rw [Bool.not_eq_true', decide_eq_false_iff_not]
    intro hsale
    refine hfree (List.any_eq_true.mpr ⟨a, ha, ?_⟩)
    exact (Bool.or_eq_true _ _).mpr (.inr (decide_eq_true hsale))
  simp only [hall]
  exact List.Sublist.refl _

/-! ### Parcels and transfers -/

theorem Clear.recordParcel {s s' : Ledger} {listing : ListingId} {date : NaiveDate} {t : Trade}
    (hclear : Clear s listing date) (h : (s.recordParcel t).Yields s') :
    Clear s' listing date := by
  obtain ⟨rfl, hacq, -⟩ := recordParcel_effect h
  intro c hc hcloses
  rcases List.mem_append.mp hc with hc | hc
  · exact hclear c hc hcloses
  · rw [List.mem_singleton.mp hc, not_closes_of_acquisition hacq] at hcloses
    cases hcloses

theorem Clear.insertSell {s s' : Ledger} {listing : ListingId} {date : NaiveDate} {id : TradeId}
    {provenance : Option Provenance} {body : SellBody}
    (hopen : closes (body.row id provenance) = false) (hclear : Clear s listing date)
    (h : (s.insertSell D id provenance body).Yields s') : Clear s' listing date := by
  unfold Ledger.insertSell at h
  obtain ⟨_, -, h⟩ := yields_bind.mp h
  intro c hc hcloses
  rcases (mem_trades_upsert h).mp hc with ⟨hc, -⟩ | rfl
  · exact hclear c hc hcloses
  · rw [hopen] at hcloses
    cases hcloses

theorem Carries.recordParcelAt {s s' : Ledger} {t : Trade} (hs : s.Rows)
    (hclear : Clear s t.listing t.date) (h : (s.recordParcel t).Yields s') : Carries s s' :=
  .recordParcel hs (fun _ hc hcloses => hclear.not_behind hc hcloses) h

theorem Carries.writeTransferIns {s s' : Ledger} {body : TransferBody} {ids : TransferIds}
    {allocs : List AllocationInput} (hs : s.Valid D) (hclear : Clear s body.listing body.date)
    (h : (allocs.foldlM (Ledger.writeTransferIn body ids) s).Yields s') : Carries s s' := by
  induction allocs generalizing s with
  | nil =>
    obtain rfl := yields_pure.mp h
    exact .refl s
  | cons a allocs ih =>
    rw [List.foldlM_cons] at h
    obtain ⟨mid, hmid, h⟩ := yields_bind.mp h
    unfold Ledger.writeTransferIn at hmid
    obtain ⟨_, -, hmid⟩ := yields_bind.mp hmid
    have hfirst : Carries s mid := .recordParcelAt hs.rows hclear hmid
    exact hfirst.trans (ih (hs.recordParcel hmid) (hclear.recordParcel hmid) h)

theorem Carries.withTransfers (s : Ledger) (transfers : List Transfer) :
    Carries s { s with transfers := transfers } :=
  .of_relevant rfl rfl fun _ _ _ => rfl

theorem Carries.writeFeeSale {s s' : Ledger} {body : TransferBody} {ids : TransferIds}
    (h : (s.writeFeeSale D body ids).Yields s') : Carries s s' := by
  unfold Ledger.writeFeeSale at h
  split at h
  · obtain rfl := yields_pure.mp h
    exact .withTransfers s _
  · obtain ⟨_, -, h⟩ := yields_bind.mp h
    obtain ⟨feeBody, -, h⟩ := yields_bind.mp h
    obtain ⟨mid, hmid, h⟩ := yields_bind.mp h
    obtain rfl := yields_pure.mp h
    exact (Carries.insertSell rfl hmid).trans (.withTransfers mid _)

theorem Carries.writeTransfer {s s' : Ledger} {ids : TransferIds} {body : TransferBody}
    {recount : Recount} (hs : s.Valid D) (hclear : Clear s body.listing body.date)
    (hcounts : KeepsCounts s recount) (h : (s.writeTransfer D ids body recount).Yields s') :
    Carries s s' := by
  unfold Ledger.writeTransfer at h
  obtain ⟨_, -, h⟩ := yields_bind.mp h
  obtain ⟨_, -, h⟩ := yields_bind.mp h
  obtain ⟨_, -, h⟩ := yields_bind.mp h
  obtain ⟨_, -, h⟩ := yields_bind.mp h
  obtain ⟨sellBody, hbody, h⟩ := yields_bind.mp h
  obtain ⟨mid, hsell, h⟩ := yields_bind.mp h
  obtain ⟨mid', hins, h⟩ := yields_bind.mp h
  obtain ⟨mid'', hfee, h⟩ := yields_bind.mp h
  have hout : Carries s mid := .insertSell rfl hsell
  have hin : Carries mid mid' :=
    .writeTransferIns (hs.insertSell hsell) (hclear.insertSell rfl hsell) hins
  exact Carries.settled (hout.trans (hin.trans (.writeFeeSale hfee))) hcounts h

/-- Whether a trade is deleted with the transfer `id`. -/
def transferredWith (s : Ledger) (id : ℤ) (i : TradeId) : Bool :=
  (s.transfers.find? fun t => t.id = id).any fun transfer =>
    (s.trades.filter fun t => t.provenance = some (.transfer id) ||
      transfer.feeSale = some t.id).any fun t => t.id = i

theorem Carries.deleteTransfer {s s' : Ledger} {id : ℤ} {recount : Recount}
    (hstays : Stays s (fun c => !transferredWith s id c.id) fun parcel =>
      (s.saleRows parcel).filter fun r => !transferredWith s id r.1)
    (hcounts : KeepsCounts s recount) (h : (s.deleteTransfer D id recount).Yields s') :
    Carries s s' := by
  unfold Ledger.deleteTransfer at h
  obtain ⟨transfer, htransfer, h⟩ := yields_bind.mp h
  obtain ⟨_, -, h⟩ := yields_bind.mp h
  obtain ⟨mid, hmid, h⟩ := yields_bind.mp h
  have hgone : (transferredWith s id) = fun i =>
      (s.trades.filter fun t => decide (t.provenance = some (.transfer id)) ||
        decide (transfer.feeSale = some t.id)).any fun t => decide (t.id = i) := by
    funext i
    unfold transferredWith
    rw [Attempt.yields_orRefuse.mp htransfer, Option.any_some]
  rw [hgone] at hstays
  exact Carries.settled ((Carries.remove hstays hmid).trans (.withTransfers mid _)) hcounts h

/-- A buy-back or a cash in lieu: a Sell of part of the holding. -/
theorem Carries.operateOpen {s s' : Ledger} {id : TradeId} {provenance : Provenance}
    {body : SellBody} {recount : Recount} (hopen : provenance.closesWholeHolding = false)
    (hcounts : KeepsCounts s recount)
    (h : (s.operate D id provenance body [] recount).Yields s') : Carries s s' := by
  unfold Ledger.operate at h
  obtain ⟨mid, hsell, h⟩ := yields_bind.mp h
  obtain ⟨mid', hnone, h⟩ := yields_bind.mp h
  obtain rfl := yields_pure.mp hnone
  have hrow : closes (body.row id (some provenance)) = false := by
    simp [closes, SellBody.row, hopen]
  exact Carries.settled (.insertSell hrow hsell) hcounts h

theorem Carries.setUnitScale {s s' : Ledger} {recount : Recount} {touched : List ListingId}
    {scale : HoldingAccountId → ListingId → Option ℕ} (hcounts : KeepsCounts s recount)
    (h : ({ s with unitScale := scale }.dbSettle D recount touched).Yields s') : Carries s s' := by
  refine Carries.settled ?_ hcounts h
  exact .of_relevant rfl rfl fun _ _ _ => rfl

end ShareTracker.WholeHolding
