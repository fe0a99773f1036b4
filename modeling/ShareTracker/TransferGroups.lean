import ShareTracker.LedgerInvariant
import ShareTracker.Lib.Keyed

/-!
The trades of a transfer between accounts: a Sell and the Buys that carry its
units on, which together move nothing of their listing.
-/
namespace ShareTracker

/-- A trade's effect on the units of its listing. -/
def Trade.signed (t : Trade) : ℚ := if t.tradeType.isAcquisition then t.quantity else -t.quantity

def Trade.inTransfer (t : Trade) : Bool := t.provenance.any Provenance.isTransfer

/-- Whether what is written apart from a transfer is labelled as none of one. -/
def Write.labelled : Write → Bool
  | .recordParcel t _ => !t.inTransfer
  | .operate _ provenance _ replacements _ =>
    !provenance.isTransfer && replacements.all fun t => !t.inTransfer
  | _ => true

namespace Ledger

/-- The trades a transfer wrote. -/
def transferGroup (s : Ledger) (id : ℤ) : List Trade :=
  s.trades.filter fun t => t.provenance = some (.transfer id)

/-- Each transfer on record is of one listing and date, and nets to nothing; the
Sell that paid its fee is no part of it. -/
structure TransfersNet (s : Ledger) : Prop where
  unique : (s.trades.map Trade.id).Nodup
  fees : ∀ transfer ∈ s.transfers, ∀ id, transfer.feeSale = some id →
    ∃ t ∈ s.trades, t.id = id ∧ t.provenance = none ∧ t.tradeType = .sell
  fees_apart : ∀ transfer ∈ s.transfers, ∀ other ∈ s.transfers, ∀ id,
    transfer.feeSale = some id → other.feeSale = some id → transfer.id = other.id
  recorded : ∀ id, s.transferGroup id ≠ [] → ∃ t ∈ s.transfers, t.id = id
  together : ∀ id, ∀ t ∈ s.transferGroup id, ∀ u ∈ s.transferGroup id,
    t.listing = u.listing ∧ t.date = u.date
  nets : ∀ id, ((s.transferGroup id).map Trade.signed).sum = 0

variable {D : DecimalRounding} {s s' : Ledger}

/-- What leaves every group and fee as it is keeps the transfers. -/
theorem TransfersNet.of_groups (hs : s.TransfersNet) (hunique : (s'.trades.map Trade.id).Nodup)
    (hgroups : ∀ id, s'.transferGroup id = s.transferGroup id)
    (hfees : ∀ t ∈ s.trades, s.isTransferFeeSale t.id = true → t ∈ s'.trades)
    (htransfers : s'.transfers = s.transfers) : s'.TransfersNet where
  unique := hunique
  fees := by
    rw [htransfers]
    intro transfer htransfer id hid
    obtain ⟨t, ht, rfl, hrest⟩ := hs.fees transfer htransfer id hid
    exact ⟨t, hfees t ht (List.any_eq_true.mpr ⟨transfer, htransfer, decide_eq_true hid⟩), rfl, hrest⟩
  fees_apart := by
    rw [htransfers]
    exact hs.fees_apart
  recorded := by
    intro id hid
    rw [hgroups id] at hid
    rw [htransfers]
    exact hs.recorded id hid
  together := by
    intro id
    rw [hgroups id]
    exact hs.together id
  nets := by
    intro id
    rw [hgroups id]
    exact hs.nets id

/-! ### Trades put and taken away -/

theorem trade?_of_mem (hunique : (s.trades.map Trade.id).Nodup) {t : Trade} (h : t ∈ s.trades) :
    s.trade? t.id = some t := (Keyed.get?_eq_some hunique).mpr ⟨h, rfl⟩

theorem putTrade_unique (hunique : (s.trades.map Trade.id).Nodup) (t : Trade) :
    ((s.putTrade t).trades.map Trade.id).Nodup := Keyed.nodup_put hunique t

theorem putTrade_fresh {t : Trade} (h : s.trade? t.id = none) :
    (s.putTrade t).trades = s.trades ++ [t] := by
  have hother : ∀ u ∈ s.trades, decide (u.id ≠ t.id) = true := by
    intro u hu
    have hne := List.find?_eq_none.mp h u hu
    simpa using hne
  change s.trades.filter (fun u => decide (u.id ≠ t.id)) ++ [t] = _
  rw [List.filter_eq_self.mpr hother]

/-- A trade that is neither a transfer's nor its fee. -/
def Apart (s : Ledger) (t : Trade) : Prop :=
  t.inTransfer = false ∧ s.isTransferFeeSale t.id = false

theorem transferGroup_putTrade (hunique : (s.trades.map Trade.id).Nodup) {t : Trade}
    (hstored : ∀ u, s.trade? t.id = some u → s.Apart u) (ht : t.inTransfer = false)
    (id : ℤ) : (s.putTrade t).transferGroup id = s.transferGroup id := by
  have hnot : ¬ t.provenance = some (.transfer id) := by
    intro hprov
    rw [Trade.inTransfer, hprov] at ht
    exact Bool.noConfusion ht
  change (s.trades.filter _ ++ [t]).filter _ = _
  rw [List.filter_append, List.filter_cons_of_neg (by simpa using hnot), List.filter_nil,
    List.append_nil, List.filter_filter]
  refine List.filter_congr fun u hu => ?_
  by_cases hprov : u.provenance = some (.transfer id)
  · have hne : u.id ≠ t.id := by
      intro heq
      have hnone := (hstored u (heq ▸ trade?_of_mem hunique hu)).1
      rw [Trade.inTransfer, hprov] at hnone
      exact Bool.noConfusion hnone
    simp [hprov, hne]
  · simp [hprov]

theorem TransfersNet.putTrade (hs : s.TransfersNet) {t : Trade}
    (hstored : ∀ u, s.trade? t.id = some u → s.Apart u) (ht : t.inTransfer = false)
    (htrades : s'.trades = (s.putTrade t).trades) (htransfers : s'.transfers = s.transfers) :
    s'.TransfersNet := by
  refine hs.of_groups ?_ (fun id => ?_) (fun u hu hfee => ?_) htransfers
  · rw [htrades]
    exact putTrade_unique hs.unique t
  · rw [transferGroup, htrades]
    exact transferGroup_putTrade hs.unique hstored ht id
  · have hne : u.id ≠ t.id := by
      intro heq
      have hapart := (hstored u (heq ▸ trade?_of_mem hs.unique hu)).2
      rw [hfee] at hapart
      exact Bool.noConfusion hapart
    rw [htrades]
    exact List.mem_append_left _ (List.mem_filter.mpr ⟨hu, by simpa using hne⟩)

theorem dbSettle_kept {recount : Recount} {dirty : List ListingId}
    (h : (s.dbSettle D recount dirty).answer = .ok s') :
    s'.trades = s.trades ∧ s'.transfers = s.transfers := by
  have hkeep : ∀ m : Ledger, m.trades = s.trades ∧ m.transfers = s.transfers → ∀ l ∈ dirty, ∀ m',
      (m.settleListing D recount l).answer = .ok m' →
        m'.trades = s.trades ∧ m'.transfers = s.transfers := by
    intro m hm l _ m' hm'
    unfold settleListing at hm'
    obtain ⟨_, -, hm'⟩ := answer_bind.mp hm'
    obtain rfl := answer_pure.mp hm'
    exact hm
  exact Attempt.answer_foldlM hkeep ⟨rfl, rfl⟩ h

theorem TransfersNet.settled (hs : s.TransfersNet) {recount : Recount} {dirty : List ListingId}
    (h : (s.dbSettle D recount dirty).Yields s') : s'.TransfersNet := by
  obtain ⟨htrades, htransfers⟩ := dbSettle_kept h.1
  refine hs.of_groups (htrades ▸ hs.unique) (fun id => ?_) (fun t ht _ => htrades ▸ ht) htransfers
  rw [transferGroup, htrades, transferGroup]

theorem upsertSellInTx_kept {id : TradeId} {provenance : Option Provenance} {body : SellBody}
    (h : (s.upsertSellInTx D id provenance body).Yields s') :
    s'.trades = (s.putTrade (body.row id provenance)).trades ∧ s'.transfers = s.transfers := by
  unfold Ledger.upsertSellInTx at h
  iterate 5 obtain ⟨_, -, h⟩ := yields_bind.mp h
  have hkeep : ∀ m : Ledger,
      (m.trades = (s.putTrade (body.row id provenance)).trades ∧ m.transfers = s.transfers) →
        ∀ a ∈ body.allocations, ∀ m', (m.allocate D id body provenance a).answer = .ok m' →
          m'.trades = (s.putTrade (body.row id provenance)).trades ∧ m'.transfers = s.transfers := by
    intro m hm a _ m' hm'
    unfold Ledger.allocate at hm'
    iterate 8 obtain ⟨_, -, hm'⟩ := answer_bind.mp hm'
    obtain rfl := answer_pure.mp hm'
    exact hm
  have hdropped : ((s.putTrade (body.row id provenance)).dropAllocations id).trades =
      (s.putTrade (body.row id provenance)).trades ∧
      ((s.putTrade (body.row id provenance)).dropAllocations id).transfers = s.transfers :=
    ⟨rfl, rfl⟩
  exact Attempt.answer_foldlM hkeep hdropped h.1

/-- A Sell's quantity is what its allocations add up to. -/
theorem upsertSellInTx_quantity {id : TradeId} {provenance : Option Provenance} {body : SellBody}
    (h : (s.upsertSellInTx D id provenance body).Yields s') :
    body.quantity = (body.allocations.map fun a => a.quantityAllocated.value).sum := by
  unfold Ledger.upsertSellInTx at h
  obtain ⟨_, -, h⟩ := yields_bind.mp h
  obtain ⟨total, htotal, h⟩ := yields_bind.mp h
  obtain ⟨_, hmatch, -⟩ := yields_bind.mp h
  have hmatch : total = body.quantity := not_not.mp (yields_refuseIf.mp hmatch)
  rw [← hmatch, DecimalRounding.of_yields_sum htotal]

theorem insertSell_kept {id : TradeId} {provenance : Option Provenance} {body : SellBody}
    (h : (s.insertSell D id provenance body).Yields s') :
    s.trade? id = none ∧ s'.trades = s.trades ++ [body.row id provenance] ∧
      s'.transfers = s.transfers ∧
      body.quantity = (body.allocations.map fun a => a.quantityAllocated.value).sum := by
  unfold Ledger.insertSell at h
  obtain ⟨_, hfresh, h⟩ := yields_bind.mp h
  have hfresh : s.trade? id = none := by simpa using yields_refuseIf.mp hfresh
  obtain ⟨htrades, htransfers⟩ := upsertSellInTx_kept h
  exact ⟨hfresh, htrades.trans (putTrade_fresh hfresh), htransfers, upsertSellInTx_quantity h⟩

theorem TransfersNet.insertSell (hs : s.TransfersNet) {id : TradeId}
    {provenance : Option Provenance} {body : SellBody}
    (hlabel : provenance.any Provenance.isTransfer = false)
    (h : (s.insertSell D id provenance body).Yields s') : s'.TransfersNet := by
  obtain ⟨hfresh, htrades, htransfers, -⟩ := insertSell_kept h
  refine hs.putTrade (t := body.row id provenance) (fun u hu => ?_) hlabel ?_ htransfers
  · rw [show (body.row id provenance).id = id from rfl, hfresh] at hu
    cases hu
  · rw [htrades, putTrade_fresh hfresh]

theorem recordParcel_kept {t : Trade} (h : (s.recordParcel t).Yields s') :
    s.trade? t.id = none ∧ t.tradeType.isAcquisition = true ∧ s'.trades = s.trades ++ [t] ∧
      s'.transfers = s.transfers := by
  unfold Ledger.recordParcel Ledger.insertTrade at h
  obtain ⟨_, hacq, h⟩ := yields_bind.mp h
  obtain ⟨_, -, h⟩ := yields_bind.mp h
  obtain ⟨_, hfresh, h⟩ := yields_bind.mp h
  obtain rfl := yields_pure.mp h
  have hacq : t.tradeType.isAcquisition = true := by simpa using yields_refuseIf.mp hacq
  have hfresh : s.trade? t.id = none := by simpa using yields_refuseIf.mp hfresh
  exact ⟨hfresh, hacq, rfl, rfl⟩

theorem TransfersNet.recordParcel (hs : s.TransfersNet) {t : Trade} (ht : t.inTransfer = false)
    (h : (s.recordParcel t).Yields s') : s'.TransfersNet := by
  obtain ⟨hfresh, -, htrades, htransfers⟩ := recordParcel_kept h
  refine hs.putTrade (t := t) (fun u hu => ?_) ht ?_ htransfers
  · rw [hfresh] at hu
    cases hu
  · rw [htrades, putTrade_fresh hfresh]

theorem TransfersNet.recordParcels (hs : s.TransfersNet) {ts : List Trade}
    (hts : ∀ t ∈ ts, t.inTransfer = false) (h : (s.recordParcels ts).Yields s') :
    s'.TransfersNet := by
  unfold Ledger.recordParcels at h
  induction ts generalizing s with
  | nil => exact yields_pure.mp h ▸ hs
  | cons t ts ih =>
    rw [List.foldlM_cons] at h
    obtain ⟨mid, hmid, h⟩ := yields_bind.mp h
    exact ih (hs.recordParcel (hts t List.mem_cons_self) hmid)
      (fun u hu => hts u (List.mem_cons_of_mem t hu)) h

theorem remove_kept {gone : TradeId → Bool} (h : (s.remove gone).Yields s') :
    s'.trades = s.trades.filter (fun t => !gone t.id) ∧ s'.transfers = s.transfers := by
  unfold Ledger.remove at h
  obtain ⟨_, -, h⟩ := yields_bind.mp h
  obtain rfl := yields_pure.mp h
  exact ⟨rfl, rfl⟩

/-- Trades taken away, none of them a transfer's. -/
theorem TransfersNet.remove (hs : s.TransfersNet) {gone : TradeId → Bool}
    (hgone : ∀ t ∈ s.trades, gone t.id = true → s.Apart t)
    (h : (s.remove gone).Yields s') : s'.TransfersNet := by
  obtain ⟨htrades, htransfers⟩ := remove_kept h
  refine hs.of_groups ?_ (fun id => ?_) (fun t ht hfee => ?_) htransfers
  · rw [htrades]
    exact Keyed.nodup_filter hs.unique _
  · rw [transferGroup, htrades, List.filter_filter, transferGroup]
    refine List.filter_congr fun t ht => ?_
    by_cases hprov : t.provenance = some (.transfer id)
    · have hkept : gone t.id = false := by
        refine Bool.eq_false_of_not_eq_true fun hgoes => ?_
        have hnone := (hgone t ht hgoes).1
        rw [Trade.inTransfer, hprov] at hnone
        exact Bool.noConfusion hnone
      simp [hprov, hkept]
    · simp [hprov]
  · have hkept : gone t.id = false := by
      refine Bool.eq_false_of_not_eq_true fun hgoes => ?_
      have hapart := (hgone t ht hgoes).2
      rw [hfee] at hapart
      exact Bool.noConfusion hapart
    rw [htrades]
    exact List.mem_filter.mpr ⟨ht, by simp [hkept]⟩

/-! ### Transfers -/

theorem trade?_append_fresh {ts : List Trade} {t : Trade} (h : s.trades = ts)
    (hfresh : s.trade? t.id = none) (hunique : (ts.map Trade.id).Nodup) :
    ((ts ++ [t]).map Trade.id).Nodup := by
  have hput := putTrade_unique (h ▸ hunique) t
  rwa [putTrade_fresh hfresh, h] at hput

theorem writeTransferIns_kept {body : TransferBody} {ids : TransferIds}
    {allocs : List AllocationInput} (hunique : (s.trades.map Trade.id).Nodup)
    (h : (allocs.foldlM (Ledger.writeTransferIn body ids) s).Yields s') :
    s'.trades = s.trades ++ allocs.map (body.transferIn ids) ∧ s'.transfers = s.transfers ∧
      (s'.trades.map Trade.id).Nodup := by
  induction allocs generalizing s with
  | nil =>
    obtain rfl := yields_pure.mp h
    exact ⟨(List.append_nil _).symm, rfl, hunique⟩
  | cons a allocs ih =>
    rw [List.foldlM_cons] at h
    obtain ⟨mid, hmid, h⟩ := yields_bind.mp h
    unfold Ledger.writeTransferIn at hmid
    obtain ⟨_, -, hmid⟩ := yields_bind.mp hmid
    obtain ⟨hfresh, -, htrades, htransfers⟩ := recordParcel_kept hmid
    have hmidUnique : (mid.trades.map Trade.id).Nodup := by
      rw [htrades]
      exact trade?_append_fresh rfl hfresh hunique
    obtain ⟨hrest, hrestTransfers, hunique'⟩ := ih hmidUnique h
    refine ⟨?_, hrestTransfers.trans htransfers, hunique'⟩
    rw [hrest, htrades, List.append_assoc, List.map_cons, List.singleton_append]

theorem writeFeeSale_kept {body : TransferBody} {ids : TransferIds}
    (hunique : (s.trades.map Trade.id).Nodup) (h : (s.writeFeeSale D body ids).Yields s') :
    ∃ fee : Option Trade, (∀ t ∈ fee, t.provenance = none ∧ t.tradeType = .sell) ∧
      s'.trades = s.trades ++ fee.toList ∧ (s'.trades.map Trade.id).Nodup ∧
      s'.transfers = s.transfers ++ [⟨ids.transfer, fee.map Trade.id⟩] := by
  unfold Ledger.writeFeeSale at h
  split at h
  · obtain rfl := yields_pure.mp h
    exact ⟨none, by simp, (List.append_nil _).symm, hunique, rfl⟩
  · obtain ⟨_, -, h⟩ := yields_bind.mp h
    obtain ⟨feeBody, -, h⟩ := yields_bind.mp h
    obtain ⟨sold, hsold, h⟩ := yields_bind.mp h
    obtain rfl := yields_pure.mp h
    obtain ⟨hfresh, htrades, htransfers, -⟩ := insertSell_kept hsold
    refine ⟨some (feeBody.row ids.feeSell none), ?_, htrades, ?_, by rw [← htransfers]; rfl⟩
    · intro t ht
      rw [← Option.some_inj.mp ht]
      exact ⟨rfl, rfl⟩
    · exact htrades ▸ trade?_append_fresh (t := feeBody.row ids.feeSell none) rfl hfresh hunique

theorem signed_row (body : SellBody) (id : TradeId) (provenance : Option Provenance) :
    (body.row id provenance).signed = -body.quantity := rfl

theorem closingSellBody_fields {date : NaiveDate} {listing : ListingId} {account : HoldingAccountId}
    {allocs : List AllocationInput} {b : SellBody}
    (h : (closingSellBody D date listing account allocs).Yields b) :
    b.date = date ∧ b.listing = listing ∧ b.allocations = allocs := by
  unfold closingSellBody at h
  obtain ⟨total, -, h⟩ := yields_bind.mp h
  obtain rfl := yields_pure.mp h
  exact ⟨rfl, rfl, rfl⟩

/-- One more group, of one listing and date, that nets to nothing. -/
theorem TransfersNet.add_group (hs : s.TransfersNet) {id : ℤ} {group : List Trade}
    {fee : Option Trade} (hnew : ∀ t ∈ s.transfers, t.id ≠ id)
    (hunique : (s'.trades.map Trade.id).Nodup)
    (htrades : s'.trades = s.trades ++ (group ++ fee.toList))
    (htransfers : s'.transfers = s.transfers ++ [⟨id, fee.map Trade.id⟩])
    (hfee : ∀ t ∈ fee, t.provenance = none ∧ t.tradeType = .sell)
    (hgroup : ∀ t ∈ group, t.provenance = some (.transfer id))
    (htogether : ∀ t ∈ group, ∀ u ∈ group, t.listing = u.listing ∧ t.date = u.date)
    (hnets : (group.map Trade.signed).sum = 0) : s'.TransfersNet := by
  have hsplit : ∀ i, s'.transferGroup i =
      s.transferGroup i ++ group.filter fun t => t.provenance = some (.transfer i) := by
    intro i
    have hfeeNone : fee.toList.filter (fun t => t.provenance = some (.transfer i)) = [] :=
      List.filter_eq_nil_iff.mpr fun t ht => by simp [hfee t (Option.mem_toList.mp ht)]
    rw [transferGroup, htrades, List.filter_append, List.filter_append, hfeeNone, List.append_nil,
      transferGroup]
  have hnone : s.transferGroup id = [] := by
    by_contra hsome
    obtain ⟨t, ht, heq⟩ := hs.recorded id hsome
    exact hnew t ht heq
  have hself : s'.transferGroup id = group := by
    rw [hsplit, hnone, List.nil_append]
    exact List.filter_eq_self.mpr fun t ht => decide_eq_true (hgroup t ht)
  have hother : ∀ i, i ≠ id → s'.transferGroup i = s.transferGroup i := by
    intro i hi
    have hgroupNone : group.filter (fun t => t.provenance = some (.transfer i)) = [] :=
      List.filter_eq_nil_iff.mpr fun t ht => by simp [hgroup t ht, Ne.symm hi]
    rw [hsplit, hgroupNone, List.append_nil]
  have hmem : ∀ transfer ∈ s'.transfers, transfer ∈ s.transfers ∨
      transfer = ⟨id, fee.map Trade.id⟩ := by
    intro transfer htransfer
    rw [htransfers] at htransfer
    exact (List.mem_append.mp htransfer).imp_right List.mem_singleton.mp
  have hapart : ∀ transfer ∈ s.transfers, ∀ i, transfer.feeSale = some i →
      fee.map Trade.id ≠ some i := by
    intro transfer htransfer i hi hsome
    obtain ⟨t, ht, hid, -⟩ := hs.fees transfer htransfer i hi
    obtain ⟨u, rfl, hu⟩ := Option.map_eq_some_iff.mp hsome
    rw [htrades, List.map_append, List.map_append] at hunique
    refine (List.nodup_append.mp hunique).2.2 t.id (List.mem_map_of_mem ht) u.id ?_ (hid.trans hu.symm)
    exact List.mem_append_right _ (List.mem_map_of_mem (Option.mem_toList.mpr rfl))
  refine ⟨hunique, ?_, ?_, fun i hi => ?_, fun i => ?_, fun i => ?_⟩
  · intro transfer htransfer i hi
    rw [htrades]
    rcases hmem transfer htransfer with hold | rfl
    · obtain ⟨t, ht, hrest⟩ := hs.fees transfer hold i hi
      exact ⟨t, List.mem_append_left _ ht, hrest⟩
    · obtain ⟨t, ht, hid⟩ := Option.map_eq_some_iff.mp hi
      refine ⟨t, ?_, hid, hfee t ht⟩
      exact List.mem_append_right _ (List.mem_append_right _ (Option.mem_toList.mpr ht))
  · intro transfer htransfer other hother' i hi hi'
    rcases hmem transfer htransfer with hold | rfl
    · rcases hmem other hother' with hold' | rfl
      · exact hs.fees_apart transfer hold other hold' i hi hi'
      · exact absurd hi' (hapart transfer hold i hi)
    · rcases hmem other hother' with hold' | rfl
      · exact absurd hi (hapart other hold' i hi')
      · rfl
  · by_cases heq : i = id
    · exact ⟨⟨id, fee.map Trade.id⟩, by simp [htransfers], heq.symm⟩
    · obtain ⟨t, ht, hid⟩ := hs.recorded i (hother i heq ▸ hi)
      exact ⟨t, by simp [htransfers, ht], hid⟩
  · by_cases heq : i = id
    · rw [heq, hself]
      exact htogether
    · rw [hother i heq]
      exact hs.together i
  · by_cases heq : i = id
    · rw [heq, hself, hnets]
    · rw [hother i heq]
      exact hs.nets i

/-- A transfer's Buys carry on what its Sell takes. -/
theorem TransfersNet.writeTransfer (hs : s.TransfersNet) {ids : TransferIds} {body : TransferBody}
    {recount : Recount} (h : (s.writeTransfer D ids body recount).Yields s') :
    s'.TransfersNet := by
  unfold Ledger.writeTransfer at h
  obtain ⟨_, -, h⟩ := yields_bind.mp h
  obtain ⟨_, -, h⟩ := yields_bind.mp h
  obtain ⟨_, hnew, h⟩ := yields_bind.mp h
  obtain ⟨_, -, h⟩ := yields_bind.mp h
  obtain ⟨sellBody, hbody, h⟩ := yields_bind.mp h
  obtain ⟨closed, hclosed, h⟩ := yields_bind.mp h
  obtain ⟨moved, hmoved, h⟩ := yields_bind.mp h
  obtain ⟨paid, hpaid, h⟩ := yields_bind.mp h
  refine TransfersNet.settled ?_ h
  have hnew : ∀ t ∈ s.transfers, t.id ≠ ids.transfer := fun t ht heq =>
    yields_refuseIf.mp hnew (List.any_eq_true.mpr ⟨t, ht, decide_eq_true heq⟩)
  obtain ⟨hdate, hlisting, hallocations⟩ := closingSellBody_fields hbody
  obtain ⟨hfresh, hclosedTrades, hclosedTransfers, hquantity⟩ := insertSell_kept hclosed
  have hclosedUnique : (closed.trades.map Trade.id).Nodup := by
    rw [hclosedTrades]
    exact trade?_append_fresh rfl hfresh hs.unique
  obtain ⟨hmovedTrades, hmovedTransfers, hmovedUnique⟩ := writeTransferIns_kept hclosedUnique hmoved
  obtain ⟨fee, hfee, hpaidTrades, hpaidUnique, hpaidTransfers⟩ :=
    writeFeeSale_kept hmovedUnique hpaid
  have hmember : ∀ t ∈ sellBody.row ids.sell (some (.transfer ids.transfer)) ::
      body.allocations.map (body.transferIn ids), t.provenance = some (.transfer ids.transfer) ∧
        t.listing = body.listing ∧ t.date = body.date := by
    intro t ht
    rcases List.mem_cons.mp ht with rfl | ht
    · exact ⟨rfl, hlisting, hdate⟩
    · obtain ⟨a, -, rfl⟩ := List.mem_map.mp ht
      exact ⟨rfl, rfl, rfl⟩
  refine hs.add_group hnew hpaidUnique ?_ ?_ hfee (fun t ht => (hmember t ht).1) ?_ ?_
  · rw [hpaidTrades, hmovedTrades, hclosedTrades]
    simp
  · rw [hpaidTransfers, hmovedTransfers, hclosedTransfers]
  · intro t ht u hu
    exact ⟨(hmember t ht).2.1.trans (hmember u hu).2.1.symm,
      (hmember t ht).2.2.trans (hmember u hu).2.2.symm⟩
  · rw [List.map_cons, List.sum_cons, List.map_map, signed_row, hquantity, hallocations]
    exact neg_add_cancel _

/-- An undone transfer takes its whole group with it. -/
theorem TransfersNet.deleteTransfer (hs : s.TransfersNet) {id : ℤ} {recount : Recount}
    (h : (s.deleteTransfer D id recount).Yields s') : s'.TransfersNet := by
  unfold Ledger.deleteTransfer at h
  obtain ⟨transfer, htransfer, h⟩ := yields_bind.mp h
  obtain ⟨_, -, h⟩ := yields_bind.mp h
  obtain ⟨mid, hmid, h⟩ := yields_bind.mp h
  obtain ⟨htrades, htransfers⟩ := remove_kept hmid
  refine TransfersNet.settled ?_ h
  have hgone : ∀ t ∈ s.trades, ((s.trades.filter fun t =>
      t.provenance = some (.transfer id) || transfer.feeSale = some t.id).any
        fun u => u.id = t.id) = (decide (t.provenance = some (.transfer id)) ||
          decide (transfer.feeSale = some t.id)) := by
    intro t ht
    refine Bool.eq_iff_iff.mpr ⟨fun hany => ?_, fun hself => ?_⟩
    · obtain ⟨u, hu, hid⟩ := List.any_eq_true.mp hany
      obtain ⟨hu, hkeep⟩ := List.mem_filter.mp hu
      rwa [Keyed.eq_of_key hs.unique hu ht (of_decide_eq_true hid)] at hkeep
    · exact List.any_eq_true.mpr ⟨t, List.mem_filter.mpr ⟨ht, hself⟩, decide_eq_true rfl⟩
  have htransfer := Attempt.yields_orRefuse.mp htransfer
  have hin : transfer ∈ s.transfers := List.mem_of_find?_eq_some htransfer
  have hid : transfer.id = id := by
    have hfound := List.find?_some htransfer
    exact of_decide_eq_true hfound
  have hfeeRow : ∀ t ∈ s.trades, transfer.feeSale = some t.id → t.provenance = none := by
    intro t ht hfee
    obtain ⟨u, hu, hideq, hprov, -⟩ := hs.fees transfer hin t.id hfee
    rwa [Keyed.eq_of_key hs.unique hu ht hideq] at hprov
  have hgroup : ∀ i, mid.transferGroup i = if i = id then [] else s.transferGroup i := by
    intro i
    rw [transferGroup, htrades, List.filter_filter]
    split
    · rename_i heq
      refine List.filter_eq_nil_iff.mpr fun t ht => ?_
      rw [hgone t ht, heq]
      simp +contextual
    · rename_i hne
      refine List.filter_congr fun t ht => ?_
      rw [hgone t ht]
      by_cases hprov : t.provenance = some (.transfer i)
      · have hnotFee : transfer.feeSale ≠ some t.id := by
          intro hfee
          rw [hfeeRow t ht hfee] at hprov
          cases hprov
        simp [hprov, hne, hnotFee]
      · simp [hprov]
  have hrest : ∀ other ∈ mid.transfers, other.id ≠ id → ∀ i, other.feeSale = some i →
      ∃ t ∈ mid.trades, t.id = i ∧ t.provenance = none ∧ t.tradeType = .sell := by
    intro other hother hne i hi
    rw [htransfers] at hother
    obtain ⟨t, ht, rfl, hprov, hsell⟩ := hs.fees other hother i hi
    refine ⟨t, ?_, rfl, hprov, hsell⟩
    rw [htrades]
    refine List.mem_filter.mpr ⟨ht, ?_⟩
    have hnotFee : transfer.feeSale ≠ some t.id := fun hfee =>
      hne ((hs.fees_apart other hother transfer hin t.id hi hfee).trans hid)
    rw [hgone t ht]
    simp [hprov, hnotFee]
  refine ⟨?_, ?_, ?_, fun i hi => ?_, fun i => ?_, fun i => ?_⟩
  · change (mid.trades.map Trade.id).Nodup
    rw [htrades]
    exact Keyed.nodup_filter hs.unique _
  · intro other hother i hi
    obtain ⟨hother, hne⟩ := List.mem_filter.mp hother
    exact hrest other hother (of_decide_eq_true hne) i hi
  · intro a ha b hb
    have ha := (List.mem_filter.mp ha).1
    have hb := (List.mem_filter.mp hb).1
    rw [htransfers] at ha hb
    exact hs.fees_apart a ha b hb
  · have hi : mid.transferGroup i ≠ [] := hi
    rw [hgroup] at hi
    have hne : i ≠ id := fun heq => hi (if_pos heq)
    rw [if_neg hne] at hi
    obtain ⟨t, ht, heq⟩ := hs.recorded i hi
    refine ⟨t, List.mem_filter.mpr ⟨htransfers ▸ ht, ?_⟩, heq⟩
    rw [heq]
    exact decide_eq_true hne
  · change ∀ t ∈ mid.transferGroup i, ∀ u ∈ mid.transferGroup i, _
    rw [hgroup]
    split
    · exact fun t ht => absurd ht List.not_mem_nil
    · exact hs.together i
  · change ((mid.transferGroup i).map Trade.signed).sum = 0
    rw [hgroup]
    split
    · simp
    · exact hs.nets i

/-! ### Runs -/

theorem apart_of_stored {stored : Trade} {u : Unit} (h : (s.refuseOperation stored).Yields u) :
    s.Apart stored := by
  unfold refuseOperation at h
  cases hprov : stored.provenance with
  | some p =>
    rw [hprov] at h
    exact absurd h Attempt.not_yields_refuse
  | none =>
    rw [hprov] at h
    refine ⟨by rw [Trade.inTransfer, hprov]; rfl, ?_⟩
    simpa using yields_refuseIf.mp h

theorem TransfersNet.writeSell (hs : s.TransfersNet) {id : TradeId} {body : SellBody}
    {recount : Recount} (h : (s.writeSell D id body recount).Yields s') : s'.TransfersNet := by
  unfold Ledger.writeSell at h
  obtain ⟨_, hstored, h⟩ := yields_bind.mp h
  obtain ⟨mid, hmid, h⟩ := yields_bind.mp h
  obtain ⟨htrades, htransfers⟩ := upsertSellInTx_kept hmid
  refine (hs.putTrade (t := body.row id none) ?_ rfl htrades htransfers).settled h
  intro u hu
  have hchecked := Attempt.yields_forM hstored u (Option.mem_toList.mpr hu)
  unfold checkSellEdit at hchecked
  obtain ⟨_, -, hchecked⟩ := yields_bind.mp hchecked
  exact apart_of_stored hchecked

theorem TransfersNet.writeTrade (hs : s.TransfersNet) {id : TradeId} {body : TradeBody}
    {recount : Recount} (h : (s.writeTrade D id body recount).Yields s') : s'.TransfersNet := by
  unfold Ledger.writeTrade at h
  obtain ⟨_, -, h⟩ := yields_bind.mp h
  obtain ⟨_, hstored, h⟩ := yields_bind.mp h
  obtain ⟨_, -, h⟩ := yields_bind.mp h
  obtain ⟨_, -, h⟩ := yields_bind.mp h
  obtain ⟨_, -, h⟩ := yields_bind.mp h
  refine (hs.putTrade ?_ ?_ rfl rfl).settled h
  · intro u hu
    have hchecked := Attempt.yields_forM hstored u (Option.mem_toList.mpr hu)
    unfold checkEdit at hchecked
    obtain ⟨_, hchecked, -⟩ := yields_bind.mp hchecked
    exact apart_of_stored hchecked
  · rfl

theorem TransfersNet.deleteSell (hs : s.TransfersNet) {id : TradeId} {recount : Recount}
    (h : (s.deleteSell D id recount).Yields s') : s'.TransfersNet := by
  unfold Ledger.deleteSell at h
  obtain ⟨t, ht, h⟩ := yields_bind.mp h
  obtain ⟨_, -, h⟩ := yields_bind.mp h
  obtain ⟨_, hfree, h⟩ := yields_bind.mp h
  obtain ⟨_, -, h⟩ := yields_bind.mp h
  obtain ⟨mid, hmid, h⟩ := yields_bind.mp h
  have ht := Attempt.yields_orRefuse.mp ht
  have hfree := yields_refuseIf.mp hfree
  simp only [Bool.or_eq_true, not_or, Bool.not_eq_true] at hfree
  refine (hs.remove (fun u hu hgoes => ?_) hmid).settled h
  rcases (Bool.or_eq_true _ _).mp hgoes with hself | hgroup
  · have hid : u.id = id := of_decide_eq_true hself
    obtain rfl : u = t := Option.some_inj.mp ((trade?_of_mem hs.unique hu).symm.trans (hid ▸ ht))
    exact ⟨hfree.1, hid ▸ hfree.2⟩
  · obtain ⟨v, hv, hid⟩ := List.any_eq_true.mp hgroup
    have hreplaces : v ∈ s.trades ∧ ∃ p, v.provenance = some p ∧ p.isTransfer = false := by
      unfold replacements at hv
      split at hv
      · obtain ⟨hmem, hkeep⟩ := List.mem_filter.mp hv
        exact ⟨hmem, _, of_decide_eq_true ((Bool.and_eq_true _ _).mp hkeep).1, rfl⟩
      · obtain ⟨hmem, hkeep⟩ := List.mem_filter.mp hv
        exact ⟨hmem, _, of_decide_eq_true ((Bool.and_eq_true _ _).mp hkeep).1, rfl⟩
      · exact absurd hv List.not_mem_nil
    obtain ⟨hmem, p, hprov, hp⟩ := hreplaces
    obtain rfl := Keyed.eq_of_key hs.unique hmem hu (of_decide_eq_true hid)
    refine ⟨by rw [Trade.inTransfer, hprov]; exact hp, ?_⟩
    refine Bool.eq_false_of_not_eq_true fun hfee => ?_
    obtain ⟨transfer, htransfer, hsale⟩ := List.any_eq_true.mp hfee
    obtain ⟨w, hw, hwid, hnone, -⟩ := hs.fees transfer htransfer v.id (of_decide_eq_true hsale)
    rw [Keyed.eq_of_key hs.unique hw hmem hwid, hprov] at hnone
    cases hnone

theorem TransfersNet.deleteTrade (hs : s.TransfersNet) (hvalid : s.Valid D) {id : TradeId}
    {recount : Recount} (h : (s.deleteTrade D id recount).Yields s') : s'.TransfersNet := by
  unfold Ledger.deleteTrade at h
  obtain ⟨t, ht, h⟩ := yields_bind.mp h
  obtain ⟨_, halone, h⟩ := yields_bind.mp h
  obtain ⟨_, hfree, h⟩ := yields_bind.mp h
  obtain ⟨mid, hmid, h⟩ := yields_bind.mp h
  have ht := Attempt.yields_orRefuse.mp ht
  have halone := yields_refuseIf.mp halone
  have hfree := yields_refuseIf.mp hfree
  refine (hs.remove (fun u hu hgoes => ?_) hmid).settled h
  have hid : u.id = id := of_decide_eq_true hgoes
  obtain rfl : u = t := Option.some_inj.mp ((trade?_of_mem hs.unique hu).symm.trans (hid ▸ ht))
  constructor
  · unfold Trade.inTransfer
    cases hprov : u.provenance with
    | none => rfl
    | some p =>
      rw [hprov] at halone
      cases p <;> simp_all [Provenance.deletedAlone, Provenance.isTransfer]
  · -- a fee's Sell draws what it sells, so it is not deleted on its own
    refine Bool.eq_false_of_not_eq_true fun hfee => ?_
    obtain ⟨transfer, htransfer, hsale⟩ := List.any_eq_true.mp hfee
    obtain ⟨w, hw, hwid, -, hsell⟩ := hs.fees transfer htransfer u.id (of_decide_eq_true hsale)
    obtain rfl := Keyed.eq_of_key hs.unique hw hu hwid
    have hsums := hvalid.sums w.id w (trade?_of_mem hs.unique hw) hsell
    have hpos := hvalid.rows.quantity_pos w.id w (trade?_of_mem hs.unique hw)
    have hnone : s.allocations.filter (fun a => decide (a.sale = w.id)) = [] := by
      refine List.filter_eq_nil_iff.mpr fun a ha hdraws => hfree ?_
      refine List.any_eq_true.mpr ⟨a, ha, ?_⟩
      simp [← hid, of_decide_eq_true hdraws]
    rw [SumsTo, hnone] at hsums
    exact absurd hsums hpos.ne

/-- What an accepted write that rounds nowhere keeps of the transfers. -/
theorem TransfersNet.step (hs : s.TransfersNet) (hvalid : s.Valid D) {w : Write}
    (hlabel : w.labelled = true) (h : (s.step D w).Yields s') : s'.TransfersNet := by
  cases w with
  | writeSell id body recount => exact hs.writeSell h
  | deleteSell id recount => exact hs.deleteSell h
  | writeTrade id body recount => exact hs.writeTrade h
  | recordParcel t recount =>
    obtain ⟨mid, hmid, h⟩ := yields_bind.mp h
    exact (hs.recordParcel (by simpa [Write.labelled] using hlabel) hmid).settled h
  | deleteTrade id recount => exact hs.deleteTrade hvalid h
  | writeTransfer ids body recount => exact hs.writeTransfer h
  | deleteTransfer id recount => exact hs.deleteTransfer h
  | operate id provenance body replacements recount =>
    have hlabels : provenance.isTransfer = false ∧ ∀ t ∈ replacements, t.inTransfer = false := by
      simpa [Write.labelled] using hlabel
    unfold Ledger.step Ledger.operate at h
    obtain ⟨closed, hclosed, h⟩ := yields_bind.mp h
    obtain ⟨replaced, hreplaced, h⟩ := yields_bind.mp h
    have hlabel : (some provenance).any Provenance.isTransfer = false := hlabels.1
    exact ((hs.insertSell hlabel hclosed).recordParcels hlabels.2 hreplaced).settled h
  | writeAction action changed recount =>
    unfold Ledger.step Ledger.writeAction at h
    obtain ⟨_, -, h⟩ := yields_bind.mp h
    obtain ⟨settled, hsettled, h⟩ := yields_bind.mp h
    obtain ⟨_, -, h⟩ := yields_bind.mp h
    obtain rfl := yields_pure.mp h
    refine TransfersNet.settled ?_ hsettled
    exact hs.of_groups hs.unique (fun _ => rfl) (fun _ ht _ => ht) rfl
  | deleteAction id recount =>
    unfold Ledger.step Ledger.deleteAction at h
    obtain ⟨action, -, h⟩ := yields_bind.mp h
    obtain ⟨_, -, h⟩ := yields_bind.mp h
    obtain ⟨_, -, h⟩ := yields_bind.mp h
    refine TransfersNet.settled ?_ h
    exact hs.of_groups hs.unique (fun _ => rfl) (fun _ ht _ => ht) rfl
  | setUnitScale scale recount touched =>
    refine TransfersNet.settled ?_ h
    exact hs.of_groups hs.unique (fun _ => rfl) (fun _ ht _ => ht) rfl

theorem transfersNet_empty : Ledger.empty.TransfersNet where
  unique := List.nodup_nil
  fees := fun _ h => absurd h List.not_mem_nil
  fees_apart := fun _ h => absurd h List.not_mem_nil
  recorded := fun _ h => absurd rfl h
  together := fun _ _ h => absurd h List.not_mem_nil
  nets := fun _ => rfl

/-- Every run of accepted writes that round nowhere keeps the rows and the
transfers in order. -/
theorem TransfersNet.run {ws : List Write} (hs : s.TransfersNet) (hvalid : s.Valid D)
    (hlabels : ∀ w ∈ ws, w.labelled = true) (h : s.run D ws = .ok s')
    (hexact : s.roundsNowhere D ws = true) : s'.Valid D ∧ s'.TransfersNet := by
  induction ws generalizing s with
  | nil =>
    cases h
    exact ⟨hvalid, hs⟩
  | cons w ws ih =>
    unfold Ledger.run at h
    unfold Ledger.roundsNowhere at hexact
    obtain ⟨hstep, hrest⟩ := (Bool.and_eq_true _ _).mp hexact
    cases hanswer : (s.step D w).answer with
    | error e =>
      rw [hanswer] at h
      cases h
    | ok mid =>
      rw [hanswer] at h hrest
      exact ih (hs.step hvalid (hlabels w List.mem_cons_self) ⟨hanswer, hstep⟩)
        (hvalid.step ⟨hanswer, hstep⟩) (fun v hv => hlabels v (List.mem_cons_of_mem w hv)) h hrest

/-- In every state that accepted writes reach without rounding, a transfer's trades
are on record, of one listing and date, and net to nothing; the Sell of its fee is
apart from every transfer's trades and pays for that transfer alone. -/
theorem every_transfer_nets (D : DecimalRounding) (ws : List Write) (s : Ledger)
    (hrun : empty.run D ws = .ok s) (hexact : empty.roundsNowhere D ws = true)
    (hlabels : ∀ w ∈ ws, w.labelled = true) : s.TransfersNet :=
  (transfersNet_empty.run (valid_empty D) hlabels hrun hexact).2

/-- 100 units, 90 of them moved to another account for a fee of one. -/
def movedForFee : List Write := [
  .writeTrade 1 ⟨ymd 2024 1 2, 1, 1, 100⟩ noCounts,
  .writeTransfer ⟨1, 2, fun _ => 3, 4⟩
    ⟨1, ymd 2024 5 1, 1, 2, [⟨1, .new 90 0⟩], [⟨1, .new 1 0⟩]⟩ noCounts]

theorem every_transfer_nets_fee : ∃ s, empty.run halfEvenRounding movedForFee = .ok s ∧
    (s.transferGroup 1).length = 2 ∧ s.TransfersNet := by
  have hrun : Checked.accepts (empty.run halfEvenRounding movedForFee) (fun s =>
      decide ((s.transferGroup 1).length = 2)) = true := by
    decide +kernel
  obtain ⟨s, hs, hgroup⟩ := Checked.accepts_iff.mp hrun
  exact ⟨s, hs, of_decide_eq_true hgroup, every_transfer_nets halfEvenRounding movedForFee s hs
    (by decide +kernel) (by decide +kernel)⟩

end Ledger
end ShareTracker
