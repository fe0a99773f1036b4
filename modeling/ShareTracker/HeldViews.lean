import ShareTracker.HeldTimeline

/-!
The held timeline and the open parcels of one ledger: where they agree at a
date, and a listing sold out that the timeline holds for ever.
-/
namespace ShareTracker

/-! ### Allocations stay positive -/

namespace Ledger

/-- Every allocation of `after` is one of `before`, or draws units. -/
def Drawing (before after : List ParcelAllocation) : Prop :=
  ∀ a ∈ after, a ∈ before ∨ 0 < a.quantity.value

section Steps
variable {D : DecimalRounding} {s s' : Ledger}

theorem Drawing.refl (l : List ParcelAllocation) : Drawing l l := fun _ ha => Or.inl ha

theorem Drawing.filter (keep : ParcelAllocation → Bool) (l : List ParcelAllocation) :
    Drawing l (l.filter keep) := fun _ ha => Or.inl (List.mem_filter.mp ha).1

theorem Drawing.trans {l l' l'' : List ParcelAllocation} (h : Drawing l l') (h' : Drawing l' l'') :
    Drawing l l'' := by
  intro a ha
  rcases h' a ha with hmid | hpos
  · exact h a hmid
  · exact Or.inr hpos

theorem Drawing.loop {α : Type} {f : Ledger → α → Attempt Refusal Ledger} {l : List α}
    (keeps : ∀ m, ∀ a ∈ l, ∀ m', (f m a).answer = .ok m' → Drawing m.allocations m'.allocations)
    (hok : (l.foldlM f s).answer = .ok s') : Drawing s.allocations s'.allocations := by
  have hinv : ∀ m : Ledger, Drawing s.allocations m.allocations → ∀ a ∈ l, ∀ m',
      (f m a).answer = .ok m' → Drawing s.allocations m'.allocations :=
    fun m hm a ha m' hm' => hm.trans (keeps m a ha m' hm')
  exact Attempt.answer_foldlM hinv (.refl _) hok

theorem dbSettle_allocations {recount : Recount} {dirty : List ListingId}
    (hok : (s.dbSettle D recount dirty).answer = .ok s') : Drawing s.allocations s'.allocations := by
  refine Drawing.loop (fun m listing _ m' hm' => ?_) hok
  unfold settleListing at hm'
  obtain ⟨_, -, hm'⟩ := answer_bind.mp hm'
  obtain rfl := answer_pure.mp hm'
  exact .refl _

theorem allocate_allocations {id : TradeId} {body : SellBody} {provenance : Option Provenance}
    {alloc : AllocationInput} (hpos : 0 < alloc.quantityAllocated.value)
    (hok : (s.allocate D id body provenance alloc).answer = .ok s') : Drawing s.allocations s'.allocations := by
  unfold Ledger.allocate at hok
  obtain ⟨parcel, -, hok⟩ := answer_bind.mp hok
  iterate 7 obtain ⟨_, -, hok⟩ := answer_bind.mp hok
  obtain rfl := answer_pure.mp hok
  intro a ha
  rcases List.mem_append.mp ha with ha | ha
  · exact Or.inl ha
  · obtain rfl := List.mem_singleton.mp ha
    exact Or.inr hpos

theorem upsertSellInTx_allocations {id : TradeId} {provenance : Option Provenance}
    {body : SellBody} (hok : (s.upsertSellInTx D id provenance body).answer = .ok s') :
    Drawing s.allocations s'.allocations := by
  unfold Ledger.upsertSellInTx at hok
  obtain ⟨_, hpos, hok⟩ := answer_bind.mp hok
  have hpos := Attempt.answer_refuseIf.mp hpos
  iterate 4 obtain ⟨_, -, hok⟩ := answer_bind.mp hok
  have hkept : Drawing s.allocations
      ((s.putTrade (body.row id provenance)).dropAllocations id).allocations := .filter _ _
  refine hkept.trans (Drawing.loop (fun m alloc halloc m' hm' => allocate_allocations ?_ hm') hok)
  by_contra hnot
  exact hpos ⟨alloc, halloc, not_lt.mp hnot⟩

theorem insertSell_allocations {id : TradeId} {provenance : Option Provenance} {body : SellBody}
    (hok : (s.insertSell D id provenance body).answer = .ok s') : Drawing s.allocations s'.allocations := by
  unfold Ledger.insertSell at hok
  obtain ⟨_, -, hok⟩ := answer_bind.mp hok
  exact upsertSellInTx_allocations hok

theorem remove_allocations {gone : TradeId → Bool} (hok : (s.remove gone).answer = .ok s') :
    Drawing s.allocations s'.allocations := by
  unfold Ledger.remove at hok
  obtain ⟨_, -, hok⟩ := answer_bind.mp hok
  obtain rfl := answer_pure.mp hok
  exact .filter _ _

theorem recordParcel_allocations {t : Trade} (hok : (s.recordParcel t).answer = .ok s') :
    Drawing s.allocations s'.allocations := by
  unfold Ledger.recordParcel Ledger.insertTrade at hok
  iterate 3 obtain ⟨_, -, hok⟩ := answer_bind.mp hok
  obtain rfl := answer_pure.mp hok
  exact .refl _

theorem recordParcels_allocations {ts : List Trade} (hok : (s.recordParcels ts).answer = .ok s') :
    Drawing s.allocations s'.allocations :=
  Drawing.loop (fun _ _ _ _ hm' => recordParcel_allocations hm') hok

theorem writeTransfer_allocations {ids : TransferIds} {body : TransferBody} {recount : Recount}
    (hok : (s.writeTransfer D ids body recount).answer = .ok s') : Drawing s.allocations s'.allocations := by
  unfold Ledger.writeTransfer at hok
  iterate 4 obtain ⟨_, -, hok⟩ := answer_bind.mp hok
  obtain ⟨sellBody, -, hok⟩ := answer_bind.mp hok
  obtain ⟨closed, hclosed, hok⟩ := answer_bind.mp hok
  obtain ⟨moved, hmoved, hok⟩ := answer_bind.mp hok
  obtain ⟨paid, hpaid, hok⟩ := answer_bind.mp hok
  have hin : Drawing s.allocations moved.allocations := by
    refine (insertSell_allocations hclosed).trans (Drawing.loop (fun m a _ m' hm' => ?_) hmoved)
    unfold Ledger.writeTransferIn at hm'
    obtain ⟨_, -, hm'⟩ := answer_bind.mp hm'
    exact recordParcel_allocations hm'
  refine Drawing.trans ?_ (dbSettle_allocations hok)
  unfold Ledger.writeFeeSale at hpaid
  split at hpaid
  · obtain rfl := answer_pure.mp hpaid
    exact hin
  · obtain ⟨_, -, hpaid⟩ := answer_bind.mp hpaid
    obtain ⟨feeBody, -, hpaid⟩ := answer_bind.mp hpaid
    obtain ⟨sold, hsold, hpaid⟩ := answer_bind.mp hpaid
    obtain rfl := answer_pure.mp hpaid
    have hdrawn := insertSell_allocations hsold
    exact hin.trans hdrawn

theorem step_allocations {w : Write} (hok : (s.step D w).answer = .ok s') : Drawing s.allocations s'.allocations := by
  cases w with
  | writeSell id body recount =>
    unfold Ledger.step Ledger.writeSell at hok
    obtain ⟨_, -, hok⟩ := answer_bind.mp hok
    obtain ⟨mid, hmid, hok⟩ := answer_bind.mp hok
    exact (upsertSellInTx_allocations hmid).trans (dbSettle_allocations hok)
  | deleteSell id recount =>
    unfold Ledger.step Ledger.deleteSell at hok
    obtain ⟨t, -, hok⟩ := answer_bind.mp hok
    iterate 3 obtain ⟨_, -, hok⟩ := answer_bind.mp hok
    obtain ⟨mid, hmid, hok⟩ := answer_bind.mp hok
    exact (remove_allocations hmid).trans (dbSettle_allocations hok)
  | writeTrade id body recount =>
    unfold Ledger.step Ledger.writeTrade at hok
    iterate 2 obtain ⟨_, -, hok⟩ := answer_bind.mp hok
    obtain ⟨covered, -, hok⟩ := answer_bind.mp hok
    iterate 2 obtain ⟨_, -, hok⟩ := answer_bind.mp hok
    have hsettled := dbSettle_allocations hok
    exact hsettled
  | recordParcel t recount =>
    obtain ⟨mid, hmid, hok⟩ := answer_bind.mp hok
    exact (recordParcel_allocations hmid).trans (dbSettle_allocations hok)
  | deleteTrade id recount =>
    unfold Ledger.step Ledger.deleteTrade at hok
    obtain ⟨t, -, hok⟩ := answer_bind.mp hok
    iterate 2 obtain ⟨_, -, hok⟩ := answer_bind.mp hok
    obtain ⟨mid, hmid, hok⟩ := answer_bind.mp hok
    exact (remove_allocations hmid).trans (dbSettle_allocations hok)
  | writeTransfer ids body recount => exact writeTransfer_allocations hok
  | deleteTransfer id recount =>
    unfold Ledger.step Ledger.deleteTransfer at hok
    obtain ⟨t, -, hok⟩ := answer_bind.mp hok
    obtain ⟨_, -, hok⟩ := answer_bind.mp hok
    obtain ⟨mid, hmid, hok⟩ := answer_bind.mp hok
    have hsettled := dbSettle_allocations hok
    exact (remove_allocations hmid).trans hsettled
  | operate id provenance body replacements recount =>
    unfold Ledger.step Ledger.operate at hok
    obtain ⟨closed, hclosed, hok⟩ := answer_bind.mp hok
    obtain ⟨replaced, hreplaced, hok⟩ := answer_bind.mp hok
    exact ((insertSell_allocations hclosed).trans (recordParcels_allocations hreplaced)).trans
      (dbSettle_allocations hok)
  | writeAction action changed recount =>
    unfold Ledger.step Ledger.writeAction at hok
    obtain ⟨_, -, hok⟩ := answer_bind.mp hok
    obtain ⟨mid, hmid, hok⟩ := answer_bind.mp hok
    obtain ⟨_, -, hok⟩ := answer_bind.mp hok
    obtain rfl := answer_pure.mp hok
    have hsettled := dbSettle_allocations hmid
    exact hsettled
  | deleteAction id recount =>
    unfold Ledger.step Ledger.deleteAction at hok
    obtain ⟨action, -, hok⟩ := answer_bind.mp hok
    iterate 2 obtain ⟨_, -, hok⟩ := answer_bind.mp hok
    have hsettled := dbSettle_allocations hok
    exact hsettled
  | setUnitScale scale recount touched =>
    have hsettled := dbSettle_allocations hok
    exact hsettled

/-- No accepted write stores an allocation of nothing. -/
theorem run_allocations_pos {ws : List Write} (hs : ∀ a ∈ s.allocations, 0 < a.quantity.value)
    (hrun : s.run D ws = .ok s') : ∀ a ∈ s'.allocations, 0 < a.quantity.value := by
  induction ws generalizing s with
  | nil =>
    cases hrun
    exact hs
  | cons w ws ih =>
    unfold Ledger.run at hrun
    cases hstep : (s.step D w).answer with
    | error e =>
      rw [hstep] at hrun
      cases hrun
    | ok mid =>
      rw [hstep] at hrun
      exact ih (fun a ha => (step_allocations hstep a ha).elim (hs a) id) hrun

end Steps

/-! ### The two views of a reachable ledger -/

/-- In a ledger reached by any writes, the held timeline and the open parcels
agree at a date: no sale of all its parcel has left reads back as less, no units
left are too few to print, and the counts and the account totals are exact. -/
theorem run_views_agree {κ : Type} (D : DecimalRounding)
    (costed : Trade → AcquiredUnits → Attempt Refusal κ) (ws : List Write) (s : Ledger)
    (hrun : Ledger.empty.run D ws = .ok s) (date : NaiveDate) (hreads : s.ReadsBack D date)
    (hprints : s.PrintsOpen D date) (hcounts : s.CountsExact D date)
    (timeline : HeldTimeline) (hload : (HeldTimeline.load D s : Attempt Refusal _).Yields timeline)
    (held : List ListingId)
    (hheld : (timeline.heldListingIds D date : Attempt Refusal _).Yields held)
    (opened : List (OpenParcel κ)) (hopened : (s.openParcels D costed date).answer = .ok opened) :
    (∀ listing, listing ∈ held ↔
      ∃ o ∈ opened, o.parcel.listing = listing ∧ 0 < o.remainingAsOf) ∧
    ∀ listing units, (timeline.unitsByAccountOn D listing date date : Attempt Refusal _).Yields units →
      ∀ account quantity, (account, quantity) ∈ units ↔ 0 < quantity ∧ quantity =
        ((opened.filter fun o => o.parcel.listing = listing && o.parcel.account = account).map
          OpenParcel.remainingAsOf).sum := by
  have hpos : ∀ a ∈ s.allocations, 0 < a.quantity.value :=
    run_allocations_pos (fun _ ha => absurd ha List.not_mem_nil) hrun
  have hperm := opened_perm hpos hcounts hreads hopened
  have hread : ∀ t ∈ s.trades, t.tradeType.isAcquisition = true → s.Readable D date t := by
    intro t ht hacq hdate sale hsale
    obtain ⟨left, hleft⟩ := Attempt.succeeds_iff.mp (hcounts t ht hacq hdate)
    exact (readCount_of_openCount (unitsSold_nonneg hpos) hleft sale hsale).2
  constructor
  · intro listing
    rw [mem_heldListingIds hload hread hheld]
    constructor
    · rintro ⟨t, ht, rfl⟩
      obtain ⟨hmem, hkept⟩ := List.mem_filter.mp ht
      obtain ⟨hacq, hheld⟩ := (Bool.and_eq_true _ _).mp hkept
      obtain ⟨o, ho, hposition⟩ := List.mem_map.mp
        (hperm.mem_iff.mpr (List.mem_map_of_mem ht (f := s.heldPosition D date)))
      refine ⟨o, ho, congrArg Position.listing hposition, ?_⟩
      rw [show o.remainingAsOf = s.leftPrinted D date t from congrArg Position.units hposition]
      exact hprints t hmem hacq hheld
    · rintro ⟨o, ho, rfl, -⟩
      obtain ⟨t, ht, hposition⟩ := List.mem_map.mp (hperm.mem_iff.mp (List.mem_map_of_mem ho))
      exact ⟨t, ht, congrArg Position.listing hposition⟩
  · intro listing units hunits account quantity
    rw [mem_unitsByAccountOn hload hread hunits, ← unitsOf_perm hperm, unitsOf, List.filter_map,
      List.map_map]
    rfl

/-- A share split, its fractions exact. -/
def splitAction (id : ℤ) (listing : ListingId) (date : NaiveDate) (newUnits oldUnits : ℚ)
    (hnew : 0 < newUnits) (hold : 0 < oldUnits) : CorporateAction where
  id := id
  listing := listing
  date := date
  rebase := some (.shareSplit date newUnits oldUnits hnew hold)
  rounded := false
  counts := []
  rebase_date := by
    rintro _ ⟨⟩
    rfl

/-- A Buy of 2 in one account, split 3-for-1 with a sale of 2 after it, and a
Buy of 100 in another, consolidated 1-for-3 and sold out as it then prints. -/
def soldAcrossSplits : List Write := [
  .writeTrade 1 ⟨ymd 2024 1 2, 1, 1, 2⟩ noCounts,
  .writeAction (splitAction 7 1 (ymd 2024 3 1) 3 1 tripled_pos SplitRatio.unit_pos) true noCounts,
  .writeSell 2 ⟨ymd 2024 4 3, 1, 1, 2, [⟨1, .new 2 0⟩]⟩ noCounts,
  .writeTrade 3 ⟨ymd 2024 1 2, 2, 2, 100⟩ noCounts,
  .writeAction (splitAction 8 2 (ymd 2024 3 1) 1 3 SplitRatio.unit_pos tripled_pos) true noCounts,
  .writeSell 4 ⟨ymd 2024 4 3, 2, 2, (Decimal.new 33333333333333333333333333333 27).value,
    [⟨3, .new 33333333333333333333333333333 27⟩]⟩ noCounts]

theorem run_views_agree_across : ∃ s timeline held opened,
    Ledger.empty.run halfEvenRounding soldAcrossSplits = .ok s ∧
    (HeldTimeline.load halfEvenRounding s : Attempt Refusal _).Yields timeline ∧
    (timeline.heldListingIds halfEvenRounding (ymd 2024 6 3) : Attempt Refusal _).Yields held ∧
    (s.openParcels halfEvenRounding (fun _ _ => pure ()) (ymd 2024 6 3) :
      Attempt Refusal (List (OpenParcel Unit))).answer = .ok opened ∧
    ∀ listing, listing ∈ held ↔ ∃ o ∈ opened, o.parcel.listing = listing ∧ 0 < o.remainingAsOf := by
  have hrun : Checked.accepts (Ledger.empty.run halfEvenRounding soldAcrossSplits) (fun s =>
      (((decide (s.ReadsBack halfEvenRounding (ymd 2024 6 3)) &&
        decide (s.PrintsOpen halfEvenRounding (ymd 2024 6 3))) &&
        decide (s.CountsExact halfEvenRounding (ymd 2024 6 3))) &&
        (HeldTimeline.load halfEvenRounding s >>= fun timeline =>
          timeline.heldListingIds halfEvenRounding (ymd 2024 6 3) : Attempt Refusal _).succeeds) &&
        Checked.accepts (s.openParcels halfEvenRounding
          (fun _ _ => (pure () : Attempt Refusal Unit)) (ymd 2024 6 3)).answer fun _ => true) = true := by
    decide +kernel
  obtain ⟨s, hs, hall⟩ := Checked.accepts_iff.mp hrun
  simp only [Bool.and_eq_true, decide_eq_true_eq] at hall
  obtain ⟨⟨⟨⟨hreads, hprints⟩, hcounts⟩, hviews⟩, hopen⟩ := hall
  obtain ⟨held, hviews⟩ := Attempt.succeeds_iff.mp hviews
  obtain ⟨timeline, hload, hheld⟩ := yields_bind.mp hviews
  obtain ⟨opened, hopened⟩ := Checked.exists_ok hopen
  exact ⟨s, timeline, held, opened, hs, hload, hheld, hopened,
    (run_views_agree halfEvenRounding (fun _ _ => pure ()) soldAcrossSplits s hs (ymd 2024 6 3)
      hreads hprints hcounts timeline hload held hheld opened hopened).1⟩

theorem sevenfold_pos : (0 : ℚ) < 7 := by norm_num

/-- A Buy of 2, split 3-for-1, a sale of 2 after it, split 7-for-3, and a sale
of the 9.333… the schedule then prints. -/
def soldOutAsPrinted : List Write := [
  .writeTrade 1 ⟨ymd 2024 1 2, 1, 1, 2⟩ noCounts,
  .writeAction (splitAction 7 1 (ymd 2024 3 1) 3 1 tripled_pos SplitRatio.unit_pos) true noCounts,
  .writeSell 2 ⟨ymd 2024 4 3, 1, 1, 2, [⟨1, .new 2 0⟩]⟩ noCounts,
  .writeAction (splitAction 8 1 (ymd 2024 5 1) 7 3 sevenfold_pos tripled_pos) true noCounts,
  .writeSell 3 ⟨ymd 2024 6 3, 1, 1, (Decimal.new 9333333333333333333333333333 27).value,
    [⟨1, .new 9333333333333333333333333333 27⟩]⟩ noCounts]

/-- The parcel is sold out in the schedule, and held for ever in the timeline. -/
theorem run_views_differ : ∃ s timeline held,
    Ledger.empty.run halfEvenRounding soldOutAsPrinted = .ok s ∧
    (HeldTimeline.load halfEvenRounding s : Attempt Refusal _).Yields timeline ∧
    (timeline.heldListingIds halfEvenRounding (ymd 2024 12 31) : Attempt Refusal _).Yields held ∧
    1 ∈ held ∧
    (s.openParcels halfEvenRounding (fun _ _ => pure ()) (ymd 2024 12 31) :
      Attempt Refusal (List (OpenParcel Unit))).answer = .ok [] := by
  have hrun : Checked.accepts (Ledger.empty.run halfEvenRounding soldOutAsPrinted) (fun s =>
      (HeldTimeline.load halfEvenRounding s >>= fun timeline =>
        (timeline.heldListingIds halfEvenRounding (ymd 2024 12 31) >>= fun held =>
          Attempt.refuseIf (1 ∉ held) Refusal.notFound)).succeeds &&
        Checked.accepts (s.openParcels halfEvenRounding
          (fun _ _ => (pure () : Attempt Refusal Unit)) (ymd 2024 12 31)).answer List.isEmpty) = true := by
    decide +kernel
  obtain ⟨s, hs, hall⟩ := Checked.accepts_iff.mp hrun
  obtain ⟨hviews, hopen⟩ := (Bool.and_eq_true _ _).mp hall
  obtain ⟨u, hviews⟩ := Attempt.succeeds_iff.mp hviews
  obtain ⟨timeline, hload, hviews⟩ := yields_bind.mp hviews
  obtain ⟨held, hheld, hviews⟩ := yields_bind.mp hviews
  obtain ⟨opened, hopened, hempty⟩ := Checked.accepts_iff.mp hopen
  rw [List.isEmpty_iff.mp hempty] at hopened
  exact ⟨s, timeline, held, hs, hload, hheld, not_not.mp (yields_refuseIf.mp hviews), hopened⟩

end Ledger

end ShareTracker
