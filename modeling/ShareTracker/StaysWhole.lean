import ShareTracker.Consumed
import ShareTracker.Lib.Keyed

/-!
Which writes leave a whole-holding operation whole. A parcel an operation has
consumed is opened again by a write that gives units back to it, and by one
that moves it, or the events it is read through, behind the operation.
-/
namespace ShareTracker.WholeHolding

variable {D : DecimalRounding}

/-! ### Keeping -/

theorem basisFactor_self (splits : List SplitEvent) (date : NaiveDate) :
    basisFactor splits date date = 1 := by
  unfold basisFactor
  rw [rebaseRatio_factor]
  exact div_self (basisLevel_pos splits date).ne'

/-- A row that stays, with its sales and events. -/
theorem Kept.same {s s' : Ledger} {c t : Trade}
    (hsales : (walkBy (s.saleRows t.id) c.date).Sublist (walkBy (s'.saleRows t.id) c.date))
    (hevents : eventsBy s' c t.id = eventsBy s c t.id)
    (hcounts : ∀ a' ∈ s'.actions, relevant c a' = true → ∃ a ∈ s.actions, relevant c a = true ∧
      a.listing = a'.listing ∧ a.id = a'.id ∧ countOf a'.counts t.id = countOf a.counts t.id) :
    Kept s s' c t t :=
  ⟨rfl, le_rfl, hsales, hevents, basisFactor_self _ _, hcounts⟩

theorem eventsBy_congr {s s' : Ledger} (h : s'.actions = s.actions) (c : Trade) (parcel : TradeId) :
    eventsBy s' c parcel = eventsBy s c parcel := by
  unfold eventsBy
  rw [h]

theorem counts_congr {s s' : Ledger} (h : s'.actions = s.actions) (c : Trade) (parcel : TradeId) :
    ∀ a' ∈ s'.actions, relevant c a' = true → ∃ a ∈ s.actions, relevant c a = true ∧
      a.listing = a'.listing ∧ a.id = a'.id ∧ countOf a'.counts parcel = countOf a.counts parcel := by
  intro a ha hrel
  exact ⟨a, h ▸ ha, hrel, rfl, rfl, rfl⟩

theorem Kept.trans {s s' s'' : Ledger} {c t t' t'' : Trade} (h : Kept s s' c t t')
    (h' : Kept s' s'' c t' t'') (ht' : Behind t' c) (ht'' : Behind t'' c) : Kept s s'' c t t'' := by
  have hid := h.id
  have hsales := h'.sales
  have hevents := h'.events
  have hmoved := h'.moved
  have hcounts := h'.counts
  rw [hid] at hsales hevents hmoved hcounts
  refine ⟨h'.id.trans hid, h'.quantity.trans h.quantity, h.sales.trans hsales,
    hevents.trans h.events, ?_, ?_⟩
  · have hfilter : (s'.splitsForParcel c.listing t.id).filter (fun e => decide (e.date ≤ c.date)) =
        (s.splitsForParcel c.listing t.id).filter fun e => decide (e.date ≤ c.date) := by
      rw [filter_splitsForParcel, filter_splitsForParcel, h.events]
    rw [← basisFactor_moved h.moved, ← basisFactor_congr hfilter ht'.2.2.1 ht''.2.2.1, hmoved]
  · intro a'' ha'' hrel''
    obtain ⟨a', ha', hrel', hl', hi', hc'⟩ := hcounts a'' ha'' hrel''
    obtain ⟨a, ha, hrel, hl, hi, hc⟩ := h.counts a' ha' hrel'
    exact ⟨a, ha, hrel, hl.trans hl', hi.trans hi', hc'.trans hc⟩

theorem Carries.trans {s s' s'' : Ledger} (h : Carries s s') (h' : Carries s' s'') :
    Carries s s'' := by
  intro c hc hcloses t'' ht'' hb''
  obtain ⟨hc', t', ht', hb', hkept'⟩ := h' c hc hcloses t'' ht'' hb''
  obtain ⟨hc₀, t, ht, hb, hkept⟩ := h c hc' hcloses t' ht' hb'
  exact ⟨hc₀, t, ht, hb, hkept.trans hkept' hb' hb''⟩

/-- Rows that were all there, drawn on as they were or further. -/
theorem Carries.of_rows {s s' : Ledger} (hactions : s'.actions = s.actions)
    (htrades : ∀ c ∈ s'.trades, closes c = true → ∀ t ∈ s'.trades, Behind t c →
      c ∈ s.trades ∧ t ∈ s.trades ∧
        (walkBy (s.saleRows t.id) c.date).Sublist (walkBy (s'.saleRows t.id) c.date)) :
    Carries s s' := by
  intro c hc hcloses t ht hb
  obtain ⟨hc₀, ht₀, hsales⟩ := htrades c hc hcloses t ht hb
  exact ⟨hc₀, t, ht₀, hb,
    .same hsales (eventsBy_congr hactions c t.id) (counts_congr hactions c t.id)⟩

theorem not_closes_of_acquisition {t : Trade} (h : t.tradeType.isAcquisition = true) :
    closes t = false := by
  unfold closes
  cases ht : t.tradeType with
  | sell =>
    rw [ht] at h
    cases h
  | buy => rfl
  | drp => rfl

/-! ### Parcels entered -/

theorem recordParcel_effect {s s' : Ledger} {t : Trade} (h : (s.recordParcel t).Yields s') :
    s' = { s with trades := s.trades ++ [t] } ∧ t.tradeType.isAcquisition = true ∧
      s.trade? t.id = none := by
  unfold Ledger.recordParcel Ledger.insertTrade at h
  obtain ⟨_, hacq, h⟩ := yields_bind.mp h
  obtain ⟨_, -, h⟩ := yields_bind.mp h
  obtain ⟨_, hfresh, h⟩ := yields_bind.mp h
  refine ⟨(yields_pure.mp h).symm, ?_, ?_⟩
  · simpa using yields_refuseIf.mp hacq
  · simpa using yields_refuseIf.mp hfresh

/-- A row entered at a free id moves no sale. -/
theorem saleRows_entered {s s' : Ledger} {t : Trade} (hs : s.Rows)
    (hs' : s' = { s with trades := s.trades ++ [t] }) (parcel : TradeId) :
    s'.saleRows parcel = s.saleRows parcel := by
  refine Ledger.saleRows_congr (by rw [hs']) (fun a ha => ?_) parcel
  obtain ⟨sale, _, hsale, -⟩ := (hs.drawn a ha).rows
  have hsale' : s'.trade? a.sale = some sale := by
    rw [Ledger.trade?] at hsale ⊢
    rw [hs', List.find?_append, hsale, Option.some_or]
  rw [hsale, hsale']

theorem Carries.recordParcel {s s' : Ledger} {t : Trade} (hs : s.Rows)
    (hclear : ∀ c ∈ s.trades, closes c = true → ¬ Behind t c) (h : (s.recordParcel t).Yields s') :
    Carries s s' := by
  obtain ⟨hs', hacq, -⟩ := recordParcel_effect h
  refine .of_rows (by rw [hs']) ?_
  intro c hc hcloses u hu hb
  rw [hs'] at hc hu
  have hc₀ : c ∈ s.trades := by
    rcases List.mem_append.mp hc with hc | hc
    · exact hc
    · rw [List.mem_singleton.mp hc, not_closes_of_acquisition hacq] at hcloses
      cases hcloses
  refine ⟨hc₀, ?_, ?_⟩
  · rcases List.mem_append.mp hu with hu | hu
    · exact hu
    · rw [List.mem_singleton.mp hu] at hb
      exact absurd hb (hclear c hc₀ hcloses)
  · rw [saleRows_entered hs hs']

theorem Carries.recordParcels {s s' : Ledger} {ts : List Trade} (hs : s.Valid D)
    (hclear : ∀ c ∈ s.trades, closes c = true → ∀ t ∈ ts, ¬ Behind t c)
    (h : (s.recordParcels ts).Yields s') : Carries s s' := by
  unfold Ledger.recordParcels at h
  induction ts generalizing s with
  | nil =>
    obtain rfl := yields_pure.mp h
    exact .of_rows rfl fun c hc _ t ht _ => ⟨hc, ht, List.Sublist.refl _⟩
  | cons t ts ih =>
    rw [List.foldlM_cons] at h
    obtain ⟨mid, hmid, h⟩ := yields_bind.mp h
    have hfirst : Carries s mid := .recordParcel hs.rows
      (fun c hc hcloses => hclear c hc hcloses t List.mem_cons_self) hmid
    refine hfirst.trans (ih (hs.recordParcel hmid) ?_ h)
    intro c hc hcloses u hu
    obtain ⟨rfl, hacq, -⟩ := recordParcel_effect hmid
    rcases List.mem_append.mp hc with hc | hc
    · exact hclear c hc hcloses u (List.mem_cons_of_mem t hu)
    · rw [List.mem_singleton.mp hc, not_closes_of_acquisition hacq] at hcloses
      cases hcloses

/-! ### Sells -/

/-- A Sell's draws on a parcel. -/
def drawsOn (id : TradeId) (body : SellBody) (parcel : TradeId) : List (TradeId × UnitsAt) :=
  (body.allocations.filter fun a => a.purchaseTradeId = parcel).map fun a =>
    (id, ⟨a.quantityAllocated, body.date⟩)

/-- A parcel's sales once a Sell is written with its allocations replaced. -/
def rowsAfterSell (s : Ledger) (id : TradeId) (body : SellBody) (parcel : TradeId) :
    List (TradeId × UnitsAt) :=
  (s.saleRows parcel).filter (fun r => r.1 ≠ id) ++ drawsOn id body parcel

theorem allocateAll_effect {s s' : Ledger} {id : TradeId} {body : SellBody}
    {provenance : Option Provenance} {allocs : List AllocationInput}
    (h : (allocs.foldlM (Ledger.allocate D id body provenance) s).Yields s') :
    s' = { s with allocations := s.allocations ++ allocs.map (·.row id) } := by
  induction allocs generalizing s with
  | nil =>
    rw [← yields_pure.mp h, List.map_nil, List.append_nil]
  | cons a allocs ih =>
    rw [List.foldlM_cons] at h
    obtain ⟨mid, hmid, h⟩ := yields_bind.mp h
    unfold Ledger.allocate at hmid
    obtain ⟨_, -, hmid⟩ := yields_bind.mp hmid
    obtain ⟨_, -, hmid⟩ := yields_bind.mp hmid
    obtain ⟨_, -, hmid⟩ := yields_bind.mp hmid
    obtain ⟨_, -, hmid⟩ := yields_bind.mp hmid
    obtain ⟨_, -, hmid⟩ := yields_bind.mp hmid
    obtain ⟨_, -, hmid⟩ := yields_bind.mp hmid
    obtain ⟨_, -, hmid⟩ := yields_bind.mp hmid
    obtain ⟨_, -, hmid⟩ := yields_bind.mp hmid
    rw [ih h, ← yields_pure.mp hmid, Ledger.addAllocation, List.append_assoc,
      List.map_cons, List.singleton_append]

theorem upsertSellInTx_effect {s s' : Ledger} {id : TradeId} {provenance : Option Provenance}
    {body : SellBody} (h : (s.upsertSellInTx D id provenance body).Yields s') :
    s' = { (s.putTrade (body.row id provenance)).dropAllocations id with
      allocations := ((s.putTrade (body.row id provenance)).dropAllocations id).allocations ++
        body.allocations.map (·.row id) } := by
  unfold Ledger.upsertSellInTx at h
  obtain ⟨_, -, h⟩ := yields_bind.mp h
  obtain ⟨total, -, h⟩ := yields_bind.mp h
  obtain ⟨_, -, h⟩ := yields_bind.mp h
  obtain ⟨_, -, h⟩ := yields_bind.mp h
  obtain ⟨_, -, h⟩ := yields_bind.mp h
  exact allocateAll_effect h

theorem saleRows_upsert {s s' : Ledger} {id : TradeId} {provenance : Option Provenance}
    {body : SellBody} (h : (s.upsertSellInTx D id provenance body).Yields s') (parcel : TradeId) :
    s'.saleRows parcel = rowsAfterSell s id body parcel := by
  have hs' := upsertSellInTx_effect h
  have hself : s'.trade? id = some (body.row id provenance) := by
    rw [hs']
    exact Ledger.trade?_putTrade_self s (body.row id provenance)
  have hother : ∀ i, decide (i = id) = false →
      ((s.putTrade (body.row id provenance)).dropAllocations id).trade? i = s.trade? i := by
    intro i hi
    have hne : i ≠ (body.row id provenance).id := of_decide_eq_false hi
    exact Ledger.trade?_putTrade_ne s hne
  have hdropped : ((s.putTrade (body.row id provenance)).dropAllocations id).saleRows parcel =
      (s.saleRows parcel).filter fun r => r.1 ≠ id := by
    rw [Ledger.saleRows_filter (fun i => decide (i = id)) (List.filter_congr fun a _ => by simp)
      hother parcel]
    exact List.filter_congr fun r _ => by simp
  have htrade : s'.trade? = ((s.putTrade (body.row id provenance)).dropAllocations id).trade? := by
    rw [hs']
    rfl
  have hallocations : s'.allocations =
      ((s.putTrade (body.row id provenance)).dropAllocations id).allocations ++
        body.allocations.map (·.row id) := by rw [hs']
  have hsplit : s'.saleRows parcel =
      ((s.putTrade (body.row id provenance)).dropAllocations id).saleRows parcel ++
        (body.allocations.map (·.row id)).filterMap fun a =>
          if a.purchase = parcel then (s'.trade? a.sale).map fun t => (a.sale, ⟨a.quantity, t.date⟩)
          else none := by
    unfold Ledger.saleRows
    rw [← htrade, ← List.filterMap_append, hallocations]
  rw [hsplit, hdropped, rowsAfterSell, drawsOn, List.filterMap_map, ← List.filterMap_eq_map,
    List.filterMap_filter]
  congr 1
  refine List.filterMap_congr fun a _ => ?_
  by_cases hp : a.purchaseTradeId = parcel
  · simp [AllocationInput.row, hp, hself, SellBody.row]
  · simp [AllocationInput.row, hp]

/-- Whether every draw on a parcel behind an operation that `lasts` stays in the
parcel's walk, the sales `after` a write given. -/
def Stays (s : Ledger) (lasts : Trade → Bool) (after : TradeId → List (TradeId × UnitsAt)) : Prop :=
  ∀ c ∈ s.trades, closes c = true → lasts c = true → ∀ t ∈ s.trades, Behind t c →
    (walkBy (s.saleRows t.id) c.date).Sublist (walkBy (after t.id) c.date)

instance (s : Ledger) (lasts : Trade → Bool) (after : TradeId → List (TradeId × UnitsAt)) :
    Decidable (Stays s lasts after) :=
  inferInstanceAs (Decidable (∀ c ∈ s.trades, _ → _ → ∀ t ∈ s.trades, _ → _))

theorem saleRows_fresh {s : Ledger} {id : TradeId} (hfresh : s.trade? id = none)
    (parcel : TradeId) : (s.saleRows parcel).filter (fun r => r.1 ≠ id) = s.saleRows parcel := by
  refine List.filter_eq_self.mpr fun r hr => decide_eq_true ?_
  obtain ⟨a, -, t, -, ht, rfl⟩ := Ledger.mem_saleRows hr
  rintro rfl
  rw [hfresh] at ht
  cases ht

/-- A Sell at a free id only adds draws. -/
theorem walkBy_fresh {s : Ledger} {id : TradeId} {body : SellBody} (hfresh : s.trade? id = none)
    (parcel : TradeId) (date : NaiveDate) :
    (walkBy (s.saleRows parcel) date).Sublist (walkBy (rowsAfterSell s id body parcel) date) := by
  have hkept : (rowsAfterSell s id body parcel).filter (fun r => r.1 ≠ id) = s.saleRows parcel := by
    have hnew : (drawsOn id body parcel).filter (fun r => r.1 ≠ id) = [] := by
      refine List.filter_eq_nil_iff.mpr fun r hr => ?_
      obtain ⟨a, -, rfl⟩ := List.mem_map.mp hr
      simp
    rw [rowsAfterSell, List.filter_append, hnew, List.append_nil, saleRows_fresh hfresh,
      saleRows_fresh hfresh]
  have hsub := walkBy_filter (rowsAfterSell s id body parcel) (fun r => r.1 ≠ id) date
  rw [hkept] at hsub
  exact hsub

theorem mem_trades_upsert {s s' : Ledger} {id : TradeId} {provenance : Option Provenance}
    {body : SellBody} (h : (s.upsertSellInTx D id provenance body).Yields s') {t : Trade} :
    t ∈ s'.trades ↔ (t ∈ s.trades ∧ t.id ≠ id) ∨ t = body.row id provenance := by
  rw [upsertSellInTx_effect h]
  exact Keyed.mem_put

theorem actions_upsert {s s' : Ledger} {id : TradeId} {provenance : Option Provenance}
    {body : SellBody} (h : (s.upsertSellInTx D id provenance body).Yields s') :
    s'.actions = s.actions := by
  rw [upsertSellInTx_effect h]
  rfl

/-- A Sell of no operation that keeps the draws behind every operation. -/
theorem Carries.upsertSell {s s' : Ledger} {id : TradeId} {provenance : Option Provenance}
    {body : SellBody} (hopen : closes (body.row id provenance) = false)
    (hstays : Stays s (fun _ => true) (rowsAfterSell s id body))
    (h : (s.upsertSellInTx D id provenance body).Yields s') : Carries s s' := by
  refine .of_rows (actions_upsert h) ?_
  intro c hc hcloses t ht hb
  have hc₀ : c ∈ s.trades := by
    rcases (mem_trades_upsert h).mp hc with ⟨hc, -⟩ | rfl
    · exact hc
    · rw [hopen] at hcloses
      cases hcloses
  have ht₀ : t ∈ s.trades := by
    rcases (mem_trades_upsert h).mp ht with ⟨ht, -⟩ | rfl
    · exact ht
    · cases hb.1
  refine ⟨hc₀, ht₀, ?_⟩
  rw [saleRows_upsert h]
  exact hstays c hc₀ hcloses rfl t ht₀ hb

theorem Carries.insertSell {s s' : Ledger} {id : TradeId} {provenance : Option Provenance}
    {body : SellBody} (hopen : closes (body.row id provenance) = false)
    (h : (s.insertSell D id provenance body).Yields s') : Carries s s' := by
  unfold Ledger.insertSell at h
  obtain ⟨_, hfresh, h⟩ := yields_bind.mp h
  have hfresh : s.trade? id = none := by simpa using yields_refuseIf.mp hfresh
  exact .upsertSell hopen (fun c _ _ _ t _ _ => walkBy_fresh hfresh t.id c.date) h

/-! ### Actions rewritten in place -/

theorem eventFor_congr {a a' : CorporateAction} {parcel : TradeId} (hrebase : a'.rebase = a.rebase)
    (hcount : countOf a'.counts parcel = countOf a.counts parcel) :
    a'.eventFor parcel = a.eventFor parcel := by
  unfold CorporateAction.eventFor
  unfold countOf at hcount
  rw [hrebase]
  cases hfind : a.counts.find? fun c => c.1 = parcel with
  | none =>
    rw [hfind] at hcount
    rw [Option.map_eq_none_iff.mp hcount]
  | some count =>
    rw [hfind] at hcount
    obtain ⟨count', hfind', heq⟩ := Option.map_eq_some_iff.mp hcount
    obtain ⟨hbefore, hafter⟩ := Prod.mk.inj heq
    rw [hfind']
    simp only [hbefore, hafter]

theorem eventsBy_map {s s' : Ledger} {c : Trade} {parcel : TradeId}
    {f : CorporateAction → CorporateAction} (hs : s'.actions = s.actions.map f)
    (horder : ∀ a, Ledger.order (f a) = Ledger.order a)
    (hrelevant : ∀ a, relevant c (f a) = relevant c a) (hrebase : ∀ a, (f a).rebase = a.rebase)
    (hcounts : ∀ a ∈ s.actions, relevant c a = true →
      countOf (f a).counts parcel = countOf a.counts parcel) :
    eventsBy s' c parcel = eventsBy s c parcel := by
  have hfilter : s'.actions.filter (relevant c) = (s.actions.filter (relevant c)).map f := by
    rw [hs, List.filter_map]
    simp only [Function.comp_def, hrelevant]
  have hsort := StableSort.map_sortBy (κ := NaiveDate ×ₗ ℤ) f horder (s.actions.filter (relevant c))
  unfold eventsBy
  rw [hfilter, ← hsort, List.filterMap_map]
  refine List.filterMap_congr fun a ha => ?_
  obtain ⟨ha, hrel⟩ := List.mem_filter.mp (StableSort.mem_sortBy.mp ha)
  exact eventFor_congr (hrebase a) (hcounts a ha hrel)

/-- Actions whose stored counts change only for parcels nothing is behind. -/
theorem Carries.of_counts {s s' : Ledger} {f : CorporateAction → CorporateAction}
    (hs : s'.actions = s.actions.map f) (hid : ∀ a, (f a).id = a.id)
    (hlisting : ∀ a, (f a).listing = a.listing) (hdate : ∀ a, (f a).date = a.date)
    (hrebase : ∀ a, (f a).rebase = a.rebase)
    (hrows : ∀ c ∈ s'.trades, closes c = true → ∀ t ∈ s'.trades, Behind t c →
      c ∈ s.trades ∧ t ∈ s.trades ∧
        (walkBy (s.saleRows t.id) c.date).Sublist (walkBy (s'.saleRows t.id) c.date) ∧
        ∀ a ∈ s.actions, relevant c a = true →
          countOf (f a).counts t.id = countOf a.counts t.id) : Carries s s' := by
  intro c hc hcloses t ht hb
  obtain ⟨hc₀, ht₀, hsales, hcounts⟩ := hrows c hc hcloses t ht hb
  have hrelevant : ∀ a, relevant c (f a) = relevant c a := by
    intro a
    unfold relevant
    rw [hlisting, hdate, hrebase]
  have horder : ∀ a, Ledger.order (f a) = Ledger.order a := by
    intro a
    rw [Ledger.order, Ledger.order, hdate, hid]
  refine ⟨hc₀, t, ht₀, hb, .same hsales (eventsBy_map hs horder hrelevant hrebase hcounts) ?_⟩
  intro a' ha' hrel
  rw [hs] at ha'
  obtain ⟨a, ha, rfl⟩ := List.mem_map.mp ha'
  rw [hrelevant] at hrel
  exact ⟨a, ha, hrel, (hlisting a).symm, (hid a).symm, hcounts a ha hrel⟩

/-! ### Settling -/

/-- Whether a recompute stores what is stored of the parcels behind an operation. -/
def KeepsCountsBehind (s : Ledger) (recount : Recount) (c : Trade) : Prop :=
  ∀ t ∈ s.trades, Behind t c → ∀ a ∈ s.actions, relevant c a = true →
    countOf (recount a.listing a.id) t.id = countOf a.counts t.id

instance (s : Ledger) (recount : Recount) (c : Trade) : Decidable (KeepsCountsBehind s recount c) :=
  inferInstanceAs (Decidable (∀ t ∈ s.trades, _ → ∀ a ∈ s.actions, _ → _))

def KeepsCounts (s : Ledger) (recount : Recount) : Prop :=
  ∀ c ∈ s.trades, closes c = true → KeepsCountsBehind s recount c

instance (s : Ledger) (recount : Recount) : Decidable (KeepsCounts s recount) :=
  inferInstanceAs (Decidable (∀ c ∈ s.trades, _ → _))

theorem KeepsCounts.carried {s s' : Ledger} {recount : Recount} (h : KeepsCounts s recount)
    (hc : Carries s s') : KeepsCounts s' recount := by
  intro c hmem hcloses t' ht' hb' a' ha' hrel'
  obtain ⟨hc₀, t, ht, hb, hkept⟩ := hc c hmem hcloses t' ht' hb'
  obtain ⟨a, ha, hrel, hlisting, hid, hcount⟩ := hkept.counts a' ha' hrel'
  have hsame := h c hc₀ hcloses t ht hb a ha hrel
  rw [hlisting, hid] at hsame
  rw [hkept.id, hcount]
  exact hsame

theorem Carries.settleListing {s s' : Ledger} {recount : Recount} {listing : ListingId}
    (hkeeps : KeepsCounts s recount) (h : (s.settleListing D recount listing).Yields s') :
    Carries s s' := by
  unfold Ledger.settleListing at h
  obtain ⟨_, -, h⟩ := yields_bind.mp h
  obtain rfl := yields_pure.mp h
  refine .of_counts rfl ?_ ?_ ?_ ?_ ?_
  · intro a
    split <;> rfl
  · intro a
    split <;> rfl
  · intro a
    split <;> rfl
  · intro a
    split <;> rfl
  · intro c hc hcloses t ht hb
    refine ⟨hc, ht, List.Sublist.refl _, fun a ha hrel => ?_⟩
    split
    · rename_i hl
      rw [← hl]
      exact hkeeps c hc hcloses t ht hb a ha hrel
    · rfl

theorem Carries.refl (s : Ledger) : Carries s s :=
  .of_rows rfl fun _ hc _ _ ht _ => ⟨hc, ht, List.Sublist.refl _⟩

theorem Carries.dbSettle {s s' : Ledger} {recount : Recount} {dirty : List ListingId}
    (hkeeps : KeepsCounts s recount) (h : (s.dbSettle D recount dirty).Yields s') :
    Carries s s' := by
  unfold Ledger.dbSettle at h
  induction dirty generalizing s with
  | nil =>
    obtain rfl := yields_pure.mp h
    exact .refl s
  | cons l dirty ih =>
    rw [List.foldlM_cons] at h
    obtain ⟨mid, hmid, h⟩ := yields_bind.mp h
    have hfirst : Carries s mid := .settleListing hkeeps hmid
    exact hfirst.trans (ih (hkeeps.carried hfirst) h)

/-- A write's rows, and the settling that follows them. -/
theorem Carries.settled {s mid s' : Ledger} {recount : Recount} {dirty : List ListingId}
    (hc : Carries s mid) (hkeeps : KeepsCounts s recount)
    (h : (mid.dbSettle D recount dirty).Yields s') : Carries s s' :=
  hc.trans (.dbSettle (hkeeps.carried hc) h)

/-! ### Rows removed and rewritten -/

theorem remove_effect {s s' : Ledger} {gone : TradeId → Bool} (h : (s.remove gone).Yields s') :
    s' = { s with
      trades := s.trades.filter fun t => !gone t.id
      allocations := s.allocations.filter fun a => !gone a.sale
      actions := s.actions.map fun a =>
        { a with counts := a.counts.filter fun c => !gone c.1 } } := by
  unfold Ledger.remove at h
  obtain ⟨_, -, h⟩ := yields_bind.mp h
  exact (yields_pure.mp h).symm

theorem countOf_filter (counts : List (TradeId × StoredCount)) {gone : TradeId → Bool}
    {parcel : TradeId} (h : gone parcel = false) :
    countOf (counts.filter fun c => !gone c.1) parcel = countOf counts parcel := by
  unfold countOf
  rw [List.find?_filter]
  congr 2
  funext c
  by_cases hc : c.1 = parcel
  · simp [hc, h]
  · simp [hc]

theorem Carries.remove {s s' : Ledger} {gone : TradeId → Bool}
    (hstays : Stays s (fun c => !gone c.id) fun parcel =>
      (s.saleRows parcel).filter fun r => !gone r.1)
    (h : (s.remove gone).Yields s') : Carries s s' := by
  have hs' := remove_effect h
  refine .of_counts (f := fun a => { a with counts := a.counts.filter fun c => !gone c.1 })
    (by rw [hs']) (fun _ => rfl) (fun _ => rfl) (fun _ => rfl) (fun _ => rfl) ?_
  intro c hc hcloses t ht hb
  have hrows : s'.saleRows t.id = (s.saleRows t.id).filter fun r => !gone r.1 := by
    refine Ledger.saleRows_filter gone (by rw [hs']) ?_ t.id
    intro id hid
    rw [hs']
    exact Ledger.find?_filter_keep (fun i => !gone i) (by simp [hid])
  rw [hs'] at hc ht
  obtain ⟨hc₀, hcgone⟩ := List.mem_filter.mp hc
  obtain ⟨ht₀, htgone⟩ := List.mem_filter.mp ht
  refine ⟨hc₀, ht₀, ?_, fun a _ _ => countOf_filter a.counts (by simpa using htgone)⟩
  rw [hrows]
  exact hstays c hc₀ hcloses hcgone t ht₀ hb

end ShareTracker.WholeHolding
