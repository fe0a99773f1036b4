import ShareTracker.LedgerInvariant
import ShareTracker.WholeHolding

/-!
What is left open of a parcel at a date, and what a change to the ledger must
keep for a parcel an operation has consumed to stay consumed.
-/
namespace ShareTracker.WholeHolding

/-! ### A parcel's units at a date -/

section AtDate
variable (D : DecimalRounding)

/-- Sales up to a date, in the order the walk takes them. -/
def walkBy (rows : List (TradeId × UnitsAt)) (date : NaiveDate) : List UnitsAt :=
  StableSort.sortBy UnitsAt.basis ((rows.filter fun r => r.2.basis ≤ date).map Prod.snd)

/-- The as-acquired units of a parcel still open at a date. -/
noncomputable def openAt (s : Ledger) (t : Trade) (date : NaiveDate) : ℚ :=
  EmptyingWalk.remaining t.quantity ((walkBy (s.saleRows t.id) date).map
    (saleDraw D (s.splitsForParcel t.listing t.id) t.date))

/-- A parcel of the operation's listing, dated on or before it and not written by it. -/
def Behind (t c : Trade) : Prop :=
  t.tradeType.isAcquisition = true ∧ t.listing = c.listing ∧ t.date ≤ c.date ∧
    t.provenance ≠ c.provenance

instance (t c : Trade) : Decidable (Behind t c) :=
  inferInstanceAs (Decidable (_ ∧ _ ∧ _ ∧ _))

/-- No parcel behind an executed operation has units open at its date. -/
def Whole (s : Ledger) : Prop :=
  ∀ c ∈ s.trades, closes c = true → ∀ t ∈ s.trades, Behind t c → openAt D s t c.date ≤ 0

end AtDate

theorem walkBy_filter (rows : List (TradeId × UnitsAt)) (keep : TradeId × UnitsAt → Bool)
    (date : NaiveDate) : (walkBy (rows.filter keep) date).Sublist (walkBy rows date) := by
  have hcomm : (rows.filter keep).filter (fun r => decide (r.2.basis ≤ date)) =
      (rows.filter fun r => decide (r.2.basis ≤ date)).filter keep := by
    rw [List.filter_filter, List.filter_filter]
    simp only [Bool.and_comm]
  unfold walkBy
  rw [hcomm]
  exact StableSort.sortBy_filter_sublist Prod.snd UnitsAt.basis keep _

theorem mem_walkBy {rows : List (TradeId × UnitsAt)} {date : NaiveDate} {u : UnitsAt} :
    u ∈ walkBy rows date ↔ ∃ r ∈ rows, r.2.basis ≤ date ∧ r.2 = u := by
  unfold walkBy
  rw [StableSort.mem_sortBy, List.mem_map]
  constructor
  · rintro ⟨r, hr, rfl⟩
    obtain ⟨hr, hle⟩ := List.mem_filter.mp hr
    exact ⟨r, hr, of_decide_eq_true hle, rfl⟩
  · rintro ⟨r, hr, hle, rfl⟩
    exact ⟨r, List.mem_filter.mpr ⟨hr, decide_eq_true hle⟩, rfl⟩

/-! ### Events up to a date -/

/-- Whether an action re-bases an operation's holding on or before it. -/
def relevant (c : Trade) (a : CorporateAction) : Bool :=
  a.listing = c.listing && a.date ≤ c.date && a.rebase.isSome

/-- What an action stores of a parcel. -/
def countOf (counts : List (TradeId × StoredCount)) (parcel : TradeId) : Option (ℚ × ℚ) :=
  (counts.find? fun c => c.1 = parcel).map fun c => (c.2.before, c.2.after)

/-- A parcel's events up to the operation's date. -/
def eventsBy (s : Ledger) (c : Trade) (parcel : TradeId) : List SplitEvent :=
  (StableSort.sortBy Ledger.order (s.actions.filter (relevant c))).filterMap (·.eventFor parcel)

theorem eventFor_date {a : CorporateAction} {parcel : TradeId} {e : SplitEvent}
    (h : a.eventFor parcel = some e) : e.date = a.date := by
  obtain ⟨e', he', heq⟩ := Option.map_eq_some_iff.mp h
  rw [← heq, ← a.rebase_date e' he']
  split <;> rfl

theorem filter_splitsForParcel (s : Ledger) (c : Trade) (parcel : TradeId) :
    (s.splitsForParcel c.listing parcel).filter (fun e => decide (e.date ≤ c.date)) =
      eventsBy s c parcel := by
  have hrelevant : s.actions.filter (relevant c) =
      (s.actions.filter fun a => a.listing = c.listing).filter
        fun a => a.date ≤ c.date && a.rebase.isSome := by
    rw [List.filter_filter]
    refine List.filter_congr fun a _ => ?_
    unfold relevant
    rw [Bool.and_assoc, Bool.and_comm]
  unfold eventsBy Ledger.splitsForParcel
  rw [hrelevant, ← StableSort.filter_sortBy Ledger.order
    (fun a => decide (a.date ≤ c.date) && a.rebase.isSome), List.filterMap_filter,
    List.filter_filterMap]
  refine List.filterMap_congr fun a _ => ?_
  cases he : a.eventFor parcel with
  | none =>
    cases a.rebase.isSome <;> simp
  | some e =>
    have hsome : a.rebase.isSome = true := by
      obtain ⟨e', he', -⟩ := Option.map_eq_some_iff.mp he
      rw [he']
      rfl
    simp [hsome, Option.filter, eventFor_date he]

/-- A basis factor up to a date reads no event after it. -/
theorem basisFactor_congr {splits splits' : List SplitEvent} {d acquired date : NaiveDate}
    (h : splits.filter (fun e => decide (e.date ≤ d)) =
      splits'.filter fun e => decide (e.date ≤ d)) (hacquired : acquired ≤ d) (hdate : date ≤ d) :
    basisFactor splits acquired date = basisFactor splits' acquired date := by
  have hlevel : ∀ u ≤ d, basisLevel splits u = basisLevel splits' u := by
    intro u hu
    have hcut : ∀ l : List SplitEvent, l.filter (fun e => decide (e.date ≤ u)) =
        (l.filter fun e => decide (e.date ≤ d)).filter fun e => decide (e.date ≤ u) := by
      intro l
      rw [List.filter_filter]
      refine List.filter_congr fun e _ => ?_
      by_cases he : e.date ≤ u
      · simp [he, he.trans hu]
      · simp [he]
    unfold basisLevel
    rw [hcut splits, hcut splits', h]
  unfold basisFactor
  rw [rebaseRatio_factor, rebaseRatio_factor, hlevel _ hacquired, hlevel _ hdate]

/-- Dates with no event between them are the same basis. -/
theorem basisFactor_moved {splits : List SplitEvent} {acquired acquired' : NaiveDate}
    (h : basisFactor splits acquired acquired' = 1) (date : NaiveDate) :
    basisFactor splits acquired' date = basisFactor splits acquired date := by
  unfold basisFactor at *
  rw [rebaseRatio_factor] at h ⊢
  rw [rebaseRatio_factor, (div_eq_one_iff_eq (basisLevel_pos splits acquired).ne').mp h]

/-! ### What a change keeps -/

/-- What stays of a parcel `t`, rewritten as `t'`, up to the operation `c`. -/
structure Kept (s s' : Ledger) (c t t' : Trade) : Prop where
  id : t'.id = t.id
  quantity : t'.quantity ≤ t.quantity
  sales : (walkBy (s.saleRows t.id) c.date).Sublist (walkBy (s'.saleRows t.id) c.date)
  events : eventsBy s' c t.id = eventsBy s c t.id
  moved : basisFactor (s.splitsForParcel c.listing t.id) t.date t'.date = 1
  counts : ∀ a' ∈ s'.actions, relevant c a' = true → ∃ a ∈ s.actions, relevant c a = true ∧
    a.listing = a'.listing ∧ a.id = a'.id ∧ countOf a'.counts t.id = countOf a.counts t.id

/-- Every operation of `s'`, and every parcel behind it, was there in `s`. -/
def Carries (s s' : Ledger) : Prop :=
  ∀ c ∈ s'.trades, closes c = true → ∀ t' ∈ s'.trades, Behind t' c →
    c ∈ s.trades ∧ ∃ t ∈ s.trades, Behind t c ∧ Kept s s' c t t'

/-- A parcel kept has no more open than it had. -/
theorem Kept.openAt_le {D : DecimalRounding} {s s' : Ledger} {c t t' : Trade}
    (h : Kept s s' c t t') (ht : Behind t c) (ht' : Behind t' c)
    (hpos : ∀ r ∈ s'.saleRows t'.id, 0 < r.2.quantity.value) :
    openAt D s' t' c.date ≤ openAt D s t c.date := by
  have hfilter : (s'.splitsForParcel t'.listing t'.id).filter (fun e => decide (e.date ≤ c.date)) =
      (s.splitsForParcel c.listing t.id).filter fun e => decide (e.date ≤ c.date) := by
    rw [ht'.2.1, h.id, filter_splitsForParcel, filter_splitsForParcel, h.events]
  have hfactor : ∀ u ∈ walkBy (s'.saleRows t.id) c.date,
      basisFactor (s'.splitsForParcel t'.listing t'.id) t'.date u.basis =
        basisFactor (s.splitsForParcel t.listing t.id) t.date u.basis := by
    intro u hu
    obtain ⟨r, -, hle, rfl⟩ := mem_walkBy.mp hu
    rw [basisFactor_congr hfilter ht'.2.2.1 hle, basisFactor_moved h.moved, ht.2.1]
  have hdraws : (walkBy (s'.saleRows t.id) c.date).map
      (saleDraw D (s'.splitsForParcel t'.listing t'.id) t'.date) =
      (walkBy (s'.saleRows t.id) c.date).map
        (saleDraw D (s.splitsForParcel t.listing t.id) t.date) := by
    refine List.map_congr_left fun u hu => ?_
    unfold saleDraw
    simp only [hfactor u hu]
  have hread : ∀ d ∈ (walkBy (s'.saleRows t.id) c.date).map
      (saleDraw D (s.splitsForParcel t.listing t.id) t.date), 0 < d.read := by
    intro d hd
    obtain ⟨u, hu, rfl⟩ := List.mem_map.mp hd
    obtain ⟨r, hr, -, rfl⟩ := mem_walkBy.mp hu
    exact restated_pos D (basisFactor_pos _ _ _) (hpos r (h.id ▸ hr))
  unfold openAt
  rw [h.id] at hdraws ⊢
  rw [hdraws]
  refine (EmptyingWalk.remaining_mono hread h.quantity).trans ?_
  exact EmptyingWalk.remaining_sublist (h.sales.map _) hread t.quantity

theorem Whole.carried {D : DecimalRounding} {s s' : Ledger} (hs : Whole D s) (h : Carries s s')
    (hrows : s'.Rows) : Whole D s' := by
  intro c hc hcloses t' ht' hbehind
  obtain ⟨hc₀, t, ht, hb, hkept⟩ := h c hc hcloses t' ht' hbehind
  refine (hkept.openAt_le hb hbehind ?_).trans (hs c hc₀ hcloses t ht hb)
  exact Ledger.saleRows_pos hrows.drawn t'.id

end ShareTracker.WholeHolding
