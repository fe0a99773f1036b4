import ShareTracker.WholeHoldingWrites

/-!
Edits of a stored parcel under the back-dating guard. A parcel behind any executed
operation passes it, wherever the edit moves it to.
-/
namespace ShareTracker.WholeHolding

/-- The edit stands behind an operation the stored trade was clear of. -/
def NewlyBehind (s : Ledger) (stored : Trade) (body : TradeBody) : Prop :=
  ∃ c ∈ s.trades, closes c = true ∧ (body.listing = c.listing ∧ body.date ≤ c.date) ∧
    ¬ (stored.listing = c.listing ∧ stored.date ≤ c.date)

/-- The guard refuses the edit. -/
def RefusesEdit (s : Ledger) (id : TradeId) (body : TradeBody) (recount : Recount) : Prop :=
  ∃ operations, (guardParcel s (.writeTrade id body recount)).answer =
    .error (.backDatedOverWholeHolding operations)

/-- On its own listing the parcel passes no operation it stood after; on another
it lands behind none. -/
def PassesNone (s : Ledger) (stored : Trade) (body : TradeBody) : Prop :=
  if body.listing = stored.listing then
    ∀ c ∈ s.trades, closes c = true → stored.listing = c.listing → c.date < stored.date →
      c.date < body.date
  else Clear s body.listing body.date

/-! ### The guard, read as sets of operations -/

theorem executedFrom_eq_nil {s : Ledger} {listing : ListingId} {date : NaiveDate} :
    executedFrom s listing date = [] ↔ Clear s listing date := by
  rw [List.eq_nil_iff_forall_not_mem]
  constructor
  · intro h c hc hcloses hlisting
    by_contra hnot
    apply h c
    exact mem_executedFrom.mpr ⟨hc, hlisting.symm, hcloses, not_lt.mp hnot⟩
  · intro h c hmem
    obtain ⟨hc, hlisting, hcloses, hdate⟩ := mem_executedFrom.mp hmem
    exact absurd hdate (not_le.mpr (h c hc hcloses hlisting.symm))

theorem not_clear {s : Ledger} {listing : ListingId} {date : NaiveDate} :
    ¬ Clear s listing date ↔
      ∃ c ∈ s.trades, closes c = true ∧ listing = c.listing ∧ date ≤ c.date := by
  unfold Clear
  push Not
  rfl

theorem refuseBackDated_answer {s : Ledger} {listing : ListingId} {date : NaiveDate}
    {stored : Option (ListingId × NaiveDate)} :
    (∃ operations, (refuseBackDated s listing date stored).answer =
        .error (.backDatedOverWholeHolding operations)) ↔
      ∃ operations, backDatedParcel s listing date stored = some operations := by
  unfold refuseBackDated
  cases backDatedParcel s listing date stored with
  | none =>
    constructor
    · intro h
      cases h.choose_spec
    · intro h
      cases h.choose_spec
  | some operations => exact ⟨fun _ => ⟨operations, rfl⟩, fun _ => ⟨operations, rfl⟩⟩

/-- An edit is refused behind some operation, unless the parcel stood behind one. -/
theorem backDatedParcel_edit {s : Ledger} {listing : ListingId} {date : NaiveDate}
    {p : ListingId × NaiveDate} :
    (∃ operations, backDatedParcel s listing date (some p) = some operations) ↔
      ¬ Clear s listing date ∧ Clear s p.1 p.2 := by
  rw [← executedFrom_eq_nil, ← executedFrom_eq_nil]
  unfold backDatedParcel
  by_cases hnew : executedFrom s listing date = []
  · simp [hnew]
  · by_cases hold : executedFrom s p.1 p.2 = []
    · simp [hnew, hold]
    · simp [hnew, hold]

theorem refusesEdit_iff {s : Ledger} {id : TradeId} {stored : Trade} {body : TradeBody}
    {recount : Recount} (hstored : s.trade? id = some stored) :
    RefusesEdit s id body recount ↔
      ¬ Clear s body.listing body.date ∧ Clear s stored.listing stored.date := by
  have hguard : guardParcel s (.writeTrade id body recount) =
      refuseBackDated s body.listing body.date (some (stored.listing, stored.date)) := by
    simp [guardParcel, hstored]
  unfold RefusesEdit
  rw [hguard]
  exact refuseBackDated_answer.trans backDatedParcel_edit

/-! ### When the guard keeps its promise -/

/-- From a clear place every operation the edit stands behind is new. -/
theorem newlyBehind_of_clear {s : Ledger} {stored : Trade} (body : TradeBody)
    (hclear : Clear s stored.listing stored.date) :
    NewlyBehind s stored body ↔ ¬ Clear s body.listing body.date := by
  rw [not_clear]
  constructor
  · rintro ⟨c, hc, hcloses, hbehind, -⟩
    exact ⟨c, hc, hcloses, hbehind⟩
  · rintro ⟨c, hc, hcloses, hbehind⟩
    refine ⟨c, hc, hcloses, hbehind, ?_⟩
    rintro ⟨hlisting, hdate⟩
    exact absurd hdate (not_le.mpr (hclear c hc hcloses hlisting))

theorem passesNone_iff {s : Ledger} {stored : Trade} {body : TradeBody} :
    PassesNone s stored body ↔ ¬ NewlyBehind s stored body := by
  unfold PassesNone
  split_ifs with hsame
  · constructor
    · rintro h ⟨c, hc, hcloses, ⟨hlisting, hdate⟩, hnew⟩
      have hafter : c.date < stored.date := by
        by_contra hnot
        exact hnew ⟨hsame.symm.trans hlisting, not_lt.mp hnot⟩
      exact absurd hdate (not_le.mpr (h c hc hcloses (hsame.symm.trans hlisting) hafter))
    · intro h c hc hcloses hlisting hafter
      by_contra hnot
      apply h
      refine ⟨c, hc, hcloses, ⟨hsame.trans hlisting, not_lt.mp hnot⟩, ?_⟩
      intro hold
      exact absurd hold.2 (not_le.mpr hafter)
  · -- an operation of the new listing was never one the parcel stood behind
    constructor
    · rintro h ⟨c, hc, hcloses, ⟨hlisting, hdate⟩, -⟩
      exact absurd hdate (not_le.mpr (h c hc hcloses hlisting))
    · intro h c hc hcloses hlisting
      by_contra hnot
      apply h
      refine ⟨c, hc, hcloses, ⟨hlisting, not_lt.mp hnot⟩, ?_⟩
      intro hold
      exact hsame (hlisting.trans hold.1.symm)

/-- The guard refuses the edits that strand units, and no other, exactly of a parcel
that stands clear or by an edit that passes no operation. -/
theorem refusesEdit_iff_newlyBehind_iff (s : Ledger) (id : TradeId) (stored : Trade)
    (body : TradeBody) (recount : Recount) (hstored : s.trade? id = some stored) :
    (RefusesEdit s id body recount ↔ NewlyBehind s stored body) ↔
      (Clear s stored.listing stored.date ∨ PassesNone s stored body) := by
  rw [refusesEdit_iff hstored]
  by_cases hclear : Clear s stored.listing stored.date
  · have hnew := newlyBehind_of_clear body hclear
    simp only [hclear, and_true, true_or, iff_true]
    exact hnew.symm
  · simp only [hclear, and_false, false_or, false_iff]
    exact passesNone_iff.symm

/-! ### A parcel between a demerger and an exchange -/

/-- A demerger of listing 1, a parcel bought after it, and an exchange of both. -/
def demergedThenExchanged : Ledger where
  trades :=
    [⟨1, .buy, ymd 2023 6 1, 1, 1, 100, none⟩,
      ⟨2, .sell, ymd 2024 1 15, 1, 1, 100, some (.demergerAction 1)⟩,
      ⟨3, .buy, ymd 2024 1 15, 1, 1, 100, some (.demergerAction 1)⟩,
      ⟨4, .buy, ymd 2024 1 15, 2, 1, 20, some (.demergerAction 1)⟩,
      ⟨5, .buy, ymd 2024 3 1, 1, 1, 50, none⟩,
      ⟨6, .sell, ymd 2024 6 1, 1, 1, 150, some (.scripAction 2)⟩,
      ⟨7, .buy, ymd 2024 6 1, 3, 1, 100, some (.scripAction 2)⟩,
      ⟨8, .buy, ymd 2024 6 1, 3, 1, 50, some (.scripAction 2)⟩]
  allocations := [⟨2, 1, .new 100 0⟩, ⟨6, 3, .new 100 0⟩, ⟨6, 5, .new 50 0⟩]
  actions := []
  transfers := []
  unitScale := fun _ _ => none

/-- The second parcel, dated back behind the demerger. -/
def behindDemerger : TradeBody := ⟨ymd 2023 12 1, 1, 1, 50⟩

/-- The second parcel, dated back to a day after the demerger. -/
def afterDemerger : TradeBody := ⟨ymd 2024 2 1, 1, 1, 50⟩

def betweenOperations : Trade := ⟨5, .buy, ymd 2024 3 1, 1, 1, 50, none⟩

theorem refusesEdit_iff_newlyBehind_iff_afterDemerger :
    (RefusesEdit demergedThenExchanged 5 afterDemerger (fun _ _ => []) ↔
        NewlyBehind demergedThenExchanged betweenOperations afterDemerger) ↔
      (Clear demergedThenExchanged 1 (ymd 2024 3 1) ∨
        PassesNone demergedThenExchanged betweenOperations afterDemerger) :=
  refusesEdit_iff_newlyBehind_iff demergedThenExchanged 5 betweenOperations afterDemerger
    (fun _ _ => []) (by decide)

/-- The exchange the parcel stood behind exempts the edit from the demerger it did not. -/
theorem accepts_edit_newly_behind :
    ¬ (RefusesEdit demergedThenExchanged 5 behindDemerger (fun _ _ => []) ↔
      NewlyBehind demergedThenExchanged betweenOperations behindDemerger) := by
  have hstored : demergedThenExchanged.trade? 5 = some betweenOperations := by decide
  have hnew : NewlyBehind demergedThenExchanged betweenOperations behindDemerger := by
    refine ⟨⟨2, .sell, ymd 2024 1 15, 1, 1, 100, some (.demergerAction 1)⟩, ?_, ?_⟩
    · simp [demergedThenExchanged]
    · decide
  have hstands : ¬ Clear demergedThenExchanged 1 (ymd 2024 3 1) := by
    rw [not_clear]
    refine ⟨⟨6, .sell, ymd 2024 6 1, 1, 1, 150, some (.scripAction 2)⟩, ?_, ?_⟩
    · simp [demergedThenExchanged]
    · decide
  intro h
  have hrefused := (refusesEdit_iff hstored).mp (h.mpr hnew)
  exact hstands hrefused.2

end ShareTracker.WholeHolding
