import ShareTracker.SettledRuns

/-!
A listing settled twice in a row: the second recompute reads back what the first
stored, asks for exactly that and issues no statement.
-/
namespace ShareTracker.RoundedCounts

section Twice
variable {D : DecimalRounding} {s s' : Db} {l : ListingId}

/-- A listing just recomputed: asked again it gives the rows stored, which are
left as they are. -/
theorem recompute_twice (R : s.Rows) (h : recompute D s l = .ok s') :
    ∃ rows, desired D (s'.facts l) s'.prior [] (s'.splitActions l) = .ok rows ∧
      (∀ r, r ∈ rows ↔ r ∈ s'.counts ∧ r.action ∈ (s'.splitActions l).map ActionRow.id) ∧
      countWrites s' ((s'.splitActions l).map ActionRow.id) rows = [] ∧
      recompute D s' l = .ok s' := by
  obtain ⟨R', hsettled, -⟩ := recompute_settled R h
  obtain ⟨rows, hrows, hstored, hasked, hwrites⟩ := hsettled.no_writes R'
  refine ⟨rows, hrows, fun r => ⟨fun hr => ⟨hasked r hr, ?_⟩, fun hr => hstored r hr.1 hr.2⟩, hwrites,
    recompute_ok.mpr ⟨rows, hrows, (reconcile_of_no_writes hwrites).symm⟩⟩
  obtain ⟨⟨a, ha, -, hid⟩, -⟩ := desired_rows (R'.parcels_nodup l) hrows r hr
  exact hid ▸ List.mem_map_of_mem ha

/-- A rounding fed its own counts gives them again, for a holding and for a
register, and a listing recomputed twice is written once. -/
theorem recomputation_idempotent (parcels : List ParcelBefore) (ratio : Ratio) (scale : ℕ)
    (rule : Rounding) (unitsReceived : Option ℚ) (counts : List ParcelCount) (D : DecimalRounding)
    (s s' : Db) (l : ListingId) :
    (roundHolding parcels ratio scale rule unitsReceived = .ok counts →
      counts.map (·.tradeId) = parcels.map (·.tradeId) ∧
        roundHolding (fedBack parcels counts) ratio scale rule unitsReceived = .ok counts) ∧
    (∀ register,
      roundRegisteredHolding parcels register ratio scale rule unitsReceived = .ok counts →
      counts.map (·.tradeId) = parcels.map (·.tradeId) ∧
        roundRegisteredHolding (fedBack parcels counts) register ratio scale rule unitsReceived =
          .ok counts) ∧
    (s.Rows → recompute D s l = .ok s' →
      ∃ rows, desired D (s'.facts l) s'.prior [] (s'.splitActions l) = .ok rows ∧
        (∀ r, r ∈ rows ↔ r ∈ s'.counts ∧ r.action ∈ (s'.splitActions l).map ActionRow.id) ∧
        countWrites s' ((s'.splitActions l).map ActionRow.id) rows = [] ∧
        recompute D s' l = .ok s') := by
  refine ⟨fun h => ?_, fun register h => ?_, recompute_twice⟩
  · have hids := roundHolding_ids h
    obtain ⟨H, hprior⟩ := fedBack_same (by simpa using congrArg List.length hids)
    exact ⟨hids, roundHolding_again H hprior h⟩
  · have hids := roundRegisteredHolding_ids h
    obtain ⟨H, hprior⟩ := fedBack_same (by simpa using congrArg List.length hids)
    exact ⟨hids, roundRegisteredHolding_again H hprior h⟩

/-- A hundred units whose one-for-three consolidation pays the fraction in cash. -/
def paidInLieu : Db where
  trades := [⟨1, .buy, 1, ymd 2024 1 2, ymd 2024 1 4, 100, 1⟩]
  allocations := []
  accountScale := fun _ => some 0
  unitScales := fun _ _ => none
  overrides := fun _ _ => none
  actions := [⟨7, 1, ymd 2024 6 3, none, splitOf 1 3, some .cashInLieu⟩]
  counts := []
  dirty := []

theorem paidInLieu_rows : paidInLieu.Rows :=
  ⟨by decide, by decide, by decide, fun r hr => absurd hr List.not_mem_nil⟩

/-- Its stored count, with the fraction, is rounded again to itself, computed
again from the table and left alone. -/
theorem recomputation_idempotent_in_lieu : ∃ s' rows,
    roundHolding (fedBack [fiftyUnits 1 none, fiftyUnits 2 none]
        [⟨1, 50, 17, 0⟩, ⟨2, 50, 16, 0⟩]) oneForThree 0 .down none =
      .ok [⟨1, 50, 17, 0⟩, ⟨2, 50, 16, 0⟩] ∧
    recompute halfEvenRounding paidInLieu 1 = .ok s' ∧ s'.counts ≠ [] ∧
      countWrites s' ((s'.splitActions 1).map ActionRow.id) rows = [] ∧
      recompute halfEvenRounding s' 1 = .ok s' := by
  have hcounts : Checked.accepts (recompute halfEvenRounding paidInLieu 1)
      (fun s' => s'.counts ≠ []) = true := by decide +kernel
  obtain ⟨s', h, hne⟩ := Checked.accepts_iff.mp hcounts
  obtain ⟨hround, -, hrecompute⟩ := recomputation_idempotent [fiftyUnits 1 none, fiftyUnits 2 none]
    oneForThree 0 .down none [⟨1, 50, 17, 0⟩, ⟨2, 50, 16, 0⟩] halfEvenRounding paidInLieu s' 1
  obtain ⟨rows, -, -, hwrites, hagain⟩ := hrecompute paidInLieu_rows h
  exact ⟨s', rows, (hround (by decide +kernel)).2, h, of_decide_eq_true hne, hwrites, hagain⟩

end Twice

end ShareTracker.RoundedCounts
