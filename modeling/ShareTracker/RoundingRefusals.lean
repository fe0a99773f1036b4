import ShareTracker.Rerounding

/-!
When a rounding is refused. A stored count never refuses one: the counts are
released until the rest fits, and with all of them released what is left is the
distribution of a holding that never had any.
-/
namespace ShareTracker

/-! ### Slots -/

section Slots
variable {n : ℕ} {slots slots' : Fin n → Slot} {step total divisor : ℚ} {share : Fin n → ℚ}

/-- The counts of a distribution that keeps `kept` and hands out `extra` steps. -/
def countsOf (slots : Fin n → Slot) (step : ℚ) (inLieu : Option ℚ) (kept : Fin n → Option ℚ)
    (extra : ℕ) : List ParcelCount :=
  (List.finRange n).map (slotCount slots inLieu (gridCount slots step kept extra)
    (carrier slots inLieu (gridCount slots step kept extra)))

theorem refuseEmptied_of_pos {kept : Fin n → Option ℚ} {extra : ℕ} (inLieu : Option ℚ)
    (h : ∀ i, 0 < gridCount slots step kept extra i) :
    refuseEmptied (countsOf slots step inLieu kept extra) =
      .ok (countsOf slots step inLieu kept extra) := by
  cases he : refuseEmptied (countsOf slots step inLieu kept extra) with
  | ok counts => rw [(refuseEmptied_ok he).1]
  | error e =>
    obtain ⟨c, hc, hzero, -⟩ := refuseEmptied_error he
    obtain ⟨i, -, rfl⟩ := List.mem_map.mp hc
    have hgrid := slotCount_grid slots inLieu (gridCount slots step kept extra)
      (carrier slots inLieu (gridCount slots step kept extra)) i
    have hfraction := slotCount_inLieu_nonneg slots inLieu (gridCount slots step kept extra) i
    linarith [h i]

namespace Sound
variable (S : Sound slots step total divisor share)
include S

/-- Where some counts make up the total, a distribution finds them. -/
theorem distributeSlots_of_absorbs (inLieu : Option ℚ)
    (h : Apportion.Absorbs (List.finRange n) step total share fun _ => none) :
    ∃ counts, distributeSlots slots step total inLieu = .ok counts := by
  obtain ⟨m, -, extra, -, hstop, hb, he⟩ := S.outcome inLieu
  have hk := retaining_keeps slots step ((releaseOrder slots step).drop m)
  have habs : Apportion.Absorbs (List.finRange n) step total share
      (retaining slots step ((releaseOrder slots step).drop m)) := by
    rcases hstop with habs | rfl
    · exact habs
    · have hnone : retaining slots step ((releaseOrder slots step).drop
          (releaseOrder slots step).length) = fun _ => none := by
        funext i
        simp [retaining]
      rw [hnone]
      exact h
  exact ⟨_, he.trans (refuseEmptied_of_pos inLieu
    (gridCount_pos S.step_pos S.divisor_pos S.exact hk hb (S.must_le hk hb habs)))⟩

/-- Where none do, every stored count is released. -/
theorem distributeSlots_of_not_absorbs (inLieu : Option ℚ)
    (h : ¬ Apportion.Absorbs (List.finRange n) step total share fun _ => none) :
    ∃ extra, Band slots step total (fun _ => none) extra ∧
      distributeSlots slots step total inLieu =
        refuseEmptied (countsOf slots step inLieu (fun _ => none) extra) := by
  obtain ⟨m, -, extra, -, hstop, hb, he⟩ := S.outcome inLieu
  have hk := retaining_keeps slots step ((releaseOrder slots step).drop m)
  have hnone : retaining slots step ((releaseOrder slots step).drop m) = fun _ => none := by
    rcases hstop with habs | rfl
    · exact absurd (S.absorbs_free hk habs) h
    · funext i
      simp [retaining]
  rw [hnone] at hb he
  exact ⟨extra, hb, he⟩

/-- Distributions that differ in their stored counts are refused alike. -/
theorem distributeSlots_error_iff (E : SameShares slots slots') (inLieu : Option ℚ)
    (e : RoundingError) :
    distributeSlots slots' step total inLieu = .error e ↔
      distributeSlots slots step total inLieu = .error e := by
  have S' := E.sound S
  by_cases h : Apportion.Absorbs (List.finRange n) step total share fun _ => none
  · obtain ⟨counts, hok⟩ := S.distributeSlots_of_absorbs inLieu h
    obtain ⟨counts', hok'⟩ := S'.distributeSlots_of_absorbs inLieu h
    simp [hok, hok']
  · obtain ⟨extra, hb, he⟩ := S.distributeSlots_of_not_absorbs inLieu h
    obtain ⟨extra', hb', he'⟩ := S'.distributeSlots_of_not_absorbs inLieu h
    rw [he, he', countsOf, countsOf, E.gridCount_free S.step_pos hb hb', E.carrier, E.slotCount]

/-- The total can be made up exactly when it gives every floor its units and
every empty floor a step. -/
theorem absorbs_iff :
    Apportion.Absorbs (List.finRange n) step total share (fun _ => none) ↔
      lower slots (fun _ => none) + must slots step (fun _ => none) ≤ total := by
  have hkeeps : Keeps slots step fun _ => none := by
    intro i c hc
    cases hc
  have hkept : keptSum (fun _ : Fin n => none) = 0 := by simp [keptSum, sumOver]
  have hband := S.band_free.2
  rw [hkept, sub_zero] at hband
  rw [← S.fits_iff_absorbs hkeeps, fits, hkept, sub_zero, Bool.and_eq_true, decide_eq_true_eq,
    decide_eq_true_eq]
  exact ⟨And.left, fun h => ⟨h, hband⟩⟩

/-- Without a fraction to carry, a parcel is left empty exactly when the total
falls short of that. -/
theorem emptied_iff_of_none :
    (∃ parcel, distributeSlots slots step total none = .error (.parcelEmptied parcel)) ↔
      total < lower slots (fun _ => none) + must slots step (fun _ => none) := by
  rw [← not_le, ← S.absorbs_iff]
  constructor
  · rintro ⟨parcel, hrefused⟩ habs
    obtain ⟨counts, hok⟩ := S.distributeSlots_of_absorbs none habs
    rw [hok] at hrefused
    cases hrefused
  · intro hnot
    obtain ⟨extra, hb, he⟩ := S.distributeSlots_of_not_absorbs none hnot
    cases hrefuse : refuseEmptied (countsOf slots step none (fun _ => none) extra) with
    | error e =>
      obtain ⟨c, -, -, rfl⟩ := refuseEmptied_error hrefuse
      exact ⟨_, he.trans hrefuse⟩
    | ok counts =>
      -- no count is empty, so these counts make up the total
      refine absurd ⟨gridCount slots step (fun _ => none) extra, ⟨?_, ?_, gridCount_sum hb⟩⟩ hnot
      · intro i _ c hc
        cases hc
      · intro i _ _
        have hkeeps : Keeps slots step fun _ => none := by
          intro i c hc
          cases hc
        have hnear := gridCount_near S.step_pos S.divisor_pos S.exact hkeeps hb i
        have hnonneg := gridCount_nonneg S.step_pos S.divisor_pos S.exact hkeeps hb i
        rw [(S.exact i).rem_ne_zero S.step_pos S.divisor_pos, (S.exact i).floor_eq] at hnear
        obtain ⟨hon, habs⟩ := (Apportion.near_iff S.step_pos).mpr hnear
        refine ⟨hon, lt_of_le_of_ne hnonneg fun hzero => ?_, habs⟩
        refine (refuseEmptied_ok hrefuse).2 _ (List.mem_map_of_mem (List.mem_finRange i)) ?_
        simp [slotCount, ← hzero]

end Sound

end Slots

/-! ### Holdings -/

section Holding
variable {parcels : List ParcelBefore} {f : ParcelBefore → ℚ} {multiplier divisor total : ℚ}
  {scale : ℕ} {inLieu : Option ℚ} {ratio : Ratio} {rule : Rounding} {unitsReceived : Option ℚ}

/-- The holding's rounded total, or its checked override. -/
def holdingTotal (parcels : List ParcelBefore) (ratio : Ratio) (scale : ℕ) (rule : Rounding)
    (unitsReceived : Option ℚ) : Except RoundingError ℚ :=
  match unitsReceived with
  | some received => checkedReceived received scale
  | none => .ok (rule.onto (gridStep scale) (ratio.exactly (heldExactly parcels)))

/-- What every parcel needs at least: its floor, or a step where that is nothing. -/
def leastTotal (parcels : List ParcelBefore) (ratio : Ratio) (scale : ℕ)
    (unitsReceived : Option ℚ) : ℚ :=
  let floors := parcels.map fun p =>
    Grid.floorOn (gridStep scale) (holdingShare parcels ratio unitsReceived p)
  floors.sum + gridStep scale * floors.count 0

/-- The holding as it would be on a first computation. -/
def withoutPriors (parcels : List ParcelBefore) : List ParcelBefore :=
  withPriors (fun _ => none) parcels

theorem distribute_error_iff (B : Bracketed parcels f multiplier divisor total scale)
    {parcels' : List ParcelBefore} (H : SameHolding parcels parcels') (e : RoundingError) :
    distribute parcels' (parcels.map f) total multiplier divisor scale inLieu = .error e ↔
      distribute parcels (parcels.map f) total multiplier divisor scale inLieu = .error e := by
  unfold distribute
  rw [← distributeSlots_cast H.length_eq]
  exact B.sound.distributeSlots_error_iff (H.sameShares _) inLieu e

theorem leastTotal_eq (ratio : Ratio) (unitsReceived : Option ℚ)
    (slots : Fin parcels.length → Slot)
    (hx : ∀ i, (slots i).Exact (gridStep scale) divisor
      (holdingShare parcels ratio unitsReceived (parcels.get i))) :
    lower slots (fun _ => none) + must slots (gridStep scale) (fun _ => none) =
      leastTotal parcels ratio scale unitsReceived := by
  have hfloors : (parcels.map fun p =>
      Grid.floorOn (gridStep scale) (holdingShare parcels ratio unitsReceived p)) =
      (List.finRange parcels.length).map fun i => (slots i).floor := by
    rw [map_eq_map_finRange]
    exact List.map_congr_left fun i _ => (hx i).floor_eq.symm
  have hemptied : ∀ i, (slots i).emptied = decide ((slots i).floor = 0) := by
    intro i
    rw [Bool.eq_iff_iff, (hx i).emptied_iff, (hx i).floor_eq, decide_eq_true_iff]
  rw [leastTotal, hfloors, must_eq, mul_comm]
  simp only [Option.isNone_none, Bool.true_and, hemptied, lower, if_true, sumOver]
  rw [List.count, List.countP_map]
  rfl

/-- A stored count refuses no rounding and excuses none. -/
theorem roundHolding_error_iff {parcels' : List ParcelBefore} (H : SameHolding parcels parcels')
    (e : RoundingError) :
    roundHolding parcels' ratio scale rule unitsReceived = .error e ↔
      roundHolding parcels ratio scale rule unitsReceived = .error e := by
  by_cases hne : parcels = []
  · subst hne
    cases H
    rfl
  obtain ⟨den, hden, he', he⟩ := roundHolding_same hne H ratio scale rule unitsReceived
  rw [he, he']
  cases unitsReceived with
  | none => exact distribute_error_iff (bracketed_ratio hden) H e
  | some received =>
    cases hc : checkedReceived received scale with
    | error e' => simp only [distributeHeld, hc]
    | ok total =>
      obtain ⟨rfl, hpos, hon⟩ := checkedReceived_ok hc
      simp only [distributeHeld, hc]
      exact distribute_error_iff (bracketed_received hden hne hpos hon) H e

theorem ok_iff_of_error_iff {α ε : Type} {x y : Except ε α} (h : ∀ e, x = .error e ↔ y = .error e) :
    (∃ a, x = .ok a) ↔ ∃ a, y = .ok a := by
  cases x with
  | ok a =>
    cases y with
    | ok b => exact ⟨fun _ => ⟨b, rfl⟩, fun _ => ⟨a, rfl⟩⟩
    | error e =>
      have hcontra := (h e).mpr rfl
      cases hcontra
  | error e =>
    rw [(h e).mp rfl]

theorem cashInLieu_of_ne (hrule : rule ≠ .cashInLieu) (exact total : ℚ) :
    cashInLieu rule scale exact total = none := if_pos hrule

/-- A parcel is left empty exactly when the total is less than the floors and a
step for each empty one. -/
theorem emptied_iff (hrule : rule ≠ .cashInLieu) :
    (∃ parcel, roundHolding parcels ratio scale rule unitsReceived =
        .error (.parcelEmptied parcel)) ↔
      ∃ total, holdingTotal parcels ratio scale rule unitsReceived = .ok total ∧
        total < leastTotal parcels ratio scale unitsReceived := by
  by_cases hne : parcels = []
  · subst hne
    constructor
    · rintro ⟨parcel, hrefused⟩
      cases hrefused
    · rintro ⟨total, htotal, hlt⟩
      have hleast : leastTotal [] ratio scale unitsReceived = 0 := by simp [leastTotal]
      rw [hleast] at hlt
      cases unitsReceived with
      | some received => exact absurd (checkedReceived_ok htotal) (by rintro ⟨rfl, hpos, -⟩; linarith)
      | none =>
        obtain rfl := Except.ok.inj htotal
        have hfloor := rule.floorOn_le_onto (gridStep_pos scale) (ratio.exactly (heldExactly []))
        have hzero : ratio.exactly (heldExactly []) = 0 := by
          simp [Ratio.exactly, heldExactly]
        rw [hzero, Grid.floorOn_of_on (gridStep_pos scale) (.zero _)] at hfloor
        rw [hzero] at hlt
        exact absurd hfloor (not_le.mpr hlt)
  obtain ⟨den, hden, -, he⟩ := roundHolding_eq hne ratio scale rule unitsReceived
  rw [he]
  cases unitsReceived with
  | none =>
    have B : Bracketed parcels (fun p => p.exactCount * den) ratio.new (ratio.old * den)
      (rule.onto (gridStep scale) (ratio.exactly (heldExactly parcels))) scale :=
      bracketed_ratio hden
    have S := B.sound
    have hiff := S.emptied_iff_of_none
    rw [shareBy_ratio parcels hden] at S
    rw [leastTotal_eq ratio none _ S.exact] at hiff
    simp only [cashInLieu_of_ne hrule, holdingTotal, Except.ok.injEq, exists_eq_left']
    exact hiff
  | some received =>
    cases hc : checkedReceived received scale with
    | error e =>
      simp only [hc, holdingTotal]
      constructor
      · rintro ⟨parcel, hrefused⟩
        rcases checkedReceived_error hc with ⟨-, rfl⟩ | ⟨-, rfl⟩ <;> cases hrefused
      · rintro ⟨total, htotal, -⟩
        cases htotal
    | ok total =>
      obtain ⟨rfl, hpos, hon⟩ := checkedReceived_ok hc
      have S := (bracketed_received hden hne hpos hon).sound
      have hiff := S.emptied_iff_of_none
      rw [shareBy_received hden hne] at S
      rw [leastTotal_eq ratio (some total) _ S.exact] at hiff
      simp only [hc, cashInLieu_of_ne hrule, holdingTotal, Except.ok.injEq, exists_eq_left']
      exact hiff

/-- The stored counts decide no refusal, and a parcel is reported empty exactly
when the rounded total cannot give every parcel a step. -/
theorem refusals (parcels : List ParcelBefore) (ratio : Ratio) (scale : ℕ) (rule : Rounding)
    (unitsReceived : Option ℚ) :
    ((∃ counts, roundHolding parcels ratio scale rule unitsReceived = .ok counts) ↔
        ∃ counts, roundHolding (withoutPriors parcels) ratio scale rule unitsReceived = .ok counts) ∧
      (rule ≠ .cashInLieu →
        ((∃ parcel, roundHolding parcels ratio scale rule unitsReceived =
            .error (.parcelEmptied parcel)) ↔
          ∃ total, holdingTotal parcels ratio scale rule unitsReceived = .ok total ∧
            total < leastTotal parcels ratio scale unitsReceived)) :=
  ⟨(ok_iff_of_error_iff (roundHolding_error_iff (sameHolding_withPriors _ parcels))).symm, emptied_iff⟩

end Holding

theorem one_new_pos : (0 : ℚ) < 1 := one_pos

def oneForThousand : Ratio := ⟨1, 1000, one_new_pos, by norm_num⟩

/-- A twentieth of a unit rounded down leaves its parcel nothing, whatever it had stored. -/
theorem refusals_of_a_twentieth :
    ∃ parcel, roundHolding [fiftyUnits 1 (some ⟨50, 17⟩)] oneForThousand 0 .down none =
      .error (.parcelEmptied parcel) :=
  ((refusals [fiftyUnits 1 (some ⟨50, 17⟩)] oneForThousand 0 .down none).2 (by decide)).mpr
    ⟨0, by decide +kernel, by decide +kernel⟩

end ShareTracker
