import Mathlib
import ShareTracker.HoldingRounding

/-! The two roundings of the registry: a holding on its own, and a holding
whose register also held straddling sales. -/
namespace ShareTracker

section Keeping
variable {parcels : List ParcelBefore} {step : ℚ} {share : ParcelBefore → ℚ}

theorem Slot.keepable_isSome_iff {s : Slot} {divisor : ℚ} (hs : 0 < step) (hd : 0 < divisor)
    (h : s.Exact step divisor (share s.parcel)) :
    (s.keepable step).isSome ↔ KeepablePrior step share s.parcel := by
  unfold Slot.keepable KeepablePrior
  cases hp : s.parcel.prior with
  | none => simp
  | some prior => simp [Option.filter, h.permitted_iff hs hd]

theorem Slot.keepable_eq {s : Slot} (h : (s.keepable step).isSome) :
    s.keepable step = s.parcel.prior.map (·.onGrid) := by
  obtain ⟨c, hc⟩ := Option.isSome_iff_exists.mp h
  rw [hc]
  exact (Option.eq_some_of_filter_eq_some hc).symm

/-- Releasing by the code's keys is releasing in the documented order. -/
theorem Slot.releasedBefore {a b : Slot} (h : a.releaseKey ≤ b.releaseKey) :
    ReleasedBefore a.parcel b.parcel := by
  have hchanged : ∀ s : Slot, s.changed = true ↔ s.parcel.changed := by
    intro s
    unfold Slot.changed ParcelBefore.changed
    cases s.parcel.prior <;> simp
  rcases Prod.Lex.toLex_le_toLex.mp h with h1 | ⟨h1, h2⟩
  · obtain ⟨ha, hb⟩ := Bool.lt_iff.mp h1
    refine .inl ⟨(hchanged a).mp (by simpa using ha), fun hcon => ?_⟩
    have hbt := (hchanged b).mpr hcon
    simp [hbt] at hb
  · refine .inr ⟨?_, ?_⟩
    · have he : a.changed = b.changed := by simpa using h1
      rw [← hchanged, ← hchanged, he]
    · rcases Prod.Lex.toLex_le_toLex.mp h2 with h3 | ⟨h3, h4⟩
      · exact .inl (OrderDual.toDual_lt_toDual.mp h3)
      · exact .inr ⟨(OrderDual.toDual_inj.mp h3).symm, OrderDual.toDual_le_toDual.mp h4⟩

theorem fixing_congr {l l' : List (Fin parcels.length)} (h : ∀ i, i ∈ l ↔ i ∈ l') :
    fixing parcels l = fixing parcels l' := by
  funext i
  simp only [fixing, h i]

/-- With the changed parcels in front, dropping as many as are changed leaves the unchanged. -/
theorem mem_drop_changed {release : List (Fin parcels.length)} (hnd : release.Nodup)
    (hp : release.Pairwise fun i j => ReleasedBefore (parcels.get i) (parcels.get j))
    (P : Fin parcels.length → Bool) (hP : ∀ i, P i = true ↔ (parcels.get i).changed)
    (i : Fin parcels.length) :
    i ∈ release.drop (release.countP P) ↔ i ∈ release ∧ ¬ (parcels.get i).changed := by
  have hfront : ∀ a b : Fin parcels.length, ReleasedBefore parcels[a] parcels[b] →
      P b = true → P a = true := by
    intro a b hab hb
    rw [hP] at hb ⊢
    rcases hab with ⟨ha, -⟩ | ⟨hiff, -⟩
    · exact ha
    · exact hiff.mpr hb
  have hsplit : i ∈ release ↔ i ∈ release.take (release.countP P) ∨
      i ∈ release.drop (release.countP P) := by
    rw [← List.mem_append, List.take_append_drop]
  have hdisj := List.disjoint_take_drop hnd (le_refl (release.countP P))
  constructor
  · intro hi
    refine ⟨hsplit.mpr (.inr hi), fun hch => hdisj ?_ hi⟩
    exact Apportion.mem_take hp hfront le_rfl (hsplit.mpr (.inr hi)) ((hP i).mpr hch)
  · rintro ⟨hi, hch⟩
    refine (hsplit.mp hi).resolve_left fun htake => hch ?_
    exact (hP i).mp (Apportion.of_mem_take hp hfront le_rfl htake)

/-- The release loop's stopping place is what stability asks for. -/
theorem stableKeeping_of_release {total : ℚ} {counts : List ParcelCount}
    (hrounded : RoundedTo step total share parcels counts)
    {release : List (Fin parcels.length)} (hnd : release.Nodup)
    (hmem : ∀ i, i ∈ release ↔ KeepablePrior step share (parcels.get i))
    (hp : release.Pairwise fun i j => ReleasedBefore (parcels.get i) (parcels.get j)) {m : ℕ}
    (hm : m ≤ release.length)
    (hbefore : ∀ k < m, ¬ CanKeep parcels step total share (release.drop k))
    (hstop : Keeping parcels step total share (release.drop m) counts ∨
      (m = release.length ∧ ¬ CanKeep parcels step total share []))
    (hkept : ∀ i ∈ release.drop m,
      ownCount parcels counts i = (parcels.get i).prior.map (·.onGrid)) :
    StableKeeping parcels step total share counts where
  rounded := hrounded
  longest := ⟨release, hnd, hmem, hp, m, hm, hbefore, hstop, hkept⟩
  unchanged i hch hkeep := by
    classical
    let P : Fin parcels.length → Bool := fun i => decide (parcels.get i).changed
    have hP : ∀ i, P i = true ↔ (parcels.get i).changed := fun i => decide_eq_true_iff
    have hdrop := mem_drop_changed hnd hp P hP
    have hi : i ∈ release.drop (release.countP P) := (hdrop i).mpr ⟨(hmem i).mpr hkeep, hch⟩
    rcases le_or_gt m (release.countP P) with hle | hlt
    · exact .inl (hkept i ((List.drop_sublist_drop_left release hle).subset hi))
    · refine .inr fun keeping hkeeping => ?_
      have hsame : ∀ j, j ∈ keeping ↔ j ∈ release.drop (release.countP P) := by
        intro j
        rw [hkeeping, hdrop, hmem]
        exact and_comm
      unfold CanKeep
      rw [fixing_congr hsame]
      exact hbefore _ hlt

end Keeping

section Distribute
variable {parcels : List ParcelBefore} {f : ParcelBefore → ℚ} {multiplier divisor total : ℚ}
  {scale : ℕ} {inLieu : Option ℚ} {counts : List ParcelCount}

/-- A total between the floor and the ceiling of the shares' sum. -/
structure Bracketed (parcels : List ParcelBefore) (f : ParcelBefore → ℚ)
    (multiplier divisor total : ℚ) (scale : ℕ) : Prop where
  units_pos : ∀ p, 0 < f p
  multiplier_pos : 0 < multiplier
  divisor_pos : 0 < divisor
  total_on : Grid.On (gridStep scale) total
  floor_le : Grid.floorOn (gridStep scale)
    (totalShare parcels (shareBy f multiplier divisor)) ≤ total
  le_ceil : total ≤ Grid.ceilOn (gridStep scale)
    (totalShare parcels (shareBy f multiplier divisor))

theorem Bracketed.sound (B : Bracketed parcels f multiplier divisor total scale) :
    Sound (slotsOf parcels (parcels.map f) multiplier divisor scale) (gridStep scale) total divisor
      (fun i => shareBy f multiplier divisor (parcels.get i)) :=
  distribute_sound B.units_pos B.multiplier_pos B.divisor_pos B.total_on B.floor_le B.le_ceil

theorem Bracketed.keepablePriors_iff (B : Bracketed parcels f multiplier divisor total scale)
    (i : Fin parcels.length) :
    (keepablePriors (slotsOf parcels (parcels.map f) multiplier divisor scale)
      (gridStep scale) i).isSome ↔
      KeepablePrior (gridStep scale) (shareBy f multiplier divisor) (parcels.get i) :=
  Slot.keepable_isSome_iff B.sound.step_pos B.divisor_pos (B.sound.exact i)

/-- Retaining keepable parcels is fixing their prior counts. -/
theorem retaining_eq_fixing {slots : Fin parcels.length → Slot} {step : ℚ}
    (hparcel : ∀ i, (slots i).parcel = (parcels.get i)) {l : List (Fin parcels.length)}
    (hl : ∀ i ∈ l, (keepablePriors slots step i).isSome) :
    retaining slots step l = fixing parcels l := by
  funext i
  unfold retaining fixing
  split
  · rename_i hi
    rw [← hparcel i]
    exact Slot.keepable_eq (hl i hi)
  · rfl

/-- A distribution of nothing kept is one of what the release loop keeps. -/
theorem absorbs_of_canKeep {slots : Fin parcels.length → Slot} {step : ℚ}
    {share : ParcelBefore → ℚ} {m : ℕ}
    (hstop : Apportion.Absorbs (List.finRange parcels.length) step total
        (fun i => share (parcels.get i))
        (retaining slots step ((releaseOrder slots step).drop m)) ∨
      m = (releaseOrder slots step).length)
    (hcan : CanKeep parcels step total share []) :
    Apportion.Absorbs (List.finRange parcels.length) step total (fun i => share (parcels.get i))
      (retaining slots step ((releaseOrder slots step).drop m)) := by
  rcases hstop with habs | rfl
  · exact habs
  · have hnone : retaining slots step ((releaseOrder slots step).drop
        (releaseOrder slots step).length) = fixing parcels [] := by
      funext i
      simp [retaining, fixing]
    rw [hnone]
    exact hcan

/-- What a successful distribution gives. -/
theorem distribute_ok (B : Bracketed parcels f multiplier divisor total scale)
    (hne : parcels ≠ [])
    (hcash : 0 < inLieu.getD 0 → total ≤ totalShare parcels (shareBy f multiplier divisor))
    (h : distribute parcels (parcels.map f) total multiplier divisor scale inLieu = .ok counts) :
    RoundedTo (gridStep scale) total (shareBy f multiplier divisor) parcels counts ∧
      CarriedOnce (inLieu.getD 0) counts ∧
      StableKeeping parcels (gridStep scale) total (shareBy f multiplier divisor) counts := by
  have S := B.sound
  have hkeepable := B.keepablePriors_iff
  unfold distribute at h
  generalize hslots : slotsOf parcels (parcels.map f) multiplier divisor scale = slots at *
  have hparcel : ∀ i, (slots i).parcel = parcels.get i := fun i => by rw [← hslots]; rfl
  obtain ⟨m, hm, extra, hbefore, hstop, hb, he⟩ := S.outcome inLieu
  have hk := retaining_keeps slots (gridStep scale)
    ((releaseOrder slots (gridStep scale)).drop m)
  have hfix : ∀ k, retaining slots (gridStep scale)
      ((releaseOrder slots (gridStep scale)).drop k) =
      fixing parcels ((releaseOrder slots (gridStep scale)).drop k) := fun k =>
    retaining_eq_fixing hparcel fun i hi =>
      (mem_releaseOrder slots (gridStep scale) i).mp (List.mem_of_mem_drop hi)
  rw [he] at h
  obtain ⟨rfl, hnonzero⟩ := refuseEmptied_ok h
  have hnear := gridCount_near S.step_pos S.divisor_pos S.exact hk hb
  have hsum := gridCount_sum hb
  have hn : parcels.length ≠ 0 := by simpa using hne
  have hkeptCount : ∀ i ∈ (releaseOrder slots (gridStep scale)).drop m,
      some (gridCount slots (gridStep scale) (retaining slots (gridStep scale)
        ((releaseOrder slots (gridStep scale)).drop m)) extra i) =
        (parcels.get i).prior.map (·.onGrid) := by
    intro i hi
    have hsome := (mem_releaseOrder slots (gridStep scale) i).mp (List.mem_of_mem_drop hi)
    obtain ⟨c, hc⟩ := Option.isSome_iff_exists.mp hsome
    have hkept : retaining slots (gridStep scale)
        ((releaseOrder slots (gridStep scale)).drop m) i = some c := by
      rw [retaining, if_pos hi, hc]
    rw [gridCount_kept S.step_pos S.divisor_pos S.exact hb hkept, ← hparcel i,
      ← Slot.keepable_eq hsome]
    exact hc.symm
  have happortions := fun habs => S.apportions hk hb (S.must_le hk hb habs)
  generalize gridCount slots (gridStep scale) (retaining slots (gridStep scale)
    ((releaseOrder slots (gridStep scale)).drop m)) extra = count at *
  have hown : ∀ i, ownCount parcels ((List.finRange parcels.length).map
      (slotCount slots inLieu count (carrier slots inLieu count))) i = some (count i) := by
    intro i
    simp [ownCount, slotCount_grid]
  have hrounded : RoundedTo (gridStep scale) total (shareBy f multiplier divisor) parcels
      ((List.finRange parcels.length).map
        (slotCount slots inLieu count (carrier slots inLieu count))) := by
    refine ⟨?_, ?_⟩
    · rw [List.map_map]
      simp only [Function.comp_def, slotCount_grid]
      exact hsum
    refine List.forall₂_iff_get.mpr ⟨by simp, fun k hk _ => ?_⟩
    have hx := S.exact ⟨k, hk⟩
    have hpk := hparcel ⟨k, hk⟩
    have hcount := hnear ⟨k, hk⟩
    rw [hx.rem_ne_zero S.step_pos S.divisor_pos, hx.floor_eq] at hcount
    simp only [List.get_eq_getElem, List.getElem_map, List.getElem_finRange, slotCount_grid]
    refine ⟨congrArg (·.tradeId) hpk, congrArg (·.units) hpk, ?_, ?_, hcount⟩
    · have hge : 0 ≤ count ⟨k, hk⟩ := by
        have hfloor := Grid.floorOn_nonneg S.step_pos hx.share_pos.le
        have hstep := S.step_pos
        rcases hcount with hc | ⟨-, hc⟩ <;> linarith
      have hfrac := slotCount_inLieu_nonneg slots inLieu count ⟨k, hk⟩
      have hne0 := hnonzero _
        (List.mem_map_of_mem (List.mem_finRange (⟨k, hk⟩ : Fin parcels.length)))
      have hafter := slotCount_grid slots inLieu count (carrier slots inLieu count) ⟨k, hk⟩
      exact lt_of_le_of_ne (by simp only [Fin.cast_mk]; linarith) (Ne.symm hne0)
    · exact ((Apportion.near_iff S.step_pos).mpr hcount).1
  refine ⟨hrounded, ?_, ?_⟩
  · refine slotCount_carriedOnce fun hpos => exists_floor hn S.step_pos S.exact hnear ?_
    rw [hsum, ← totalShare_eq_sumOver]
    exact hcash hpos
  · refine stableKeeping_of_release hrounded (releaseOrder_nodup slots (gridStep scale)) (fun i => ?_)
      ((releaseOrder_pairwise slots (gridStep scale)).imp fun {a b} hab => ?_) hm ?_ ?_ ?_
    · rw [mem_releaseOrder, hkeepable]
    · rw [← hparcel a, ← hparcel b]
      exact Slot.releasedBefore hab
    · intro k hkm
      rw [CanKeep, ← hfix k]
      exact hbefore k hkm
    · by_cases hcan : CanKeep parcels (gridStep scale) total (shareBy f multiplier divisor) []
      · left
        have happortions := happortions (absorbs_of_canKeep hstop hcan)
        rw [hfix m] at happortions
        simpa only [Keeping, hown, Option.getD_some] using happortions
      · rcases hstop with habs | hlast
        · left
          have happortions := happortions habs
          rw [hfix m] at happortions
          simpa only [Keeping, hown, Option.getD_some] using happortions
        · exact .inr ⟨hlast, hcan⟩
    · intro i hi
      rw [hown, hkeptCount i hi]

/-- A distribution is refused only for an emptied parcel, and only when no
counts the shares permit give every parcel a step. -/
theorem distribute_error (B : Bracketed parcels f multiplier divisor total scale)
    {e : RoundingError}
    (h : distribute parcels (parcels.map f) total multiplier divisor scale inLieu = .error e) :
    (∃ parcel, e = .parcelEmptied parcel) ∧
      ¬ CanKeep parcels (gridStep scale) total (shareBy f multiplier divisor) [] := by
  have S := B.sound
  unfold distribute at h
  generalize slotsOf parcels (parcels.map f) multiplier divisor scale = slots at *
  obtain ⟨m, -, extra, -, hstop, hb, he⟩ := S.outcome inLieu
  have hk := retaining_keeps slots (gridStep scale)
    ((releaseOrder slots (gridStep scale)).drop m)
  rw [he] at h
  obtain ⟨c, hc, hzero, rfl⟩ := refuseEmptied_error h
  refine ⟨⟨_, rfl⟩, fun hcan => ?_⟩
  have habs : Apportion.Absorbs (List.finRange parcels.length) (gridStep scale) total
      (fun i => shareBy f multiplier divisor (parcels.get i))
      (retaining slots (gridStep scale) ((releaseOrder slots (gridStep scale)).drop m)) :=
    absorbs_of_canKeep hstop hcan
  obtain ⟨i, -, rfl⟩ := List.mem_map.mp hc
  have hpos := gridCount_pos S.step_pos S.divisor_pos S.exact hk hb (S.must_le hk hb habs) i
  generalize gridCount slots (gridStep scale) (retaining slots (gridStep scale)
    ((releaseOrder slots (gridStep scale)).drop m)) extra = count at *
  have hgrid := slotCount_grid slots inLieu count (carrier slots inLieu count) i
  have hfrac := slotCount_inLieu_nonneg slots inLieu count i
  linarith

end Distribute

/-- The cash-in-lieu fraction of an exact count over a total. -/
def cashInLieu (rule : Rounding) (scale : ℕ) (exact total : ℚ) : Option ℚ :=
  if rule ≠ .cashInLieu then none
  else some (Grid.truncOn (gridStep (scale + inLieuPlaces)) (exact - total))

theorem inLieuFraction_eq {units total new old : ℚ} (hold : 0 < old) (scale : ℕ)
    (rule : Rounding) :
    inLieuFraction units total new old scale rule =
      cashInLieu rule scale (units * new / old) total := by
  have h : (units * new - total * old) / old = units * new / old - total := by
    rw [sub_div, mul_div_cancel_right₀ _ hold.ne']
  rw [inLieuFraction, cashInLieu, h]

/-- A positive fraction is what a total below the exact count leaves. -/
theorem lt_of_cashInLieu_pos {rule : Rounding} {scale : ℕ} {exact total : ℚ}
    (h : 0 < (cashInLieu rule scale exact total).getD 0) : total < exact := by
  by_contra hcon
  unfold cashInLieu at h
  split at h
  · simp at h
  · have hle : exact - total ≤ 0 := sub_nonpos.mpr (not_lt.mp hcon)
    have hs := gridStep_pos (scale + inLieuPlaces)
    simp only [Option.getD_some, Grid.truncOn] at h
    split at h
    · have := Grid.floorOn_le hs (exact - total)
      linarith
    · have := Grid.ceilOn_le hs (Grid.On.zero (gridStep (scale + inLieuPlaces))) hle
      linarith

/-- A parcel's pro-rata part of a total. -/
def proRata (parcels : List ParcelBefore) (total : ℚ) (p : ParcelBefore) : ℚ :=
  p.exactCount * total / heldExactly parcels

/-- A parcel's share: its own exact count re-based, or its pro-rata part of an override. -/
def holdingShare (parcels : List ParcelBefore) (ratio : Ratio) (unitsReceived : Option ℚ)
    (p : ParcelBefore) : ℚ :=
  match unitsReceived with
  | some received => proRata parcels received p
  | none => p.exactCount * ratio.new / ratio.old

/-- The total a register of `exact` post-action units is rounded to. -/
def registerTotal (exact : ℚ) (scale : ℕ) (rule : Rounding) (unitsReceived : Option ℚ) : ℚ :=
  unitsReceived.getD (rule.onto (gridStep scale) exact)

def Ratio.exactly (ratio : Ratio) (units : ℚ) : ℚ := units * ratio.new / ratio.old

section Holding
variable {parcels : List ParcelBefore} {ratio : Ratio} {scale : ℕ} {rule : Rounding}

theorem checkedReceived_ok {received total : ℚ} (h : checkedReceived received scale = .ok total) :
    total = received ∧ 0 < received ∧ Grid.On (gridStep scale) received := by
  unfold checkedReceived at h
  split at h
  · cases h
  · rename_i hpos
    split at h
    · cases h
    · rename_i hon
      exact ⟨(Except.ok.inj h).symm, not_le.mp hpos,
        (Grid.on_iff_floorOn_eq (gridStep_pos scale)).mpr (not_not.mp hon)⟩

theorem checkedReceived_error {received : ℚ} {e : RoundingError}
    (h : checkedReceived received scale = .error e) :
    (received ≤ 0 ∧ e = .receivedNotPositive received) ∨
      (¬ Grid.On (gridStep scale) received ∧ e = .receivedOffGrid received scale) := by
  unfold checkedReceived at h
  split at h
  · rename_i hle
    exact .inl ⟨hle, (Except.error.inj h).symm⟩
  · split at h
    · rename_i hoff
      exact .inr ⟨fun hon => hoff (Grid.floorOn_of_on (gridStep_pos scale) hon),
        (Except.error.inj h).symm⟩
    · cases h

theorem units_sum_pos (hne : parcels ≠ []) : 0 < (parcels.map (·.units)).sum :=
  List.sum_pos _ (fun x hx => by
    obtain ⟨p, -, rfl⟩ := List.mem_map.mp hx
    exact p.units_pos) (by simpa using hne)

theorem sum_over_denominator (parcels : List ParcelBefore) (den : ℚ) :
    (parcels.map fun p => p.exactCount * den).sum = heldExactly parcels * den := by
  rw [List.sum_map_mul_right]
  rfl

theorem shareBy_ratio (parcels : List ParcelBefore) {den : ℚ} (hden : 0 < den) :
    shareBy (fun p => p.exactCount * den) ratio.new (ratio.old * den) =
      holdingShare parcels ratio none := by
  funext p
  have h1 := hden.ne'
  have h2 := ratio.old_pos.ne'
  simp only [shareBy, holdingShare]
  field_simp

theorem shareBy_received {den received : ℚ} (hden : 0 < den) (hne : parcels ≠ []) :
    shareBy (fun p => p.exactCount * den) received (heldExactly parcels * den) =
      proRata parcels received := by
  funext p
  have h1 := hden.ne'
  have h2 := (heldExactly_pos hne).ne'
  simp only [shareBy, proRata]
  field_simp

theorem totalShare_ratio :
    totalShare parcels (holdingShare parcels ratio none) = ratio.exactly (heldExactly parcels) := by
  have h : holdingShare parcels ratio none =
      fun p => p.exactCount * (ratio.new / ratio.old) := by
    funext p
    exact mul_div_assoc _ _ _
  rw [totalShare, h, sum_over_denominator, Ratio.exactly, mul_div_assoc]

theorem totalShare_proRata {received : ℚ} (hne : parcels ≠ []) :
    totalShare parcels (proRata parcels received) = received := by
  have h : proRata parcels received =
      fun p => p.exactCount * (received / heldExactly parcels) := by
    funext p
    exact mul_div_assoc _ _ _
  have := (heldExactly_pos hne).ne'
  rw [totalShare, h, sum_over_denominator]
  field_simp

/-- Without an override the rule-rounded total is distributed by the ratio. -/
theorem bracketed_ratio {den : ℚ} (hden : 0 < den) :
    Bracketed parcels (fun p => p.exactCount * den) ratio.new (ratio.old * den)
      (rule.onto (gridStep scale) (ratio.exactly (heldExactly parcels))) scale := by
  have hs := gridStep_pos scale
  refine ⟨fun p => mul_pos p.exactCount_pos hden, ratio.new_pos, mul_pos ratio.old_pos hden,
    rule.onto_on _ _, ?_, ?_⟩
  · rw [shareBy_ratio parcels hden, totalShare_ratio]
    exact rule.floorOn_le_onto hs _
  · rw [shareBy_ratio parcels hden, totalShare_ratio]
    exact rule.onto_le_ceilOn hs _

/-- A total distributed pro rata is the sum of its shares. -/
theorem bracketed_received {den received : ℚ} (hden : 0 < den) (hne : parcels ≠ [])
    (hpos : 0 < received) (hon : Grid.On (gridStep scale) received) :
    Bracketed parcels (fun p => p.exactCount * den) received (heldExactly parcels * den)
      received scale := by
  have hs := gridStep_pos scale
  refine ⟨fun p => mul_pos p.exactCount_pos hden, hpos, mul_pos (heldExactly_pos hne) hden,
    hon, ?_, ?_⟩
  · rw [shareBy_received hden hne, totalShare_proRata hne]
    exact Grid.floorOn_le hs received
  · rw [shareBy_received hden hne, totalShare_proRata hne]
    exact Grid.le_ceilOn hs received

theorem exactUnits_eq (parcels : List ParcelBefore) :
    exactUnits parcels =
      (parcels.map fun p => p.exactCount *
          Fraction.commonDenominator (parcels.map ParcelBefore.fraction),
        Fraction.commonDenominator (parcels.map ParcelBefore.fraction)) := by
  rw [exactUnits, Fraction.overCommonDenominator_eq, List.map_map]
  rfl

/-- A holding with parcels is a distribution of its checked total. -/
theorem roundHolding_eq (hne : parcels ≠ []) (ratio : Ratio) (scale : ℕ) (rule : Rounding)
    (unitsReceived : Option ℚ) :
    ∃ den : ℚ, 0 < den ∧ den = Fraction.commonDenominator (parcels.map ParcelBefore.fraction) ∧
      roundHolding parcels ratio scale rule unitsReceived =
      match unitsReceived with
      | some received =>
        match checkedReceived received scale with
        | .error e => .error e
        | .ok total => distribute parcels (parcels.map fun p => p.exactCount * den) total received
            (heldExactly parcels * den) scale
            (cashInLieu rule scale (ratio.exactly (heldExactly parcels)) total)
      | none =>
        distribute parcels (parcels.map fun p => p.exactCount * den)
          (rule.onto (gridStep scale) (ratio.exactly (heldExactly parcels))) ratio.new
          (ratio.old * den) scale
          (cashInLieu rule scale (ratio.exactly (heldExactly parcels))
            (rule.onto (gridStep scale) (ratio.exactly (heldExactly parcels)))) := by
  have hden := Fraction.commonDenominator_pos (parcels.map ParcelBefore.fraction)
  have hguard : (parcels.isEmpty || decide ((parcels.map (·.units)).sum ≤ 0)) = false := by
    have := units_sum_pos hne
    simp [hne, this]
  refine ⟨Fraction.commonDenominator (parcels.map ParcelBefore.fraction), hden, rfl, ?_⟩
  have hold := mul_pos ratio.old_pos hden
  have hexact : heldExactly parcels *
      Fraction.commonDenominator (parcels.map ParcelBefore.fraction) * ratio.new /
        (ratio.old * Fraction.commonDenominator (parcels.map ParcelBefore.fraction)) =
      ratio.exactly (heldExactly parcels) := by
    have h1 := hden.ne'
    have h2 := ratio.old_pos.ne'
    unfold Ratio.exactly
    field_simp
  cases unitsReceived with
  | none =>
    simp only [roundHolding, hguard, Bool.false_eq_true, if_false, exactUnits_eq,
      sum_over_denominator, roundedTotal_eq hold, inLieuFraction_eq hold, hexact]
  | some received =>
    cases hchecked : checkedReceived received scale with
    | error e =>
      simp only [roundHolding, hguard, Bool.false_eq_true, if_false, hchecked]
    | ok total =>
      simp only [roundHolding, hguard, Bool.false_eq_true, if_false, exactUnits_eq,
        sum_over_denominator, inLieuFraction_eq hold, hexact, hchecked]

/-- A successful rounding gives the total, the counts, the fraction and the
kept priors of the holding. -/
theorem roundHolding_ok {unitsReceived : Option ℚ} {counts : List ParcelCount}
    (hne : parcels ≠ [])
    (h : roundHolding parcels ratio scale rule unitsReceived = .ok counts) :
    RoundedTo (gridStep scale)
        (registerTotal (ratio.exactly (heldExactly parcels)) scale rule unitsReceived)
        (holdingShare parcels ratio unitsReceived) parcels counts ∧
      CarriedOnce ((cashInLieu rule scale (ratio.exactly (heldExactly parcels))
        (registerTotal (ratio.exactly (heldExactly parcels)) scale rule unitsReceived)).getD 0)
        counts ∧
      StableKeeping parcels (gridStep scale)
        (registerTotal (ratio.exactly (heldExactly parcels)) scale rule unitsReceived)
        (holdingShare parcels ratio unitsReceived) counts := by
  obtain ⟨den, hden, -, he⟩ := roundHolding_eq hne ratio scale rule unitsReceived
  rw [he] at h
  cases unitsReceived with
  | none =>
    have hout := distribute_ok (bracketed_ratio hden) hne (fun hpos => ?_) h
    · rwa [shareBy_ratio parcels hden] at hout
    · rw [shareBy_ratio parcels hden, totalShare_ratio]
      exact (lt_of_cashInLieu_pos hpos).le
  | some received =>
    cases hc : checkedReceived received scale with
    | error e => simp [hc] at h
    | ok total =>
      obtain ⟨rfl, hpos, hon⟩ := checkedReceived_ok hc
      simp only [hc] at h
      have hout := distribute_ok (bracketed_received hden hne hpos hon) hne
        (fun _ => ?_) h
      · rwa [shareBy_received hden hne] at hout
      · rw [shareBy_received hden hne, totalShare_proRata hne]

/-- A holding's rounding: total, counts and fraction, unless nothing is held
and an override is given. -/
theorem roundHolding_rounds {unitsReceived : Option ℚ} {counts : List ParcelCount}
    (hheld : parcels ≠ [] ∨ unitsReceived = none)
    (h : roundHolding parcels ratio scale rule unitsReceived = .ok counts) :
    RoundedTo (gridStep scale)
        (registerTotal (ratio.exactly (heldExactly parcels)) scale rule unitsReceived)
        (holdingShare parcels ratio unitsReceived) parcels counts ∧
      CarriedOnce ((cashInLieu rule scale (ratio.exactly (heldExactly parcels))
        (registerTotal (ratio.exactly (heldExactly parcels)) scale rule unitsReceived)).getD 0)
        counts := by
  by_cases hne : parcels = []
  · obtain rfl := hheld.resolve_left (not_not.mpr hne)
    subst hne
    obtain rfl : counts = [] := (Except.ok.inj h).symm
    have hs := gridStep_pos scale
    have hexact : ratio.exactly (heldExactly []) = 0 := by simp [heldExactly, Ratio.exactly]
    have htotal : rule.onto (gridStep scale) 0 = 0 := by
      have hzero := Grid.On.zero (gridStep scale)
      have hlo := rule.floorOn_le_onto hs 0
      have hhi := rule.onto_le_ceilOn hs 0
      rw [Grid.floorOn_of_on hs hzero] at hlo
      rw [Grid.ceilOn_of_on hs hzero] at hhi
      exact le_antisymm hhi hlo
    refine ⟨⟨?_, .nil⟩, fun hpos => ?_, fun _ c hc => absurd hc List.not_mem_nil⟩
    · simp [registerTotal, hexact, htotal]
    · have := lt_of_cashInLieu_pos hpos
      simp [registerTotal, hexact, htotal] at this
  · have hout := roundHolding_ok hne h
    exact ⟨hout.1, hout.2.1⟩

end Holding

def oneForThree : Ratio := ⟨1, 3, by norm_num, by norm_num⟩

def firstOf2020 : NaiveDate :=
  (ymd 2020 1 1)

/-- Fifty units with no earlier count. -/
def fiftyUnits (tradeId : TradeId) (prior : Option Prior) : ParcelBefore where
  tradeId
  acquired := firstOf2020
  units := 50
  exact := none
  prior
  units_pos := by norm_num
  exact_pos := fun _ h => nomatch h

theorem roundHolding_rounds_thirds :
    RoundedTo (gridStep 0)
        (registerTotal (oneForThree.exactly (heldExactly [fiftyUnits 1 none, fiftyUnits 2 none])) 0
          .down none)
        (holdingShare [fiftyUnits 1 none, fiftyUnits 2 none] oneForThree none)
        [fiftyUnits 1 none, fiftyUnits 2 none] [⟨1, 50, 17, 0⟩, ⟨2, 50, 16, 0⟩] ∧
      CarriedOnce ((cashInLieu .down 0
        (oneForThree.exactly (heldExactly [fiftyUnits 1 none, fiftyUnits 2 none]))
        (registerTotal (oneForThree.exactly (heldExactly [fiftyUnits 1 none, fiftyUnits 2 none])) 0
          .down none)).getD 0)
        [⟨1, 50, 17, 0⟩, ⟨2, 50, 16, 0⟩] :=
  roundHolding_rounds (.inr rfl) (by decide +kernel)

/-- With nothing held an override is answered with no counts at all. -/
theorem roundHolding_override_of_nothing :
    ¬ ∀ (parcels : List ParcelBefore) (ratio : Ratio) (scale : ℕ) (rule : Rounding)
      (unitsReceived : Option ℚ) (counts : List ParcelCount),
      roundHolding parcels ratio scale rule unitsReceived = .ok counts →
      RoundedTo (gridStep scale)
        (registerTotal (ratio.exactly (heldExactly parcels)) scale rule unitsReceived)
        (holdingShare parcels ratio unitsReceived) parcels counts := by
  intro h
  have hsum := (h [] oneForThree 0 .down (some 5) [] rfl).sum_eq
  simp [registerTotal] at hsum

section Register
variable {parcels : List ParcelBefore} {register : Register} {ratio : Ratio} {scale : ℕ}
  {rule : Rounding} {unitsReceived : Option ℚ}

/-- The deliveries' own rounded counts. -/
def deliveredTotal (register : Register) (ratio : Ratio) (scale : ℕ) (rule : Rounding) : ℚ :=
  (register.delivered.map fun f =>
    rule.forObligation.onto (gridStep scale) (ratio.exactly f.value)).sum

/-- The exact post-action count of the whole register. -/
def registerExactly (parcels : List ParcelBefore) (register : Register) (ratio : Ratio) : ℚ :=
  ratio.exactly (heldExactly parcels + (register.delivered.map Fraction.value).sum)

/-- What the deliveries leave of the register's total. -/
def parcelTotal (parcels : List ParcelBefore) (register : Register) (ratio : Ratio) (scale : ℕ)
    (rule : Rounding) (unitsReceived : Option ℚ) : ℚ :=
  registerTotal (registerExactly parcels register ratio) scale rule unitsReceived -
    deliveredTotal register ratio scale rule

theorem foldl_sub (g : ℚ → ℚ) (l : List ℚ) (x : ℚ) :
    l.foldl (fun total u => total - g u) x = x - (l.map g).sum := by
  induction l generalizing x with
  | nil => simp
  | cons u l ih =>
    rw [List.foldl_cons, ih, List.map_cons, List.sum_cons]
    ring

theorem onto_sum_on (register : Register) (ratio : Ratio) (scale : ℕ) (rule : Rounding) :
    Grid.On (gridStep scale) (deliveredTotal register ratio scale rule) :=
  Grid.On.sum fun x hx => by
    obtain ⟨f, -, rfl⟩ := List.mem_map.mp hx
    exact Rounding.onto_on _ _ _

/-- A register's rounding is a distribution of what the deliveries leave, or a refusal. -/
theorem roundRegisteredHolding_eq (hne : parcels ≠ []) (register : Register) (ratio : Ratio)
    (scale : ℕ) (rule : Rounding) (unitsReceived : Option ℚ) :
    ∃ (den : ℚ) (first : TradeId), 0 < den ∧
      den = Fraction.commonDenominator
        (parcels.map ParcelBefore.fraction ++ register.delivered) ∧
      roundRegisteredHolding parcels register ratio scale rule unitsReceived =
      match (match unitsReceived with
        | some received => checkedReceived received scale
        | none => .ok (rule.onto (gridStep scale) (registerExactly parcels register ratio))) with
      | .error e => .error e
      | .ok registered =>
        if registered - deliveredTotal register ratio scale rule ≤ 0 then
          .error (.parcelEmptied first)
        else distribute parcels (parcels.map fun p => p.exactCount * den)
          (registered - deliveredTotal register ratio scale rule)
          (registered - deliveredTotal register ratio scale rule) (heldExactly parcels * den)
          scale (cashInLieu rule scale (registerExactly parcels register ratio) registered) := by
  obtain ⟨first, rest, hcons⟩ := List.exists_cons_of_ne_nil hne
  have hguard : ¬ (parcels.map (·.units)).sum ≤ 0 := not_le.mpr (units_sum_pos hne)
  let fractions := parcels.map ParcelBefore.fraction ++ register.delivered
  have hden := Fraction.commonDenominator_pos fractions
  have hold := mul_pos ratio.old_pos hden
  have hnums : Fraction.overCommonDenominator fractions =
      (parcels.map (fun p => p.exactCount * Fraction.commonDenominator fractions) ++
          register.delivered.map fun f => f.value * Fraction.commonDenominator fractions,
        Fraction.commonDenominator fractions) := by
    rw [Fraction.overCommonDenominator_eq]
    simp only [fractions, List.map_append, List.map_map]
    rfl
  refine ⟨Fraction.commonDenominator fractions, first.tradeId, hden, rfl, ?_⟩
  generalize Fraction.commonDenominator fractions = den at *
  have hden' := hden.ne'
  have hold' := ratio.old_pos.ne'
  have hsumD : (register.delivered.map fun f => f.value * den).sum =
      (register.delivered.map Fraction.value).sum * den := List.sum_map_mul_right _ _ _
  have hexact : (heldExactly parcels * den + (register.delivered.map Fraction.value).sum * den) *
      ratio.new / (ratio.old * den) = registerExactly parcels register ratio := by
    unfold registerExactly Ratio.exactly
    field_simp
  have hdelivered : ((register.delivered.map fun f => f.value * den).map fun units =>
      roundedTotal units ratio.new (ratio.old * den) scale rule.forObligation).sum =
      deliveredTotal register ratio scale rule := by
    rw [List.map_map]
    refine congrArg List.sum (List.map_congr_left fun f _ => ?_)
    have hf : f.value * den * ratio.new / (ratio.old * den) = ratio.exactly f.value := by
      unfold Ratio.exactly
      field_simp
    simp only [Function.comp_apply, roundedTotal_eq hold, hf]
  have hlen : parcels.length = (parcels.map fun p => p.exactCount * den).length := by simp
  have hunfold : roundRegisteredHolding parcels register ratio scale rule unitsReceived =
      roundRegisteredHolding (first :: rest) register ratio scale rule unitsReceived := by
    rw [hcons]
  rw [hunfold]
  simp only [roundRegisteredHolding]
  rw [← hcons, if_neg hguard]
  simp only [fractions] at hnums
  simp only [hnums, foldl_sub, hlen, List.take_left, List.drop_left, sum_over_denominator, hsumD,
    roundedTotal_eq hold, hexact]
  simp only [← roundedTotal_eq hold, hdelivered]
  cases unitsReceived with
  | none => simp only [inLieuFraction_eq hold, hexact]
  | some received =>
    cases hchecked : checkedReceived received scale with
    | error e => simp only [hchecked]
    | ok total => simp only [hchecked, inLieuFraction_eq hold, hexact]

/-- How a register's rounding ends: refused on the override, refused because
nothing is left, or a distribution of what is left. -/
inductive RegisterOutcome (parcels : List ParcelBefore) (register : Register) (ratio : Ratio)
    (scale : ℕ) (rule : Rounding) (unitsReceived : Option ℚ) :
    Except RoundingError (List ParcelCount) → Prop
  | notPositive {received : ℚ} (hr : unitsReceived = some received) (hle : received ≤ 0) :
      RegisterOutcome parcels register ratio scale rule unitsReceived
        (.error (.receivedNotPositive received))
  | offGrid {received : ℚ} (hr : unitsReceived = some received)
      (hoff : ¬ Grid.On (gridStep scale) received) :
      RegisterOutcome parcels register ratio scale rule unitsReceived
        (.error (.receivedOffGrid received scale))
  | nothingLeft (parcel : TradeId)
      (hle : parcelTotal parcels register ratio scale rule unitsReceived ≤ 0) :
      RegisterOutcome parcels register ratio scale rule unitsReceived
        (.error (.parcelEmptied parcel))
  | distributed {den : ℚ}
      (bracketed : Bracketed parcels (fun p => p.exactCount * den)
        (parcelTotal parcels register ratio scale rule unitsReceived) (heldExactly parcels * den)
        (parcelTotal parcels register ratio scale rule unitsReceived) scale)
      (hshare : shareBy (fun p => p.exactCount * den)
        (parcelTotal parcels register ratio scale rule unitsReceived) (heldExactly parcels * den) =
          proRata parcels (parcelTotal parcels register ratio scale rule unitsReceived)) :
      RegisterOutcome parcels register ratio scale rule unitsReceived
        (distribute parcels (parcels.map fun p => p.exactCount * den)
          (parcelTotal parcels register ratio scale rule unitsReceived)
          (parcelTotal parcels register ratio scale rule unitsReceived)
          (heldExactly parcels * den) scale
          (cashInLieu rule scale (registerExactly parcels register ratio)
            (registerTotal (registerExactly parcels register ratio) scale rule unitsReceived)))

/-- Once the register's total is settled, what the deliveries leave is distributed or refused. -/
theorem outcome_of_registered (hne : parcels ≠ []) {den registered : ℚ} (hden : 0 < den)
    (first : TradeId)
    (hreg : registerTotal (registerExactly parcels register ratio) scale rule unitsReceived =
      registered)
    (hon : Grid.On (gridStep scale) registered) :
    RegisterOutcome parcels register ratio scale rule unitsReceived
      (if registered - deliveredTotal register ratio scale rule ≤ 0 then
        .error (.parcelEmptied first)
      else distribute parcels (parcels.map fun p => p.exactCount * den)
        (registered - deliveredTotal register ratio scale rule)
        (registered - deliveredTotal register ratio scale rule) (heldExactly parcels * den)
        scale (cashInLieu rule scale (registerExactly parcels register ratio) registered)) := by
  subst hreg
  have hrest := hon.sub (onto_sum_on register ratio scale rule)
  change Grid.On _ (parcelTotal parcels register ratio scale rule unitsReceived) at hrest
  change RegisterOutcome _ _ _ _ _ _
    (if parcelTotal parcels register ratio scale rule unitsReceived ≤ 0 then _ else _)
  split
  · rename_i hle
    exact .nothingLeft first hle
  · rename_i hpos
    exact .distributed (bracketed_received hden hne (not_le.mp hpos) hrest)
      (shareBy_received hden hne)

theorem roundRegisteredHolding_outcome (hne : parcels ≠ []) (register : Register) (ratio : Ratio)
    (scale : ℕ) (rule : Rounding) (unitsReceived : Option ℚ) :
    RegisterOutcome parcels register ratio scale rule unitsReceived
      (roundRegisteredHolding parcels register ratio scale rule unitsReceived) := by
  obtain ⟨den, first, hden, -, he⟩ :=
    roundRegisteredHolding_eq hne register ratio scale rule unitsReceived
  rw [he]
  cases unitsReceived with
  | none => exact outcome_of_registered hne hden first rfl (rule.onto_on _ _)
  | some received =>
    cases hc : checkedReceived received scale with
    | ok registered =>
      obtain ⟨hsame, -, hon⟩ := checkedReceived_ok hc
      simp only [hc]
      exact outcome_of_registered hne hden first hsame.symm (hsame ▸ hon)
    | error e =>
      simp only [hc]
      rcases checkedReceived_error hc with ⟨hle, rfl⟩ | ⟨hoff, rfl⟩
      · exact .notPositive rfl hle
      · exact .offGrid rfl hoff

theorem roundRegisteredHolding_ok {counts : List ParcelCount} (hne : parcels ≠ [])
    (h : roundRegisteredHolding parcels register ratio scale rule unitsReceived = .ok counts) :
    RoundedTo (gridStep scale) (parcelTotal parcels register ratio scale rule unitsReceived)
        (proRata parcels (parcelTotal parcels register ratio scale rule unitsReceived))
        parcels counts ∧
      CarriedOnce ((cashInLieu rule scale (registerExactly parcels register ratio)
        (registerTotal (registerExactly parcels register ratio) scale rule
          unitsReceived)).getD 0) counts ∧
      StableKeeping parcels (gridStep scale)
        (parcelTotal parcels register ratio scale rule unitsReceived)
        (proRata parcels (parcelTotal parcels register ratio scale rule unitsReceived)) counts := by
  have hout := roundRegisteredHolding_outcome hne register ratio scale rule unitsReceived
  rw [h] at hout
  generalize hr : Except.ok counts = result at hout
  cases hout with
  | notPositive => cases hr
  | offGrid => cases hr
  | nothingLeft => cases hr
  | distributed B hshare =>
    have hgives := distribute_ok B hne (fun _ => ?_) hr.symm
    · rwa [hshare] at hgives
    · rw [hshare, totalShare_proRata hne]

/-- A register with parcels: the counts and the deliveries make up its rounded
total, the fraction is carried once, and only a bad override or a parcel that
cannot be given a step is refused. -/
theorem roundRegisteredHolding_settles (hne : parcels ≠ []) :
    (∀ counts,
      roundRegisteredHolding parcels register ratio scale rule unitsReceived = .ok counts →
      (counts.map fun c => c.after - c.inLieu).sum + deliveredTotal register ratio scale rule =
          registerTotal (registerExactly parcels register ratio) scale rule unitsReceived ∧
        List.Forall₂ (fun p c => |c.after - c.inLieu -
          proRata parcels (parcelTotal parcels register ratio scale rule unitsReceived) p| <
            gridStep scale) parcels counts ∧
        CarriedOnce ((cashInLieu rule scale (registerExactly parcels register ratio)
          (registerTotal (registerExactly parcels register ratio) scale rule
            unitsReceived)).getD 0) counts) ∧
    ∀ e, roundRegisteredHolding parcels register ratio scale rule unitsReceived = .error e →
      (∃ received, unitsReceived = some received ∧
        ((received ≤ 0 ∧ e = .receivedNotPositive received) ∨
          (¬ Grid.On (gridStep scale) received ∧ e = .receivedOffGrid received scale))) ∨
      ((∃ parcel, e = .parcelEmptied parcel) ∧
        ¬ ∃ count : Fin parcels.length → ℚ,
          (∀ i : Fin parcels.length, Apportion.Permitted (gridStep scale)
            (proRata parcels (parcelTotal parcels register ratio scale rule unitsReceived)
              (parcels.get i)) (count i)) ∧
          ((List.finRange parcels.length).map count).sum =
            parcelTotal parcels register ratio scale rule unitsReceived) := by
  have hs := gridStep_pos scale
  refine ⟨fun counts h => ?_, fun e h => ?_⟩
  · obtain ⟨hround, hcarry, -⟩ := roundRegisteredHolding_ok hne h
    refine ⟨?_, hround.each.imp fun p c hpc => ?_, hcarry⟩
    · rw [hround.sum_eq, parcelTotal, sub_add_cancel]
    · exact ((Apportion.near_iff hs).mpr hpc.2.2.2.2).2
  · have hout := roundRegisteredHolding_outcome hne register ratio scale rule unitsReceived
    rw [h] at hout
    generalize hr : Except.error e = result at hout
    cases hout with
    | notPositive hrec hle => exact .inl ⟨_, hrec, .inl ⟨hle, Except.error.inj hr⟩⟩
    | offGrid hrec hoff => exact .inl ⟨_, hrec, .inr ⟨hoff, Except.error.inj hr⟩⟩
    | nothingLeft parcel hle =>
      refine .inr ⟨⟨parcel, Except.error.inj hr⟩, ?_⟩
      rintro ⟨count, hpermit, hsum⟩
      have hpos : 0 < ((List.finRange parcels.length).map count).sum :=
        List.sum_pos _ (fun x hx => by
          obtain ⟨i, -, rfl⟩ := List.mem_map.mp hx
          exact (hpermit i).2.1) (by simpa using hne)
      linarith
    | distributed B hshare =>
      obtain ⟨hparcel, hcannot⟩ := distribute_error B hr.symm
      refine .inr ⟨hparcel, ?_⟩
      rintro ⟨count, hpermit, hsum⟩
      rw [hshare] at hcannot
      refine hcannot ⟨count, fun i _ c hc => ?_, fun i _ _ => hpermit i, hsum⟩
      simp [fixing] at hc

/-- Re-rounding is stable, for a holding and for a register; nothing held is given
no counts. -/
theorem rerounding_stable (parcels : List ParcelBefore) (ratio : Ratio) (scale : ℕ)
    (rule : Rounding) (unitsReceived : Option ℚ) (counts : List ParcelCount) :
    (roundHolding parcels ratio scale rule unitsReceived = .ok counts →
      (parcels = [] ∧ counts = []) ∨
      StableKeeping parcels (gridStep scale)
        (registerTotal (ratio.exactly (heldExactly parcels)) scale rule unitsReceived)
        (holdingShare parcels ratio unitsReceived) counts) ∧
    ∀ register, roundRegisteredHolding parcels register ratio scale rule unitsReceived =
        .ok counts →
      (parcels = [] ∧ counts = []) ∨
      StableKeeping parcels (gridStep scale)
        (parcelTotal parcels register ratio scale rule unitsReceived)
        (proRata parcels (parcelTotal parcels register ratio scale rule unitsReceived)) counts := by
  by_cases hne : parcels = []
  · subst hne
    exact ⟨fun h => .inl ⟨rfl, (Except.ok.inj h).symm⟩,
      fun _ h => .inl ⟨rfl, (Except.ok.inj h).symm⟩⟩
  · exact ⟨fun h => .inr (roundHolding_ok hne h).2.2,
      fun _ h => .inr (roundRegisteredHolding_ok hne h).2.2⟩

end Register

/-- The later parcel keeps the step a first rounding gave it. -/
theorem rerounding_stable_later_step :
    StableKeeping [fiftyUnits 1 none, fiftyUnits 2 (some ⟨50, 17⟩)] (gridStep 0)
      (registerTotal (oneForThree.exactly
        (heldExactly [fiftyUnits 1 none, fiftyUnits 2 (some ⟨50, 17⟩)])) 0 .down none)
      (holdingShare [fiftyUnits 1 none, fiftyUnits 2 (some ⟨50, 17⟩)] oneForThree none)
      [⟨1, 50, 16, 0⟩, ⟨2, 50, 17, 0⟩] :=
  ((rerounding_stable _ oneForThree 0 .down none _).1 (by decide +kernel)).resolve_left
    fun h => absurd h.1 (List.cons_ne_nil _ _)

def oneForTwo : Ratio := ⟨1, 2, by norm_num, by norm_num⟩

/-- Ten units sold across a one-for-three consolidation, with the holding's two parcels. -/
theorem roundRegisteredHolding_settles_sale :
    (([⟨1, 50, 17 , 0⟩, ⟨2, 50, 16 + 666666666666 / 10 ^ 12, 666666666666 / 10 ^ 12⟩] :
        List ParcelCount).map fun c => c.after - c.inLieu).sum +
        deliveredTotal ⟨[Fraction.whole 10]⟩ oneForThree 0 .cashInLieu =
      registerTotal (registerExactly [fiftyUnits 1 none, fiftyUnits 2 none]
        ⟨[Fraction.whole 10]⟩ oneForThree) 0 .cashInLieu none :=
  ((roundRegisteredHolding_settles (by simp)).1 _ (by decide +kernel)).1

/-- With every parcel sold the deliveries are rounded on their own and nothing makes up the
register's total. -/
theorem roundRegisteredHolding_of_nothing_held :
    ¬ ∀ (parcels : List ParcelBefore) (register : Register) (ratio : Ratio) (scale : ℕ)
      (rule : Rounding) (unitsReceived : Option ℚ) (counts : List ParcelCount),
      roundRegisteredHolding parcels register ratio scale rule unitsReceived = .ok counts →
      (counts.map fun c => c.after - c.inLieu).sum + deliveredTotal register ratio scale rule =
        registerTotal (registerExactly parcels register ratio) scale rule unitsReceived := by
  intro h
  have hsum := h [] ⟨[Fraction.whole 1, Fraction.whole 1]⟩ oneForTwo 0 .up none [] rfl
  have hleft : deliveredTotal ⟨[Fraction.whole 1, Fraction.whole 1]⟩ oneForTwo 0 .up = 2 := by
    decide +kernel
  have hright : registerTotal (registerExactly [] ⟨[Fraction.whole 1, Fraction.whole 1]⟩ oneForTwo)
      0 .up none = 1 := by decide +kernel
  rw [hleft, hright] at hsum
  norm_num at hsum

end ShareTracker
