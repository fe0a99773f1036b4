import ShareTracker.Distribution

/-! The rounding of one holding, and of one register, against what a registry
promises: the total, the parcel counts, the cash-in-lieu fraction and the
parcels that keep a stored count. -/
namespace ShareTracker

/-- The rule on its own: the count a register holds for an exact count `x`. -/
def Rounding.onto (rule : Rounding) (step x : ℚ) : ℚ :=
  match rule with
  | .down | .cashInLieu => Grid.floorOn step x
  | .up => Grid.ceilOn step x
  | .nearest => Grid.floorOn step (x + step / 2)

theorem Rounding.onto_on (rule : Rounding) (step x : ℚ) : Grid.On step (rule.onto step x) := by
  cases rule with
  | up => exact Grid.ceilOn_on step x
  | down => exact Grid.floorOn_on step x
  | cashInLieu => exact Grid.floorOn_on step x
  | nearest => exact Grid.floorOn_on step _

theorem Rounding.floorOn_le_onto (rule : Rounding) {step : ℚ} (hs : 0 < step) (x : ℚ) :
    Grid.floorOn step x ≤ rule.onto step x := by
  cases rule with
  | up => exact Grid.floorOn_le_ceilOn hs x
  | down => exact le_rfl
  | cashInLieu => exact le_rfl
  | nearest => exact Grid.floorOn_mono hs (by linarith)

theorem Rounding.onto_le_ceilOn (rule : Rounding) {step : ℚ} (hs : 0 < step) (x : ℚ) :
    rule.onto step x ≤ Grid.ceilOn step x := by
  cases rule with
  | up => exact le_rfl
  | down => exact Grid.floorOn_le_ceilOn hs x
  | cashInLieu => exact Grid.floorOn_le_ceilOn hs x
  | nearest =>
    by_contra hcon
    have h1 := (Grid.ceilOn_on step x).step_le hs (Grid.floorOn_on step (x + step / 2))
      (not_le.mp hcon)
    have h2 := Grid.floorOn_le hs (x + step / 2)
    have h3 := Grid.le_ceilOn hs x
    linarith

/-- The code's rounding by floor and remainder is the rule's. -/
theorem roundedTotal_eq {units new old : ℚ} (hold : 0 < old) (scale : ℕ) (rule : Rounding) :
    roundedTotal units new old scale rule = rule.onto (gridStep scale) (units * new / old) := by
  have hs := gridStep_pos scale
  unfold roundedTotal
  rw [floorOnGrid_eq hold]
  generalize hx : units * new / old = x
  have hnum : units * new = x * old := by rw [← hx, div_mul_cancel₀ _ hold.ne']
  have hrem : units * new - Grid.floorOn (gridStep scale) x * old =
      (x - Grid.floorOn (gridStep scale) x) * old := by rw [hnum]; ring
  have hle := Grid.floorOn_le hs x
  have hlt := Grid.lt_floorOn_add hs x
  simp only [hrem]
  cases rule with
  | down => rfl
  | cashInLieu => rfl
  | up =>
    by_cases hon : Grid.On (gridStep scale) x
    · rw [if_neg (by rw [Grid.floorOn_of_on hs hon]; simp)]
      simp only [Rounding.onto, Grid.floorOn_of_on hs hon, Grid.ceilOn_of_on hs hon]
    · have hne : Grid.floorOn (gridStep scale) x ≠ x :=
        fun h => hon ((Grid.on_iff_floorOn_eq hs).mpr h)
      have hpos : 0 < x - Grid.floorOn (gridStep scale) x :=
        sub_pos.mpr (lt_of_le_of_ne hle hne)
      rw [if_pos (mul_pos hpos hold)]
      exact (Grid.ceilOn_of_not_on hs hon).symm
  | nearest =>
    have hiff : (x - Grid.floorOn (gridStep scale) x) * old * 2 ≥ gridStep scale * old ↔
        gridStep scale / 2 ≤ x - Grid.floorOn (gridStep scale) x := by
      constructor
      · intro h
        have h' : gridStep scale * old ≤
            (x - Grid.floorOn (gridStep scale) x) * 2 * old := by linarith
        have := le_of_mul_le_mul_right h' hold
        linarith
      · intro h
        have := mul_le_mul_of_nonneg_right h hold.le
        linarith
    have hf1 := Grid.floorOn_le hs (x + gridStep scale / 2)
    have hf2 := Grid.lt_floorOn_add hs (x + gridStep scale / 2)
    have hon := Grid.floorOn_on (gridStep scale) x
    have hon' := Grid.floorOn_on (gridStep scale) (x + gridStep scale / 2)
    simp only [hiff, Rounding.onto]
    split
    · exact (hon.add ⟨1, by simp⟩).eq_of_near hs hon' (by linarith) (by linarith)
    · exact hon.eq_of_near hs hon' (by linarith) (by linarith)

/-- A parcel's own count before the action. -/
def ParcelBefore.exactCount (p : ParcelBefore) : ℚ := p.fraction.value

theorem ParcelBefore.exactCount_pos (p : ParcelBefore) : 0 < p.exactCount := by
  unfold ParcelBefore.exactCount ParcelBefore.fraction
  cases he : p.exact with
  | none => simpa using p.units_pos
  | some f => exact div_pos (p.exact_pos f he) f.den_pos

def heldExactly (parcels : List ParcelBefore) : ℚ := (parcels.map (·.exactCount)).sum

theorem heldExactly_pos {parcels : List ParcelBefore} (h : parcels ≠ []) :
    0 < heldExactly parcels :=
  List.sum_pos _ (fun x hx => by
    obtain ⟨p, -, rfl⟩ := List.mem_map.mp hx
    exact p.exactCount_pos) (by simpa using h)

/-- The counts sum to the total, each within the two counts its share permits. -/
structure RoundedTo (step total : ℚ) (share : ParcelBefore → ℚ) (parcels : List ParcelBefore)
    (counts : List ParcelCount) : Prop where
  sum_eq : (counts.map fun c => c.after - c.inLieu).sum = total
  each : List.Forall₂ (fun p c =>
    c.tradeId = p.tradeId ∧ c.before = p.units ∧ 0 < c.after ∧
      Grid.On step (c.after - c.inLieu) ∧
      (c.after - c.inLieu = Grid.floorOn step (share p) ∨
        (¬ Grid.On step (share p) ∧ c.after - c.inLieu = Grid.floorOn step (share p) + step)))
    parcels counts

/-- A positive fraction is carried by exactly one parcel, whole; none otherwise. -/
def CarriedOnce (fraction : ℚ) (counts : List ParcelCount) : Prop :=
  (0 < fraction → ∃ pre c suf, counts = pre ++ c :: suf ∧ c.inLieu = fraction ∧
    ∀ d ∈ pre ++ suf, d.inLieu = 0) ∧
  (fraction ≤ 0 → ∀ c ∈ counts, c.inLieu = 0)

/-- The parcels released first: changed ones, then the later acquired, then the higher id. -/
def ParcelBefore.changed (p : ParcelBefore) : Prop :=
  ∃ prior, p.prior = some prior ∧ prior.before ≠ p.units

def ReleasedBefore (p q : ParcelBefore) : Prop :=
  (p.changed ∧ ¬ q.changed) ∨
    ((p.changed ↔ q.changed) ∧
      (q.acquired < p.acquired ∨ (q.acquired = p.acquired ∧ q.tradeId ≤ p.tradeId)))

section Stable
variable (parcels : List ParcelBefore) (step total : ℚ) (share : ParcelBefore → ℚ)

/-- The prior count is still one of the counts the share permits. -/
def KeepablePrior (p : ParcelBefore) : Prop :=
  ∃ prior, p.prior = some prior ∧ Apportion.Permitted step (share p) prior.onGrid

/-- Fixing the prior counts of the listed parcels. -/
def fixing (retained : List (Fin parcels.length)) (i : Fin parcels.length) : Option ℚ :=
  if i ∈ retained then (parcels.get i).prior.map (·.onGrid) else none

/-- The other parcels can absorb the total once the listed ones keep their counts. -/
def CanKeep (retained : List (Fin parcels.length)) : Prop :=
  Apportion.Absorbs (List.finRange parcels.length) step total (fun i => share (parcels.get i))
    (fixing parcels retained)

/-- A parcel's own count: what it holds without the fraction it carries. -/
def ownCount (counts : List ParcelCount) (i : Fin parcels.length) : Option ℚ :=
  counts[i.val]?.map fun c => c.after - c.inLieu

/-- The counts hand out the total and leave the listed parcels their prior counts. -/
def Keeping (retained : List (Fin parcels.length)) (counts : List ParcelCount) : Prop :=
  Apportion.Apportions (List.finRange parcels.length) step total (fun i => share (parcels.get i))
    (fixing parcels retained) fun i => (ownCount parcels counts i).getD 0

/-- The total is distributed by the rule, and prior counts are kept as far as that
allows, and released in order. -/
structure StableKeeping (counts : List ParcelCount) : Prop where
  rounded : RoundedTo step total share parcels counts
  /-- A parcel from unchanged units keeps its count unless keeping every such
  parcel leaves the others unable to absorb the total. -/
  unchanged : ∀ i : Fin parcels.length, ¬ (parcels.get i).changed → KeepablePrior step share (parcels.get i) →
    ownCount parcels counts i = (parcels.get i).prior.map (·.onGrid) ∨
      ∀ keeping : List (Fin parcels.length),
        (∀ j : Fin parcels.length, j ∈ keeping ↔
          ¬ (parcels.get j).changed ∧ KeepablePrior step share (parcels.get j)) →
        ¬ CanKeep parcels step total share keeping
  /-- The parcels that keep their counts end the release order, as many of them as a
  distribution exists for, and the counts are one; or no distribution exists at all,
  a parcel being left with the fraction alone. -/
  longest : ∃ release : List (Fin parcels.length), release.Nodup ∧
    (∀ i, i ∈ release ↔ KeepablePrior step share (parcels.get i)) ∧
    release.Pairwise (fun i j => ReleasedBefore (parcels.get i) (parcels.get j)) ∧
    ∃ m ≤ release.length,
      (∀ k < m, ¬ CanKeep parcels step total share (release.drop k)) ∧
      (Keeping parcels step total share (release.drop m) counts ∨
        (m = release.length ∧ ¬ CanKeep parcels step total share [])) ∧
      ∀ i ∈ release.drop m, ownCount parcels counts i = (parcels.get i).prior.map (·.onGrid)

end Stable

section Distribute
variable {parcels : List ParcelBefore} {f : ParcelBefore → ℚ} {multiplier divisor total : ℚ}
  {scale : ℕ}

/-- The share of a parcel whose units entry is `f`. -/
def shareBy (f : ParcelBefore → ℚ) (multiplier divisor : ℚ) (p : ParcelBefore) : ℚ :=
  f p * multiplier / divisor

theorem slotsOf_exact (hf : ∀ p, 0 < f p) (hm : 0 < multiplier) (hd : 0 < divisor)
    (i : Fin parcels.length) :
    (slotsOf parcels (parcels.map f) multiplier divisor scale i).Exact (gridStep scale) divisor
      (shareBy f multiplier divisor (parcels.get i)) := by
  have hu : (parcels.map f).getD i 0 = f (parcels.get i) := by
    simp [List.getD_eq_getElem?_getD]
  have hd' := hd.ne'
  refine ⟨div_pos (mul_pos (hf _) hm) hd, ?_, ?_⟩
  · simp only [slotsOf, floorOnGrid_eq hd, hu, shareBy]
  · simp only [slotsOf, floorOnGrid_eq hd, hu, shareBy, sub_mul]
    rw [div_mul_cancel₀ _ hd']

/-- The shares' sum over the list of parcels. -/
def totalShare (parcels : List ParcelBefore) (share : ParcelBefore → ℚ) : ℚ :=
  (parcels.map share).sum

theorem map_eq_map_finRange {β : Type*} (parcels : List ParcelBefore) (g : ParcelBefore → β) :
    parcels.map g = (List.finRange parcels.length).map fun i => g (parcels.get i) := by
  apply List.ext_getElem <;> simp

theorem totalShare_eq_sumOver (share : ParcelBefore → ℚ) :
    totalShare parcels share = sumOver fun i : Fin parcels.length => share (parcels.get i) := by
  rw [totalShare, sumOver, map_eq_map_finRange]

theorem distribute_sound (hf : ∀ p, 0 < f p) (hm : 0 < multiplier) (hd : 0 < divisor)
    (ht : Grid.On (gridStep scale) total)
    (hlo : Grid.floorOn (gridStep scale) (totalShare parcels (shareBy f multiplier divisor)) ≤
      total)
    (hhi : total ≤
      Grid.ceilOn (gridStep scale) (totalShare parcels (shareBy f multiplier divisor))) :
    Sound (slotsOf parcels (parcels.map f) multiplier divisor scale) (gridStep scale) total divisor
      (fun i => shareBy f multiplier divisor (parcels.get i)) := by
  have hs := gridStep_pos scale
  have hx : ∀ i, (slotsOf parcels (parcels.map f) multiplier divisor scale i).Exact
      (gridStep scale) divisor (shareBy f multiplier divisor (parcels.get i)) := slotsOf_exact hf hm hd
  rw [totalShare_eq_sumOver] at hlo hhi
  refine ⟨hs, hd, hx, ht, le_trans ?_ hlo, hhi.trans ?_⟩
  · refine Grid.le_floorOn hs (Grid.On.sum fun x h => ?_) (List.sum_le_sum fun i _ => ?_)
    · obtain ⟨i, -, rfl⟩ := List.mem_map.mp h
      exact (hx i).floor_on
    · rw [(hx i).floor_eq]
      exact Grid.floorOn_le hs _
  · refine Grid.ceilOn_le hs (Grid.On.sum fun x h => ?_) (List.sum_le_sum fun i _ => ?_)
    · obtain ⟨i, -, rfl⟩ := List.mem_map.mp h
      split
      · exact (hx i).floor_on.add ⟨1, by simp⟩
      · exact (hx i).floor_on
    · split
      · rw [(hx i).floor_eq]
        exact (Grid.lt_floorOn_add hs _).le
      · rename_i h
        exact (((hx i).rem_eq_zero hd).mp (not_not.mp h)).ge

section Results
variable {n : ℕ} {slots : Fin n → Slot} {step : ℚ} {share : Fin n → ℚ} {count : Fin n → ℚ}
  {inLieu : Option ℚ}

/-- The carrier of a positive fraction is a parcel at its floor, and there is one. -/
theorem carrier_of_pos {fraction : ℚ} (hf : 0 < fraction) (h : ∃ i, count i = (slots i).floor) :
    ∃ i, carrier slots (some fraction) count = some i := by
  obtain ⟨i, hi⟩ := h
  have hsome : ((order slots).find? fun i => count i = (slots i).floor).isSome = true :=
    List.find?_isSome.mpr ⟨i, mem_order slots i, by simpa using hi⟩
  obtain ⟨j, hj⟩ := Option.isSome_iff_exists.mp hsome
  exact ⟨j, by simp only [carrier, gt_iff_lt, hf, if_true, hj]⟩

theorem carrier_fraction {i : Fin n} (h : carrier slots inLieu count = some i) :
    0 < inLieu.getD 0 := by
  unfold carrier at h
  split at h
  · split at h
    · assumption
    · cases h
  · cases h

theorem slotCount_grid (slots : Fin n → Slot) (inLieu : Option ℚ) (count : Fin n → ℚ)
    (carrying : Option (Fin n)) (i : Fin n) :
    (slotCount slots inLieu count carrying i).after -
      (slotCount slots inLieu count carrying i).inLieu = count i := by
  simp [slotCount]

theorem slotCount_inLieu_nonneg (slots : Fin n → Slot) (inLieu : Option ℚ) (count : Fin n → ℚ)
    (i : Fin n) :
    0 ≤ (slotCount slots inLieu count (carrier slots inLieu count) i).inLieu := by
  simp only [slotCount]
  split
  · rename_i h
    exact (carrier_fraction h).le
  · exact le_rfl

/-- The fraction rides on one parcel, whole, or on none. -/
theorem slotCount_carriedOnce
    (hcarry : 0 < inLieu.getD 0 → ∃ i, count i = (slots i).floor) :
    CarriedOnce (inLieu.getD 0) ((List.finRange n).map
      (slotCount slots inLieu count (carrier slots inLieu count))) := by
  refine ⟨fun hpos => ?_, fun hle c hc => ?_⟩
  · obtain ⟨i, hi⟩ : ∃ i, carrier slots inLieu count = some i := by
      cases hl : inLieu with
      | none => simp [hl] at hpos
      | some fraction =>
        rw [hl] at hpos hcarry
        exact carrier_of_pos hpos (hcarry hpos)
    obtain ⟨pre, suf, hsplit⟩ := List.append_of_mem (List.mem_finRange i)
    have hnd := List.nodup_finRange n
    rw [hsplit] at hnd
    refine ⟨_, _, _, by rw [hsplit, List.map_append, List.map_cons], by simp [slotCount, hi], ?_⟩
    intro d hd
    rw [← List.map_append] at hd
    obtain ⟨j, hj, rfl⟩ := List.mem_map.mp hd
    have hne : i ≠ j := by
      rintro rfl
      exact (List.nodup_middle.mp hnd).notMem hj
    simp [slotCount, hi, hne]
  · obtain ⟨i, -, rfl⟩ := List.mem_map.mp hc
    simp only [slotCount]
    split
    · rename_i h
      exact absurd (carrier_fraction h) (not_lt.mpr hle)
    · rfl

/-- Counts that sum to no more than the shares leave one parcel at its floor. -/
theorem exists_floor {divisor : ℚ} (hn : n ≠ 0) (hs : 0 < step)
    (hx : ∀ i, (slots i).Exact step divisor (share i))
    (hnear : ∀ i, count i = (slots i).floor ∨
      ((slots i).rem ≠ 0 ∧ count i = (slots i).floor + step))
    (hle : sumOver count ≤ sumOver share) : ∃ i, count i = (slots i).floor := by
  by_contra hcon
  push Not at hcon
  have hlt : sumOver share < sumOver count := by
    refine List.sum_lt_sum_of_ne_nil (by simpa using hn) _ _ fun i _ => ?_
    have h1 := Grid.lt_floorOn_add hs (share i)
    rw [← (hx i).floor_eq] at h1
    rcases hnear i with h | ⟨-, h⟩
    · exact absurd h (hcon i)
    · linarith
  linarith

theorem refuseEmptied_ok {counts out : List ParcelCount} (h : refuseEmptied counts = .ok out) :
    out = counts ∧ ∀ c ∈ counts, c.after ≠ 0 := by
  unfold refuseEmptied at h
  split at h
  · cases h
  · rename_i hnone
    refine ⟨(Except.ok.inj h).symm, fun c hc => ?_⟩
    simpa using List.find?_eq_none.mp hnone c hc

theorem refuseEmptied_error {counts : List ParcelCount} {e : RoundingError}
    (h : refuseEmptied counts = .error e) :
    ∃ c ∈ counts, c.after = 0 ∧ e = .parcelEmptied c.tradeId := by
  unfold refuseEmptied at h
  split at h
  · rename_i c hsome
    exact ⟨c, List.mem_of_find?_eq_some hsome, by simpa using List.find?_some hsome,
      (Except.error.inj h).symm⟩
  · cases h

end Results

end Distribute

end ShareTracker
