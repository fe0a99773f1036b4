import ShareTracker.EntitlementRounding

/-! What one distribution over a holding's slots does: the band the free
parcels absorb, the counts it gives, and the parcels it releases. -/
namespace ShareTracker

/-- The slot's floor and remainder are those of an exact share over a divisor. -/
structure Slot.Exact (s : Slot) (step divisor share : ℚ) : Prop where
  share_pos : 0 < share
  floor_eq : s.floor = Grid.floorOn step share
  rem_eq : s.rem = (share - s.floor) * divisor

namespace Slot.Exact
variable {s : Slot} {step divisor share : ℚ}

theorem floor_nonneg (h : s.Exact step divisor share) (hs : 0 < step) : 0 ≤ s.floor := by
  rw [h.floor_eq]
  exact Grid.floorOn_nonneg hs h.share_pos.le

theorem floor_on (h : s.Exact step divisor share) : Grid.On step s.floor := by
  rw [h.floor_eq]
  exact Grid.floorOn_on step share

theorem rem_nonneg (h : s.Exact step divisor share) (hs : 0 < step) (hd : 0 < divisor) :
    0 ≤ s.rem := by
  have := Grid.floorOn_le hs share
  rw [h.rem_eq, h.floor_eq]
  exact mul_nonneg (by linarith) hd.le

theorem rem_eq_zero (h : s.Exact step divisor share) (hd : 0 < divisor) :
    s.rem = 0 ↔ s.floor = share := by
  rw [h.rem_eq, mul_eq_zero, or_iff_left hd.ne', sub_eq_zero, eq_comm]

theorem rem_ne_zero (h : s.Exact step divisor share) (hs : 0 < step) (hd : 0 < divisor) :
    s.rem ≠ 0 ↔ ¬ Grid.On step share := by
  rw [Ne, h.rem_eq_zero hd, h.floor_eq, Grid.on_iff_floorOn_eq hs]

theorem emptied_iff (h : s.Exact step divisor share) :
    s.emptied = true ↔ Grid.floorOn step share = 0 := by
  simp [Slot.emptied, h.floor_eq, s.parcel.units_pos]

theorem rem_of_emptied (h : s.Exact step divisor share) (hd : 0 < divisor)
    (he : s.emptied = true) : s.rem ≠ 0 := by
  rw [Ne, h.rem_eq_zero hd, h.floor_eq, h.emptied_iff.mp he]
  exact h.share_pos.ne

/-- The test a prior count must pass: it is a count the share permits. -/
theorem permitted_iff (h : s.Exact step divisor share) (hs : 0 < step) (hd : 0 < divisor) {c : ℚ} :
    (0 < c ∧ Grid.floorOn step c = c ∧ s.floor ≤ c ∧
      c ≤ if s.rem = 0 then s.floor else s.floor + step) ↔ Apportion.Permitted step share c := by
  have hrem := h.rem_ne_zero hs hd
  constructor
  · rintro ⟨h0, hon, hlo, hhi⟩
    have hg := (Grid.on_iff_floorOn_eq hs).mpr hon
    refine ⟨hg, h0, ((Apportion.near_iff hs).mpr ?_).2⟩
    rw [← h.floor_eq, ← hrem]
    by_cases hr : s.rem = 0
    · rw [if_pos hr] at hhi
      exact .inl (le_antisymm hhi hlo)
    · rw [if_neg hr] at hhi
      rcases lt_or_ge c (s.floor + step) with hlt | hge
      · exact .inl (hg.eq_of_near hs h.floor_on hlt (by linarith))
      · exact .inr ⟨hr, le_antisymm hhi hge⟩
  · rintro ⟨hg, h0, habs⟩
    have hnear := (Apportion.near_iff hs).mp ⟨hg, habs⟩
    rw [← h.floor_eq, ← hrem] at hnear
    refine ⟨h0, Grid.floorOn_of_on hs hg, ?_, ?_⟩
    · rcases hnear with he | ⟨-, he⟩ <;> linarith
    · rcases hnear with he | ⟨hr, he⟩
      · split <;> linarith
      · rw [if_neg hr]
        exact he.le

/-- A keepable prior is one of the two counts the share permits. -/
theorem keepable_spec (h : s.Exact step divisor share) (hs : 0 < step) (hd : 0 < divisor)
    {c : ℚ} (hc : s.keepable step = some c) :
    Grid.On step c ∧ 0 < c ∧ (c = s.floor ∨ (s.rem ≠ 0 ∧ c = s.floor + step)) := by
  rw [Slot.keepable, Option.filter_eq_some_iff] at hc
  obtain ⟨hg, h0, habs⟩ := (h.permitted_iff hs hd).mp (of_decide_eq_true hc.2)
  refine ⟨hg, h0, ?_⟩
  rw [h.rem_ne_zero hs hd, h.floor_eq]
  exact (Apportion.near_iff hs).mp ⟨hg, habs⟩

end Slot.Exact

/-- The order of the extra steps puts the emptied parcels first, then the larger remainder. -/
theorem Slot.key_le {a b : Slot} (h : a.key ≤ b.key) :
    (a.emptied = true ∧ b.emptied = false) ∨ (a.emptied = b.emptied ∧ b.rem ≤ a.rem) := by
  rcases Prod.Lex.toLex_le_toLex.mp h with h1 | ⟨h1, h2⟩
  · left
    obtain ⟨h2, h3⟩ := Bool.lt_iff.mp h1
    exact ⟨by simpa using h2, by simpa using h3⟩
  · right
    refine ⟨by simpa using h1, ?_⟩
    rcases Prod.Lex.toLex_le_toLex.mp h2 with h3 | ⟨h3, -⟩
    · exact le_of_lt (OrderDual.toDual_lt_toDual.mp h3)
    · exact (OrderDual.toDual_inj.mp h3).ge

section
variable {n : ℕ} (slots : Fin n → Slot) (step total : ℚ)

theorem order_perm : (order slots).Perm (List.finRange n) :=
  List.perm_insertionSort _ _

theorem order_nodup : (order slots).Nodup :=
  (order_perm slots).nodup_iff.mpr (List.nodup_finRange _)

theorem mem_order (i : Fin n) : i ∈ order slots :=
  (order_perm slots).mem_iff.mpr (List.mem_finRange i)

theorem order_pairwise : (order slots).Pairwise fun a b => (slots a).key ≤ (slots b).key := by
  have : Std.Total fun a b : Fin n => (slots a).key ≤ (slots b).key :=
    ⟨fun a b => le_total _ _⟩
  have : IsTrans (Fin n) fun a b => (slots a).key ≤ (slots b).key :=
    ⟨fun _ _ _ => le_trans⟩
  exact List.pairwise_insertionSort _ _

theorem releaseOrder_perm : (releaseOrder slots step).Perm
    ((List.finRange n).filter fun i => (keepablePriors slots step i).isSome) :=
  List.perm_insertionSort _ _

theorem releaseOrder_nodup : (releaseOrder slots step).Nodup :=
  (releaseOrder_perm slots step).nodup_iff.mpr ((List.nodup_finRange _).filter _)

theorem mem_releaseOrder (i : Fin n) :
    i ∈ releaseOrder slots step ↔ (keepablePriors slots step i).isSome := by
  rw [(releaseOrder_perm slots step).mem_iff, List.mem_filter]
  exact and_iff_right (List.mem_finRange i)

/-- The release order: changed parcels first, then the latest acquired, then the higher id. -/
theorem releaseOrder_pairwise : (releaseOrder slots step).Pairwise
    fun a b => (slots a).releaseKey ≤ (slots b).releaseKey := by
  have : Std.Total fun a b : Fin n => (slots a).releaseKey ≤ (slots b).releaseKey :=
    ⟨fun a b => le_total _ _⟩
  have : IsTrans (Fin n) fun a b => (slots a).releaseKey ≤ (slots b).releaseKey :=
    ⟨fun _ _ _ => le_trans⟩
  exact List.pairwise_insertionSort _ _

/-- The keepable priors of the listed parcels only. -/
def retaining (retained : List (Fin n)) (i : Fin n) : Option ℚ :=
  if i ∈ retained then keepablePriors slots step i else none

theorem retaining_all : retaining slots step (releaseOrder slots step) =
    keepablePriors slots step := by
  funext i
  unfold retaining
  split
  · rfl
  · rename_i h
    rw [mem_releaseOrder] at h
    exact (Option.not_isSome_iff_eq_none.mp h).symm

theorem update_retaining {i : Fin n} {l : List (Fin n)} (hi : i ∉ l) :
    Function.update (retaining slots step (i :: l)) i none = retaining slots step l := by
  funext j
  by_cases hj : j = i
  · subst hj
    simp [retaining, hi]
  · simp [retaining, hj]

/-- The release loop stops at the first release after which the rest fits, or
with every prior released. -/
theorem releaseUntilFits_spec {l : List (Fin n)} (hl : l.Nodup) :
    ∃ m ≤ l.length, releaseUntilFits slots step total (retaining slots step l) l =
        retaining slots step (l.drop m) ∧
      (∀ k < m, fits slots step total (retaining slots step (l.drop k)) = false) ∧
      (fits slots step total (retaining slots step (l.drop m)) = true ∨ m = l.length) := by
  induction l with
  | nil => exact ⟨0, le_rfl, rfl, fun k hk => absurd hk (Nat.not_lt_zero k), .inr rfl⟩
  | cons i l ih =>
    obtain ⟨hi, hl⟩ := List.nodup_cons.mp hl
    by_cases hfit : fits slots step total (retaining slots step (i :: l)) = true
    · exact ⟨0, Nat.zero_le _, by simp [releaseUntilFits, hfit],
        fun k hk => absurd hk (Nat.not_lt_zero k), .inl hfit⟩
    · obtain ⟨m, hm, he, hbefore, hstop⟩ := ih hl
      refine ⟨m + 1, Nat.succ_le_succ hm, ?_, ?_, ?_⟩
      · rw [releaseUntilFits, if_neg hfit, update_retaining slots step hi, he,
          List.drop_succ_cons]
      · intro k hk
        cases k with
        | zero => exact Bool.eq_false_iff.mpr hfit
        | succ k => exact hbefore k (Nat.lt_of_succ_lt_succ hk)
      · exact hstop.imp id (congrArg Nat.succ)

end

section
variable {n : ℕ} {slots : Fin n → Slot} {step total divisor : ℚ} {share : Fin n → ℚ}
  {kept : Fin n → Option ℚ}

/-- Every retained count is its parcel's keepable prior. -/
def Keeps {n : ℕ} (slots : Fin n → Slot) (step : ℚ) (kept : Fin n → Option ℚ) : Prop :=
  ∀ i c, kept i = some c → keepablePriors slots step i = some c

theorem retaining_keeps (slots : Fin n → Slot) (step : ℚ) (l : List (Fin n)) :
    Keeps slots step (retaining slots step l) := by
  intro i c h
  unfold retaining at h
  split at h
  · exact h
  · cases h

theorem may_eq : may slots step kept =
    (List.finRange n).countP (fun i => (kept i).isNone && (slots i).rem ≠ 0) * step :=
  Apportion.sum_ite_step _ _ step

theorem must_eq : must slots step kept =
    (List.finRange n).countP (fun i => (kept i).isNone && (slots i).emptied) * step :=
  Apportion.sum_ite_step _ _ step

/-- The rest is the free floors and `extra` steps, no more than may be taken. -/
structure Band {n : ℕ} (slots : Fin n → Slot) (step total : ℚ) (kept : Fin n → Option ℚ)
    (extra : ℕ) : Prop where
  rest_eq : total - keptSum kept = lower slots kept + extra * step
  extra_le : extra ≤
    (List.finRange n).countP fun i => (kept i).isNone && (slots i).rem ≠ 0

theorem keptSum_on (hs : 0 < step) (hd : 0 < divisor)
    (hx : ∀ i : Fin n, (slots i).Exact step divisor (share i))
    (hk : Keeps slots step kept) : Grid.On step (keptSum kept) := by
  refine Grid.On.sum fun x hx' => ?_
  obtain ⟨i, -, rfl⟩ := List.mem_map.mp hx'
  cases hc : kept i with
  | none => exact Grid.On.zero step
  | some c => exact ((hx i).keepable_spec hs hd (hk i c hc)).1

theorem lower_on (kept : Fin n → Option ℚ) (hx : ∀ i : Fin n, (slots i).Exact step divisor (share i)) :
    Grid.On step (lower slots kept) := by
  refine Grid.On.sum fun x hx' => ?_
  obtain ⟨i, -, rfl⟩ := List.mem_map.mp hx'
  cases hc : kept i with
  | none => exact (hx i).floor_on
  | some c => exact Grid.On.zero step

theorem band_of_le (hs : 0 < step) (hd : 0 < divisor)
    (hx : ∀ i : Fin n, (slots i).Exact step divisor (share i))
    (hk : Keeps slots step kept) (ht : Grid.On step total)
    (hlo : lower slots kept ≤ total - keptSum kept)
    (hhi : total - keptSum kept ≤ lower slots kept + may slots step kept) :
    ∃ extra, Band slots step total kept extra ∧
      toUsize ((total - keptSum kept - lower slots kept) / step) = some extra := by
  obtain ⟨k, hkk⟩ := (ht.sub (keptSum_on hs hd hx hk)).sub (lower_on kept hx)
  have hk0 : 0 ≤ k := by
    by_contra hneg
    have h1 : (k : ℚ) < 0 := by exact_mod_cast not_le.mp hneg
    have := mul_neg_of_neg_of_pos h1 hs
    linarith
  obtain ⟨extra, rfl⟩ := Int.eq_ofNat_of_zero_le hk0
  have he : total - keptSum kept - lower slots kept = extra * step := by
    simpa only [Int.cast_natCast] using hkk
  refine ⟨extra, ⟨by linarith, ?_⟩, ?_⟩
  · rw [may_eq] at hhi
    have hle : (extra : ℚ) * step ≤ ((List.finRange n).countP
        fun i => (kept i).isNone && (slots i).rem ≠ 0 : ℕ) * step := by linarith
    exact_mod_cast le_of_mul_le_mul_right hle hs
  · have hq : (total - keptSum kept - lower slots kept) / step = (extra : ℚ) := by
      rw [he]
      exact mul_div_cancel_right₀ _ hs.ne'
    rw [hq, toUsize, if_neg (not_lt.mpr (Nat.cast_nonneg extra)), Int.floor_natCast, Int.toNat_natCast]

theorem freeOrder_countP (slots : Fin n → Slot) (kept : Fin n → Option ℚ) (P : Fin n → Bool) :
    ((order slots).filter fun i => (kept i).isNone).countP P =
      (List.finRange n).countP fun i => (kept i).isNone && P i := by
  rw [List.countP_filter, (order_perm slots).countP_eq]
  simp only [Bool.and_comm]

theorem freeOrder_pairwise : ((order slots).filter fun i => (kept i).isNone).Pairwise
    fun a b => (slots a).key ≤ (slots b).key :=
  (order_pairwise slots).sublist List.filter_sublist

/-- The extra steps only go to free parcels whose share is off the grid. -/
theorem of_mem_bumped (hs : 0 < step) (hd : 0 < divisor)
    (hx : ∀ i : Fin n, (slots i).Exact step divisor (share i)) {extra : ℕ}
    (hb : Band slots step total kept extra) {i : Fin n}
    (hi : i ∈ bumped slots kept extra) : kept i = none ∧ (slots i).rem ≠ 0 := by
  have hfree : i ∈ (order slots).filter fun i => (kept i).isNone := List.mem_of_mem_take hi
  refine ⟨Option.isNone_iff_eq_none.mp (List.mem_filter.mp hfree).2, ?_⟩
  have hcount := freeOrder_countP slots kept fun i => (slots i).rem ≠ 0
  have h := Apportion.of_mem_take (P := fun i : Fin n => (slots i).rem ≠ 0)
    freeOrder_pairwise (fun a b hab hP => ?_) (hb.extra_le.trans hcount.ge) hi
  · exact of_decide_eq_true h
  · simp only [decide_eq_true_eq] at hP ⊢
    rcases Slot.key_le hab with ⟨ha, -⟩ | ⟨-, hrem⟩
    · exact (hx a).rem_of_emptied hd ha
    · have hb0 := (hx b).rem_nonneg hs hd
      exact (lt_of_lt_of_le (lt_of_le_of_ne hb0 (Ne.symm hP)) hrem).ne'

/-- With a step for each free parcel the round-down empties, each of them takes one. -/
theorem mem_bumped_of_emptied {extra : ℕ}
    (hb : (List.finRange n).countP (fun i => (kept i).isNone && (slots i).emptied) ≤
      extra) {i : Fin n} (hi : kept i = none) (he : (slots i).emptied = true) :
    i ∈ bumped slots kept extra := by
  refine Apportion.mem_take (P := fun i : Fin n => (slots i).emptied)
    freeOrder_pairwise (fun a b hab hP => ?_)
    ((freeOrder_countP slots kept fun i => (slots i).emptied).trans_le hb)
    (List.mem_filter.mpr ⟨mem_order slots i, by simp [hi]⟩) he
  rcases Slot.key_le hab with ⟨ha, -⟩ | ⟨heq, -⟩
  · exact ha
  · rw [heq]
    exact hP

theorem bumped_nodup (extra : ℕ) : (bumped slots kept extra).Nodup :=
  ((order_nodup slots).filter _).sublist (List.take_sublist _ _)

theorem bumped_length {extra : ℕ} (hb : Band slots step total kept extra) :
    (bumped slots kept extra).length = extra := by
  rw [bumped, List.length_take, min_eq_left]
  have h1 := freeOrder_countP slots kept fun i => (slots i).rem ≠ 0
  calc extra ≤ _ := hb.extra_le
    _ = _ := h1.symm
    _ ≤ _ := List.countP_le_length

/-- Every count is its floor or, off the grid, one step more. -/
theorem gridCount_near (hs : 0 < step) (hd : 0 < divisor)
    (hx : ∀ i : Fin n, (slots i).Exact step divisor (share i))
    (hk : Keeps slots step kept) {extra : ℕ} (hb : Band slots step total kept extra)
    (i : Fin n) :
    gridCount slots step kept extra i = (slots i).floor ∨
      ((slots i).rem ≠ 0 ∧ gridCount slots step kept extra i = (slots i).floor + step) := by
  unfold gridCount
  by_cases hi : i ∈ bumped slots kept extra
  · obtain ⟨hfree, hrem⟩ := of_mem_bumped hs hd hx hb hi
    rw [hfree, if_pos hi]
    exact .inr ⟨hrem, rfl⟩
  · rw [if_neg hi, add_zero]
    cases hc : kept i with
    | none => exact .inl rfl
    | some c => exact ((hx i).keepable_spec hs hd (hk i c hc)).2.2

theorem gridCount_nonneg (hs : 0 < step) (hd : 0 < divisor)
    (hx : ∀ i : Fin n, (slots i).Exact step divisor (share i))
    (hk : Keeps slots step kept) {extra : ℕ} (hb : Band slots step total kept extra)
    (i : Fin n) : 0 ≤ gridCount slots step kept extra i := by
  have hf := (hx i).floor_nonneg hs
  rcases gridCount_near hs hd hx hk hb i with h | ⟨-, h⟩ <;> linarith

theorem gridCount_sum {extra : ℕ} (hb : Band slots step total kept extra) :
    sumOver (gridCount slots step kept extra) = total := by
  have hsplit : ∀ i : Fin n, gridCount slots step kept extra i =
      ((kept i).getD 0 + if (kept i).isNone then (slots i).floor else 0) +
        if i ∈ bumped slots kept extra then step else 0 := by
    intro i
    unfold gridCount
    cases kept i <;> simp
  have hstep : sumOver (fun i => if i ∈ bumped slots kept extra then step else 0) =
      extra * step := by
    rw [sumOver, Apportion.sum_mem_step (List.nodup_finRange _) (bumped_nodup extra)
      (fun i _ => List.mem_finRange i), bumped_length hb]
  have hsum : sumOver (gridCount slots step kept extra) =
      (keptSum kept + lower slots kept) + extra * step := by
    rw [← hstep, keptSum, lower, sumOver, funext hsplit]
    simp only [sumOver, List.sum_map_add]
  have := hb.rest_eq
  linarith

/-- With a step for each free parcel the round-down empties, every count is positive. -/
theorem gridCount_pos (hs : 0 < step) (hd : 0 < divisor)
    (hx : ∀ i : Fin n, (slots i).Exact step divisor (share i))
    (hk : Keeps slots step kept) {extra : ℕ} (hb : Band slots step total kept extra)
    (hmust : (List.finRange n).countP
      (fun i => (kept i).isNone && (slots i).emptied) ≤ extra)
    (i : Fin n) : 0 < gridCount slots step kept extra i := by
  cases hc : kept i with
  | some c =>
    have hnot : i ∉ bumped slots kept extra := by
      intro hi
      rw [(of_mem_bumped hs hd hx hb hi).1] at hc
      cases hc
    rw [gridCount, if_neg hnot, hc, add_zero]
    exact ((hx i).keepable_spec hs hd (hk i c hc)).2.1
  | none =>
    have hf := (hx i).floor_nonneg hs
    by_cases he : (slots i).emptied = true
    · rw [gridCount, if_pos (mem_bumped_of_emptied hmust hc he), hc]
      exact add_pos_of_nonneg_of_pos hf hs
    · have hpos : (slots i).floor ≠ 0 := by
        rw [(hx i).emptied_iff, ← (hx i).floor_eq] at he
        exact he
      rcases gridCount_near hs hd hx hk hb i with h | ⟨-, h⟩
      · rw [h]
        exact lt_of_le_of_ne hf hpos.symm
      · rw [h]
        exact add_pos_of_nonneg_of_pos hf hs

theorem gridCount_kept (hs : 0 < step) (hd : 0 < divisor)
    (hx : ∀ i : Fin n, (slots i).Exact step divisor (share i)) {extra : ℕ}
    (hb : Band slots step total kept extra) {i : Fin n} {c : ℚ} (hc : kept i = some c) :
    gridCount slots step kept extra i = c := by
  have hnot : i ∉ bumped slots kept extra := by
    intro hi
    rw [(of_mem_bumped hs hd hx hb hi).1] at hc
    cases hc
  rw [gridCount, if_neg hnot, hc, add_zero]
  rfl

/-- Exact slots with a total their floors and ceilings bracket. -/
structure Sound {n : ℕ} (slots : Fin n → Slot) (step total divisor : ℚ) (share : Fin n → ℚ) :
    Prop where
  step_pos : 0 < step
  divisor_pos : 0 < divisor
  exact : ∀ i : Fin n, (slots i).Exact step divisor (share i)
  total_on : Grid.On step total
  floors_le : sumOver (fun i => (slots i).floor) ≤ total
  le_ceils : total ≤ sumOver fun i =>
    if (slots i).rem ≠ 0 then (slots i).floor + step else (slots i).floor

namespace Sound
variable (S : Sound slots step total divisor share)
include S

/-- A band that leaves a step for each emptied free parcel is an apportionment. -/
theorem apportions (hk : Keeps slots step kept) {extra : ℕ}
    (hb : Band slots step total kept extra)
    (hmust : (List.finRange n).countP (fun i => (kept i).isNone && (slots i).emptied) ≤ extra) :
    Apportion.Apportions (List.finRange n) step total share kept
      (gridCount slots step kept extra) where
  fixed_eq _ _ _ hc := gridCount_kept S.step_pos S.divisor_pos S.exact hb hc
  permitted i _ _ := by
    have hnear := gridCount_near S.step_pos S.divisor_pos S.exact hk hb i
    rw [(S.exact i).rem_ne_zero S.step_pos S.divisor_pos, (S.exact i).floor_eq] at hnear
    obtain ⟨hon, habs⟩ := (Apportion.near_iff S.step_pos).mpr hnear
    exact ⟨hon, gridCount_pos S.step_pos S.divisor_pos S.exact hk hb hmust i, habs⟩
  sum_eq := gridCount_sum hb

/-- The release test decides whether the free parcels can absorb the rest. -/
theorem fits_iff_absorbs (hk : Keeps slots step kept) :
    fits slots step total kept = true ↔
      Apportion.Absorbs (List.finRange n) step total share kept := by
  have hmust0 : 0 ≤ must slots step kept := by
    rw [must_eq]
    exact mul_nonneg (Nat.cast_nonneg _) S.step_pos.le
  constructor
  · intro h
    simp only [fits, Bool.and_eq_true, decide_eq_true_eq] at h
    obtain ⟨extra, hb, -⟩ := band_of_le S.step_pos S.divisor_pos S.exact hk S.total_on (by linarith) h.2
    refine ⟨_, S.apportions hk hb ?_⟩
    have h1 := h.1
    rw [hb.rest_eq, must_eq] at h1
    have h2 : ((List.finRange n).countP (fun i => (kept i).isNone && (slots i).emptied) : ℚ) * step
        ≤ extra * step := by linarith
    exact_mod_cast le_of_mul_le_mul_right h2 S.step_pos
  · rintro ⟨count, happ⟩
    have hpoint : ∀ i ∈ List.finRange n,
        ((kept i).getD 0 + (if (kept i).isNone then (slots i).floor else 0)) +
            (if (kept i).isNone && (slots i).emptied then step else 0) ≤ count i ∧
          count i ≤ ((kept i).getD 0 + (if (kept i).isNone then (slots i).floor else 0)) +
            (if (kept i).isNone && (slots i).rem ≠ 0 then step else 0) := by
      intro i hi
      cases hc : kept i with
      | some c => simp [happ.fixed_eq i hi c hc]
      | none =>
        have hband := happ.band S.step_pos (fun j _ => (S.exact j).share_pos) hi hc
        have hz : (slots i).emptied = true ↔ (slots i).floor = 0 := by
          rw [(S.exact i).emptied_iff, (S.exact i).floor_eq]
        simp only [← (S.exact i).floor_eq, ← (S.exact i).rem_eq_zero S.divisor_pos] at hband
        obtain ⟨hlo, hhi⟩ := hband
        refine ⟨?_, ?_⟩
        · by_cases he : (slots i).floor = 0
          · simpa [hz.mpr he, he] using hlo
          · simpa [mt hz.mp he, he] using hlo
        · by_cases hr : (slots i).rem = 0 <;> simpa [hr] using hhi
    have hlo := List.sum_le_sum fun i hi => (hpoint i hi).1
    have hhi := List.sum_le_sum fun i hi => (hpoint i hi).2
    rw [happ.sum_eq] at hlo hhi
    simp only [List.sum_map_add] at hlo hhi
    have h1 : lower slots kept + must slots step kept ≤ total - keptSum kept := by
      unfold lower must keptSum sumOver
      linarith
    have h2 : total - keptSum kept ≤ lower slots kept + may slots step kept := by
      unfold lower may keptSum sumOver
      linarith
    simp only [fits, Bool.and_eq_true, decide_eq_true_eq]
    exact ⟨h1, h2⟩

/-- A band that can be apportioned leaves a step for each emptied free parcel. -/
theorem must_le (hk : Keeps slots step kept) {extra : ℕ} (hb : Band slots step total kept extra)
    (habs : Apportion.Absorbs (List.finRange n) step total share kept) :
    (List.finRange n).countP (fun i => (kept i).isNone && (slots i).emptied) ≤ extra := by
  have h1 := (S.fits_iff_absorbs hk).mpr habs
  simp only [fits, Bool.and_eq_true, decide_eq_true_eq, ge_iff_le, hb.rest_eq, must_eq,
    add_le_add_iff_left] at h1
  exact_mod_cast le_of_mul_le_mul_right h1.1 S.step_pos

/-- With nothing kept the total is in the band. -/
theorem band_free : lower slots (fun _ => none) ≤ total - keptSum (fun _ : Fin n => none) ∧
    total - keptSum (fun _ : Fin n => none) ≤
      lower slots (fun _ => none) + may slots step (fun _ => none) := by
  have hk0 : keptSum (fun _ : Fin n => none) = 0 := by simp [keptSum, sumOver]
  have hceil : (fun i : Fin n => if (slots i).rem ≠ 0 then (slots i).floor + step
      else (slots i).floor) =
      fun i => (slots i).floor + if (slots i).rem ≠ 0 then step else 0 := by
    funext i
    split <;> simp
  have hlo := S.floors_le
  have hhi := S.le_ceils
  rw [hceil] at hhi
  simp only [sumOver, List.sum_map_add] at hlo hhi
  rw [hk0, sub_zero]
  simp only [lower, may, sumOver, Option.isNone_none, if_true, Bool.true_and, decide_eq_true_eq]
  exact ⟨hlo, hhi⟩

/-- The whole distribution: what is released, the steps handed out, and the counts. -/
theorem outcome (inLieu : Option ℚ) :
    ∃ m ≤ (releaseOrder slots step).length, ∃ extra,
      (∀ k < m, ¬ Apportion.Absorbs (List.finRange n) step total share
        (retaining slots step ((releaseOrder slots step).drop k))) ∧
      (Apportion.Absorbs (List.finRange n) step total share
          (retaining slots step ((releaseOrder slots step).drop m)) ∨
        m = (releaseOrder slots step).length) ∧
      Band slots step total (retaining slots step ((releaseOrder slots step).drop m)) extra ∧
      distributeSlots slots step total inLieu =
        refuseEmptied ((List.finRange n).map (slotCount slots inLieu
          (gridCount slots step (retaining slots step ((releaseOrder slots step).drop m)) extra)
          (carrier slots inLieu (gridCount slots step
            (retaining slots step ((releaseOrder slots step).drop m)) extra)))) := by
  obtain ⟨m, hm, hkept, hbefore, hstop⟩ :=
    releaseUntilFits_spec slots step total (releaseOrder_nodup slots step)
  rw [retaining_all] at hkept
  have hk := retaining_keeps slots step ((releaseOrder slots step).drop m)
  have hle : lower slots (retaining slots step ((releaseOrder slots step).drop m)) ≤
        total - keptSum (retaining slots step ((releaseOrder slots step).drop m)) ∧
      total - keptSum (retaining slots step ((releaseOrder slots step).drop m)) ≤
        lower slots (retaining slots step ((releaseOrder slots step).drop m)) +
          may slots step (retaining slots step ((releaseOrder slots step).drop m)) := by
    rcases hstop with hfit | rfl
    · simp only [fits, Bool.and_eq_true, decide_eq_true_eq, ge_iff_le] at hfit
      refine ⟨le_trans ?_ hfit.1, hfit.2⟩
      rw [must_eq]
      exact le_add_of_nonneg_right (mul_nonneg (Nat.cast_nonneg _) S.step_pos.le)
    · have hnone : retaining slots step ((releaseOrder slots step).drop
          (releaseOrder slots step).length) = fun _ => none := by
        funext i
        simp [retaining]
      rw [hnone]
      exact S.band_free
  obtain ⟨extra, hb, hu⟩ := band_of_le S.step_pos S.divisor_pos S.exact hk S.total_on hle.1 hle.2
  refine ⟨m, hm, extra, ?_, ?_, hb, ?_⟩
  · intro k hkm habs
    have hfit := (S.fits_iff_absorbs (retaining_keeps slots step _)).mpr habs
    rw [hbefore k hkm] at hfit
    cases hfit
  · exact hstop.imp_left (S.fits_iff_absorbs hk).mp
  · simp only [distributeSlots, hkept, hu]

end Sound

end

end ShareTracker
