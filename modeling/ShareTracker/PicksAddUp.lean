import ShareTracker.LeastGain
import ShareTracker.DecimalFigures

/-!
Picks that add up to the units sold. Where the units can be stated at the finest
decimal places in play nothing taken is rounded; where they cannot, settling the
last pick can take more than its parcel holds.
-/
namespace ShareTracker.ParcelOptimiser
open CheapestFill CandidateParcel

/-- What the picks of a sale come to, at each step's rounding. -/
structure PicksAddUp (D : DecimalRounding) (parcels : List CandidateParcel) (sold : Decimal)
    (price : ℚ) (saleDate : NaiveDate) (strategy : Strategy) : Prop where
  distinct : ((allocateParcels D.round parcels sold price saleDate strategy).map Prod.fst).Nodup
  within : ∀ pick ∈ allocateParcels D.round parcels sold price saleDate strategy,
    ∃ p ∈ parcels, p.tradeId = pick.1 ∧ 0 < pick.2 ∧ pick.2 ≤ p.units
  total : sumKept D.round
    ((allocateParcels D.round parcels sold price saleDate strategy).map Prod.snd) = sold.value
  orderFree : ∀ order : List CandidateParcel, order.Perm parcels →
    allocateParcels D.round order sold price saleDate strategy =
      allocateParcels D.round parcels sold price saleDate strategy

/-- The parcels in the order a strategy comes to them. -/
def walkOrder (keep : ℚ → ℚ) (parcels : List CandidateParcel) (price : ℚ) (saleDate : NaiveDate) :
    Strategy → List CandidateParcel
  | .fifo => StableSort.sortBy CandidateParcel.fifo parcels
  | .minGain => losses keep price parcels ++
      (other keep price saleDate parcels ++ discounted keep price saleDate parcels)
  | .maxDiscount =>
    StableSort.sortBy (fun p => toLex (discountGroup keep price saleDate p, p.fifo)) parcels
  | .harvestLosses => StableSort.sortBy (harvestKey keep price) parcels

/-- The picks of a strategy, before the last is settled. -/
def walkedPicks (keep : ℚ → ℚ) (parcels : List CandidateParcel) (sold : Decimal) (price : ℚ)
    (saleDate : NaiveDate) (strategy : Strategy) : List (TradeId × ℚ) :=
  if strategy = .minGain then minGainPicks keep price parcels sold saleDate
  else consume keep sold.value (walkOrder keep parcels price saleDate strategy)

/-- Past what is sold already, every total of the parcels walked in full is a
figure, and so is what it leaves to sell. -/
def RunningFits (already sold : ℚ) (order : List CandidateParcel) : Prop :=
  ∀ full rest, order = full ++ rest → already + amount full units ≤ sold →
    holds (already + amount full units) = true ∧ holds (sold - (already + amount full units)) = true

/-- How many of `left` units of gains may be of those that get no discount: all that
either class has to give, up to a parcel of either, or at the decimal places in play
where there are losses to overtake. -/
structure SplitPoint (step left : ℚ) (losing : Prop) (others discounts : List CandidateParcel)
    (k : ℚ) : Prop where
  nonneg : 0 ≤ k
  le_left : k ≤ left
  le_others : k ≤ amount others units
  le_discounts : left - k ≤ amount discounts units
  place : (∃ full rest, others = full ++ rest ∧ k = amount full units) ∨
    (∃ full rest, discounts = full ++ rest ∧ k = left - amount full units) ∨ losing ∧ Grid.On step k

/-- Past the losses, the running totals fit wherever the two classes may be split. -/
structure SplitsFit (step already sold : ℚ) (losing : Prop)
    (others discounts : List CandidateParcel) : Prop where
  otherRuns : RunningFits 0 (sold - already) others
  discountRuns : RunningFits 0 (sold - already) discounts
  split : ∀ k, SplitPoint step (sold - already) losing others discounts k →
    RunningFits already (already + k) others ∧ RunningFits (already + k) sold discounts

/-- The running totals fit in the losses and, where they do not make up the sale, in
every split of the gains. -/
structure MinGainFits (keep : ℚ → ℚ) (parcels : List CandidateParcel) (sold : Decimal) (price : ℚ)
    (saleDate : NaiveDate) : Prop where
  losses : RunningFits 0 sold.value (losses keep price parcels)
  gains : amount (ParcelOptimiser.losses keep price parcels) units < sold.value →
    SplitsFit (gridStep (quantityScale parcels sold))
      (amount (ParcelOptimiser.losses keep price parcels) units) sold.value
      (∃ p ∈ parcels, gainPerUnit keep price p < 0) (other keep price saleDate parcels)
      (discounted keep price saleDate parcels)

/-- No units are rounded: those sold can be stated at the finest decimal places in
play, or every running total the strategy may come to is a figure. -/
def TakesWhole (D : DecimalRounding) (parcels : List CandidateParcel) (sold : Decimal) (price : ℚ)
    (saleDate : NaiveDate) (strategy : Strategy) : Prop :=
  sold.value * 10 ^ quantityScale parcels sold < 2 ^ 96 ∨
    if strategy = .minGain then MinGainFits D.round parcels sold price saleDate
    else RunningFits 0 sold.value (walkOrder D.round parcels price saleDate strategy)

theorem allocateParcels_eq (keep : ℚ → ℚ) (parcels : List CandidateParcel) (sold : Decimal)
    (price : ℚ) (saleDate : NaiveDate) (strategy : Strategy) :
    allocateParcels keep parcels sold price saleDate strategy =
      addingUpTo keep (walkedPicks keep parcels sold price saleDate strategy) sold.value := by
  cases strategy <;> rfl

/-! ### In any order -/

section Order
variable {keep : ℚ → ℚ} {parcels order : List CandidateParcel}

theorem eq_of_tradeId (hids : (parcels.map tradeId).Nodup) :
    ∀ p ∈ parcels, ∀ q ∈ parcels, p.tradeId = q.tradeId → p = q :=
  fun _ hp _ hq => List.inj_on_of_nodup_map hids hp hq

/-- A key that ends in acquisition date and trade id forgets the order. -/
theorem sortBy_perm_of_fifo {κ : Type*} [LinearOrder κ] {key : CandidateParcel → κ}
    (hids : (parcels.map tradeId).Nodup) (hkey : ∀ p q, key p = key q → p.fifo = q.fifo)
    (h : order.Perm parcels) : StableSort.sortBy key order = StableSort.sortBy key parcels := by
  refine StableSort.sortBy_eq_of_perm h fun p hp q hq heq => ?_
  have hfifo := hkey p q heq
  exact eq_of_tradeId hids p (h.mem_iff.mp hp) q (h.mem_iff.mp hq) (congrArg Prod.snd hfifo)

theorem quantityScale_perm (sold : Decimal) (h : order.Perm parcels) :
    quantityScale order sold = quantityScale parcels sold := by
  refine (h.map _).foldl_eq' ?_ _
  intro x _ y _ z
  rw [max_right_comm]

theorem walkedPicks_perm (hids : (parcels.map tradeId).Nodup) (h : order.Perm parcels)
    (sold : Decimal) (price : ℚ) (saleDate : NaiveDate) (strategy : Strategy) :
    walkedPicks keep order sold price saleDate strategy =
      walkedPicks keep parcels sold price saleDate strategy := by
  cases strategy with
  | fifo => exact congrArg (consume keep sold.value) (sortBy_perm_of_fifo hids (fun p q heq => heq) h)
  | maxDiscount =>
    refine congrArg (consume keep sold.value) (sortBy_perm_of_fifo hids (fun p q heq => ?_) h)
    exact congrArg (fun k => k.2) heq
  | harvestLosses =>
    refine congrArg (consume keep sold.value) (sortBy_perm_of_fifo hids (fun p q heq => ?_) h)
    exact congrArg (fun k => k.2.2) heq
  | minGain =>
    have hclass : ∀ test : CandidateParcel → Bool,
        StableSort.sortBy (byGain keep price) (order.filter test) =
          StableSort.sortBy (byGain keep price) (parcels.filter test) := by
      intro test
      have hsub : ((parcels.filter test).map tradeId).Nodup :=
        hids.sublist (List.filter_sublist.map _)
      exact sortBy_perm_of_fifo hsub (fun p q heq => congrArg (fun k => k.2) heq) (h.filter test)
    change minGainPicks keep price order sold saleDate = minGainPicks keep price parcels sold saleDate
    unfold minGainPicks losses other discounted
    simp only [hclass, quantityScale_perm sold h]

end Order

/-! ### A walk that rounds nothing -/

section Walks
variable {D : DecimalRounding} {left already sold step : ℚ} {p : CandidateParcel}
  {parcels parcels' : List CandidateParcel}

/-- Picks of the parcels in turn, none past its own. -/
structure Walked (parcels : List CandidateParcel) (picks : List (TradeId × ℚ)) : Prop where
  ids : (picks.map Prod.fst).Sublist (parcels.map tradeId)
  within : ∀ pick ∈ picks, ∃ p ∈ parcels, p.tradeId = pick.1 ∧ 0 < pick.2 ∧ pick.2 ≤ p.units

theorem Walked.append {picks picks' : List (TradeId × ℚ)} (h : Walked parcels picks)
    (h' : Walked parcels' picks') : Walked (parcels ++ parcels') (picks ++ picks') where
  ids := by
    rw [List.map_append, List.map_append]
    exact h.ids.append h'.ids
  within := by
    intro pick hpick
    rcases List.mem_append.mp hpick with hpick | hpick
    · obtain ⟨p, hp, hpick⟩ := h.within pick hpick
      exact ⟨p, List.mem_append_left _ hp, hpick⟩
    · obtain ⟨p, hp, hpick⟩ := h'.within pick hpick
      exact ⟨p, List.mem_append_right _ hp, hpick⟩

/-- Each pick is some of the parcel it names, whatever is left of the units after it. -/
theorem consume_within (keep : ℚ → ℚ) (left : ℚ) (parcels : List CandidateParcel) :
    ∀ pick ∈ consume keep left parcels,
      ∃ p ∈ parcels, p.tradeId = pick.1 ∧ 0 < pick.2 ∧ pick.2 ≤ p.units := by
  induction parcels generalizing left with
  | nil => exact fun pick hpick => absurd hpick List.not_mem_nil
  | cons p parcels ih =>
    intro pick hpick
    rcases le_or_gt left 0 with hnone | hpos
    · rw [consume, if_pos hnone] at hpick
      cases hpick
    · rw [consume, if_neg (not_le.mpr hpos)] at hpick
      rcases List.mem_cons.mp hpick with rfl | hpick
      · exact ⟨p, List.mem_cons_self, rfl, lt_min p.units_pos hpos, min_le_left _ _⟩
      · obtain ⟨q, hq, hrest⟩ := ih _ pick hpick
        exact ⟨q, List.mem_cons_of_mem p hq, hrest⟩

theorem consume_walked (keep : ℚ → ℚ) (left : ℚ) (parcels : List CandidateParcel) :
    Walked parcels (consume keep left parcels) where
  ids := consume_ids keep left parcels
  within := consume_within keep left parcels

theorem Walked.nil (parcels : List CandidateParcel) : Walked parcels [] where
  ids := List.nil_sublist _
  within := fun _ hpick => absurd hpick List.not_mem_nil

theorem RunningFits.head (h : RunningFits already sold parcels) (hle : already ≤ sold) :
    holds already = true ∧ holds (sold - already) = true := by
  have hnone : amount ([] : List CandidateParcel) units = 0 := rfl
  have hfits := h [] parcels rfl
  rw [hnone, add_zero] at hfits
  exact hfits hle

theorem RunningFits.tail (h : RunningFits already sold (p :: parcels)) :
    RunningFits (already + p.units) sold parcels := by
  intro full rest hsplit hle
  have htotal : amount (p :: full) units = p.units + amount full units := List.sum_cons
  have hfits := h (p :: full) rest (congrArg (p :: ·) hsplit)
  rw [htotal, ← add_assoc] at hfits
  exact hfits hle

/-- A walk whose running totals are figures is exact, and so is the sum of its picks. -/
theorem consume_running (hsold : holds sold = true) (h : RunningFits already sold parcels)
    (hle : already ≤ sold) :
    consume D.round (sold - already) parcels = consume id (sold - already) parcels ∧
      ((consume id (sold - already) parcels).map Prod.snd).foldl (fun sum q => D.round (sum + q))
        already = min sold (already + amount parcels units) := by
  induction parcels generalizing already with
  | nil =>
    have hnone : amount ([] : List CandidateParcel) units = 0 := rfl
    refine ⟨rfl, ?_⟩
    rw [hnone, add_zero, min_eq_right hle]
    rfl
  | cons p parcels ih =>
    have htotal : amount (p :: parcels) units = p.units + amount parcels units := List.sum_cons
    have hothers : 0 ≤ amount parcels units := amount_nonneg_of fun q _ => q.units_pos.le
    rcases hle.eq_or_lt with rfl | hlt
    · rw [sub_self, consume_of_nonpos le_rfl, consume, if_pos le_rfl, htotal,
        min_eq_left (le_add_of_nonneg_right (add_nonneg p.units_pos.le hothers))]
      exact ⟨rfl, rfl⟩
    · have hpos : 0 < sold - already := sub_pos.mpr hlt
      rw [consume_cons hpos, consume, if_neg (not_le.mpr hpos)]
      simp only [List.map_cons, List.foldl_cons]
      rcases le_total p.units (sold - already) with hfull | hpart
      · have hnext : already + p.units ≤ sold := by linarith
        obtain ⟨hsum, hleft⟩ := h.tail.head hnext
        obtain ⟨hwalk, htaken⟩ := ih h.tail hnext
        rw [min_eq_left hfull, sub_sub, D.round_holds hleft, hwalk, D.round_holds hsum, htaken,
          htotal, add_assoc]
        exact ⟨rfl, rfl⟩
      · rw [min_eq_right hpart, sub_self, D.round_zero, consume_of_nonpos le_rfl, add_sub_cancel,
          D.round_holds hsold, htotal, min_eq_left (by linarith)]
        refine ⟨?_, rfl⟩
        cases parcels with
        | nil => rfl
        | cons q parcels => rw [consume, if_pos le_rfl]

/-- On a grid of figures every running total fits. -/
theorem runningFits_of_grid (hfigures : ∀ x, Grid.On step x → 0 ≤ x → x ≤ sold → holds x = true)
    (halready : Grid.On step already) (h0 : 0 ≤ already) (hsold : Grid.On step sold)
    (hunits : ∀ p ∈ parcels, Grid.On step p.units) : RunningFits already sold parcels := by
  intro full rest hsplit hle
  have hfull : Grid.On step (amount full units) :=
    amount_on_of fun p hp => hunits p (hsplit ▸ List.mem_append_left rest hp)
  have hfull0 : 0 ≤ amount full units := amount_nonneg_of fun q _ => q.units_pos.le
  have htotal := add_nonneg h0 hfull0
  refine ⟨hfigures _ (halready.add hfull) htotal hle, ?_⟩
  exact hfigures _ (hsold.sub (halready.add hfull)) (sub_nonneg.mpr hle) (sub_le_self sold htotal)

end Walks

/-! ### The split between the classes -/

section Split
variable {D : DecimalRounding} {price left already sold step loss : ℚ}
  {parcels others discounts : List CandidateParcel}

theorem takeLosses_picks (keep : ℚ → ℚ) (price left loss : ℚ) (parcels : List CandidateParcel) :
    (takeLosses keep price left loss parcels).1 = consume keep left parcels := by
  induction parcels generalizing left loss with
  | nil => rfl
  | cons p parcels ih =>
    rw [takeLosses, consume]
    split
    · rfl
    · simp only [ih]

theorem takeLosses_left (price : ℚ) (h : RunningFits already sold parcels) (hle : already ≤ sold)
    (loss : ℚ) :
    (takeLosses D.round price (sold - already) loss parcels).2.1 =
      sold - min sold (already + amount parcels units) := by
  induction parcels generalizing already loss with
  | nil =>
    have hnone : amount ([] : List CandidateParcel) units = 0 := rfl
    rw [takeLosses, hnone, add_zero, min_eq_right hle]
  | cons p parcels ih =>
    have htotal : amount (p :: parcels) units = p.units + amount parcels units := List.sum_cons
    have hothers : 0 ≤ amount parcels units := amount_nonneg_of fun q _ => q.units_pos.le
    rcases hle.eq_or_lt with rfl | hlt
    · rw [takeLosses, if_pos (sub_self already).le, htotal,
        min_eq_left (le_add_of_nonneg_right (add_nonneg p.units_pos.le hothers))]
    · have hpos : 0 < sold - already := sub_pos.mpr hlt
      rw [takeLosses, if_neg (not_le.mpr hpos)]
      rcases le_total p.units (sold - already) with hfull | hpart
      · have hnext : already + p.units ≤ sold := by linarith
        simp only [min_eq_left hfull, sub_sub, D.round_holds (h.tail.head hnext).2]
        rw [ih h.tail hnext, htotal, add_assoc]
      · rw [htotal, min_eq_left (show sold ≤ already + (p.units + amount parcels units) by linarith)]
        simp only [min_eq_right hpart, sub_self, D.round_zero]
        cases parcels with
        | nil => rfl
        | cons q parcels => rw [takeLosses, if_pos le_rfl]

/-- Dollars are lost only where a parcel is at a loss. -/
theorem takeLosses_loss (price left : ℚ) (hnone : ∀ p ∈ parcels, 0 ≤ gainPerUnit D.round price p)
    (hloss : loss ≤ 0) : (takeLosses D.round price left loss parcels).2.2 ≤ 0 := by
  induction parcels generalizing left loss with
  | nil => exact hloss
  | cons p parcels ih =>
    obtain ⟨hp, hrest⟩ := List.forall_mem_cons.mp hnone
    rw [takeLosses]
    split
    · exact hloss
    · rename_i hopen
      refine ih _ hrest ?_
      have hgain : 0 ≤ D.round (gainPerUnit D.round price p * min p.units left) :=
        D.round_nonneg (mul_nonneg hp (le_min p.units_pos.le (not_le.mp hopen).le))
      have hround := D.round_mono (show loss - _ ≤ 0 by linarith)
      rwa [D.round_zero] at hround

/-- A running total agrees with the exact one as far as what is left. -/
theorem round_add_capped {before x q : ℚ} (hleft : holds left = true) (hq : 0 ≤ q)
    (hfits : x + q ≤ left → holds (x + q) = true) (h : min left before = min left x) :
    min left (D.round (before + q)) = min left (x + q) := by
  have hcap : ∀ y, left ≤ y → left ≤ D.round y :=
    fun y hy => (D.round_holds hleft).symm.trans_le (D.round_mono hy)
  rcases le_or_gt left x with hpast | hwithin
  · have hbefore : left ≤ before := min_eq_left_iff.mp (h.trans (min_eq_left hpast))
    rw [min_eq_left (hcap _ (hbefore.trans (le_add_of_nonneg_right hq))),
      min_eq_left (hpast.trans (le_add_of_nonneg_right hq))]
  · obtain rfl : before = x := by
      rw [min_eq_right hwithin.le] at h
      rcases min_choice left before with hmin | hmin
      · exact absurd (hmin.symm.trans h) hwithin.ne'
      · exact hmin.symm.trans h
    rcases le_total (before + q) left with hle | hge
    · rw [D.round_holds (hfits hle)]
    · rw [min_eq_left (hcap _ hge), min_eq_left hge]

theorem classTotal_capped (hleft : holds left = true) (h : RunningFits 0 left parcels) :
    min left (classTotal D.round parcels) = min left (amount parcels units) := by
  have hfold : ∀ (l : List CandidateParcel) (before x : ℚ), RunningFits x left l →
      min left before = min left x →
      min left ((l.map units).foldl (fun sum q => D.round (sum + q)) before) =
        min left (x + amount l units) := by
    intro l
    induction l with
    | nil =>
      intro before x _ hbefore
      have hnone : amount ([] : List CandidateParcel) units = 0 := rfl
      rwa [hnone, add_zero]
    | cons p l ih =>
      intro before x hfits hbefore
      have htotal : amount (p :: l) units = p.units + amount l units := List.sum_cons
      rw [List.map_cons, List.foldl_cons, htotal, ← add_assoc]
      exact ih _ _ hfits.tail (round_add_capped hleft p.units_pos.le
        (fun hle => (hfits.tail.head hle).1) hbefore)
  have htotal := hfold parcels 0 0 h rfl
  rwa [zero_add] at htotal

/-- A breakpoint within what is left is up to a parcel, or all of it, or at the decimal
places where losses are overtaken. -/
theorem otherBreakpoint_place (hleft : holds left = true)
    (hgains : ∀ p ∈ parcels, 0 < gainPerUnit D.round price p) {before x gain c : ℚ}
    (h : RunningFits x left parcels) (hbefore : min left before = min left x) (hgain : 0 ≤ gain)
    (hc : c ∈ otherBreakpoints D.round price step loss before gain parcels) (hle : c ≤ left) :
    (∃ full rest, parcels = full ++ rest ∧ c = x + amount full units) ∨ c = left ∨
      0 < loss ∧ Grid.On step c := by
  induction parcels generalizing before x gain with
  | nil => cases hc
  | cons p parcels ih =>
    obtain ⟨hp, hrest⟩ := List.forall_mem_cons.mp hgains
    have hafter := round_add_capped (D := D) hleft p.units_pos.le
      (fun hle => (h.tail.head hle).1) hbefore
    have hgainAfter : 0 ≤ D.round (gain + D.round (gainPerUnit D.round price p * p.units)) :=
      D.round_nonneg (add_nonneg hgain (D.round_nonneg (mul_nonneg hp.le p.units_pos.le)))
    rcases List.mem_append.mp hc with hhere | hc
    · split at hhere
      · rename_i hcrosses
        refine .inr (.inr ⟨hgain.trans_lt hcrosses.1, ?_⟩)
        rcases List.mem_cons.mp hhere with rfl | hlast
        · exact Grid.truncOn_on _ _
        · rw [List.mem_singleton.mp hlast]
          exact awayOn_on _
      · cases hhere
    · rcases List.mem_cons.mp hc with rfl | hc
      · rcases le_total (x + p.units) left with hwithin | hpast
        · refine .inl ⟨[p], parcels, rfl, ?_⟩
          have hone : amount [p] units = p.units := List.sum_singleton
          rw [hone, ← min_eq_right hwithin, ← hafter, min_eq_right hle]
        · exact .inr (.inl (hle.antisymm (min_eq_left_iff.mp (hafter.trans (min_eq_left hpast)))))
      · rcases ih hrest h.tail hafter hgainAfter hc with ⟨full, rest, hsplit, hc⟩ | hc
        · refine .inl ⟨p :: full, rest, congrArg (p :: ·) hsplit, ?_⟩
          have htotal : amount (p :: full) units = p.units + amount full units := List.sum_cons
          rw [hc, htotal, add_assoc]
        · exact .inr hc

theorem eq_of_capped {a b : ℚ} (h : min left a = min left b) (hb : b < left) : a = b := by
  rw [min_eq_right hb.le] at h
  rcases min_choice left a with hmin | hmin
  · exact absurd (hmin.symm.trans h) hb.ne'
  · exact hmin.symm.trans h

theorem discountedBreakpoint_place (hleft : holds left = true) {before x c : ℚ}
    (h : RunningFits x left parcels) (hbefore : min left before = min left x)
    (hc : c ∈ discountedBreakpoints D.round left before parcels) (h0 : 0 ≤ c) :
    (∃ full rest, parcels = full ++ rest ∧ c = left - (x + amount full units)) ∨ c = 0 := by
  induction parcels generalizing before x with
  | nil => cases hc
  | cons p parcels ih =>
    have hafter := round_add_capped (D := D) hleft p.units_pos.le
      (fun hle => (h.tail.head hle).1) hbefore
    rcases List.mem_cons.mp hc with rfl | hc
    · rcases le_or_gt left (x + p.units) with hpast | hwithin
      · have hover : left ≤ D.round (before + p.units) :=
          min_eq_left_iff.mp (hafter.trans (min_eq_left hpast))
        have hround := D.round_mono (sub_nonpos.mpr hover)
        rw [D.round_zero] at hround
        exact .inr (hround.antisymm h0)
      · refine .inl ⟨[p], parcels, rfl, ?_⟩
        have hone : amount [p] units = p.units := List.sum_singleton
        rw [eq_of_capped hafter hwithin, D.round_holds (h.tail.head hwithin.le).2, hone]
    · rcases ih h.tail hafter hc with ⟨full, rest, hsplit, hc⟩ | hc
      · refine .inl ⟨p :: full, rest, congrArg (p :: ·) hsplit, ?_⟩
        have htotal : amount (p :: full) units = p.units + amount full units := List.sum_cons
        rw [hc, htotal, add_assoc]
      · exact .inr hc

/-- The least units of a class are what the discounted ones cannot give. -/
theorem least_others (hleft : holds left = true) (hdiscounts : RunningFits 0 left discounts) :
    max (D.round (left - classTotal D.round discounts)) 0 =
      max (left - amount discounts units) 0 := by
  have htotal := classTotal_capped (D := D) hleft hdiscounts
  rcases le_or_gt left (amount discounts units) with hpast | hwithin
  · have hover : left ≤ classTotal D.round discounts :=
      min_eq_left_iff.mp (htotal.trans (min_eq_left hpast))
    have hround := D.round_mono (sub_nonpos.mpr hover)
    rw [D.round_zero] at hround
    rw [max_eq_right (sub_nonpos.mpr hpast), max_eq_right hround]
  · have hfigure := (hdiscounts discounts [] (List.append_nil _).symm (by linarith)).2
    rw [zero_add] at hfigure
    rw [eq_of_capped htotal hwithin, D.round_holds hfigure]

/-- The split taken is one the classes may be split at. -/
theorem cheapest_splitPoint (step : ℚ) (hleft : holds left = true) (h0 : 0 ≤ left)
    (hothers : RunningFits 0 left others) (hdiscounts : RunningFits 0 left discounts)
    (hgains : ∀ p ∈ others, 0 < gainPerUnit D.round price p)
    (henough : left ≤ amount others units + amount discounts units) (cost : ℚ → ℚ) {losing : Prop}
    (hlosing : 0 < loss → losing) :
    let lo := max (D.round (left - classTotal D.round discounts)) 0
    let hi := min left (classTotal D.round others)
    SplitPoint step left losing others discounts
      (cheapest cost lo (([lo, hi] ++ otherBreakpoints D.round price step loss 0 0 others ++
        discountedBreakpoints D.round left 0 discounts).filter fun k => lo ≤ k ∧ k ≤ hi)) := by
  intro lo hi
  have hdiscounts0 : 0 ≤ amount discounts units := amount_nonneg_of fun q _ => q.units_pos.le
  have hothers0 : 0 ≤ amount others units := amount_nonneg_of fun q _ => q.units_pos.le
  have hhi : hi = min left (amount others units) := classTotal_capped hleft hothers
  have hlo : lo = max (left - amount discounts units) 0 := least_others hleft hdiscounts
  have hends : lo ≤ hi := by
    rw [hlo, hhi]
    refine max_le (le_min ?_ ?_) (le_min h0 hothers0)
    · linarith
    · linarith
  generalize hk : cheapest cost lo (([lo, hi] ++ otherBreakpoints D.round price step loss 0 0 others ++
    discountedBreakpoints D.round left 0 discounts).filter fun k => lo ≤ k ∧ k ≤ hi) = k
  have hlast : lo ∈ ([lo, hi] ++ otherBreakpoints D.round price step loss 0 0 others ++
      discountedBreakpoints D.round left 0 discounts).filter fun k => lo ≤ k ∧ k ≤ hi :=
    List.mem_filter.mpr ⟨List.mem_append_left _ (List.mem_append_left _ List.mem_cons_self),
      decide_eq_true ⟨le_rfl, hends⟩⟩
  obtain ⟨hpoint, hbetween⟩ := List.mem_filter.mp (hk ▸ (cheapest_least cost lo hlast).1)
  obtain ⟨hlok, hkhi⟩ := of_decide_eq_true hbetween
  have hk0 : 0 ≤ k := (le_max_right _ _).trans hlok
  rw [hhi] at hkhi
  have hleast : left - amount discounts units ≤ k := (le_max_left _ 0).trans (hlo.symm.trans_le hlok)
  -- none of either class, or all of it, is up to a parcel
  have hnone : k = 0 → ∃ full rest, others = full ++ rest ∧ k = amount full units :=
    fun h => ⟨[], others, rfl, h⟩
  have hall : k = left → ∃ full rest, discounts = full ++ rest ∧ k = left - amount full units :=
    fun h => ⟨[], discounts, rfl, h.trans (sub_zero left).symm⟩
  refine ⟨hk0, hkhi.trans (min_le_left _ _), hkhi.trans (min_le_right _ _), by linarith, ?_⟩
  rw [List.append_assoc, List.mem_append, List.mem_append] at hpoint
  rcases hpoint with hend | hother | hdiscounted
  · rcases List.mem_cons.mp hend with heq | hlast
    · rw [hlo] at heq
      rcases max_choice (left - amount discounts units) 0 with hmax | hmax
      · exact .inr (.inl ⟨discounts, [], (List.append_nil _).symm, heq.trans hmax⟩)
      · exact .inl (hnone (heq.trans hmax))
    · have heq : k = min left (amount others units) := (List.mem_singleton.mp hlast).trans hhi
      rcases min_choice left (amount others units) with hmin | hmin
      · exact .inr (.inl (hall (heq.trans hmin)))
      · exact .inl ⟨others, [], (List.append_nil _).symm, heq.trans hmin⟩
  · rcases otherBreakpoint_place hleft hgains hothers rfl le_rfl hother
      (hkhi.trans (min_le_left _ _)) with ⟨full, rest, hsplit, hc⟩ | hc | ⟨hloss, hon⟩
    · exact .inl ⟨full, rest, hsplit, hc.trans (zero_add _)⟩
    · exact .inr (.inl (hall hc))
    · exact .inr (.inr ⟨hlosing hloss, hon⟩)
  · rcases discountedBreakpoint_place hleft hdiscounts rfl hdiscounted hk0 with
      ⟨full, rest, hsplit, hc⟩ | hc
    · exact .inr (.inl ⟨full, rest, hsplit, by rw [hc, zero_add]⟩)
    · exact .inl (hnone hc)

end Split

section Strategies
variable {D : DecimalRounding} {price : ℚ} {saleDate : NaiveDate} {parcels : List CandidateParcel}
  {sold : Decimal}

theorem minGain_walked (keep : ℚ → ℚ) (price : ℚ) (saleDate : NaiveDate)
    (parcels : List CandidateParcel) (sold : Decimal) :
    Walked (walkOrder keep parcels price saleDate .minGain)
      (minGainPicks keep price parcels sold saleDate) := by
  have hpicks := takeLosses_picks keep price sold.value 0 (losses keep price parcels)
  unfold minGainPicks
  generalize takeLosses keep price sold.value 0 (losses keep price parcels) = walk at hpicks
  obtain ⟨picks, left, loss⟩ := walk
  dsimp only at hpicks ⊢
  subst hpicks
  split
  · have hwalked := (consume_walked keep sold.value (losses keep price parcels)).append
      (Walked.nil (other keep price saleDate parcels ++ discounted keep price saleDate parcels))
    rwa [List.append_nil] at hwalked
  · rw [List.append_assoc]
    exact (consume_walked _ _ _).append ((consume_walked _ _ _).append (consume_walked _ _ _))

theorem walkedPicks_walked (keep : ℚ → ℚ) (parcels : List CandidateParcel) (sold : Decimal)
    (price : ℚ) (saleDate : NaiveDate) (strategy : Strategy) :
    Walked (walkOrder keep parcels price saleDate strategy)
      (walkedPicks keep parcels sold price saleDate strategy) := by
  by_cases hgain : strategy = .minGain
  · subst hgain
    exact minGain_walked keep price saleDate parcels sold
  · rw [walkedPicks, if_neg hgain]
    exact consume_walked keep _ _

/-- The picks of the least gain, where every running total fits. -/
theorem minGain_sumKept (h : MinGainFits D.round parcels sold price saleDate) (hsold : 0 ≤ sold.value)
    (henough : sold.value ≤ amount parcels units) :
    sumKept D.round ((minGainPicks D.round price parcels sold saleDate).map Prod.snd) =
      sold.value := by
  have hfigure : holds sold.value = true := holds_iff.mpr ⟨sold, rfl⟩
  rw [amount_classes D.round price saleDate] at henough
  obtain ⟨hwalk, hsum⟩ := consume_running (D := D) hfigure h.losses hsold
  have hpicks := takeLosses_picks D.round price sold.value 0 (losses D.round price parcels)
  have hleft := takeLosses_left (D := D) price h.losses hsold 0
  have hlosing : 0 < (takeLosses D.round price sold.value 0 (losses D.round price parcels)).2.2 →
      ∃ p ∈ parcels, gainPerUnit D.round price p < 0 := by
    intro hloss
    by_contra hnone
    push Not at hnone
    refine absurd hloss (not_lt.mpr (takeLosses_loss price sold.value (fun p hp => ?_) le_rfl))
    exact hnone p (List.mem_of_mem_filter (StableSort.mem_sortBy.mp hp))
  rw [sub_zero, zero_add] at hsum hleft
  rw [sub_zero] at hwalk
  rw [hwalk] at hpicks
  unfold minGainPicks
  generalize takeLosses D.round price sold.value 0 (losses D.round price parcels) = walk
    at hpicks hleft hlosing
  obtain ⟨picks, left, loss⟩ := walk
  dsimp only at hpicks hleft hlosing ⊢
  subst hpicks hleft
  split
  · -- the losses make up the sale
    rename_i hnone
    exact hsum.trans (le_antisymm (min_le_left _ _) (sub_nonpos.mp hnone))
  · rename_i hsome
    have hlost : amount (losses D.round price parcels) units < sold.value := by
      refine lt_of_not_ge fun hge => hsome ?_
      rw [min_eq_left hge, sub_self]
    have hgains := h.gains hlost
    rw [min_eq_right hlost.le] at hsum hsome ⊢
    generalize amount (losses D.round price parcels) units = lost at hlost hsum hsome hgains henough ⊢
    have hleft0 := sub_nonneg.mpr hlost.le
    have hleftFigure := (hgains.otherRuns.head hleft0).2
    rw [sub_zero] at hleftFigure
    have hothersGain : ∀ p ∈ other D.round price saleDate parcels, 0 < gainPerUnit D.round price p := by
      intro p hp
      have hkept := of_decide_eq_true (List.mem_filter.mp (StableSort.mem_sortBy.mp hp)).2
      exact not_le.mp hkept.1
    have hpoint := cheapest_splitPoint (gridStep (quantityScale parcels sold)) hleftFigure hleft0
      hgains.otherRuns hgains.discountRuns hothersGain (by linarith)
      (splitCost D.round price (other D.round price saleDate parcels)
        (discounted D.round price saleDate parcels) (sold.value - lost) loss) hlosing
    dsimp only at hpoint
    generalize cheapest _ _ _ = k at hpoint ⊢
    obtain ⟨hothersFit, hdiscountsFit⟩ := hgains.split k hpoint
    have hk : lost + k ≤ sold.value := by
      have := hpoint.le_left
      linarith
    obtain ⟨hkFigure, hrestFigure⟩ := hdiscountsFit.head hk
    obtain ⟨hothersWalk, hothersSum⟩ := consume_running (D := D) hkFigure hothersFit
      (le_add_of_nonneg_right hpoint.nonneg)
    obtain ⟨hdiscountsWalk, hdiscountsSum⟩ := consume_running (D := D) hfigure hdiscountsFit hk
    rw [min_eq_left (add_le_add_right hpoint.le_others lost)] at hothersSum
    rw [min_eq_left (by linarith [hpoint.le_discounts])] at hdiscountsSum
    rw [add_sub_cancel_left] at hothersWalk hothersSum
    rw [sub_sub, D.round_holds hrestFigure, hothersWalk, hdiscountsWalk]
    unfold sumKept
    rw [List.map_append, List.map_append, List.foldl_append, List.foldl_append, hsum, hothersSum,
      hdiscountsSum]

theorem walkOrder_perm (keep : ℚ → ℚ) (parcels : List CandidateParcel) (price : ℚ)
    (saleDate : NaiveDate) (strategy : Strategy) :
    (walkOrder keep parcels price saleDate strategy).Perm parcels := by
  cases strategy with
  | minGain => exact classes_perm keep price saleDate parcels
  | fifo | maxDiscount | harvestLosses => exact StableSort.sortBy_perm _ _

theorem quantityScale_le (parcels : List CandidateParcel) (sold : Decimal) :
    quantityScale parcels sold ≤ 28 := by
  refine List.foldlRecOn (motive := fun scale => scale ≤ 28) _ _ sold.scale_le ?_
  intro scale hscale places hplaces
  obtain ⟨p, -, rfl⟩ := List.mem_map.mp hplaces
  exact max_le hscale p.remainingQuantity.scale_le

/-- A figure at the places, up to one that 28 digits hold there, is a figure. -/
theorem figures_of_fits (hfits : sold.value * 10 ^ quantityScale parcels sold < 2 ^ 96) (x : ℚ)
    (hx : Grid.On (gridStep (quantityScale parcels sold)) x) (hx0 : 0 ≤ x) (hle : x ≤ sold.value) :
    holds x = true := by
  obtain ⟨n, rfl⟩ := hx
  have hten : (0 : ℚ) < 10 ^ quantityScale parcels sold := by positivity
  have hvalue : (n : ℚ) * gridStep (quantityScale parcels sold) =
      n / 10 ^ quantityScale parcels sold := mul_one_div _ _
  rw [hvalue] at hx0 hle ⊢
  have hn0 : 0 ≤ n := by
    have hmul := mul_nonneg hx0 hten.le
    rw [div_mul_cancel₀ _ hten.ne'] at hmul
    exact_mod_cast hmul
  have hlt : (n : ℚ) < 2 ^ 96 := ((div_le_iff₀ hten).mp hle).trans_lt hfits
  have hn : n < 2 ^ 96 := by exact_mod_cast hlt
  exact holds_of_scaled rfl (quantityScale_le parcels sold) (by omega)

/-- Where the units sold can be stated at the places in play, every running total fits. -/
theorem minGainFits_of_fits (hfits : sold.value * 10 ^ quantityScale parcels sold < 2 ^ 96)
    (keep : ℚ → ℚ) (price : ℚ) (saleDate : NaiveDate) :
    MinGainFits keep parcels sold price saleDate := by
  have hfigures := figures_of_fits hfits
  have hclasses := classes_perm keep price saleDate parcels
  have hon : ∀ p ∈ losses keep price parcels ++
      (other keep price saleDate parcels ++ discounted keep price saleDate parcels),
      Grid.On (gridStep (quantityScale parcels sold)) p.units :=
    fun p hp => units_on parcels sold p (hclasses.mem_iff.mp hp)
  obtain ⟨hlosses, hgains⟩ := List.forall_mem_append.mp hon
  obtain ⟨hothers, hdiscounts⟩ := List.forall_mem_append.mp hgains
  have hsoldOn := sold_on parcels sold
  have hlossesOn := amount_on_of hlosses
  have hlosses0 : 0 ≤ amount (losses keep price parcels) units :=
    amount_nonneg_of fun q _ => q.units_pos.le
  refine ⟨runningFits_of_grid hfigures (.zero _) le_rfl hsoldOn hlosses, fun hlost => ?_⟩
  have hleftOn := hsoldOn.sub hlossesOn
  have hleft : ∀ x, Grid.On (gridStep (quantityScale parcels sold)) x → 0 ≤ x →
      x ≤ sold.value - amount (losses keep price parcels) units → holds x = true :=
    fun x hx hx0 hle => hfigures x hx hx0 (by linarith)
  refine ⟨runningFits_of_grid hleft (.zero _) le_rfl hleftOn hothers,
    runningFits_of_grid hleft (.zero _) le_rfl hleftOn hdiscounts, fun k hk => ?_⟩
  have hkOn : Grid.On (gridStep (quantityScale parcels sold)) k := by
    rcases hk.place with ⟨full, rest, hsplit, hk⟩ | ⟨full, rest, hsplit, hk⟩ | ⟨-, hk⟩
    · rw [hk]
      exact amount_on_of fun p hp => hothers p (hsplit ▸ List.mem_append_left rest hp)
    · rw [hk]
      exact hleftOn.sub (amount_on_of fun p hp => hdiscounts p (hsplit ▸ List.mem_append_left rest hp))
    · exact hk
  have hsplitOn := hlossesOn.add hkOn
  have hwithin := hk.le_left
  refine ⟨runningFits_of_grid (fun x hx hx0 hle => hfigures x hx hx0 (by linarith)) hlossesOn hlosses0
    hsplitOn hothers, runningFits_of_grid hfigures hsplitOn (add_nonneg hlosses0 hk.nonneg) hsoldOn
    hdiscounts⟩

theorem sumKept_of_takesWhole (hsold : 0 ≤ sold.value) (henough : sold.value ≤ amount parcels units)
    {strategy : Strategy} (h : TakesWhole D parcels sold price saleDate strategy) :
    sumKept D.round ((walkedPicks D.round parcels sold price saleDate strategy).map Prod.snd) =
      sold.value := by
  by_cases hgain : strategy = .minGain
  · subst hgain
    exact minGain_sumKept (h.elim (fun hfits => minGainFits_of_fits hfits _ _ _) id) hsold henough
  · have horder := walkOrder_perm D.round parcels price saleDate strategy
    have hrunning : RunningFits 0 sold.value (walkOrder D.round parcels price saleDate strategy) := by
      rcases h with hfits | hrunning
      · exact runningFits_of_grid (figures_of_fits hfits) (.zero _) le_rfl (sold_on parcels sold)
          fun p hp => units_on parcels sold p (horder.mem_iff.mp hp)
      · rwa [if_neg hgain] at hrunning
    obtain ⟨hwalk, hsum⟩ := consume_running (D := D) (holds_iff.mpr ⟨sold, rfl⟩) hrunning hsold
    rw [sub_zero] at hwalk hsum
    rw [walkedPicks, if_neg hgain, hwalk]
    rw [zero_add, amount_perm horder, min_eq_left henough] at hsum
    exact hsum

end Strategies

/-- Picks that come to the units sold are left as they are. -/
theorem picksAddUp_of_sumKept (D : DecimalRounding) {parcels : List CandidateParcel}
    (hids : (parcels.map tradeId).Nodup) {sold : Decimal} {price : ℚ} {saleDate : NaiveDate}
    {strategy : Strategy}
    (htotal : sumKept D.round
      ((walkedPicks D.round parcels sold price saleDate strategy).map Prod.snd) = sold.value) :
    PicksAddUp D parcels sold price saleDate strategy := by
  have horder := walkOrder_perm D.round parcels price saleDate strategy
  have hwalked := walkedPicks_walked D.round parcels sold price saleDate strategy
  have hpicks : allocateParcels D.round parcels sold price saleDate strategy =
      walkedPicks D.round parcels sold price saleDate strategy :=
    (allocateParcels_eq _ _ _ _ _ _).trans (addingUpTo_of_sumKept D.round_zero htotal)
  refine ⟨?_, ?_, ?_, ?_⟩
  · rw [hpicks]
    exact ((horder.map tradeId).nodup_iff.mpr hids).sublist hwalked.ids
  · rw [hpicks]
    intro pick hpick
    obtain ⟨p, hp, hpick⟩ := hwalked.within pick hpick
    exact ⟨p, horder.mem_iff.mp hp, hpick⟩
  · rw [hpicks, htotal]
  · intro order horder'
    rw [allocateParcels_eq, allocateParcels_eq, walkedPicks_perm hids horder']

/-- The picks add up wherever no units taken are rounded, and wherever what is rounded
still comes to the units sold before the last pick is settled. -/
theorem picksAddUp_of_takesWhole (D : DecimalRounding) (parcels : List CandidateParcel)
    (hids : (parcels.map tradeId).Nodup) (sold : Decimal) (hsold : 0 ≤ sold.value)
    (henough : sold.value ≤ amount parcels units) (price : ℚ) (saleDate : NaiveDate)
    (strategy : Strategy) :
    (TakesWhole D parcels sold price saleDate strategy →
      PicksAddUp D parcels sold price saleDate strategy) ∧
    (sumKept D.round ((walkedPicks D.round parcels sold price saleDate strategy).map Prod.snd) =
        sold.value →
      PicksAddUp D parcels sold price saleDate strategy) :=
  ⟨fun h => picksAddUp_of_sumKept D hids (sumKept_of_takesWhole hsold henough h),
    picksAddUp_of_sumKept D hids⟩

/-! ### Three parcels, consolidated -/

def fiveThirds : Decimal := ⟨16666666666666666666666666667, 28, by decide, by decide⟩

def twentyThirds : Decimal := ⟨66666666666666666666666666667, 28, by decide, by decide⟩

def eightThirds : Decimal := ⟨26666666666666666666666666667, 28, by decide, by decide⟩

/-- 5, 20 and 8 units bought, each at a third after the consolidation. -/
def consolidated : List CandidateParcel :=
  [⟨1, ymd 2021 3 1, fiveThirds, 50, by norm_num [fiveThirds, Decimal.value]⟩,
    ⟨2, ymd 2022 3 1, twentyThirds, 200, by norm_num [twentyThirds, Decimal.value]⟩,
    ⟨3, ymd 2023 3 1, eightThirds, 80, by norm_num [eightThirds, Decimal.value]⟩]

/-- All of them: 33 units before the consolidation. -/
def elevenUnits : Decimal := ⟨11, 0, by decide, Decimal.no_scale_le⟩

def sixteenThirds : Decimal := ⟨53333333333333333333333333333, 28, by decide, by decide⟩

/-- 20 and 16 units bought, each at a third after the consolidation. -/
def twoConsolidated : List CandidateParcel :=
  [⟨1, ymd 2024 1 1, twentyThirds, 0, by norm_num [twentyThirds, Decimal.value]⟩,
    ⟨2, ymd 2024 2 1, sixteenThirds, 0, by norm_num [sixteenThirds, Decimal.value]⟩]

deriving instance DecidableEq for CandidateParcel

theorem twoConsolidated_classes :
    losses halfEvenRounding.round 10 twoConsolidated = [] ∧
      other halfEvenRounding.round 10 (ymd 2024 6 1) twoConsolidated = twoConsolidated ∧
      discounted halfEvenRounding.round 10 (ymd 2024 6 1) twoConsolidated = [] := by
  decide +kernel

theorem twoConsolidated_runs : RunningFits 0 11 twoConsolidated := by
  intro full rest hsplit hle
  rcases full with _ | ⟨p, _ | ⟨q, full⟩⟩
  · decide +kernel
  · injection hsplit with hp
    subst hp
    decide +kernel
  · injection hsplit with hp hrest
    injection hrest with hq hrest
    subst hp hq
    obtain ⟨rfl, rfl⟩ := List.append_eq_nil_iff.mp hrest.symm
    norm_num [amount, units, twentyThirds, sixteenThirds, Decimal.value] at hle

/-- All the gains are without a discount, so there is one split. -/
theorem twoConsolidated_fits :
    MinGainFits halfEvenRounding.round twoConsolidated elevenUnits 10 (ymd 2024 6 1) := by
  have hsold : elevenUnits.value = 11 := by norm_num [elevenUnits, Decimal.value]
  have hnone : amount ([] : List CandidateParcel) units = 0 := rfl
  obtain ⟨hlosses, hother, hdiscounted⟩ := twoConsolidated_classes
  have hempty : ∀ already, holds already = true → holds (11 - already) = true →
      RunningFits already 11 [] := by
    intro already h h' full rest hsplit _
    obtain ⟨rfl, -⟩ := List.append_eq_nil_iff.mp hsplit.symm
    rw [hnone, add_zero]
    exact ⟨h, h'⟩
  constructor
  · rw [hlosses, hsold]
    exact hempty 0 (by decide +kernel) (by decide +kernel)
  · intro _
    rw [hlosses, hother, hdiscounted, hsold, hnone]
    refine ⟨by rw [sub_zero]; exact twoConsolidated_runs, ?_, fun k hk => ?_⟩
    · rw [sub_zero]
      exact hempty 0 (by decide +kernel) (by decide +kernel)
    · have hdiscounts := hk.le_discounts
      have hleft := hk.le_left
      rw [hnone] at hdiscounts
      obtain rfl : k = 11 := by linarith
      rw [zero_add]
      exact ⟨twoConsolidated_runs, hempty 11 (by decide +kernel) (by decide +kernel)⟩

theorem picksAddUp_of_takesWhole_twoConsolidated :
    PicksAddUp halfEvenRounding twoConsolidated elevenUnits 10 (ymd 2024 6 1) .minGain :=
  (picksAddUp_of_takesWhole halfEvenRounding twoConsolidated (by decide) elevenUnits
    (by norm_num [elevenUnits, Decimal.value])
    (by norm_num [twoConsolidated, amount, units, elevenUnits, twentyThirds, sixteenThirds,
      Decimal.value])
    10 (ymd 2024 6 1) .minGain).1 (.inr twoConsolidated_fits)

theorem consolidated_picks :
    allocateParcels halfEvenRounding.round consolidated elevenUnits 40 (ymd 2024 6 3) .fifo =
      [(1, 16666666666666666666666666667 / 10 ^ 28), (2, 66666666666666666666666666667 / 10 ^ 28),
        (3, 26666666666666666666666666673 / 10 ^ 28)] := by
  decide +kernel

/-- Settled, the last pick is of more than its parcel holds. -/
theorem last_pick_past_remainder :
    ¬ ∀ (parcels : List CandidateParcel) (sold : Decimal) (price : ℚ) (saleDate : NaiveDate)
        (strategy : Strategy), (parcels.map tradeId).Nodup → 0 < sold.value →
      sold.value ≤ amount parcels units →
      PicksAddUp halfEvenRounding parcels sold price saleDate strategy := by
  intro h
  have hpicks := h consolidated elevenUnits 40 (ymd 2024 6 3) .fifo (by decide)
    (by norm_num [elevenUnits, Decimal.value])
    (by norm_num [consolidated, fiveThirds, twentyThirds, eightThirds, elevenUnits, amount, units,
      Decimal.value])
  have hwithin := hpicks.within
  rw [consolidated_picks] at hwithin
  obtain ⟨p, hp, hid, -, hle⟩ := hwithin (3, 26666666666666666666666666673 / 10 ^ 28) (by simp)
  simp only [consolidated, List.mem_cons, List.not_mem_nil, or_false] at hp
  rcases hp with rfl | rfl | rfl
  · simp at hid
  · simp at hid
  · norm_num [units, eightThirds, Decimal.value] at hle

end ShareTracker.ParcelOptimiser
