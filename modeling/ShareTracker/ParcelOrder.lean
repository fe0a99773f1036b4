import ShareTracker.RoundingRefusals
import ShareTracker.Lib.StableSort

/-!
The order a holding's parcels are supplied in. Every sort of the distribution
ends on the trade id, so the counts, the carrier of the fraction and the refusal
are the parcels' own; only the name in a refusal is read off the order.
-/
namespace ShareTracker

/-! ### Slots in another order -/

section Slots
variable {n : ℕ} {slots slots' : Fin n → Slot} {σ : Equiv.Perm (Fin n)} {step total : ℚ}

/-- The slots in another order, their remainders perhaps over another divisor. -/
structure Relabelled (σ : Equiv.Perm (Fin n)) (slots slots' : Fin n → Slot) : Prop where
  parcel : ∀ i, (slots' i).parcel = (slots (σ i)).parcel
  floor : ∀ i, (slots' i).floor = (slots (σ i)).floor
  rem_le : ∀ i j, (slots' i).rem ≤ (slots' j).rem ↔ (slots (σ i)).rem ≤ (slots (σ j)).rem
  rem_zero : ∀ i, (slots' i).rem = 0 ↔ (slots (σ i)).rem = 0
  ids : Function.Injective fun i => (slots i).parcel.tradeId

/-- Every index once, in any order. -/
theorem map_finRange_perm (σ : Equiv.Perm (Fin n)) :
    ((List.finRange n).map σ).Perm (List.finRange n) := by
  refine (List.perm_ext_iff_of_nodup ((List.nodup_finRange n).map σ.injective)
    (List.nodup_finRange n)).mpr fun i => ?_
  simp [σ.surjective i]

theorem sumOver_relabel (σ : Equiv.Perm (Fin n)) (f : Fin n → ℚ) :
    sumOver (fun i => f (σ i)) = sumOver f := by
  have hperm := (map_finRange_perm σ).map f
  rw [List.map_map] at hperm
  exact hperm.sum_eq

theorem keptSum_comp (σ : Equiv.Perm (Fin n)) (kept : Fin n → Option ℚ) :
    keptSum (kept ∘ σ) = keptSum kept :=
  sumOver_relabel σ fun i => (kept i).getD 0

theorem rem_lt (hrem : ∀ i j, (slots' i).rem ≤ (slots' j).rem ↔ (slots (σ i)).rem ≤ (slots (σ j)).rem)
    (i j : Fin n) : (slots' i).rem < (slots' j).rem ↔ (slots (σ i)).rem < (slots (σ j)).rem := by
  rw [← not_le, ← not_le, hrem]

theorem rem_eq (hrem : ∀ i j, (slots' i).rem ≤ (slots' j).rem ↔ (slots (σ i)).rem ≤ (slots (σ j)).rem)
    (i j : Fin n) : (slots' i).rem = (slots' j).rem ↔ (slots (σ i)).rem = (slots (σ j)).rem := by
  rw [le_antisymm_iff, le_antisymm_iff, hrem, hrem]

namespace Relabelled
variable (R : Relabelled σ slots slots')
include R

theorem emptied (i : Fin n) : (slots' i).emptied = (slots (σ i)).emptied := by
  rw [Slot.emptied, R.floor, R.parcel, Slot.emptied]

theorem key_le (i j : Fin n) :
    (slots' i).key ≤ (slots' j).key ↔ (slots (σ i)).key ≤ (slots (σ j)).key := by
  simp only [Slot.key, Prod.Lex.toLex_le_toLex, R.emptied, R.parcel, OrderDual.toDual_lt_toDual,
    OrderDual.toDual_inj, rem_lt R.rem_le, rem_eq R.rem_le]

theorem releaseKey (i : Fin n) : (slots' i).releaseKey = (slots (σ i)).releaseKey := by
  simp only [Slot.releaseKey, Slot.changed, R.parcel]

theorem key_injective : Function.Injective fun i => (slots i).key := by
  intro i j hkey
  have hcomponents := congrArg ofLex hkey
  simp only [Slot.key, ofLex_toLex, Prod.mk.injEq, toLex_inj] at hcomponents
  exact R.ids hcomponents.2.2.2

theorem releaseKey_injective : Function.Injective fun i => (slots i).releaseKey := by
  intro i j hkey
  have hcomponents := congrArg ofLex hkey
  simp only [Slot.releaseKey, ofLex_toLex, Prod.mk.injEq, toLex_inj, OrderDual.toDual_inj]
    at hcomponents
  exact R.ids hcomponents.2.2

/-- The order of the extra steps is one order of the parcels. -/
theorem order_map : (order slots').map σ = order slots := by
  have hmap : (order slots').map σ =
      StableSort.sortBy (fun i => (slots i).key) ((List.finRange n).map σ) :=
    List.map_insertionSort _ _ _ _ fun i _ j _ => R.key_le i j
  rw [hmap]
  exact StableSort.sortBy_eq_of_perm (map_finRange_perm σ) fun i _ j _ h => R.key_injective h

theorem keepable (i : Fin n) :
    keepablePriors slots' step i = keepablePriors slots step (σ i) := by
  simp only [keepablePriors, Slot.keepable, R.parcel, R.floor, R.rem_zero]

theorem releaseOrder_map : (releaseOrder slots' step).map σ = releaseOrder slots step := by
  have hfilter : (((List.finRange n).filter
      fun i => (keepablePriors slots' step i).isSome).map σ).Perm
        ((List.finRange n).filter fun i => (keepablePriors slots step i).isSome) := by
    have hperm := (map_finRange_perm σ).filter fun i => (keepablePriors slots step i).isSome
    rw [List.filter_map] at hperm
    simpa only [Function.comp_def, ← R.keepable] using hperm
  have hmap : (releaseOrder slots' step).map σ = StableSort.sortBy (fun i => (slots i).releaseKey)
      (((List.finRange n).filter fun i => (keepablePriors slots' step i).isSome).map σ) :=
    StableSort.map_sortBy σ (fun i => (R.releaseKey i).symm) _
  rw [hmap]
  exact StableSort.sortBy_eq_of_perm hfilter fun i _ j _ h => R.releaseKey_injective h

/-! What the free parcels can absorb is a matter of sums. -/

section Sums
variable (kept : Fin n → Option ℚ)

theorem lower_comp : lower slots' (kept ∘ σ) = lower slots kept := by
  rw [lower, lower,
    ← sumOver_relabel σ fun i => if (kept i).isNone then (slots i).floor else 0]
  simp only [Function.comp_apply, R.floor]

theorem fits_comp : fits slots' step total (kept ∘ σ) = fits slots step total kept := by
  have hmust : must slots' step (kept ∘ σ) = must slots step kept := by
    rw [must, must, ← sumOver_relabel σ fun i =>
      if (kept i).isNone && (slots i).emptied then step else 0]
    simp only [Function.comp_apply, R.emptied]
  have hmay : may slots' step (kept ∘ σ) = may slots step kept := by
    rw [may, may, ← sumOver_relabel σ fun i =>
      if (kept i).isNone && (slots i).rem ≠ 0 then step else 0]
    simp only [Function.comp_apply, ne_eq, R.rem_zero]
  rw [fits, fits, keptSum_comp, R.lower_comp, hmust, hmay]

end Sums

/-- The release loop releases the same parcels. -/
theorem releaseUntilFits_comp (kept : Fin n → Option ℚ) (release : List (Fin n)) :
    releaseUntilFits slots' step total (kept ∘ σ) release =
      releaseUntilFits slots step total kept (release.map σ) ∘ σ := by
  induction release generalizing kept with
  | nil => rfl
  | cons i release ih =>
    have hupdate : Function.update (kept ∘ σ) i none = Function.update kept (σ i) none ∘ σ := by
      funext j
      simp [Function.update_apply]
    rw [releaseUntilFits, List.map_cons, releaseUntilFits, R.fits_comp]
    split
    · rfl
    · rw [hupdate, ih]

theorem gridCount_comp (kept : Fin n → Option ℚ) (extra : ℕ) (i : Fin n) :
    gridCount slots' step (kept ∘ σ) extra i = gridCount slots step kept extra (σ i) := by
  have hbumped : (bumped slots' (kept ∘ σ) extra).map σ = bumped slots kept extra := by
    rw [bumped, bumped, List.map_take, ← R.order_map, List.filter_map]
    rfl
  have hmem : i ∈ bumped slots' (kept ∘ σ) extra ↔ σ i ∈ bumped slots kept extra := by
    rw [← hbumped, List.mem_map_of_injective σ.injective]
  simp only [gridCount, hmem, R.floor, Function.comp_apply]

theorem carrier_map (inLieu : Option ℚ) (count : Fin n → ℚ) :
    (carrier slots' inLieu (count ∘ σ)).map σ = carrier slots inLieu count := by
  unfold carrier
  cases inLieu with
  | none => rfl
  | some fraction =>
    by_cases hpos : fraction > 0
    · simp only [hpos, if_true]
      rw [← R.order_map, List.find?_map]
      simp only [Function.comp_def, R.floor]
    · simp only [hpos, if_false, Option.map_none]

theorem slotCount_comp (inLieu : Option ℚ) (count : Fin n → ℚ) (i : Fin n) :
    slotCount slots' inLieu (count ∘ σ) (carrier slots' inLieu (count ∘ σ)) i =
      slotCount slots inLieu count (carrier slots inLieu count) (σ i) := by
  have hcarrier : carrier slots' inLieu (count ∘ σ) = some i ↔
      carrier slots inLieu count = some (σ i) := by
    rw [← R.carrier_map inLieu count, Option.map_eq_some_iff]
    simp
  simp only [slotCount, hcarrier, R.parcel, Function.comp_apply]

/-- Both orders distribute one function from parcel to count. -/
theorem distributeSlots_relabelled (total : ℚ) (inLieu : Option ℚ) :
    ∃ outcome : Except RoundingError (Fin n → ParcelCount),
      (∀ count, outcome = .ok count → ∀ i, (count i).tradeId = (slots i).parcel.tradeId) ∧
      (∀ e, outcome = .error e → e = .unrepresentable) ∧
      distributeSlots slots step total inLieu =
        outcome.bind (fun count => refuseEmptied ((List.finRange n).map count)) ∧
      distributeSlots slots' step total inLieu =
        outcome.bind fun count => refuseEmptied ((List.finRange n).map (count ∘ σ)) := by
  have hkept : releaseUntilFits slots' step total (keepablePriors slots' step)
      (releaseOrder slots' step) =
        releaseUntilFits slots step total (keepablePriors slots step)
          (releaseOrder slots step) ∘ σ := by
    have hpriors : keepablePriors slots' step = keepablePriors slots step ∘ σ :=
      funext fun i => R.keepable i
    rw [hpriors, R.releaseUntilFits_comp, R.releaseOrder_map]
  unfold distributeSlots
  simp only [hkept, keptSum_comp, R.lower_comp]
  generalize releaseUntilFits slots step total (keepablePriors slots step)
    (releaseOrder slots step) = kept
  cases toUsize ((total - keptSum kept - lower slots kept) / step) with
  | none => exact ⟨.error .unrepresentable, by simp, by simp, rfl, rfl⟩
  | some extra =>
    refine ⟨.ok (slotCount slots inLieu (gridCount slots step kept extra)
      (carrier slots inLieu (gridCount slots step kept extra))),
      ?_, by simp, rfl, ?_⟩
    · intro count hcount i
      rw [← Except.ok.inj hcount]
      rfl
    · have hgrid : gridCount slots' step (kept ∘ σ) extra =
          gridCount slots step kept extra ∘ σ :=
        funext fun i => R.gridCount_comp kept extra i
      refine congrArg refuseEmptied (List.map_congr_left fun i _ => ?_)
      rw [hgrid, R.slotCount_comp]
      rfl

end Relabelled

/-- Slots of the same shares, each over its own divisor. -/
theorem Relabelled.of_exact {divisor divisor' : ℚ} {share : Fin n → ℚ}
    (hd : 0 < divisor) (hd' : 0 < divisor') (hx : ∀ i, (slots i).Exact step divisor (share i))
    (hx' : ∀ i, (slots' i).Exact step divisor' (share (σ i)))
    (hparcel : ∀ i, (slots' i).parcel = (slots (σ i)).parcel)
    (hids : Function.Injective fun i => (slots i).parcel.tradeId) :
    Relabelled σ slots slots' where
  parcel := hparcel
  floor i := (hx' i).floor_eq.trans (hx (σ i)).floor_eq.symm
  rem_le i j := by
    rw [(hx' i).rem_eq, (hx' j).rem_eq, (hx (σ i)).rem_eq, (hx (σ j)).rem_eq, (hx' i).floor_eq,
      (hx' j).floor_eq, (hx (σ i)).floor_eq, (hx (σ j)).floor_eq, mul_le_mul_iff_left₀ hd',
      mul_le_mul_iff_left₀ hd]
  rem_zero i := by
    rw [(hx' i).rem_eq_zero hd', (hx (σ i)).rem_eq_zero hd, (hx' i).floor_eq,
      (hx (σ i)).floor_eq]
  ids := hids

end Slots

/-! ### Holdings in another order -/

section Holding
variable {n : ℕ} {p : Fin n → ParcelBefore} {σ : Equiv.Perm (Fin n)} {scale : ℕ} {ratio : Ratio}
  {rule : Rounding} {unitsReceived : Option ℚ}

/-- One function from parcel to count behind two roundings: each lists it in
its own order and refuses by the list. -/
structure SameCounts (σ : Equiv.Perm (Fin n)) (p : Fin n → ParcelBefore)
    (rounded rounded' : Except RoundingError (List ParcelCount))
    (outcome : Except RoundingError (Fin n → ParcelCount)) : Prop where
  ids : ∀ count, outcome = .ok count → ∀ i, (count i).tradeId = (p i).tradeId
  refused : ∀ e, outcome = .error e → ∀ parcel, e ≠ .parcelEmptied parcel
  listed : rounded = outcome.bind fun count => refuseEmptied (List.ofFn count)
  permuted : rounded' = outcome.bind fun count => refuseEmptied (List.ofFn (count ∘ σ))

theorem distribute_relabelled {f f' : ParcelBefore → ℚ} {multiplier multiplier' divisor divisor' : ℚ}
    {total : ℚ} (hids : Function.Injective fun i => (p i).tradeId)
    (B : Bracketed (List.ofFn p) f multiplier divisor total scale)
    (B' : Bracketed (List.ofFn (p ∘ σ)) f' multiplier' divisor' total scale)
    (hshare : shareBy f' multiplier' divisor' = shareBy f multiplier divisor) (inLieu : Option ℚ) :
    ∃ outcome, SameCounts σ p
      (distribute (List.ofFn p) ((List.ofFn p).map f) total multiplier divisor scale inLieu)
      (distribute (List.ofFn (p ∘ σ)) ((List.ofFn (p ∘ σ)).map f') total multiplier' divisor' scale
        inLieu) outcome := by
  have S := B.sound
  have S' := B'.sound
  have hget : ∀ (q : Fin n → ParcelBefore) (i : Fin n),
      (List.ofFn q).get (Fin.cast List.length_ofFn.symm i) = q i := by
    intro q i
    simp
  have hx := fun i : Fin n => S.exact (Fin.cast List.length_ofFn.symm i)
  have hx' := fun i : Fin n => S'.exact (Fin.cast List.length_ofFn.symm i)
  simp only [hget] at hx hx'
  rw [hshare] at hx'
  have R := Relabelled.of_exact S.divisor_pos S'.divisor_pos hx hx'
    (fun i => (hget _ i).trans (hget p (σ i)).symm) fun i j h => hids (by simpa [slotsOf] using h)
  obtain ⟨outcome, hcounts, hrefused, he, he'⟩ := R.distributeSlots_relabelled total inLieu
  refine ⟨outcome, fun count h i => (hcounts count h i).trans (congrArg (·.tradeId) (hget p i)),
    fun e h parcel => ?_, ?_, ?_⟩
  · rw [hrefused e h]
    exact RoundingError.noConfusion
  · rw [distribute, ← distributeSlots_cast List.length_ofFn, he]
    simp only [List.ofFn_eq_map]
  · rw [distribute, ← distributeSlots_cast List.length_ofFn, he']
    simp only [List.ofFn_eq_map]

theorem heldExactly_permuted (p : Fin n → ParcelBefore) (σ : Equiv.Perm (Fin n)) :
    heldExactly (List.ofFn (p ∘ σ)) = heldExactly (List.ofFn p) := by
  have hsum := sumOver_relabel σ fun i => (p i).exactCount
  simp only [heldExactly, List.ofFn_eq_map, List.map_map]
  exact hsum

theorem holdingShare_permuted (ratio : Ratio) (unitsReceived : Option ℚ) (p : Fin n → ParcelBefore)
    (σ : Equiv.Perm (Fin n)) :
    holdingShare (List.ofFn (p ∘ σ)) ratio unitsReceived =
      holdingShare (List.ofFn p) ratio unitsReceived := by
  funext q
  cases unitsReceived with
  | none => rfl
  | some received => simp only [holdingShare, proRata, heldExactly_permuted]

theorem roundHolding_relabelled (hids : Function.Injective fun i => (p i).tradeId)
    (σ : Equiv.Perm (Fin n)) (ratio : Ratio) (scale : ℕ) (rule : Rounding)
    (unitsReceived : Option ℚ) :
    ∃ outcome, SameCounts σ p (roundHolding (List.ofFn p) ratio scale rule unitsReceived)
      (roundHolding (List.ofFn (p ∘ σ)) ratio scale rule unitsReceived) outcome := by
  by_cases hn : n = 0
  · subst hn
    exact ⟨.ok fun i => i.elim0, ⟨fun _ _ i => i.elim0, fun e h => (by cases h), rfl, rfl⟩⟩
  have hne : ∀ q : Fin n → ParcelBefore, List.ofFn q ≠ [] := by
    intro q
    rw [Ne, List.ofFn_eq_nil_iff]
    exact hn
  obtain ⟨den, hden, -, he⟩ := roundHolding_eq (hne p) ratio scale rule unitsReceived
  obtain ⟨den', hden', -, he'⟩ := roundHolding_eq (hne (p ∘ σ)) ratio scale rule unitsReceived
  rw [heldExactly_permuted] at he'
  rw [he, he']
  cases unitsReceived with
  | none =>
    have B : Bracketed (List.ofFn p) (fun p => p.exactCount * den) ratio.new (ratio.old * den)
      (rule.onto (gridStep scale) (ratio.exactly (heldExactly (List.ofFn p)))) scale :=
      bracketed_ratio hden
    have B' : Bracketed (List.ofFn (p ∘ σ)) (fun p => p.exactCount * den') ratio.new
      (ratio.old * den') (rule.onto (gridStep scale)
        (ratio.exactly (heldExactly (List.ofFn (p ∘ σ))))) scale := bracketed_ratio hden'
    rw [heldExactly_permuted] at B'
    exact distribute_relabelled hids B B'
      (by rw [shareBy_ratio (List.ofFn p) hden, shareBy_ratio (List.ofFn p) hden']) _
  | some received =>
    cases hc : checkedReceived received scale with
    | error e =>
      refine ⟨.error e, ⟨fun _ h => (by cases h), fun e' h parcel hparcel => ?_, ?_, ?_⟩⟩
      · obtain rfl := Except.error.inj h
        rcases checkedReceived_error hc with ⟨-, rfl⟩ | ⟨-, rfl⟩ <;> cases hparcel
      · simp only [hc]
        rfl
      · simp only [hc]
        rfl
    | ok total =>
      obtain ⟨rfl, hpos, hon⟩ := checkedReceived_ok hc
      have B := bracketed_received hden (hne p) hpos hon
      have B' := bracketed_received hden' (hne (p ∘ σ)) hpos hon
      have hshare : shareBy (fun p => p.exactCount * den') total
          (heldExactly (List.ofFn (p ∘ σ)) * den') =
            shareBy (fun p => p.exactCount * den) total (heldExactly (List.ofFn p) * den) := by
        rw [shareBy_received hden (hne p), shareBy_received hden' (hne (p ∘ σ))]
        exact holdingShare_permuted ratio (some total) p σ
      simp only [hc]
      rw [heldExactly_permuted] at B' hshare
      exact distribute_relabelled hids B B' hshare _

/-- The parcel a refusal names: the first listed that is left with nothing. -/
def FirstEmptied (count : Fin n → ParcelCount) (parcel : TradeId) : Prop :=
  ∃ i, (count i).tradeId = parcel ∧ (count i).after = 0 ∧ ∀ j < i, (count j).after ≠ 0

theorem refuseEmptied_names {count : Fin n → ParcelCount} {e : RoundingError}
    (h : refuseEmptied (List.ofFn count) = .error e) :
    ∃ parcel, e = .parcelEmptied parcel ∧ FirstEmptied count parcel := by
  unfold refuseEmptied at h
  split at h
  · rename_i emptied hfind
    obtain ⟨hzero, before, after, hsplit, hbefore⟩ := List.find?_eq_some_iff_append.mp hfind
    have hlen : before.length < n := by
      have hlength := congrArg List.length hsplit
      simp only [List.length_ofFn, List.length_append, List.length_cons] at hlength
      omega
    have hat : ∀ (k : ℕ) (hk : k < n), (List.ofFn count)[k]? = some (count ⟨k, hk⟩) := by
      intro k hk
      simp [hk]
    have hemptied : count ⟨before.length, hlen⟩ = emptied := by
      have hsome := hat before.length hlen
      rw [hsplit, List.getElem?_append_right le_rfl, Nat.sub_self, List.getElem?_cons_zero] at hsome
      exact (Option.some.inj hsome).symm
    refine ⟨emptied.tradeId, (Except.error.inj h).symm, ⟨before.length, hlen⟩, by rw [hemptied],
      by rw [hemptied]; simpa using hzero, fun j hj => ?_⟩
    have hj' : j.val < before.length := hj
    have hsome := hat j.val j.isLt
    rw [hsplit, List.getElem?_append_left hj', List.getElem?_eq_getElem hj'] at hsome
    have hmem : count j ∈ before := by
      rw [← Option.some.inj hsome]
      exact List.getElem_mem hj'
    simpa using hbefore _ hmem
  · cases h

theorem refuseEmptied_permuted (count : Fin n → ParcelCount) (σ : Equiv.Perm (Fin n)) :
    (∃ out, refuseEmptied (List.ofFn count) = .ok out) ↔
      ∀ i, (count (σ i)).after ≠ 0 := by
  constructor
  · rintro ⟨out, hok⟩ i
    refine (refuseEmptied_ok hok).2 _ ?_
    exact List.mem_ofFn.mpr ⟨σ i, rfl⟩
  · intro hnone
    cases hrefuse : refuseEmptied (List.ofFn count) with
    | ok out => exact ⟨out, rfl⟩
    | error e =>
      obtain ⟨c, hc, hzero, -⟩ := refuseEmptied_error hrefuse
      obtain ⟨i, rfl⟩ := List.mem_ofFn.mp hc
      refine absurd hzero ?_
      have hi := hnone (σ.symm i)
      rwa [Equiv.apply_symm_apply] at hi

/-- Parcels in another order get the same counts, the fraction on the same one,
and are refused alike; a refusal for an emptied parcel names the first one in
the order supplied. -/
theorem roundHolding_permuted (hids : Function.Injective fun i => (p i).tradeId)
    (σ : Equiv.Perm (Fin n)) (ratio : Ratio) (scale : ℕ) (rule : Rounding)
    (unitsReceived : Option ℚ) :
    (∀ counts, roundHolding (List.ofFn p) ratio scale rule unitsReceived = .ok counts →
      ∃ count : Fin n → ParcelCount, counts = List.ofFn count ∧
        roundHolding (List.ofFn (p ∘ σ)) ratio scale rule unitsReceived =
          .ok (List.ofFn (count ∘ σ))) ∧
    ∀ e, roundHolding (List.ofFn p) ratio scale rule unitsReceived = .error e →
      (roundHolding (List.ofFn (p ∘ σ)) ratio scale rule unitsReceived = .error e ∧
        ∀ parcel, e ≠ .parcelEmptied parcel) ∨
      ∃ (count : Fin n → ParcelCount) (parcel parcel' : TradeId),
        (∀ i, (count i).tradeId = (p i).tradeId) ∧
        e = .parcelEmptied parcel ∧ FirstEmptied count parcel ∧
        roundHolding (List.ofFn (p ∘ σ)) ratio scale rule unitsReceived =
          .error (.parcelEmptied parcel') ∧
        FirstEmptied (count ∘ σ) parcel' := by
  obtain ⟨outcome, H⟩ := roundHolding_relabelled hids σ ratio scale rule unitsReceived
  rw [H.listed, H.permuted]
  cases outcome with
  | error e =>
    refine ⟨fun counts h => (by cases h), fun e' h => .inl ⟨h, H.refused e' ?_⟩⟩
    exact congrArg Except.error (Except.error.inj h)
  | ok count =>
    have hiff := refuseEmptied_permuted count σ
    have hiff' := refuseEmptied_permuted (count ∘ σ) (Equiv.refl _)
    refine ⟨fun counts h => ?_, fun e h => .inr ?_⟩
    · obtain ⟨out, hout⟩ := hiff'.mpr (hiff.mp ⟨counts, h⟩)
      exact ⟨count, (refuseEmptied_ok h).1, hout.trans (congrArg Except.ok (refuseEmptied_ok hout).1)⟩
    · obtain ⟨parcel, rfl, hfirst⟩ := refuseEmptied_names h
      cases hrefuse : refuseEmptied (List.ofFn (count ∘ σ)) with
      | error e' =>
        obtain ⟨parcel', rfl, hfirst'⟩ := refuseEmptied_names hrefuse
        exact ⟨count, parcel, parcel', H.ids count rfl, rfl, hfirst, hrefuse, hfirst'⟩
      | ok counts =>
        obtain ⟨out, hout⟩ := hiff.mpr (hiff'.mp ⟨counts, hrefuse⟩)
        have hcontra := hout.symm.trans h
        cases hcontra

end Holding

/-- Two parcels of fifty units. -/
def twoFifties : Fin 2 → ParcelBefore := ![fiftyUnits 1 none, fiftyUnits 2 none]

theorem twoFifties_ids : Function.Injective fun i => (twoFifties i).tradeId := by decide

/-- Two parcels both rounded to nothing: each order names its own first. -/
theorem refusal_names_the_first_listed :
    ¬ ∀ (p : Fin 2 → ParcelBefore) (σ : Equiv.Perm (Fin 2)),
      (Function.Injective fun i => (p i).tradeId) →
      ∀ e, roundHolding (List.ofFn p) oneForThousand 0 .down none = .error e →
        roundHolding (List.ofFn (p ∘ σ)) oneForThousand 0 .down none = .error e := by
  intro h
  have hlisted : roundHolding (List.ofFn twoFifties) oneForThousand 0 .down none =
      .error (.parcelEmptied 1) := by decide +kernel
  have hswapped : roundHolding (List.ofFn (twoFifties ∘ Equiv.swap 0 1)) oneForThousand 0 .down
      none = .error (.parcelEmptied 2) := by decide +kernel
  have hsame := h twoFifties (Equiv.swap 0 1) twoFifties_ids _ hlisted
  rw [hswapped] at hsame
  cases hsame

/-- Swapped, the two parcels keep their own counts. -/
theorem roundHolding_permuted_fifties : ∃ count : Fin 2 → ParcelCount,
    [(⟨1, 50, 17, 0⟩ : ParcelCount), ⟨2, 50, 16, 0⟩] = List.ofFn count ∧
      roundHolding (List.ofFn (twoFifties ∘ Equiv.swap 0 1)) oneForThree 0 .down none =
        .ok (List.ofFn (count ∘ Equiv.swap 0 1)) :=
  (roundHolding_permuted twoFifties_ids (Equiv.swap 0 1) oneForThree 0 .down none).1 _
    (by decide +kernel)

end ShareTracker
