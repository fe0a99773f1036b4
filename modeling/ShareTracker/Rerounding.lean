import ShareTracker.RegistryRounding

/-!
A holding rounded again, its stored counts as the priors, is rounded to the
same counts.
-/
namespace ShareTracker

/-- The prior a stored count makes. -/
def ParcelCount.prior (c : ParcelCount) : Prior := ⟨c.before, c.after - c.inLieu⟩

def ParcelBefore.withPrior (p : ParcelBefore) (prior : Option Prior) : ParcelBefore :=
  { p with prior := prior }

/-! ### Slots -/

section Slots
variable {n : ℕ} {slots slots' : Fin n → Slot} {step total divisor : ℚ} {share : Fin n → ℚ}

/-- Slots that differ in their priors alone. -/
structure SameShares (slots slots' : Fin n → Slot) : Prop where
  floor : ∀ i, (slots' i).floor = (slots i).floor
  rem : ∀ i, (slots' i).rem = (slots i).rem
  tradeId : ∀ i, (slots' i).parcel.tradeId = (slots i).parcel.tradeId
  units : ∀ i, (slots' i).parcel.units = (slots i).parcel.units
  acquired : ∀ i, (slots' i).parcel.acquired = (slots i).parcel.acquired

namespace SameShares
variable (E : SameShares slots slots')
include E

theorem emptied (i : Fin n) : (slots' i).emptied = (slots i).emptied := by
  rw [Slot.emptied, E.floor, E.units, Slot.emptied]

theorem order : order slots' = order slots := by
  have hkey : ∀ i, (slots' i).key = (slots i).key := by
    intro i
    rw [Slot.key, E.emptied, E.rem, E.acquired, E.tradeId, Slot.key]
  unfold ShareTracker.order
  simp only [hkey]

theorem carrier (inLieu : Option ℚ) (count : Fin n → ℚ) :
    carrier slots' inLieu count = carrier slots inLieu count := by
  unfold ShareTracker.carrier
  simp only [E.order, E.floor]

theorem slotCount (inLieu : Option ℚ) (count : Fin n → ℚ) (carrying : Option (Fin n)) :
    slotCount slots' inLieu count carrying = slotCount slots inLieu count carrying := by
  funext i
  unfold ShareTracker.slotCount
  rw [E.tradeId, E.units]

theorem sound (S : Sound slots step total divisor share) :
    Sound slots' step total divisor share where
  step_pos := S.step_pos
  divisor_pos := S.divisor_pos
  exact i := by
    have hx := S.exact i
    exact ⟨hx.share_pos, (E.floor i).trans hx.floor_eq, by rw [E.rem, E.floor, hx.rem_eq]⟩
  total_on := S.total_on
  floors_le := by
    simp only [E.floor]
    exact S.floors_le
  le_ceils := by
    simp only [E.floor, E.rem]
    exact S.le_ceils

theorem gridCount_free {extra extra' : ℕ} (hstep : 0 < step)
    (hb : Band slots step total (fun _ => none) extra)
    (hb' : Band slots' step total (fun _ => none) extra') :
    gridCount slots' step (fun _ => none) extra' = gridCount slots step (fun _ => none) extra := by
  have hlower : lower slots' (fun _ => none) = lower slots fun _ => none := by
    unfold lower
    simp only [E.floor]
  have hsame : (extra' : ℚ) * step = extra * step := by
    have h := hb.rest_eq
    have h' := hb'.rest_eq
    rw [hlower] at h'
    linarith
  have hextra : extra' = extra := by exact_mod_cast mul_right_cancel₀ hstep.ne' hsame
  funext i
  unfold gridCount bumped
  rw [E.order, E.floor, hextra]

end SameShares

/-- With nothing kept, kept counts that can be made up can be made up freely. -/
theorem Sound.absorbs_free (S : Sound slots step total divisor share) {kept : Fin n → Option ℚ}
    (hk : Keeps slots step kept)
    (h : Apportion.Absorbs (List.finRange n) step total share kept) :
    Apportion.Absorbs (List.finRange n) step total share fun _ => none := by
  obtain ⟨count, happ⟩ := h
  refine ⟨count, ⟨fun i _ c hc => (Option.some_ne_none c hc.symm).elim, fun i hi _ => ?_,
    happ.sum_eq⟩⟩
  cases hc : kept i with
  | none => exact happ.permitted i hi hc
  | some c =>
    have hkeep := hk i c hc
    obtain ⟨hon, hpos, hnear⟩ := (S.exact i).keepable_spec S.step_pos S.divisor_pos hkeep
    rw [happ.fixed_eq i hi c hc]
    rw [(S.exact i).rem_ne_zero S.step_pos S.divisor_pos, (S.exact i).floor_eq] at hnear
    exact ⟨hon, hpos, ((Apportion.near_iff S.step_pos).mpr hnear).2⟩

/-- The counts of a distribution, as priors, are distributed again. -/
theorem Sound.distributeSlots_again (S : Sound slots step total divisor share)
    (E : SameShares slots slots') {inLieu : Option ℚ} {counts : List ParcelCount}
    (h : distributeSlots slots step total inLieu = .ok counts)
    (hprior : ∀ i : Fin n, (slots' i).parcel.prior = (counts[i.val]?).map ParcelCount.prior) :
    distributeSlots slots' step total inLieu = .ok counts := by
  have S' := E.sound S
  obtain ⟨m, -, extra, -, hstop, hb, he⟩ := S.outcome inLieu
  obtain ⟨m', -, extra', hbefore', hstop', hb', he'⟩ := S'.outcome inLieu
  have hk := retaining_keeps slots step ((releaseOrder slots step).drop m)
  have hk' := retaining_keeps slots' step ((releaseOrder slots' step).drop m')
  rw [he] at h
  obtain ⟨hcounts, -⟩ := refuseEmptied_ok h
  rw [he', ← h, E.carrier, E.slotCount]
  generalize hkept : retaining slots step ((releaseOrder slots step).drop m) = kept at *
  -- the priors are the counts on the grid
  have hpriors : ∀ i : Fin n, (slots' i).parcel.prior.map (·.onGrid) =
      some (gridCount slots step kept extra i) := by
    intro i
    rw [hprior i, hcounts]
    simp [ParcelCount.prior, slotCount_grid]
  suffices hgrid : gridCount slots' step
      (retaining slots' step ((releaseOrder slots' step).drop m')) extra' =
        gridCount slots step kept extra by rw [hgrid]
  by_cases hpos : ∀ i, 0 < gridCount slots step kept extra i
  · -- every prior is kept, and together they are the total
    have hkeepable : ∀ i, keepablePriors slots' step i = some (gridCount slots step kept extra i) := by
      intro i
      have hnear := gridCount_near S.step_pos S.divisor_pos S.exact hk hb i
      rw [(S.exact i).rem_ne_zero S.step_pos S.divisor_pos, (S.exact i).floor_eq] at hnear
      obtain ⟨hon, habs⟩ := (Apportion.near_iff S.step_pos).mpr hnear
      have hpermitted := ((S'.exact i).permitted_iff S.step_pos S.divisor_pos).mpr
        ⟨hon, hpos i, habs⟩
      rw [keepablePriors, Slot.keepable, hpriors i]
      exact Option.filter_eq_some_iff.mpr ⟨rfl, decide_eq_true hpermitted⟩
    have hall : retaining slots' step ((releaseOrder slots' step).drop 0) =
        fun i => some (gridCount slots step kept extra i) := by
      rw [List.drop_zero, retaining_all]
      exact funext hkeepable
    have hzero : m' = 0 := by
      by_contra hne
      refine hbefore' 0 (Nat.pos_of_ne_zero hne) ⟨gridCount slots step kept extra, ⟨?_, ?_, ?_⟩⟩
      · intro i _ c hc
        rw [hall] at hc
        exact Option.some.inj hc
      · intro i _ hc
        rw [hall] at hc
        cases hc
      · exact gridCount_sum hb
    funext i
    refine gridCount_kept S'.step_pos S'.divisor_pos S'.exact hb' ?_
    rw [hzero, hall]
  · -- a parcel left at nothing means no prior could be kept, then as now
    push Not at hpos
    obtain ⟨i, hi⟩ := hpos
    have hnot : ¬ Apportion.Absorbs (List.finRange n) step total share kept := by
      intro habs
      have hcount := gridCount_pos S.step_pos S.divisor_pos S.exact hk hb (S.must_le hk hb habs) i
      exact absurd hi (not_le.mpr hcount)
    have hnone : kept = fun _ => none := by
      rcases hstop with habs | rfl
      · exact absurd habs hnot
      · funext j
        rw [← hkept]
        simp [retaining]
    have hnone' : retaining slots' step ((releaseOrder slots' step).drop m') = fun _ => none := by
      rcases hstop' with habs | rfl
      · exact absurd (hnone ▸ S'.absorbs_free hk' habs) hnot
      · funext j
        simp [retaining]
    rw [hnone'] at hb' ⊢
    rw [hnone] at hb ⊢
    exact E.gridCount_free S.step_pos hb hb'

end Slots

/-! ### Holdings -/

section Holding
variable {parcels : List ParcelBefore} {f : ParcelBefore → ℚ} {multiplier divisor total : ℚ}
  {scale : ℕ} {inLieu : Option ℚ} {counts : List ParcelCount}

theorem distributeSlots_cast {n m : ℕ} (h : n = m) (slots : Fin n → Slot) (step total : ℚ)
    (inLieu : Option ℚ) :
    distributeSlots (fun i : Fin m => slots (Fin.cast h.symm i)) step total inLieu =
      distributeSlots slots step total inLieu := by
  subst h
  rfl

/-- The holding with priors given by parcel. -/
def withPriors (g : ParcelBefore → Option Prior) (parcels : List ParcelBefore) :
    List ParcelBefore := parcels.map fun p => p.withPrior (g p)

theorem exactCount_withPrior (p : ParcelBefore) (prior : Option Prior) :
    (p.withPrior prior).exactCount = p.exactCount := rfl

/-- The same holding, parcel by parcel, under other priors. -/
def SameHolding (parcels parcels' : List ParcelBefore) : Prop :=
  List.Forall₂ (fun p p' => ∃ prior, p' = ParcelBefore.withPrior p prior) parcels parcels'

theorem sameHolding_withPriors (g : ParcelBefore → Option Prior) (parcels : List ParcelBefore) :
    SameHolding parcels (withPriors g parcels) :=
  List.forall₂_map_right_iff.mpr (List.forall₂_same.mpr fun p _ => ⟨g p, rfl⟩)

namespace SameHolding
variable {parcels' : List ParcelBefore} (H : SameHolding parcels parcels')
include H

theorem length_eq : parcels'.length = parcels.length := (List.Forall₂.length_eq H).symm

theorem map_eq {β : Type*} {u : ParcelBefore → β}
    (hu : ∀ p prior, u (ParcelBefore.withPrior p prior) = u p) : parcels'.map u = parcels.map u := by
  induction H with
  | nil => rfl
  | cons hfirst _ ih =>
    obtain ⟨prior, rfl⟩ := hfirst
    rw [List.map_cons, List.map_cons, hu, ih]

theorem get (i : Fin parcels.length) :
    ∃ prior, parcels'.get (Fin.cast H.length_eq.symm i) = (parcels.get i).withPrior prior :=
  (List.forall₂_iff_get.mp H).2 i.val i.isLt (i.isLt.trans_eq H.length_eq.symm)

theorem sameShares (units : List ℚ) :
    SameShares (slotsOf parcels units multiplier divisor scale)
      fun i => slotsOf parcels' units multiplier divisor scale (Fin.cast H.length_eq.symm i) := by
  have hparcel : ∀ (i : Fin parcels.length), ∃ prior,
      (slotsOf parcels' units multiplier divisor scale (Fin.cast H.length_eq.symm i)).parcel =
        (parcels.get i).withPrior prior := fun i => H.get i
  refine ⟨fun _ => rfl, fun _ => rfl, fun i => ?_, fun i => ?_, fun i => ?_⟩ <;>
    obtain ⟨prior, h⟩ := hparcel i
  · exact congrArg (·.tradeId) h
  · exact congrArg (·.units) h
  · exact congrArg (·.acquired) h

theorem heldExactly : ShareTracker.heldExactly parcels' = ShareTracker.heldExactly parcels := by
  rw [ShareTracker.heldExactly, H.map_eq exactCount_withPrior, ShareTracker.heldExactly]

theorem ne_nil (hne : parcels ≠ []) : parcels' ≠ [] := by
  rw [← List.length_pos_iff, H.length_eq]
  exact List.length_pos_iff.mpr hne

end SameHolding

variable {parcels' : List ParcelBefore}

theorem distribute_again (B : Bracketed parcels f multiplier divisor total scale)
    (H : SameHolding parcels parcels')
    (hprior : ∀ i : Fin parcels'.length,
      (parcels'.get i).prior = (counts[i.val]?).map ParcelCount.prior)
    (h : distribute parcels (parcels.map f) total multiplier divisor scale inLieu = .ok counts) :
    distribute parcels' (parcels.map f) total multiplier divisor scale inLieu = .ok counts := by
  unfold distribute at h ⊢
  rw [← distributeSlots_cast H.length_eq]
  exact B.sound.distributeSlots_again (H.sameShares _) h fun i => hprior _

variable {ratio : Ratio} {rule : Rounding} {unitsReceived : Option ℚ}

/-- The distribution of the total of `held` across `parcels`. -/
def distributeHeld (parcels held : List ParcelBefore) (den : ℚ) (ratio : Ratio) (scale : ℕ)
    (rule : Rounding) (unitsReceived : Option ℚ) : Except RoundingError (List ParcelCount) :=
  match unitsReceived with
  | some received =>
    match checkedReceived received scale with
    | .error e => .error e
    | .ok total => distribute parcels (held.map fun p => p.exactCount * den) total received
        (heldExactly held * den) scale (cashInLieu rule scale (ratio.exactly (heldExactly held)) total)
  | none =>
    distribute parcels (held.map fun p => p.exactCount * den)
      (rule.onto (gridStep scale) (ratio.exactly (heldExactly held))) ratio.new
      (ratio.old * den) scale
      (cashInLieu rule scale (ratio.exactly (heldExactly held))
        (rule.onto (gridStep scale) (ratio.exactly (heldExactly held))))

/-- A holding and the same one under other priors distribute the same shares. -/
theorem roundHolding_same (hne : parcels ≠ []) (H : SameHolding parcels parcels') (ratio : Ratio)
    (scale : ℕ) (rule : Rounding) (unitsReceived : Option ℚ) :
    ∃ den : ℚ, 0 < den ∧
      roundHolding parcels' ratio scale rule unitsReceived =
        distributeHeld parcels' parcels den ratio scale rule unitsReceived ∧
      roundHolding parcels ratio scale rule unitsReceived =
        distributeHeld parcels parcels den ratio scale rule unitsReceived := by
  obtain ⟨den, hden, hdef, he⟩ := roundHolding_eq hne ratio scale rule unitsReceived
  obtain ⟨den', -, hdef', he'⟩ := roundHolding_eq (H.ne_nil hne) ratio scale rule unitsReceived
  rw [H.map_eq fun _ _ => rfl] at hdef'
  rw [H.map_eq fun p prior => by rw [exactCount_withPrior], hdef', ← hdef, H.heldExactly] at he'
  exact ⟨den, hden, he'.trans (by cases unitsReceived <;> rfl),
    he.trans (by cases unitsReceived <;> rfl)⟩

/-- A holding rounded again, its counts as the priors, is rounded to the same. -/
theorem roundHolding_again (H : SameHolding parcels parcels')
    (hprior : ∀ i : Fin parcels'.length,
      (parcels'.get i).prior = (counts[i.val]?).map ParcelCount.prior)
    (h : roundHolding parcels ratio scale rule unitsReceived = .ok counts) :
    roundHolding parcels' ratio scale rule unitsReceived = .ok counts := by
  by_cases hne : parcels = []
  · subst hne
    cases H
    exact h
  obtain ⟨den, hden, he', he⟩ := roundHolding_same hne H ratio scale rule unitsReceived
  rw [he] at h
  rw [he']
  cases unitsReceived with
  | none => exact distribute_again (bracketed_ratio hden) H hprior h
  | some received =>
    cases hc : checkedReceived received scale with
    | error e => simp [distributeHeld, hc] at h
    | ok total =>
      obtain ⟨rfl, hpos, hon⟩ := checkedReceived_ok hc
      simp only [distributeHeld, hc] at h ⊢
      exact distribute_again (bracketed_received hden hne hpos hon) H hprior h

/-- And so is one whose register also held straddling sales. -/
theorem roundRegisteredHolding_again {register : Register} (H : SameHolding parcels parcels')
    (hprior : ∀ i : Fin parcels'.length,
      (parcels'.get i).prior = (counts[i.val]?).map ParcelCount.prior)
    (h : roundRegisteredHolding parcels register ratio scale rule unitsReceived = .ok counts) :
    roundRegisteredHolding parcels' register ratio scale rule unitsReceived = .ok counts := by
  by_cases hne : parcels = []
  · subst hne
    cases H
    exact h
  obtain ⟨den, first, hden, hdef, he⟩ :=
    roundRegisteredHolding_eq hne register ratio scale rule unitsReceived
  obtain ⟨den', first', -, hdef', he'⟩ :=
    roundRegisteredHolding_eq (H.ne_nil hne) register ratio scale rule unitsReceived
  rw [H.map_eq fun _ _ => rfl] at hdef'
  have hexactly : registerExactly parcels' register ratio =
      registerExactly parcels register ratio := by
    rw [registerExactly, H.heldExactly, registerExactly]
  rw [H.map_eq fun p prior => by rw [exactCount_withPrior], hdef', ← hdef, H.heldExactly,
    hexactly] at he'
  rw [he] at h
  rw [he']
  split at h
  · cases h
  · rename_i registered hregistered
    split at h
    · cases h
    · rename_i hpos
      rw [if_neg hpos]
      have hon : Grid.On (gridStep scale) registered := by
        cases unitsReceived with
        | none =>
          obtain rfl := Except.ok.inj hregistered
          exact rule.onto_on _ _
        | some received =>
          obtain ⟨rfl, -, hon⟩ := checkedReceived_ok hregistered
          exact hon
      have hrest := hon.sub (onto_sum_on register ratio scale rule)
      exact distribute_again (bracketed_received hden hne (not_le.mp hpos) hrest) H hprior h

/-- The holding with the counts of its last rounding as its priors. -/
def fedBack (parcels : List ParcelBefore) (counts : List ParcelCount) : List ParcelBefore :=
  List.zipWith (fun p c => ParcelBefore.withPrior p (some c.prior)) parcels counts

theorem fedBack_same (hlen : counts.length = parcels.length) :
    SameHolding parcels (fedBack parcels counts) ∧
      ∀ i : Fin (fedBack parcels counts).length,
        ((fedBack parcels counts).get i).prior = (counts[i.val]?).map ParcelCount.prior := by
  have hlength : (fedBack parcels counts).length = parcels.length := by
    rw [fedBack, List.length_zipWith, hlen, min_self]
  refine ⟨List.forall₂_iff_get.mpr ⟨hlength.symm, fun i hi hi' => ?_⟩, fun i => ?_⟩
  · exact ⟨some (counts.get ⟨i, hi.trans_eq hlen.symm⟩).prior, by simp [fedBack]⟩
  · have hi : i.val < counts.length := by
      rw [hlen, ← hlength]
      exact i.isLt
    rw [List.getElem?_eq_getElem hi, List.get_eq_getElem, Option.map_some]
    simp only [fedBack, List.getElem_zipWith]
    rfl

end Holding

end ShareTracker
