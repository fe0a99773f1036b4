import ShareTracker.SettledCounts

/-!
Every listing a write leaves unmarked is settled, so every committed state is:
as long as no share split or bonus issue that rounds nothing is written, edited
or deleted ahead of a rounded one of its listing.
-/
namespace ShareTracker.RoundedCounts

/-- Every draw on a parcel of the listing is by a Sell of the listing. -/
def Joined (s : Db) (l : ListingId) : Prop :=
  ∀ a ∈ s.allocations, ∀ p, s.trade? a.purchase = some p → p.listing = l →
    ∃ t, s.trade? a.sale = some t ∧ t.listing = l

section Invariant
variable (D : DecimalRounding)

/-- What holds of a listing no write has marked. -/
structure Clean (s : Db) (l : ListingId) : Prop where
  settled : Settled D s l
  joined : s.hasRounded l = true → Joined s l

structure Invariant (s : Db) : Prop where
  rows : s.Rows
  clean : ∀ l, l ∈ s.dirty ∨ Clean D s l

end Invariant

theorem Db.mem_mark {s : Db} {listings : List ListingId} {l : ListingId} :
    l ∈ (s.mark listings).dirty ↔ l ∈ s.dirty ∨ (l ∈ listings ∧ s.hasRounded l = true) := by
  unfold Db.mark
  rw [List.mem_append, List.mem_filter]

/-! ### What a write leaves alone -/

section Frame
variable {D : DecimalRounding} {s s' : Db} {l : ListingId}

/-- The trades of a listing are those they were. -/
def SameTrades (s s' : Db) (l : ListingId) : Prop :=
  ∀ id t, t.listing = l → (s'.trade? id = some t ↔ s.trade? id = some t)

theorem SameTrades.parcels (R : s.Rows) (R' : s'.Rows) (h : SameTrades s s' l) :
    s'.parcels l = s.parcels l := by
  have hmem : ∀ t, t.listing = l → (t ∈ s'.trades ↔ t ∈ s.trades) := by
    intro t ht
    have hsame := h t.id t ht
    rw [R'.trade?, R.trade?] at hsame
    exact ⟨fun ht' => (hsame.mp ⟨ht', rfl⟩).1, fun ht' => (hsame.mpr ⟨ht', rfl⟩).1⟩
  unfold Db.parcels
  refine Keyed.sortBy_eq (R'.trades.of_map.filter _) (R.trades.of_map.filter _) (fun t => ?_) ?_
  · rw [List.mem_filter, List.mem_filter, Bool.and_eq_true, decide_eq_true_eq]
    constructor
    · rintro ⟨ht, hl, ha⟩
      exact ⟨(hmem t hl).mp ht, hl, ha⟩
    · rintro ⟨ht, hl, ha⟩
      exact ⟨(hmem t hl).mpr ht, hl, ha⟩
  · intro t ht u hu htu
    have hid : t.id = u.id := congrArg (fun k => (ofLex k).2) htu
    exact Keyed.eq_of_key R'.trades (List.mem_of_mem_filter ht) (List.mem_of_mem_filter hu) hid

theorem SameTrades.joined (h : SameTrades s s' l)
    (hallocations : ∀ a ∈ s'.allocations, ∀ p, s'.trade? a.purchase = some p → p.listing = l →
      a ∈ s.allocations) (hj : Joined s l) : Joined s' l := by
  intro a ha p hp hl
  obtain ⟨t, ht, htl⟩ := hj a (hallocations a ha p hp hl) p ((h _ p hl).mp hp) hl
  exact ⟨t, (h _ t htl).mpr ht, htl⟩

/-- The draws on the listing's parcels, and the Sells that make them. -/
theorem SameTrades.sales (R : s.Rows) (h : SameTrades s s' l)
    (hallocations : ∀ p ∈ s.parcels l, (s'.allocations.filter fun a => a.purchase = p.id) =
      s.allocations.filter fun a => a.purchase = p.id)
    (hj : Joined s l) : ∀ p ∈ s.parcels l, s'.sales p.id = s.sales p.id := by
  intro p hp
  obtain ⟨hp', hl, -⟩ := Db.mem_parcels.mp hp
  unfold Db.sales
  rw [hallocations p hp]
  refine List.filterMap_congr fun a ha => ?_
  obtain ⟨ha, hpurchase⟩ := List.mem_filter.mp (StableSort.mem_sortBy.mp ha)
  obtain ⟨t, ht, htl⟩ := hj a ha p (R.trade?.mpr ⟨hp', (of_decide_eq_true hpurchase).symm⟩) hl
  rw [ht, (h _ t htl).mpr ht]

/-- A write of other rows, whose triggers mark every listing it moves. -/
theorem Invariant.of_facts (I : Invariant D s) (htrades : (s'.trades.map TradeRow.id).Nodup)
    (hactions : s'.actions = s.actions) (hcounts : s'.counts.Sublist s.counts)
    (hdirty : ∀ l ∈ s.dirty, l ∈ s'.dirty)
    (hmoved : s'.Rows → ∀ l, l ∉ s'.dirty → s.hasRounded l = true → Joined s l →
      (s.facts l).Alike (s'.facts l) (s.core l) ∧ Joined s' l ∧
        ∀ r ∈ s.counts, (∃ a ∈ s.actions, a.listing = l ∧ a.rounded = true ∧ a.id = r.action) →
          (∃ t ∈ s.trades, t.listing = l ∧ t.id = r.count.tradeId) → r ∈ s'.counts) :
    Invariant D s' := by
  have R' : s'.Rows := ⟨htrades, hactions ▸ I.rows.actions,
    (hcounts.map CountRow.key).nodup I.rows.counts,
    fun r hr => hactions ▸ I.rows.counted r (hcounts.subset hr)⟩
  have hsplit : ∀ l, s'.splitActions l = s.splitActions l := by
    intro l
    unfold Db.splitActions
    rw [hactions]
  have hcore : ∀ l, s'.core l = s.core l := by
    intro l
    unfold Db.core
    rw [hsplit, hactions]
  have hrounded : ∀ l, s'.hasRounded l = s.hasRounded l := by
    intro l
    unfold Db.hasRounded
    rw [hactions]
  refine ⟨R', fun l => ?_⟩
  rcases I.clean l with hl | hclean
  · exact .inl (hdirty l hl)
  by_cases hmarked : l ∈ s'.dirty
  · exact .inl hmarked
  refine .inr ⟨?_, fun hr => ?_⟩
  · refine hclean.settled.carry I.rows R' (hcore l)
      (fun hr => (hmoved R' l hmarked hr (hclean.joined hr)).1) (fun r hr haction => ?_) ?_
    · exact ⟨hcounts.subset hr, hsplit l ▸ haction⟩
    · intro r hr a ha hlisting ha' hid hparcel
      have hr' := Db.hasRounded_iff.mpr ⟨a, ha, hlisting, ha'⟩
      exact (hmoved R' l hmarked hr' (hclean.joined hr')).2.2 r hr ⟨a, ha, hlisting, ha', hid⟩ hparcel
  · rw [hrounded] at hr
    exact (hmoved R' l hmarked hr (hclean.joined hr)).2.1

end Frame

/-! ### Rows other than actions -/

section Rows
variable {D : DecimalRounding} {s s' : Db}

theorem Invariant.putTrade (I : Invariant D s) (t : TradeRow) : Invariant D (s.putTrade t) := by
  have htrades := s.putTrade_trades t
  have hrest := s.putTrade_rest t
  have hmarks : ∀ l, l ∈ s.dirty ∨ (s.hasRounded l = true ∧ s.trade? t.id ≠ some t ∧
      (l = t.listing ∨ ∃ old, s.trade? t.id = some old ∧ l = old.listing)) →
        l ∈ (s.putTrade t).dirty := by
    intro l hl
    unfold Db.putTrade
    dsimp only
    split
    · rename_i hnone
      refine Db.mem_mark.mpr (hl.imp_right ?_)
      rintro ⟨hr, -, rfl | ⟨old, hold, -⟩⟩
      · exact ⟨List.mem_singleton_self _, hr⟩
      · rw [hnone] at hold
        cases hold
    · rename_i old hold
      split
      · rename_i hsame
        rcases hl with hl | ⟨-, hne, -⟩
        · exact hl
        · exact absurd (hsame ▸ hold) hne
      · refine Db.mem_mark.mpr (hl.imp_right ?_)
        rintro ⟨hr, -, rfl | ⟨old', hold', rfl⟩⟩
        · exact ⟨List.mem_cons_of_mem _ (List.mem_singleton_self _), hr⟩
        · rw [hold] at hold'
          obtain rfl := Option.some.inj hold'
          exact ⟨List.mem_cons_self, hr⟩
  obtain ⟨hactions, hcounts, hallocations, hoverrides, hscale⟩ := hrest
  refine I.of_facts (htrades ▸ Keyed.nodup_put I.rows.trades t) hactions
    (hcounts ▸ List.Sublist.refl _) (fun l hl => hmarks l (.inl hl)) ?_
  intro R' l hunmarked hr hj
  have hsame : SameTrades s (s.putTrade t) l := by
    intro id u hu
    unfold Db.trade?
    rw [htrades]
    by_cases hid : id = t.id
    · subst hid
      rw [Keyed.get?_put_self I.rows.trades]
      by_cases hstored : s.trade? t.id = some t
      · exact hstored ▸ Iff.rfl
      · -- neither the row written nor the row it replaces is of this listing
        have hmoved := fun h => hunmarked (hmarks l (.inr ⟨hr, hstored, h⟩))
        constructor
        · intro h
          obtain rfl := Option.some.inj h
          exact absurd (.inl hu.symm) hmoved
        · exact fun h => absurd (.inr ⟨u, h, hu.symm⟩) hmoved
    · rw [Keyed.get?_put_ne I.rows.trades hid]
  refine ⟨⟨hsame.parcels I.rows R', ?_, ?_, ?_⟩, ?_, ?_⟩
  · exact hsame.sales I.rows (fun p _ => by rw [hallocations]) hj
  · intro p _
    change (s.putTrade t).unitScale p.account l = s.unitScale p.account l
    rw [hscale]
  · intro a _ _
    change (s.putTrade t).overrides a.id = s.overrides a.id
    rw [hoverrides]
  · exact hsame.joined (fun a ha _ _ _ => hallocations ▸ ha) hj
  · exact fun r hr _ _ => hcounts ▸ hr

theorem Invariant.deleteTrade {id : TradeId} (I : Invariant D s) (h : s.deleteTrade id = .ok s') :
    Invariant D s' := by
  unfold Db.deleteTrade at h
  obtain ⟨_, -, h⟩ := bind_ok h
  obtain rfl := Except.ok.inj h
  refine I.of_facts (Keyed.nodup_filter I.rows.trades _) rfl List.filter_sublist
    (fun l hl => Db.mem_mark.mpr (.inl hl)) ?_
  intro R' l hunmarked hr hj
  have hother : ∀ t, s.trade? id = some t → t.listing ≠ l := by
    intro t ht hl
    refine hunmarked (Db.mem_mark.mpr (.inr ⟨?_, hr⟩))
    rw [ht, ← hl]
    exact List.mem_singleton_self _
  have hsame : SameTrades s (Db.mark { s with
      trades := s.trades.filter fun t => t.id ≠ id
      counts := s.counts.filter fun r => r.count.tradeId ≠ id }
        ((s.trade? id).toList.map TradeRow.listing)) l := by
    intro i t ht
    rw [R'.trade?, I.rows.trade?]
    change t ∈ s.trades.filter _ ∧ _ ↔ _
    rw [List.mem_filter, decide_eq_true_eq]
    refine ⟨fun ⟨⟨hmem, _⟩, hi⟩ => ⟨hmem, hi⟩, fun ⟨hmem, hi⟩ => ⟨⟨hmem, fun hid => ?_⟩, hi⟩⟩
    exact hother t (I.rows.trade?.mpr ⟨hmem, hid⟩) ht
  refine ⟨⟨hsame.parcels I.rows R', ?_, fun _ _ => rfl, fun _ _ _ => rfl⟩, ?_, ?_⟩
  · exact hsame.sales I.rows (fun _ _ => rfl) hj
  · exact hsame.joined (fun a ha _ _ _ => ha) hj
  · rintro r hr' - ⟨t, ht, hl, hid⟩
    refine List.mem_filter.mpr ⟨hr', decide_eq_true fun heq => ?_⟩
    exact hother t (I.rows.trade?.mpr ⟨ht, hid.trans heq⟩) hl

theorem Invariant.insertAllocation {a : ParcelAllocation} (I : Invariant D s)
    (h : s.insertAllocation a = .ok s') : Invariant D s' := by
  unfold Db.insertAllocation at h
  obtain ⟨_, hrows, h⟩ := bind_ok h
  obtain rfl := Except.ok.inj h
  refine I.of_facts I.rows.trades rfl (List.Sublist.refl _)
    (fun l hl => Db.mem_mark.mpr (.inl hl)) ?_
  intro R' l hunmarked hr hj
  have hother : ∀ p, s.trade? a.purchase = some p → p.listing ≠ l := by
    intro p hp hl
    refine hunmarked (Db.mem_mark.mpr (.inr ⟨?_, hr⟩))
    rw [hp, ← hl]
    exact List.mem_singleton_self _
  have hsame : SameTrades s (Db.mark { s with allocations := s.allocations ++ [a] }
      ((s.trade? a.purchase).toList.map TradeRow.listing)) l := fun _ _ _ => Iff.rfl
  refine ⟨⟨rfl, hsame.sales I.rows (fun p hp => ?_) hj, fun _ _ => rfl, fun _ _ _ => rfl⟩, ?_, ?_⟩
  · obtain ⟨hp, hl, -⟩ := Db.mem_parcels.mp hp
    have hne : ¬ a.purchase = p.id := fun heq =>
      hother p (I.rows.trade?.mpr ⟨hp, heq.symm⟩) hl
    change (s.allocations ++ [a]).filter _ = _
    rw [List.filter_append, List.filter_singleton, decide_eq_false hne]
    exact List.append_nil _
  · refine hsame.joined (fun b hb p hp hl => ?_) hj
    rcases List.mem_append.mp hb with hb | hb
    · exact hb
    · obtain rfl := List.mem_singleton.mp hb
      exact absurd hl (hother p hp)
  · exact fun r hr _ _ => hr

theorem Invariant.deleteAllocation (I : Invariant D s) (sale purchase : TradeId) :
    Invariant D (s.deleteAllocation sale purchase) := by
  refine I.of_facts I.rows.trades rfl (List.Sublist.refl _)
    (fun l hl => Db.mem_mark.mpr (.inl hl)) ?_
  intro R' l hunmarked hr hj
  have hsame : SameTrades s (s.deleteAllocation sale purchase) l := fun _ _ _ => Iff.rfl
  refine ⟨⟨rfl, hsame.sales I.rows (fun p hp => ?_) hj, fun _ _ => rfl, fun _ _ _ => rfl⟩, ?_, ?_⟩
  · obtain ⟨hp, hl, -⟩ := Db.mem_parcels.mp hp
    change (s.allocations.filter _).filter _ = _
    rw [List.filter_filter]
    refine List.filter_congr fun a ha => ?_
    rw [Bool.and_eq_left_iff_imp]
    intro hpurchase
    refine decide_eq_true fun hgone => hunmarked (Db.mem_mark.mpr (.inr ⟨?_, hr⟩))
    refine List.mem_flatMap.mpr ⟨a, List.mem_filter.mpr ⟨ha, decide_eq_true hgone⟩, ?_⟩
    rw [I.rows.trade?.mpr ⟨hp, (of_decide_eq_true hpurchase).symm⟩, ← hl]
    exact List.mem_singleton_self _
  · exact hsame.joined (fun a ha _ _ _ => List.mem_of_mem_filter ha) hj
  · exact fun r hr _ _ => hr

theorem Invariant.setAccountScale (I : Invariant D s) (account : HoldingAccountId)
    (scale : Option ℕ) : Invariant D (s.setAccountScale account scale) := by
  unfold Db.setAccountScale
  dsimp only
  split
  · exact I
  refine I.of_facts I.rows.trades rfl (List.Sublist.refl _)
    (fun l hl => Db.mem_mark.mpr (.inl hl)) ?_
  intro R' l hunmarked hr hj
  refine ⟨⟨rfl, fun _ _ => rfl, fun p hp => ?_, fun _ _ _ => rfl⟩, hj, fun r hr _ _ => hr⟩
  obtain ⟨hp, hl, -⟩ := Db.mem_parcels.mp hp
  have hne : p.account ≠ account := by
    intro haccount
    refine hunmarked (Db.mem_mark.mpr (.inr ⟨?_, hr⟩))
    exact List.mem_map.mpr ⟨p, List.mem_filter.mpr ⟨hp, decide_eq_true haccount⟩, hl⟩
  change (s.unitScales p.account l).getD (Function.update s.accountScale account scale p.account) = _
  rw [Function.update_of_ne hne]
  rfl

theorem Invariant.setUnitScale (I : Invariant D s) (account : HoldingAccountId)
    (listing : ListingId) (scale : Option (Option ℕ)) :
    Invariant D (s.setUnitScale account listing scale) := by
  refine I.of_facts I.rows.trades rfl (List.Sublist.refl _)
    (fun l hl => Db.mem_mark.mpr (.inl hl)) ?_
  intro R' l hunmarked hr hj
  refine ⟨⟨rfl, fun _ _ => rfl, fun p _ => ?_, fun _ _ _ => rfl⟩, hj, fun r hr _ _ => hr⟩
  have hne : l ≠ listing := fun heq =>
    hunmarked (Db.mem_mark.mpr (.inr ⟨heq ▸ List.mem_singleton_self _, hr⟩))
  change (Function.update s.unitScales account _ p.account l).getD _ = _
  by_cases haccount : p.account = account
  · rw [haccount, Function.update_self, Function.update_of_ne hne]
    rfl
  · rw [Function.update_of_ne haccount]
    rfl

theorem Invariant.setOverride (I : Invariant D s) (action : ℤ) (account : HoldingAccountId)
    (received : Option ℚ) : Invariant D (s.setOverride action account received) := by
  have hsame : (s.setOverride action account received).trades = s.trades ∧
      (s.setOverride action account received).actions = s.actions ∧
      (s.setOverride action account received).allocations = s.allocations ∧
      (s.setOverride action account received).unitScale = s.unitScale ∧
      (s.setOverride action account received).overrides =
        Function.update s.overrides action (Function.update (s.overrides action) account received) ∧
      (s.setOverride action account received).dirty = s.dirty ++
        ((s.action? action).toList.filter ActionRow.rounded).map ActionRow.listing := by
    unfold Db.setOverride
    dsimp only
    split <;> exact ⟨rfl, rfl, rfl, rfl, rfl, rfl⟩
  have hcounts : (s.setOverride action account received).counts.Sublist s.counts := by
    unfold Db.setOverride
    dsimp only
    split
    · exact List.filter_sublist
    · exact List.Sublist.refl _
  have hkept : ∀ r ∈ s.counts, r.action ≠ action →
      r ∈ (s.setOverride action account received).counts := by
    intro r hr hne
    unfold Db.setOverride
    dsimp only
    split
    · exact List.mem_filter.mpr ⟨hr, decide_eq_true fun h => hne h.1⟩
    · exact hr
  obtain ⟨htrades, hactions, hallocations, hscale, hoverrides, hdirty⟩ := hsame
  refine I.of_facts (htrades ▸ I.rows.trades) hactions hcounts
    (fun l hl => hdirty ▸ List.mem_append_left _ hl) ?_
  intro R' l hunmarked hr hj
  rw [hdirty] at hunmarked
  -- a rounded action of an unmarked listing is not the one overridden
  have hother : ∀ a ∈ s.actions, a.listing = l → a.rounded = true → a.id ≠ action := by
    intro a hmem hl hrounded heq
    refine hunmarked (List.mem_append_right _ (List.mem_map.mpr ⟨a, ?_, hl⟩))
    rw [I.rows.action?.mpr ⟨hmem, heq⟩]
    exact List.mem_filter.mpr ⟨List.mem_singleton_self a, hrounded⟩
  have htrade : SameTrades s (s.setOverride action account received) l := by
    intro id t _
    rw [Db.trade?, htrades, Db.trade?]
  refine ⟨⟨htrade.parcels I.rows R', ?_, fun p _ => ?_, fun a ha hrounded => ?_⟩, ?_, ?_⟩
  · exact htrade.sales I.rows (fun p _ => by rw [hallocations]) hj
  · change (s.setOverride action account received).unitScale p.account l = s.unitScale p.account l
    rw [hscale]
  · obtain ⟨hmem, hl, -⟩ := Db.mem_splitActions.mp (Db.mem_core.mp ha).1
    change (s.setOverride action account received).overrides a.id = s.overrides a.id
    rw [hoverrides]
    exact Function.update_of_ne (hother a hmem hl hrounded) _ _
  · exact htrade.joined (fun a ha _ _ _ => hallocations ▸ ha) hj
  · rintro r hr' ⟨a, ha, hl, hrounded, hid⟩ -
    exact hkept r hr' (hid ▸ hother a ha hl hrounded)

theorem Invariant.insertCount {r : CountRow} (I : Invariant D s) (h : s.insertCount r = .ok s') :
    Invariant D s' := by
  unfold Db.insertCount at h
  obtain ⟨a, ha, h⟩ := bind_ok h
  obtain ⟨_, hother, h⟩ := bind_ok h
  obtain ⟨_, hfree, h⟩ := bind_ok h
  obtain rfl := Except.ok.inj h
  obtain ⟨hmem, hid⟩ := I.rows.action?.mp (Checked.orRefuse_ok.mp ha)
  have hother : ¬ a.event.isSome = true := Checked.refuseIf_ok.mp hother
  have hfree : ¬ (Keyed.get? CountRow.key s.counts r.key).isSome = true :=
    Checked.refuseIf_ok.mp hfree
  have hnot : ∀ b ∈ s.actions, b.event.isSome = true → b.id ≠ r.action := by
    intro b hb he heq
    exact hother (Keyed.eq_of_key I.rows.actions hmem hb (hid.trans heq.symm) ▸ he)
  have R' : Db.Rows { s with counts := s.counts ++ [r] } := by
    refine ⟨I.rows.trades, I.rows.actions, ?_, fun q hq => ?_⟩
    · rw [List.map_append, List.nodup_append]
      refine ⟨I.rows.counts, List.nodup_singleton _, fun k hk k' hk' heq => ?_⟩
      obtain ⟨q, hq, rfl⟩ := List.mem_map.mp hk
      rw [List.map_singleton, List.mem_singleton] at hk'
      exact hfree (Option.isSome_iff_exists.mpr
        ⟨q, (Keyed.get?_eq_some I.rows.counts).mpr ⟨hq, heq.trans hk'⟩⟩)
    · rcases List.mem_append.mp hq with hq | hq
      · exact I.rows.counted q hq
      · obtain rfl := List.mem_singleton.mp hq
        exact ⟨a, hmem, hid⟩
  refine ⟨R', fun l => (I.clean l).imp_right fun hclean => ⟨?_, hclean.joined⟩⟩
  refine hclean.settled.carry I.rows R' rfl
    (fun _ => ⟨rfl, fun _ _ => rfl, fun _ _ => rfl, fun _ _ _ => rfl⟩) (fun q hq haction => ?_)
    fun q hq _ _ _ _ _ _ => List.mem_append_left _ hq
  rcases List.mem_append.mp hq with hq | hq
  · exact ⟨hq, haction⟩
  · obtain rfl := List.mem_singleton.mp hq
    obtain ⟨b, hb, heq⟩ := List.mem_map.mp haction
    obtain ⟨hb, -, he⟩ := Db.mem_splitActions.mp hb
    exact absurd heq (hnot b hb he)

end Rows

/-! ### Actions -/

/-- A share split or bonus issue that no rounded one of its listing follows. -/
def NotBefore (s : Db) (a : ActionRow) : Prop :=
  a.event.isSome = true →
    ∀ r ∈ s.actions, r.listing = a.listing → r.rounded = true → r.order < a.order

/-- A write that moves no quantity ahead of a rounded action it does not mark:
it is of a rounded action itself, or leaves the row as it was, or neither the row
nor the one it replaces comes before a rounded one. -/
def Spares (s : Db) : RowOp → Prop
  | .putAction a _ => a.rounded = true ∨ s.action? a.id = some a ∨
      (∃ old ∈ s.action? a.id, old.rounded = true) ∨
      (NotBefore s a ∧ ∀ old ∈ s.action? a.id, NotBefore s old)
  | .deleteAction id => ∀ old ∈ s.action? id, old.rounded = true ∨ NotBefore s old
  | _ => True

section Actions
variable {D : DecimalRounding} {s s' : Db}

/-- Actions written or deleted, where no unmarked listing loses or gains one up to
its last rounded one. -/
theorem Invariant.of_actions (I : Invariant D s) (R' : s'.Rows) (htrades : s'.trades = s.trades)
    (hallocations : s'.allocations = s.allocations)
    (hscale : s'.unitScale = s.unitScale) (hcounts : s'.counts.Sublist s.counts)
    (hdirty : ∀ l ∈ s.dirty, l ∈ s'.dirty)
    (hmoved : ∀ l, l ∉ s'.dirty → (∀ a, a ∈ s'.core l ↔ a ∈ s.core l) ∧
      (∀ a ∈ s.core l, a.rounded = true → s'.overrides a.id = s.overrides a.id) ∧
      (∀ r ∈ s'.counts, r.action ∈ (s'.splitActions l).map ActionRow.id →
        r.action ∈ (s.splitActions l).map ActionRow.id) ∧
      ∀ r ∈ s.counts, (∃ a ∈ s.actions, a.listing = l ∧ a.rounded = true ∧ a.id = r.action) →
        r ∈ s'.counts) : Invariant D s' := by
  have hjoined : ∀ l, Joined s l → Joined s' l := by
    intro l hj
    unfold Joined Db.trade?
    rw [hallocations, htrades]
    exact hj
  refine ⟨R', fun l => ?_⟩
  rcases I.clean l with hl | hclean
  · exact .inl (hdirty l hl)
  by_cases hmarked : l ∈ s'.dirty
  · exact .inl hmarked
  obtain ⟨hmem, hoverrides, hstored, hkept⟩ := hmoved l hmarked
  have hcore : s'.core l = s.core l := Db.core_eq I.rows R' hmem
  refine .inr ⟨?_, fun hr => hjoined l (hclean.joined ?_)⟩
  · refine hclean.settled.carry I.rows R' hcore (fun _ => ⟨?_, ?_, ?_, hoverrides⟩)
      (fun r hr haction => ⟨hcounts.subset hr, hstored r hr haction⟩)
      fun r hr a ha hl hrounded hid _ => hkept r hr ⟨a, ha, hl, hrounded, hid⟩
    · change s'.parcels l = s.parcels l
      unfold Db.parcels
      rw [htrades]
    · intro p _
      change s'.sales p.id = s.sales p.id
      unfold Db.sales Db.trade?
      rw [hallocations, htrades]
    · intro p _
      change s'.unitScale p.account l = s.unitScale p.account l
      rw [hscale]
  · obtain ⟨a, ha, hl, hrounded⟩ := Db.hasRounded_iff.mp hr
    have ha : a ∈ s'.core l := Db.core_rounded
      (Db.mem_splitActions.mpr ⟨ha, hl, ActionRow.event_of_rounded hrounded⟩) hrounded
    obtain ⟨-, b, hb, hbl, hb', -⟩ := Db.mem_core.mp (hcore ▸ ha)
    exact Db.hasRounded_iff.mpr ⟨b, hb, hbl, hb'⟩

/-- A listing `putAction` leaves unmarked has no rounded action written. -/
theorem Db.putAction_unmarked {a : ActionRow} {changed : Bool} {l : ListingId}
    (h : l ∉ (s.putAction a changed).dirty)
    (hl : a.listing = l ∨ ∃ old, s.action? a.id = some old ∧ old.listing = l) :
    a.rounded = false ∧ ∀ old, s.action? a.id = some old → old.rounded = false := by
  by_contra hrounded
  have hmarks : (a.rounded || (s.action? a.id).toList.any ActionRow.rounded) = true := by
    rw [Bool.or_eq_true]
    by_contra hnone
    obtain ⟨ha, hany⟩ := not_or.mp hnone
    refine hrounded ⟨Bool.eq_false_iff.mpr ha, fun old hold => Bool.eq_false_iff.mpr fun hr => hany ?_⟩
    rw [hold]
    exact List.any_eq_true.mpr ⟨old, List.mem_singleton_self old, hr⟩
  refine h (List.mem_append_right _ ?_)
  rw [if_pos hmarks]
  rcases hl with hl | ⟨old, hold, hl⟩
  · exact List.mem_append_right _ (List.mem_singleton.mpr hl.symm)
  · rw [hold]
    exact List.mem_append_left _ (List.mem_singleton.mpr hl.symm)

theorem Invariant.putAction (I : Invariant D s) (a : ActionRow) (changed : Bool)
    (hspares : Spares s (.putAction a changed)) : Invariant D (s.putAction a changed) := by
  have hsub : (s.putAction a changed).counts.Sublist s.counts := by
    unfold Db.putAction
    dsimp only
    split
    · exact List.filter_sublist
    · exact List.Sublist.refl _
  have hput : ∀ {b}, b ∈ (s.putAction a changed).actions ↔
      (b ∈ s.actions ∧ b.id ≠ a.id) ∨ b = a := Keyed.mem_put
  have R' : (s.putAction a changed).Rows := by
    refine ⟨I.rows.trades, Keyed.nodup_put I.rows.actions a,
      (hsub.map CountRow.key).nodup I.rows.counts, fun r hr => ?_⟩
    obtain ⟨b, hb, hid⟩ := I.rows.counted r (hsub.subset hr)
    by_cases hba : b.id = a.id
    · exact ⟨a, hput.mpr (.inr rfl), hba.symm.trans hid⟩
    · exact ⟨b, hput.mpr (.inl ⟨hb, hba⟩), hid⟩
  refine I.of_actions R' rfl rfl rfl hsub (fun l hl => List.mem_append_left _ hl) fun l hunmarked => ?_
  have hquiet := fun hl => Db.putAction_unmarked hunmarked hl
  -- the listing's rounded actions are those it had
  have hold : ∀ b ∈ s.actions, b.listing = l → b.rounded = true → b.id ≠ a.id := by
    intro b hb hl hrounded hid
    have hstored := I.rows.action?.mpr ⟨hb, hid⟩
    rw [(hquiet (.inr ⟨b, hstored, hl⟩)).2 b hstored] at hrounded
    cases hrounded
  have hnew : ∀ b ∈ (s.putAction a changed).actions, b.listing = l → b.rounded = true →
      b ∈ s.actions := by
    intro b hb hl hrounded
    rcases hput.mp hb with ⟨hb, -⟩ | rfl
    · exact hb
    · rw [(hquiet (.inl hl)).1] at hrounded
      cases hrounded
  have hcases : (a.listing = l ∨ ∃ old, s.action? a.id = some old ∧ old.listing = l) →
      s.action? a.id = some a ∨ (NotBefore s a ∧ ∀ old ∈ s.action? a.id, NotBefore s old) := by
    intro hl
    obtain ⟨ha, hstored⟩ := hquiet hl
    rcases hspares with h | h | ⟨old, hmem, h⟩ | h
    · rw [ha] at h
      cases h
    · exact .inl h
    · rw [hstored old hmem] at h
      cases h
    · exact .inr h
  refine ⟨fun b => ?_, fun _ _ _ => rfl, fun r hr haction => ?_, fun r hr hrounded => ?_⟩
  · rw [Db.mem_core, Db.mem_core, Db.mem_splitActions, Db.mem_splitActions]
    constructor
    · rintro ⟨⟨hb, hl, he⟩, c, hc, hcl, hrounded, hle⟩
      have hc' := hnew c hc hcl hrounded
      refine ⟨⟨?_, hl, he⟩, c, hc', hcl, hrounded, hle⟩
      rcases hput.mp hb with ⟨hb, -⟩ | rfl
      · exact hb
      · rcases hcases (.inl hl) with hsame | ⟨hbefore, -⟩
        · exact (I.rows.action?.mp hsame).1
        · exact absurd (hbefore he c hc' (hcl.trans hl.symm) hrounded) (not_lt.mpr hle)
    · rintro ⟨⟨hb, hl, he⟩, c, hc, hcl, hrounded, hle⟩
      refine ⟨⟨?_, hl, he⟩, c, hput.mpr (.inl ⟨hc, hold c hc hcl hrounded⟩), hcl, hrounded, hle⟩
      by_cases hid : b.id = a.id
      · have hstored := I.rows.action?.mpr ⟨hb, hid⟩
        rcases hcases (.inr ⟨b, hstored, hl⟩) with hsame | ⟨-, hbefore⟩
        · exact hput.mpr (.inr (Option.some.inj (hstored.symm.trans hsame)))
        · exact absurd (hbefore b hstored he c hc (hcl.trans hl.symm) hrounded) (not_lt.mpr hle)
      · exact hput.mpr (.inl ⟨hb, hid⟩)
  · obtain ⟨b, hb, hid⟩ := List.mem_map.mp haction
    obtain ⟨hb, hl, he⟩ := Db.mem_splitActions.mp hb
    rcases hput.mp hb with ⟨hb, -⟩ | rfl
    · exact List.mem_map.mpr ⟨b, Db.mem_splitActions.mpr ⟨hb, hl, he⟩, hid⟩
    · -- a count kept of the row written is a count of a row left as it was
      obtain ⟨c, hc, hcid⟩ := I.rows.counted r (hsub.subset hr)
      have hstored := I.rows.action?.mpr ⟨hc, hcid.trans hid.symm⟩
      have hsame : c = b := by
        by_contra hne
        unfold Db.putAction at hr
        dsimp only at hr
        rw [if_pos ⟨c, by rw [hstored]; exact List.mem_singleton_self c, .inl hne⟩] at hr
        exact of_decide_eq_true (List.mem_filter.mp hr).2 hid.symm
      exact List.mem_map.mpr ⟨b, Db.mem_splitActions.mpr ⟨hsame ▸ hc, hl, he⟩, hid⟩
  · obtain ⟨b, hb, hl, hrounded, hid⟩ := hrounded
    unfold Db.putAction
    dsimp only
    split
    · exact List.mem_filter.mpr ⟨hr, decide_eq_true fun heq => hold b hb hl hrounded (hid.trans heq)⟩
    · exact hr

theorem Invariant.deleteAction (I : Invariant D s) (id : ℤ)
    (hspares : Spares s (.deleteAction id)) : Invariant D (s.deleteAction id) := by
  have hkept : ∀ {b}, b ∈ (s.deleteAction id).actions ↔ b ∈ s.actions ∧ b.id ≠ id := by
    intro b
    change b ∈ s.actions.filter _ ↔ _
    rw [List.mem_filter, decide_eq_true_eq]
  have hcount : ∀ {r}, r ∈ (s.deleteAction id).counts ↔ r ∈ s.counts ∧ r.action ≠ id := by
    intro r
    change r ∈ s.counts.filter _ ↔ _
    rw [List.mem_filter, decide_eq_true_eq]
  have R' : (s.deleteAction id).Rows := by
    refine ⟨I.rows.trades, Keyed.nodup_filter I.rows.actions _,
      Keyed.nodup_filter I.rows.counts _, fun r hr => ?_⟩
    obtain ⟨hr, hne⟩ := hcount.mp hr
    obtain ⟨b, hb, hid⟩ := I.rows.counted r hr
    exact ⟨b, hkept.mpr ⟨hb, fun h => hne (hid.symm.trans h)⟩, hid⟩
  refine I.of_actions R' rfl rfl rfl List.filter_sublist (fun l hl => List.mem_append_left _ hl)
    fun l hunmarked => ?_
  have hold : ∀ b ∈ s.actions, b.listing = l → b.rounded = true → b.id ≠ id := by
    intro b hb hl hrounded hid
    refine hunmarked (List.mem_append_right _ (List.mem_map.mpr ⟨b, ?_, hl⟩))
    rw [I.rows.action?.mpr ⟨hb, hid⟩]
    exact List.mem_filter.mpr ⟨List.mem_singleton_self b, hrounded⟩
  refine ⟨fun b => ?_, fun b hb hrounded => ?_, fun r _ haction => ?_, fun r hr hrounded => ?_⟩
  · rw [Db.mem_core, Db.mem_core, Db.mem_splitActions, Db.mem_splitActions]
    constructor
    · rintro ⟨⟨hb, hl, he⟩, c, hc, hcl, hrounded, hle⟩
      exact ⟨⟨(hkept.mp hb).1, hl, he⟩, c, (hkept.mp hc).1, hcl, hrounded, hle⟩
    · rintro ⟨⟨hb, hl, he⟩, c, hc, hcl, hrounded, hle⟩
      refine ⟨⟨hkept.mpr ⟨hb, fun hid => ?_⟩, hl, he⟩, c,
        hkept.mpr ⟨hc, hold c hc hcl hrounded⟩, hcl, hrounded, hle⟩
      rcases hspares b (I.rows.action?.mpr ⟨hb, hid⟩) with h | h
      · exact hold b hb hl h hid
      · exact absurd (h he c hc (hcl.trans hl.symm) hrounded) (not_lt.mpr hle)
  · obtain ⟨hb, hl, -⟩ := Db.mem_splitActions.mp (Db.mem_core.mp hb).1
    exact Function.update_of_ne (hold b hb hl hrounded) _ _
  · obtain ⟨b, hb, hid⟩ := List.mem_map.mp haction
    obtain ⟨hb, hl, he⟩ := Db.mem_splitActions.mp hb
    exact List.mem_map.mpr ⟨b, Db.mem_splitActions.mpr ⟨(hkept.mp hb).1, hl, he⟩, hid⟩
  · obtain ⟨b, hb, hl, hrounded, hid⟩ := hrounded
    exact hcount.mpr ⟨hr, fun heq => hold b hb hl hrounded (hid.trans heq)⟩

end Actions

/-! ### Runs -/

section Runs
variable {D : DecimalRounding} {checks : Db → ListingId → Bool} {s s' : Db}

/-- One row written keeps every unmarked listing settled. -/
theorem Invariant.apply {op : RowOp} (I : Invariant D s) (hspares : Spares s op)
    (h : s.apply op = .ok s') : Invariant D s' := by
  cases op with
  | putTrade t =>
    obtain rfl := Except.ok.inj h
    exact I.putTrade t
  | deleteTrade id => exact I.deleteTrade h
  | insertAllocation a => exact I.insertAllocation h
  | deleteAllocation sale purchase =>
    obtain rfl := Except.ok.inj h
    exact I.deleteAllocation sale purchase
  | setAccountScale account scale =>
    obtain rfl := Except.ok.inj h
    exact I.setAccountScale account scale
  | putUnitScale account listing scale =>
    obtain rfl := Except.ok.inj h
    exact I.setUnitScale account listing _
  | deleteUnitScale account listing =>
    obtain rfl := Except.ok.inj h
    split
    · exact I
    · exact I.setUnitScale account listing _
  | putOverride action account received =>
    obtain rfl := Except.ok.inj h
    exact I.setOverride action account _
  | deleteOverride action account =>
    obtain rfl := Except.ok.inj h
    split
    · exact I
    · exact I.setOverride action account _
  | insertCount r => exact I.insertCount h
  | putAction a changed =>
    obtain rfl := Except.ok.inj h
    exact I.putAction a changed hspares
  | deleteAction id =>
    obtain rfl := Except.ok.inj h
    exact I.deleteAction id hspares

instance (s : Db) (a : ActionRow) : Decidable (NotBefore s a) := by
  unfold NotBefore
  infer_instance

instance (s : Db) (op : RowOp) : Decidable (Spares s op) := by
  cases op <;> dsimp only [Spares] <;> infer_instance

/-- Whether every row of a write spares the rounded actions it leaves unmarked. -/
def sparesAll (s : Db) : List RowOp → Bool
  | [] => true
  | op :: ops =>
    decide (Spares s op) &&
      match s.apply op with
      | .ok s' => sparesAll s' ops
      | .error _ => true

variable (D checks) in
/-- Whether every write of the sequence does. -/
def sparesThroughout (s : Db) : List (List RowOp) → Bool
  | [] => true
  | ops :: writes =>
    sparesAll s ops &&
      match write D checks s ops with
      | .ok s' => sparesThroughout s' writes
      | .error _ => true

theorem Invariant.applyAll {ops : List RowOp} (I : Invariant D s) (hspares : sparesAll s ops = true)
    (h : applyAll s ops = .ok s') : Invariant D s' := by
  induction ops generalizing s with
  | nil =>
    obtain rfl := Except.ok.inj h
    exact I
  | cons op ops ih =>
    unfold RoundedCounts.applyAll at h
    obtain ⟨mid, hmid, h⟩ := bind_ok h
    obtain ⟨hop, hops⟩ := (Bool.and_eq_true _ _).mp hspares
    rw [hmid] at hops
    exact ih (I.apply (of_decide_eq_true hop) hmid) hops h

/-- Settling moves counts alone, and leaves the listings it visits settled. -/
theorem settleAll_settled {listings : List ListingId} (R : s.Rows)
    (h : settleAll D checks s listings = .ok s') :
    s'.Rows ∧ (∀ l ∈ listings, Settled D s' l) ∧ ∀ l, Settled D s l → Settled D s' l := by
  induction listings generalizing s with
  | nil =>
    obtain rfl := Except.ok.inj h
    exact ⟨R, fun l hl => absurd hl List.not_mem_nil, fun _ hl => hl⟩
  | cons l listings ih =>
    unfold settleAll at h
    obtain ⟨mid, hmid, h⟩ := bind_ok h
    unfold settleListing at hmid
    obtain ⟨mid', hrecompute, hmid⟩ := bind_ok hmid
    obtain ⟨_, -, hmid⟩ := bind_ok hmid
    obtain rfl := Except.ok.inj hmid
    obtain ⟨R', hl, hothers⟩ := recompute_settled R (Checked.mapError_ok.mp hrecompute)
    obtain ⟨R'', hrest, hkeep⟩ := ih R' h
    refine ⟨R'', fun k hk => ?_, fun k hk => hkeep k (hothers k hk)⟩
    rcases List.mem_cons.mp hk with rfl | hk
    · exact hkeep k hl
    · exact hrest k hk

/-- A committed write leaves every listing settled. -/
theorem Invariant.write {ops : List RowOp} (I : Invariant D s) (hspares : sparesAll s ops = true)
    (h : write D checks s ops = .ok s') : Invariant D s' ∧ ∀ l, Settled D s' l := by
  unfold RoundedCounts.write at h
  obtain ⟨applied, happlied, h⟩ := bind_ok h
  obtain ⟨settled, hsettle, h⟩ := bind_ok h
  obtain ⟨_, hsame, h⟩ := bind_ok h
  obtain rfl := Except.ok.inj h
  unfold dbSettle at hsettle
  obtain ⟨counted, hcounted, hsettle⟩ := bind_ok hsettle
  obtain rfl := Except.ok.inj hsettle
  have I' := I.applyAll hspares happlied
  obtain ⟨R, hdirty, hkeep⟩ := settleAll_settled I'.rows hcounted
  have hsettled : ∀ l, Settled D counted l := by
    intro l
    rcases I'.clean l with hl | hclean
    · exact hdirty l (StableSort.mem_sortBy.mpr (List.mem_dedup.mpr hl))
    · exact hkeep l hclean.settled
  have hjoined : ∀ l, Joined counted l := by
    have hsame : ¬ counted.sameListing = false := Checked.refuseIf_ok.mp hsame
    rw [Bool.not_eq_false, Db.sameListing, List.all_eq_true] at hsame
    intro l a ha p hp hl
    have heq := of_decide_eq_true (hsame a ha)
    rw [hp, Option.map_some, Option.map_eq_some_iff] at heq
    obtain ⟨t, ht, htl⟩ := heq
    exact ⟨t, ht, htl.trans hl⟩
  exact ⟨⟨⟨R.trades, R.actions, R.counts, R.counted⟩, fun l => .inr ⟨hsettled l, fun _ => hjoined l⟩⟩, hsettled⟩

theorem invariant_empty : Invariant D .empty ∧ ∀ l, Settled D .empty l := by
  have hsettled : ∀ l, Settled D .empty l := fun l =>
    ⟨[], rfl, fun r hr => absurd hr List.not_mem_nil, fun r hr => absurd hr List.not_mem_nil⟩
  refine ⟨⟨⟨List.nodup_nil, List.nodup_nil, List.nodup_nil, fun r hr => absurd hr List.not_mem_nil⟩,
    fun l => .inr ⟨hsettled l, fun _ a ha => absurd ha List.not_mem_nil⟩⟩, hsettled⟩

theorem Invariant.run {writes : List (List RowOp)} (I : Invariant D s) (hs : ∀ l, Settled D s l)
    (hrun : run D checks s writes = .ok s') (hspares : sparesThroughout D checks s writes = true) :
    Invariant D s' ∧ ∀ l, Settled D s' l := by
  induction writes generalizing s with
  | nil =>
    obtain rfl := Except.ok.inj hrun
    exact ⟨I, hs⟩
  | cons ops writes ih =>
    unfold RoundedCounts.run at hrun
    obtain ⟨mid, hmid, hrun⟩ := bind_ok hrun
    obtain ⟨hops, hrest⟩ := (Bool.and_eq_true _ _).mp hspares
    rw [hmid] at hrest
    obtain ⟨I', hs'⟩ := I.write hops hmid
    exact ih I' hs' hrun hrest

/-- In every committed state the recompute of any listing changes nothing. -/
theorem run_counts_settled (writes : List (List RowOp)) (s : Db)
    (hrun : run D checks .empty writes = .ok s)
    (hspares : sparesThroughout D checks .empty writes = true) :
    ∀ l, recompute D s l = .ok s := by
  obtain ⟨I, hs⟩ := invariant_empty.1.run invariant_empty.2 hrun hspares
  exact fun l => (hs l).recompute I.rows

def splitOf (new old : ℕ) : Kind :=
  if h : 0 < new ∧ 0 < old then
    .shareSplit ⟨new, Nat.cast_pos.mpr h.1⟩ ⟨old, Nat.cast_pos.mpr h.2⟩
  else .other

/-- A parcel of 100 whose 1-for-3 consolidation is rounded down, 20 of it sold
before that. -/
def consolidated : List (List RowOp) := [
  [.setAccountScale 1 (some 0)],
  [.putTrade ⟨1, .buy, 1, ymd 2024 1 2, ymd 2024 1 4, 100, 1⟩],
  [.putAction ⟨7, 1, ymd 2024 6 3, none,
    splitOf 1 3, some .down⟩ false],
  [.putTrade ⟨2, .sell, 1, ymd 2024 2 1, ymd 2024 2 3, 20, 1⟩,
    .insertAllocation ⟨2, 1, .new 20 0⟩]]

/-- A 2-for-1 share split that rounds nothing, as of a date. -/
def doubling (date : NaiveDate) : List RowOp :=
  [.putAction ⟨8, 1, date, none, splitOf 2 1, none⟩ false]

theorem run_counts_settled_consolidated : ∃ s,
    run halfEvenRounding (fun _ _ => true) .empty
      (consolidated ++ [doubling (ymd 2024 9 2)]) = .ok s ∧
        ∀ l, recompute halfEvenRounding s l = .ok s := by
  obtain ⟨s, h⟩ := Checked.exists_ok (x := run halfEvenRounding (fun _ _ => true) .empty
    (consolidated ++ [doubling (ymd 2024 9 2)])) (by decide +kernel)
  exact ⟨s, h, run_counts_settled _ s h (by decide +kernel)⟩

/-- The share split dated before the consolidation leaves its counts behind. -/
theorem run_counts_unsettled : ∃ writes s,
    run halfEvenRounding (fun _ _ => true) .empty writes = .ok s ∧
      ∃ l, recompute halfEvenRounding s l ≠ .ok s := by
  have hmoved : Checked.accepts (run halfEvenRounding (fun _ _ => true) .empty
      (consolidated ++ [doubling (ymd 2024 3 1)])) (fun s =>
        Checked.accepts (recompute halfEvenRounding s 1) fun s' => s'.counts ≠ s.counts) = true := by
    decide +kernel
  obtain ⟨s, h, hs⟩ := Checked.accepts_iff.mp hmoved
  obtain ⟨s', hrecompute, hcounts⟩ := Checked.accepts_iff.mp hs
  refine ⟨_, s, h, 1, fun hsettled => ?_⟩
  obtain rfl := Except.ok.inj (hrecompute.symm.trans hsettled)
  exact of_decide_eq_true hcounts rfl

end Runs

end ShareTracker.RoundedCounts
