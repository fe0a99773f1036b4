import ShareTracker.AmitAdjustments

/-!
Rows stay with their statement's holding. A write to the trades keeps what a
row names or a rollover consumed where it was; the statement's own write does
not look at its rows, so an edit may take it to another holding.
-/
namespace ShareTracker.Amit
open Checked Performance Relation

/-! ### Units carried from a holding -/

/-- A rollover consumed part of `source` and wrote `id` in its place. -/
def Replaces (b : Book) (source id : TradeId) : Prop :=
  ∃ r ∈ b.rollovers, (∃ m ∈ r.moved, m.parcel = source) ∧ ∃ t ∈ r.buys, t.id = id

/-- The parcel is of the holding, or descends by rollover from one that is. -/
def Carries (b : Book) (holding : HoldingKey) (id : TradeId) : Prop :=
  ∃ t ∈ b.trades, t.holding = holding ∧ ReflTransGen (Replaces b) t.id id

/-- Whether the parcel is an acquisition. -/
def Acquired (b : Book) (id : TradeId) : Prop := ∃ t ∈ b.trades, t.id = id ∧ t.isSell = false

section Chains
variable {b : Book}

theorem mem_groupSources_iff {group : Group} {source : TradeId} :
    source ∈ groupSources b group ↔
      ∃ r ∈ b.rollovers, r.group = group ∧ ∃ m ∈ r.moved, m.parcel = source := by
  unfold groupSources
  simp only [List.mem_flatMap, List.mem_filter, decide_eq_true_eq, List.mem_map, and_assoc]

/-- An acquisition with a group is a replacement the rollover of that group wrote. -/
theorem buy_of_group {t : TradeRow} {group : Group} (ht : t ∈ b.trades) (hsell : t.isSell = false)
    (hgroup : t.group = some group) : ∃ r ∈ b.rollovers, r.group = group ∧ t ∈ r.buys := by
  rcases Book.mem_trades.mp ht with ⟨row, -, rfl⟩ | ⟨r, hr, htr⟩
  · cases row.2.symm.trans hgroup
  · refine ⟨r, hr, Option.some.inj ((Rollover.group_of_mem htr).symm.trans hgroup), ?_⟩
    rcases List.mem_cons.mp htr with rfl | hbuy
    · cases hsell
    · exact hbuy

theorem replaces_of_source (hb : Book.Sound b) {id source : TradeId} (hid : Acquired b id)
    (h : source ∈ sources b id) : Replaces b source id ∧ Acquired b source := by
  obtain ⟨t, ht, rfl, hsell⟩ := hid
  have hget : b.trade? t.id = some t := (Book.trade?_eq_some hb).mpr ⟨ht, rfl⟩
  rw [sources, groupCreating, hget, Option.bind_some] at h
  cases hgroup : t.group with
  | none =>
    rw [hgroup] at h
    cases h
  | some group =>
    rw [hgroup] at h
    obtain ⟨r, hr, hrgroup, m, hm, rfl⟩ := mem_groupSources_iff.mp h
    obtain ⟨r', hr', hrgroup', hbuy⟩ := buy_of_group ht hsell hgroup
    obtain rfl : r = r' := Keyed.eq_of_key hb.groups hr hr' (hrgroup.trans hrgroup'.symm)
    obtain ⟨t', ht', hid', hsell', -⟩ := hb.consumed r hr m hm
    exact ⟨⟨r, hr, ⟨m, hm, rfl⟩, t, hbuy, rfl⟩, t', ht', hid', hsell'⟩

/-- A walk up the chain ends at parcels that this one descends from. -/
theorem descends_of_walk (hb : Book.Sound b) {id ancestor : TradeId} (hid : Acquired b id)
    (h : TransGen (fun x y => y ∈ sources b x) id ancestor) :
    TransGen (Replaces b) ancestor id ∧ Acquired b ancestor := by
  induction h with
  | single hstep =>
    obtain ⟨hreplaces, hacquired⟩ := replaces_of_source hb hid hstep
    exact ⟨.single hreplaces, hacquired⟩
  | tail _ hstep ih =>
    obtain ⟨hreplaces, hacquired⟩ := replaces_of_source hb ih.2 hstep
    exact ⟨.head hreplaces ih.1, hacquired⟩

theorem carries_of_tracesBackTo (hb : Book.Sound b) {depth : ℕ} {id : TradeId} {holding : HoldingKey}
    (hid : Acquired b id) (h : tracesBackTo b depth id holding = true) : Carries b holding id := by
  rw [tracesBackTo, List.any_eq_true] at h
  obtain ⟨ancestor, hancestor, h⟩ := h
  obtain ⟨t, hget, hholding⟩ := (Option.any_eq_true _ _).mp h
  obtain ⟨ht, rfl⟩ := (Book.trade?_eq_some hb).mp hget
  obtain ⟨start, hstart, hwalk⟩ := BoundedSearch.reaches_of_mem (StableSort.mem_sortBy.mp hancestor)
  obtain rfl := List.mem_singleton.mp hstart
  exact ⟨t, ht, of_decide_eq_true hholding, (descends_of_walk hb hid hwalk).1.to_reflTransGen⟩

theorem carries_of_holding {t : TradeRow} (ht : t ∈ b.trades) : Carries b t.holding t.id :=
  ⟨t, ht, rfl, .refl⟩

end Chains

/-! ### What a write to the trades keeps -/

/-- An allocation draws on the trade or a row names it. -/
def Desk.Pinned (s : Desk) (id : TradeId) : Prop :=
  s.book.drawnOn id = true ∨ s.adjusted id = true

/-- Pinned acquisitions stay where they are with room for their rows, and the
rollovers that wrote them stay. -/
structure Frames (s : Desk) (b' : Book) : Prop where
  trades : ∀ t ∈ s.book.trades, t.isSell = false → s.Pinned t.id → ∃ t' ∈ b'.trades,
    t'.id = t.id ∧ t'.isSell = false ∧ t'.holding = t.holding ∧
    ∀ a ∈ s.rows, a.trade = t.id → a.quantity ≤ t.quantity → a.quantity ≤ t'.quantity
  rollovers : ∀ r ∈ s.book.rollovers, (∃ t ∈ r.buys, s.Pinned t.id) → r ∈ b'.rollovers

section Frames
variable {s : Desk} {b' : Book}

theorem adjusted_iff {id : TradeId} : s.adjusted id = true ↔ ∃ a ∈ s.rows, a.trade = id := by
  simp only [Desk.adjusted, List.any_eq_true, decide_eq_true_eq]

/-- A pinned parcel's descent is kept: each rollover behind it consumed a pinned parcel. -/
theorem Frames.carries (h : Frames s b') (hs : Book.Sound s.book) {holding : HoldingKey}
    {id : TradeId} (hid : s.Pinned id) (hacquired : Acquired s.book id)
    (hcarries : Carries s.book holding id) : Carries b' holding id := by
  obtain ⟨t, ht, rfl, hreach⟩ := hcarries
  have hkept : ∀ source, ReflTransGen (Replaces s.book) source id →
      ReflTransGen (Replaces b') source id ∧ s.Pinned source ∧ Acquired s.book source := by
    intro source hsource
    induction hsource using ReflTransGen.head_induction_on with
    | refl => exact ⟨.refl, hid, hacquired⟩
    | head hstep _ ih =>
      obtain ⟨r, hr, ⟨m, hm, rfl⟩, buy, hbuy, rfl⟩ := hstep
      obtain ⟨t', ht', hid', hsell', -⟩ := hs.consumed r hr m hm
      have hr' := h.rollovers r hr ⟨buy, hbuy, ih.2.1⟩
      exact ⟨.head ⟨r, hr', ⟨m, hm, rfl⟩, buy, hbuy, rfl⟩ ih.1,
        Or.inl (Book.drawnOn_of_moved hr hm), t', ht', hid', hsell'⟩
  obtain ⟨hreach', hpinned, t', ht', hid', hsell'⟩ := hkept t.id hreach
  obtain rfl := Keyed.eq_of_key hs.ids ht' ht hid'
  obtain ⟨t'', ht'', hid'', -, hholding, -⟩ := h.trades t' ht hsell' hpinned
  exact ⟨t'', ht'', hholding, hid''.symm ▸ hreach'⟩

/-- Trades and rollovers that all stay frame every desk. -/
theorem Frames.of_kept
    (htrades : ∀ t ∈ s.book.trades, t.isSell = false → s.Pinned t.id → t ∈ b'.trades)
    (hrollovers : ∀ r ∈ s.book.rollovers, (∃ t ∈ r.buys, s.Pinned t.id) → r ∈ b'.rollovers) :
    Frames s b' :=
  ⟨fun t ht hsell hid => ⟨t, htrades t ht hsell hid, rfl, hsell, rfl, fun _ _ _ h => h⟩, hrollovers⟩

theorem putTrade_frames {row : Recorded} {draws : List (TradeId × ℚ)} (hs : Book.Sound s.book)
    (hcheck : s.checkTrade (.putTrade row draws) = .ok ())
    (hok : s.book.putTrade row draws = .ok b') : Frames s b' := by
  unfold Desk.checkTrade at hcheck
  obtain ⟨_, hlistingRow, hcheck⟩ := bind_ok hcheck
  obtain ⟨_, haccountRow, hcheck⟩ := bind_ok hcheck
  have hquantity := refuseIf_ok.mp hcheck
  unfold Book.putTrade at hok
  obtain ⟨_, -, hok⟩ := bind_ok hok
  obtain ⟨_, htype, hok⟩ := bind_ok hok
  obtain ⟨_, hlisting, hok⟩ := bind_ok hok
  obtain ⟨_, haccount, hok⟩ := bind_ok hok
  obtain ⟨_, -, hok⟩ := bind_ok hok
  obtain ⟨_, -, hok⟩ := bind_ok hok
  obtain rfl := Except.ok.inj hok
  refine ⟨fun t ht hacquired hpinned => ?_, fun r hr _ => hr⟩
  by_cases hid : t.id = row.1.id
  · -- the row it replaces, whose listing and account are frozen
    have hget : t ∈ s.book.trade? row.1.id := (Book.trade?_eq_some hs).mpr ⟨ht, hid⟩
    rw [hid] at hpinned
    have hlisting : row.1.listing = t.listing := by
      by_contra hne
      rcases hpinned with hdrawn | hadjusted
      · exact refuseIf_ok.mp hlisting ⟨hdrawn, t, hget, Ne.symm hne⟩
      · exact refuseIf_ok.mp hlistingRow ⟨hadjusted, t, hget, Ne.symm hne⟩
    have haccount : row.1.account = t.account := by
      by_contra hne
      rcases hpinned with hdrawn | hadjusted
      · exact refuseIf_ok.mp haccount ⟨hdrawn, t, hget, Ne.symm hne⟩
      · exact refuseIf_ok.mp haccountRow ⟨hadjusted, t, hget, Ne.symm hne⟩
    have hsell : row.1.isSell = false := by
      rw [← hacquired]
      by_contra hne
      exact refuseIf_ok.mp htype ⟨t, hget, Ne.symm hne⟩
    refine ⟨row.1, Book.mem_trades.mpr (Or.inl ⟨row, Keyed.mem_put.mpr (Or.inr rfl), rfl⟩), hid.symm,
      hsell, congrArg₂ Prod.mk hlisting haccount, fun a ha htrade _ => ?_⟩
    by_contra hlt
    exact hquantity ⟨a, ha, htrade.trans hid, not_le.mp hlt⟩
  · refine ⟨t, Book.mem_trades.mpr ((Book.mem_trades.mp ht).imp_left ?_), rfl, hacquired, rfl,
      fun _ _ _ h => h⟩
    rintro ⟨row', hrow', rfl⟩
    exact ⟨row', Keyed.mem_put.mpr (Or.inl ⟨hrow', hid⟩), rfl⟩

theorem deleteTrade_frames {id : TradeId} (hcheck : s.checkTrade (.deleteTrade id) = .ok ())
    (hok : s.book.deleteTrade id = .ok b') : Frames s b' := by
  have hadjusted := refuseIf_ok.mp hcheck
  unfold Book.deleteTrade at hok
  obtain ⟨_, -, hok⟩ := bind_ok hok
  obtain ⟨_, -, hok⟩ := bind_ok hok
  obtain ⟨_, hdrawn, hok⟩ := bind_ok hok
  obtain rfl := Except.ok.inj hok
  refine .of_kept (fun t ht _ hpinned => ?_) fun r hr _ => hr
  have hne : t.id ≠ id := by
    rintro rfl
    exact hpinned.elim (refuseIf_ok.mp hdrawn) hadjusted
  refine Book.mem_trades.mpr ((Book.mem_trades.mp ht).imp_left ?_)
  rintro ⟨row, hrow, rfl⟩
  exact ⟨row, List.mem_filter.mpr ⟨hrow, decide_eq_true hne⟩, rfl⟩

theorem writeRollover_frames {r : Rollover} (hok : s.book.writeRollover r = .ok b') : Frames s b' := by
  unfold Book.writeRollover at hok
  obtain ⟨_, -, hok⟩ := bind_ok hok
  obtain ⟨_, -, hok⟩ := bind_ok hok
  obtain rfl := Except.ok.inj hok
  refine .of_kept (fun t ht _ _ => Book.mem_trades.mpr ((Book.mem_trades.mp ht).imp_right ?_))
    fun r' hr' _ => List.mem_append_left _ hr'
  rintro ⟨r', hr', htr'⟩
  exact ⟨r', List.mem_append_left _ hr', htr'⟩

theorem transfer_frames {body : Book.TransferBody} (hok : s.book.transfer body = .ok b') :
    Frames s b' := by
  unfold Book.transfer at hok
  obtain ⟨_, -, hok⟩ := bind_ok hok
  obtain ⟨_, -, hok⟩ := bind_ok hok
  obtain ⟨_, -, hok⟩ := bind_ok hok
  exact writeRollover_frames hok

theorem substitute_frames {kind : GroupKind} {terms : Book.Terms}
    (hok : s.book.substitute kind terms = .ok b') : Frames s b' := by
  unfold Book.substitute at hok
  obtain ⟨_, -, hok⟩ := bind_ok hok
  obtain ⟨_, -, hok⟩ := bind_ok hok
  obtain ⟨_, -, hok⟩ := bind_ok hok
  exact writeRollover_frames hok

theorem undo_frames {group : Group} (hcheck : s.checkTrade (.undo group) = .ok ())
    (hok : s.book.undo group = .ok b') : Frames s b' := by
  have hadjusted := refuseIf_ok.mp hcheck
  unfold Book.undo at hok
  obtain ⟨_, -, hok⟩ := bind_ok hok
  obtain ⟨_, hdrawn, hok⟩ := bind_ok hok
  obtain rfl := Except.ok.inj hok
  have hdrawn := refuseIf_ok.mp hdrawn
  -- nothing pins a replacement of the group taken back
  have hfree : ∀ r ∈ s.book.rollovers, (∃ t ∈ r.buys, s.Pinned t.id) → r.group ≠ group := by
    rintro r hr ⟨t, ht, hpinned⟩ hgroup
    rcases hpinned with hd | ha
    · exact hdrawn ⟨r, hr, hgroup, t, ht, hd⟩
    · exact hadjusted ⟨r, hr, hgroup, t, ht, ha⟩
  refine .of_kept (fun t ht hsell hpinned => ?_) fun r hr hbuys =>
    List.mem_filter.mpr ⟨hr, decide_eq_true (hfree r hr hbuys)⟩
  refine Book.mem_trades.mpr ((Book.mem_trades.mp ht).imp_right ?_)
  rintro ⟨r, hr, htr⟩
  have hbuy : t ∈ r.buys := by
    rcases List.mem_cons.mp htr with rfl | hbuy
    · cases hsell
    · exact hbuy
  exact ⟨r, List.mem_filter.mpr ⟨hr, decide_eq_true (hfree r hr ⟨t, hbuy, hpinned⟩)⟩, htr⟩

theorem step_frames {w : Book.Write} (hs : Book.Sound s.book) (hcheck : s.checkTrade w = .ok ())
    (hok : s.book.step w = .ok b') : Frames s b' := by
  cases w with
  | putTrade row draws => exact putTrade_frames hs hcheck hok
  | deleteTrade id => exact deleteTrade_frames hcheck hok
  | transfer body => exact transfer_frames hok
  | exchange terms =>
    have hok : s.book.substitute .scrip terms = .ok b' := hok
    exact substitute_frames hok
  | demerge terms =>
    have hok : s.book.substitute .demerger _ = .ok b' := hok
    exact substitute_frames hok
  | undo group => exact undo_frames hcheck hok
  | putIncome _ | deleteIncome _ | putSplits _ =>
    obtain rfl := Except.ok.inj hok
    exact .of_kept (fun _ ht _ _ => ht) fun _ hr _ => hr

end Frames

/-! ### Every write -/

/-- Each row names an acquisition of its statement's holding, or one that
descends from it, covers no more than it and is its statement's only row there. -/
structure Desk.Paired (s : Desk) : Prop where
  parcels : ∀ a ∈ s.rows, ∃ t ∈ s.book.trades, t.id = a.trade ∧ t.isSell = false ∧
    a.quantity ≤ t.quantity
  holdings : ∀ a ∈ s.rows, ∃ st ∈ s.statements, st.id = a.statement ∧
    Carries s.book st.holding a.trade
  alone : (s.rows.map Adjustment.pair).Nodup

/-- What every write keeps. -/
structure Desk.Sound (s : Desk) : Prop extends s.Paired where
  book : Book.Sound s.book
  statements : (s.statements.map AmmaStatement.id).Nodup

/-- Whether an edit of a statement leaves the parcels of its rows of its
holding, or traced back to it through the rollovers recorded. -/
def statementKeepsRows (s : Desk) : Desk.Write → Bool
  | .putStatement st _ => s.rows.all fun a =>
    a.statement ≠ st.id ||
      ((s.book.trade? a.trade).any fun t => t.holding = st.holding) ||
      tracesBackTo s.book s.book.rollovers.length a.trade st.holding
  | _ => true

namespace Desk
variable {s s' : Desk}

theorem sound_empty : empty.Sound where
  parcels := nofun
  holdings := nofun
  alone := List.nodup_nil
  book := Book.sound_empty
  statements := List.nodup_nil

theorem Paired.acquired (hs : s.Paired) {a : Adjustment} (ha : a ∈ s.rows) :
    Acquired s.book a.trade :=
  (hs.parcels a ha).imp fun _ h => ⟨h.1, h.2.1, h.2.2.1⟩

theorem writeTrades_sound {w : Book.Write} (hs : s.Sound) (hok : s.writeTrades w = .ok s') :
    s'.Sound := by
  unfold writeTrades at hok
  obtain ⟨_, hcheck, hok⟩ := bind_ok hok
  obtain ⟨b', hstep, hok⟩ := bind_ok hok
  obtain rfl := Except.ok.inj hok
  have hstep := mapError_ok.mp hstep
  have hframes := step_frames hs.book hcheck hstep
  have hpinned : ∀ a ∈ s.rows, s.Pinned a.trade := fun a ha => Or.inr (adjusted_iff.mpr ⟨a, ha, rfl⟩)
  refine { hs with
    book := Book.step_sound hs.book hstep, parcels := fun a ha => ?_, holdings := fun a ha => ?_ }
  · obtain ⟨t, ht, hid, hsell, hquantity⟩ := hs.parcels a ha
    obtain ⟨t', ht', hid', hsell', -, hroom⟩ := hframes.trades t ht hsell (hid ▸ hpinned a ha)
    exact ⟨t', ht', hid'.trans hid, hsell', hroom a ha hid.symm hquantity⟩
  · obtain ⟨st, hst, hid, hcarries⟩ := hs.holdings a ha
    exact ⟨st, hst, hid,
      hframes.carries hs.book (hpinned a ha) (hs.toPaired.acquired ha) hcarries⟩

theorem putStatement_sound {st : AmmaStatement} {listingCurrency : Option CurrencyCode}
    (hs : s.Sound) (hkeeps : statementKeepsRows s (.putStatement st listingCurrency) = true)
    (hok : s.putStatement st listingCurrency = .ok s') : s'.Sound := by
  unfold putStatement at hok
  obtain ⟨_, -, hok⟩ := bind_ok hok
  obtain rfl := Except.ok.inj hok
  refine { hs with statements := Keyed.nodup_put hs.statements st, holdings := fun a ha => ?_ }
  obtain ⟨old, hold, hid, hcarries⟩ := hs.holdings a ha
  by_cases hedited : a.statement = st.id
  · refine ⟨st, Keyed.mem_put.mpr (Or.inr rfl), hedited.symm, ?_⟩
    have hkept := List.all_eq_true.mp hkeeps a ha
    rw [Bool.or_eq_true, Bool.or_eq_true, decide_eq_true_eq, or_assoc] at hkept
    rcases hkept.resolve_left (not_not.mpr hedited) with hheld | htraced
    · obtain ⟨t, hget, hholding⟩ := (Option.any_eq_true _ _).mp hheld
      obtain ⟨ht, hidt⟩ := (Book.trade?_eq_some hs.book).mp hget
      exact of_decide_eq_true hholding ▸ hidt ▸ carries_of_holding ht
    · exact carries_of_tracesBackTo hs.book (hs.toPaired.acquired ha) htraced
  · exact ⟨old, Keyed.mem_put.mpr (Or.inl ⟨hold, hid ▸ hedited⟩), hid, hcarries⟩

theorem deleteStatement_sound {id : ℤ} (hs : s.Sound) (hok : s.deleteStatement id = .ok s') :
    s'.Sound := by
  unfold deleteStatement at hok
  obtain ⟨_, -, hok⟩ := bind_ok hok
  obtain ⟨_, hfree, hok⟩ := bind_ok hok
  obtain rfl := Except.ok.inj hok
  refine { hs with statements := Keyed.nodup_filter hs.statements _, holdings := fun a ha => ?_ }
  obtain ⟨st, hst, hid, hcarries⟩ := hs.holdings a ha
  refine ⟨st, List.mem_filter.mpr ⟨hst, decide_eq_true fun heq => ?_⟩, hid, hcarries⟩
  exact refuseIf_ok.mp hfree ⟨a, ha, hid.symm.trans heq⟩

/-- What the checks of a row find. -/
theorem checkRow_ok {id : Option ℤ} {body : AdjustmentBody} (hs : s.Sound)
    (hok : s.checkRow id body = .ok ()) :
    (∃ t ∈ s.book.trades, t.id = body.trade ∧ t.isSell = false ∧ body.quantity ≤ t.quantity) ∧
      (∃ st ∈ s.statements, st.id = body.statement ∧ Carries s.book st.holding body.trade) ∧
      ∀ a ∈ s.rows, a.pair = (body.statement, body.trade) → some a.id = id := by
  unfold checkRow at hok
  obtain ⟨t, hget, hok⟩ := bind_ok hok
  obtain ⟨_, hsell, hok⟩ := bind_ok hok
  obtain ⟨st, hst, hok⟩ := bind_ok hok
  obtain ⟨_, hholding, hok⟩ := bind_ok hok
  obtain ⟨_, hquantity, hok⟩ := bind_ok hok
  obtain ⟨_, -, hok⟩ := bind_ok hok
  obtain ⟨_, -, hok⟩ := bind_ok hok
  obtain ⟨ht, hid⟩ := (Book.trade?_eq_some hs.book).mp (orRefuse_ok.mp hget)
  obtain ⟨hst, hstid⟩ := (Keyed.get?_eq_some hs.statements).mp (orRefuse_ok.mp hst)
  have hsell : t.isSell = false := by simpa using refuseIf_ok.mp hsell
  refine ⟨⟨t, ht, hid, hsell, not_lt.mp (refuseIf_ok.mp hquantity)⟩, ⟨st, hst, hstid, ?_⟩, ?_⟩
  · by_cases hown : t.holding = st.holding
    · exact hown ▸ hid ▸ carries_of_holding ht
    · have htraced : tracesBackTo s.book maxRolloverDepth body.trade st.holding = true := by
        by_contra hnot
        exact refuseIf_ok.mp hholding ⟨hown, Bool.eq_false_of_not_eq_true hnot⟩
      exact carries_of_tracesBackTo hs.book ⟨t, ht, hid, hsell⟩ htraced
  · intro a ha hpair
    by_contra hne
    exact refuseIf_ok.mp hok ⟨a, ha, congrArg Prod.fst hpair, congrArg Prod.snd hpair, hne⟩

/-- A row that passed its checks joins rows that are none of them its pair. -/
theorem Sound.add_row {id : Option ℤ} {body : AdjustmentBody} (hs : s.Sound)
    (hok : s.checkRow id body = .ok ()) {kept : List Adjustment} (hkept : kept.Sublist s.rows)
    (hnone : ∀ a ∈ kept, some a.id ≠ id) (newId lastRow : ℤ) :
    ({ s with
        rows := kept ++ [⟨newId, body.statement, body.trade, body.quantity⟩]
        lastRow := lastRow } : Desk).Sound := by
  obtain ⟨hparcel, hholding, hdup⟩ := checkRow_ok hs hok
  refine { hs with parcels := fun a ha => ?_, holdings := fun a ha => ?_, alone := ?_ }
  · rcases List.mem_append.mp ha with hold | hnew
    · exact hs.parcels a (hkept.subset hold)
    · obtain rfl := List.mem_singleton.mp hnew
      exact hparcel
  · rcases List.mem_append.mp ha with hold | hnew
    · exact hs.holdings a (hkept.subset hold)
    · obtain rfl := List.mem_singleton.mp hnew
      exact hholding
  · rw [List.map_append, List.map_singleton, List.nodup_append]
    refine ⟨hs.alone.sublist (hkept.map _), List.nodup_singleton _, fun p hp q hq heq => ?_⟩
    obtain ⟨a, ha, rfl⟩ := List.mem_map.mp hp
    rw [List.mem_singleton.mp hq] at heq
    exact hnone a ha (hdup a (hkept.subset ha) heq)

theorem putRow_sound {id : ℤ} {body : AdjustmentBody} (hs : s.Sound)
    (hok : s.putRow id body = .ok s') : s'.Sound := by
  unfold putRow at hok
  obtain ⟨_, hcheck, hok⟩ := bind_ok hok
  obtain rfl := Except.ok.inj hok
  refine hs.add_row hcheck List.filter_sublist (fun a ha heq => ?_) id (max s.lastRow id)
  exact of_decide_eq_true (List.mem_filter.mp ha).2 (Option.some.inj heq)

theorem insertRow_sound {body : AdjustmentBody} (hs : s.Sound) (hok : s.insertRow body = .ok s') :
    s'.Sound := by
  unfold insertRow at hok
  obtain ⟨_, hcheck, hok⟩ := bind_ok hok
  obtain rfl := Except.ok.inj hok
  exact hs.add_row hcheck (List.Sublist.refl _) (fun _ _ => nofun) _ _

/-- Fewer rows. -/
theorem Sound.filter_rows (hs : s.Sound) (keep : Adjustment → Bool) :
    ({ s with rows := s.rows.filter keep } : Desk).Sound :=
  { hs with
    parcels := fun a ha => hs.parcels a (List.mem_filter.mp ha).1
    holdings := fun a ha => hs.holdings a (List.mem_filter.mp ha).1
    alone := hs.alone.sublist (List.filter_sublist.map _) }

theorem foldlM_insertRow_sound {statement : ℤ} {placed : List (TradeId × ℚ)} (hs : s.Sound)
    (hok : placed.foldlM (fun s p => s.insertRow ⟨statement, p.1, p.2⟩) s = .ok s') : s'.Sound := by
  induction placed generalizing s with
  | nil =>
    obtain rfl : s = s' := Except.ok.inj hok
    exact hs
  | cons p placed ih =>
    rw [List.foldlM_cons] at hok
    obtain ⟨m, hm, hok⟩ := bind_ok hok
    exact ih (insertRow_sound hs hm) hok

theorem generate_sound {statement : ℤ} {replace : Bool} {placed : List (TradeId × ℚ)} (hs : s.Sound)
    (hok : s.generate statement replace placed = .ok s') : s'.Sound := by
  unfold generate at hok
  obtain ⟨_, -, hok⟩ := bind_ok hok
  obtain ⟨_, -, hok⟩ := bind_ok hok
  obtain ⟨_, -, hok⟩ := bind_ok hok
  exact foldlM_insertRow_sound (hs.filter_rows _) hok

theorem step_sound {w : Write} (hs : s.Sound) (hkeeps : statementKeepsRows s w = true)
    (hok : s.step w = .ok s') : s'.Sound := by
  cases w with
  | trades w => exact writeTrades_sound hs hok
  | putStatement st listingCurrency => exact putStatement_sound hs hkeeps hok
  | deleteStatement id => exact deleteStatement_sound hs hok
  | putRow id body => exact putRow_sound hs hok
  | insertRow body => exact insertRow_sound hs hok
  | deleteRow id =>
    obtain rfl := Except.ok.inj hok
    exact hs.filter_rows _
  | generate statement replace placed => exact generate_sound hs hok

/-- What the cost base of a parcel takes from statements comes from those of its
holding, or of holdings it descends from. -/
theorem Paired.reductionRows (hs : s.Paired) (hids : (s.statements.map AmmaStatement.id).Nodup)
    {id : TradeId} {row : AmitAdjustment} (hrow : row ∈ s.reductionRows id) :
    ∃ st ∈ s.statements, st.id = row.ammaStatementId ∧ Carries s.book st.holding id := by
  obtain ⟨a, ha, hread⟩ := List.mem_filterMap.mp hrow
  obtain ⟨ha, htrade⟩ := List.mem_filter.mp ha
  obtain ⟨st, hst, hid, hcarries⟩ := hs.holdings a ha
  rw [statement?, (Keyed.get?_eq_some hids).mpr ⟨hst, hid⟩] at hread
  obtain rfl := Option.some.inj hread
  exact ⟨st, hst, rfl, of_decide_eq_true htrade ▸ hcarries⟩

/-- In a run whose edits of statements leave their rows' parcels of the edited
holding, or descending from it, every row stays with its statement's holding. -/
theorem adjustments_stay_with_holding {ws : List Write}
    (hmeets : GuardedRun.meets step statementKeepsRows empty ws = true) (hrun : run empty ws = .ok s) :
    s.Paired ∧ ∀ id, ∀ row ∈ s.reductionRows id,
      ∃ st ∈ s.statements, st.id = row.ammaStatementId ∧ Carries s.book st.holding id := by
  have hs : s.Sound :=
    GuardedRun.invariant (fun _ _ _ hs hkeeps hok => step_sound hs hkeeps hok) sound_empty hmeets hrun
  exact ⟨hs.toPaired, fun _ _ hrow => hs.toPaired.reductionRows hs.statements hrow⟩

/-! ### A statement edited away from its rows -/

/-- A purchase of the fund's units in the first account. -/
def samplePurchase : Recorded := ⟨⟨1, 10, 1, ymd 2023 8 1, false, 5, 100, 10, 0, ⟨"AUD"⟩, 1, none, none,
  none, none, none⟩, rfl⟩

def sampleStatement (account : HoldingAccountId) (yearEnd : NaiveDate) : AmmaStatement where
  id := 1
  listing := 10
  taxYearEndDate := yearEnd
  unitsHeld := 100
  dateReceived := ymd 2024 8 20
  australianInterest := 12
  australianDividendsUnfranked := 0
  frankedDividends := 40
  frankingCredits := 17
  netRent := 0
  foreignIncome := 0
  foreignTaxCredits := 0
  foreignTaxCreditsCapitalGains := 0
  otherIncome := 0
  cgtDiscountGains := 0
  cgtIndexationGains := 0
  cgtOtherGains := 0
  capitalLossesApplied := 0
  taxDeferredAmount := 0
  taxFreeAmount := 0
  costBaseAdjustment := 1 / 5
  tfnWithholdingTax := 0
  currency := ⟨"AUD"⟩
  holdingAccount := account

def moveAccount : Book.TransferBody :=
  ⟨1, ymd 2024 7 10, 10, 1, 2, ⟨"AUD"⟩, 2, [⟨1, 100, 3, 510⟩]⟩

/-- A row on the parcel a transfer replaced the purchase by, and the statement's
year end corrected afterwards. -/
def carriedRun : List Write :=
  [.trades (.putTrade samplePurchase []), .putStatement (sampleStatement 1 (ymd 2023 6 30)) (some ⟨"AUD"⟩),
    .trades (.transfer moveAccount), .insertRow ⟨1, 3, 100⟩,
    .putStatement (sampleStatement 1 (ymd 2024 6 30)) (some ⟨"AUD"⟩)]

theorem adjustments_stay_with_holding_transferred : ∃ s, run empty carriedRun = .ok s ∧ s.Paired := by
  obtain ⟨s, hs⟩ := exists_ok (x := run empty carriedRun) (by decide)
  exact ⟨s, hs, (adjustments_stay_with_holding (by decide) hs).1⟩

/-- A row whose parcel is of another holding than its statement, no rollover recorded. -/
def misplaced (s : Desk) : Bool :=
  s.book.rollovers.isEmpty && s.rows.any fun a => s.statements.all fun st =>
    st.id ≠ a.statement || s.book.trades.all fun t => t.id ≠ a.trade || t.holding ≠ st.holding

theorem not_paired (h : s.misplaced = true) : ¬ s.Paired := by
  intro hpaired
  obtain ⟨hnone, hrow⟩ := (Bool.and_eq_true _ _).mp h
  obtain ⟨a, ha, hall⟩ := List.any_eq_true.mp hrow
  obtain ⟨st, hst, hid, t, ht, hholding, hreach⟩ := hpaired.holdings a ha
  have hown : t.id = a.trade := by
    rcases hreach.cases_tail with heq | ⟨source, -, r, hr, -⟩
    · exact heq.symm
    · rw [List.isEmpty_iff.mp hnone] at hr
      cases hr
  have hapart := List.all_eq_true.mp hall st hst
  rw [Bool.or_eq_true, decide_eq_true_eq] at hapart
  have hapart := List.all_eq_true.mp (hapart.resolve_left (not_not.mpr hid)) t ht
  rw [Bool.or_eq_true, decide_eq_true_eq, decide_eq_true_eq] at hapart
  exact hapart.elim (fun h => h hown) fun h => h hholding

/-- The statement moved to the other account, its row on the first one's parcel. -/
def leftRun : List Write :=
  [.trades (.putTrade samplePurchase []),
    .putStatement (sampleStatement 1 (ymd 2024 6 30)) (some ⟨"AUD"⟩), .insertRow ⟨1, 1, 100⟩,
    .putStatement (sampleStatement 2 (ymd 2024 6 30)) (some ⟨"AUD"⟩)]

theorem edited_statement_leaves_row : ∃ s, run empty leftRun = .ok s ∧ ¬ s.Paired := by
  have hleft : accepts (run empty leftRun) misplaced = true := by decide
  obtain ⟨s, hs, hmisplaced⟩ := accepts_iff.mp hleft
  exact ⟨s, hs, not_paired hmisplaced⟩

end Desk
end ShareTracker.Amit
