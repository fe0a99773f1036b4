import ShareTracker.SettledCounts

/-!
A Sell written behind a listing's rounded actions. An action's counts read the
sales before its date alone: the recompute the Sell triggers stores again what is
stored of the actions dated up to it.
-/
namespace ShareTracker.RoundedCounts

/-! ### Facts that differ in later sales -/

/-- The same facts, but for sales dated `bound` and later. -/
structure Facts.AlikeBefore (F F' : Facts) (bound : NaiveDate) : Prop where
  parcels : F'.parcels = F.parcels
  scale : F'.scale = F.scale
  received : F'.received = F.received
  sales : ∀ parcel, ∀ date ≤ bound,
    (F'.sales parcel).filter (fun sale => sale.units.basis < date) =
      (F.sales parcel).filter fun sale => sale.units.basis < date

section Before
variable {D : DecimalRounding} {F F' : Facts} {bound : NaiveDate} {done : List Done}
  {a : ActionRow}

theorem roundAction_before (h : F.AlikeBefore F' bound) (ha : a.date ≤ bound) (event : SplitEvent)
    (rule : Rounding) (prior : TradeId → Option Prior) :
    roundAction D F' done a event rule prior = roundAction D F done a event rule prior := by
  have htasks : ∀ stood, tasks F' a rule stood = tasks F a rule stood := by
    intro stood
    unfold tasks holdingTask
    rw [h.received]
  unfold roundAction
  rw [h.parcels, standAll_congr fun p _ => h.sales p.id a.date ha, h.scale]
  simp only [htasks]

/-- A pass asks for the same rows of the actions up to the date. -/
theorem desired_before {prior : ℤ → TradeId → Option Prior} {actions : List ActionRow}
    {rows rows' : List CountRow} (h : F.AlikeBefore F' bound)
    (hparcels : (F.parcels.map (·.id)).Nodup)
    (hsorted : actions.Pairwise fun a b => a.date ≤ b.date)
    (hids : (actions.map ActionRow.id).Nodup)
    (hrows : desired D F prior done actions = .ok rows)
    (hrows' : desired D F' prior done actions = .ok rows') (ha : a ∈ actions)
    (hle : a.date ≤ bound) {r : CountRow} (hr : r.action = a.id) : r ∈ rows' ↔ r ∈ rows := by
  induction actions generalizing done rows rows' with
  | nil => exact absurd ha List.not_mem_nil
  | cons b actions ih =>
    obtain ⟨hfirst, hsorted⟩ := List.pairwise_cons.mp hsorted
    obtain ⟨hnew, hids⟩ := List.nodup_cons.mp hids
    have hb : b.date ≤ bound := by
      rcases List.mem_cons.mp ha with rfl | ha
      · exact hle
      · exact (hfirst a ha).trans hle
    have hrest : ∀ {done rest rest'}, desired D F prior done actions = .ok rest →
        desired D F' prior done actions = .ok rest' → (r ∈ rest' ↔ r ∈ rest) := by
      intro done rest rest' hrest hrest'
      rcases List.mem_cons.mp ha with rfl | ha
      · -- what is asked for later is of other actions
        have hlater : ∀ {G rest}, (G.parcels.map (·.id)).Nodup →
            desired D G prior done actions = .ok rest → r ∉ rest := by
          intro G rest hG hasked hmem
          obtain ⟨⟨c, hc, -, hid⟩, -⟩ := desired_rows hG hasked r hmem
          exact hnew (hr ▸ hid ▸ List.mem_map_of_mem hc)
        exact iff_of_false (hlater (h.parcels ▸ hparcels) hrest') (hlater hparcels hrest)
      · exact ih hsorted hids hrest hrest' ha
    rcases desired_cons hrows with ⟨hrounded, hrows⟩ |
      ⟨event, rule, counts, rest, he, hrule, hcounts, hrest₀, rfl⟩
    · rw [desired_cons_unrounded hrounded] at hrows'
      exact hrest hrows hrows'
    · rw [desired_cons_rounded he hrule, roundAction_before h hb, hcounts] at hrows'
      obtain ⟨_, hsame, hrows'⟩ := bind_ok hrows'
      obtain rfl := Except.ok.inj hsame
      obtain ⟨rest', hrest', hrows'⟩ := bind_ok hrows'
      obtain rfl := Except.ok.inj hrows'
      rw [List.mem_append, List.mem_append, hrest hrest₀ hrest']

end Before

/-! ### The rows of a Sell -/

/-- The rows a new Sell from one parcel writes. -/
def sellOps (sell : TradeRow) (parcel : TradeId) (quantity : Decimal) : List RowOp :=
  [.putTrade sell, .insertAllocation ⟨sell.id, parcel, quantity⟩]

/-- A Sell's rows are written, and marks; nothing else is. -/
structure SellAdded (b b' : Db) (sell : TradeRow) (drawn : ParcelAllocation) : Prop where
  trades : b'.trades = Keyed.put TradeRow.id b.trades sell
  allocations : b'.allocations = b.allocations ++ [drawn]
  actions : b'.actions = b.actions
  counts : b'.counts = b.counts
  overrides : b'.overrides = b.overrides
  unitScale : b'.unitScale = b.unitScale

section Sell
variable {b b' : Db} {sell : TradeRow} {parcel : TradeId} {quantity : Decimal}
  {drawn : ParcelAllocation} {l : ListingId}

theorem applyAll_sellOps (h : applyAll b (sellOps sell parcel quantity) = .ok b') :
    SellAdded b b' sell ⟨sell.id, parcel, quantity⟩ := by
  unfold sellOps applyAll at h
  obtain ⟨put, hput, h⟩ := bind_ok h
  obtain rfl := Except.ok.inj hput
  unfold applyAll at h
  obtain ⟨inserted, hinserted, h⟩ := bind_ok h
  obtain rfl := Except.ok.inj h
  have hinserted : (b.putTrade sell).insertAllocation ⟨sell.id, parcel, quantity⟩ = .ok inserted :=
    hinserted
  unfold Db.insertAllocation at hinserted
  obtain ⟨_, -, hinserted⟩ := bind_ok hinserted
  obtain rfl := Except.ok.inj hinserted
  obtain ⟨hactions, hcounts, hallocations, hoverrides, hscale⟩ := b.putTrade_rest sell
  exact ⟨b.putTrade_trades sell, congrArg (· ++ _) hallocations, hactions, hcounts, hoverrides,
    hscale⟩

theorem SellAdded.parcels (h : SellAdded b b' sell drawn) (hsell : sell.tradeType = .sell)
    (hfresh : b.trade? sell.id = none) : b'.parcels l = b.parcels l := by
  have hkept : b.trades.filter (fun t => t.id ≠ sell.id) = b.trades := by
    refine List.filter_eq_self.mpr fun t ht => ?_
    have hother := List.find?_eq_none.mp hfresh t ht
    simpa using hother
  unfold Db.parcels
  rw [h.trades, Keyed.put, hkept, List.filter_append, List.filter_singleton, hsell]
  simp [TradeType.isAcquisition]

theorem SellAdded.trade? (h : SellAdded b b' sell drawn) (R : b.Rows) {id : TradeId}
    (hne : id ≠ sell.id) : b'.trade? id = b.trade? id := by
  unfold Db.trade?
  rw [h.trades]
  exact Keyed.get?_put_ne R.trades hne

/-- Before its date a Sell is not read. -/
theorem SellAdded.sales (h : SellAdded b b' sell drawn) (R : b.Rows)
    (hdrawn : drawn.sale = sell.id) (hfresh : b.trade? sell.id = none) (p : TradeId)
    {date : NaiveDate} (hdate : date ≤ sell.date) :
    (b'.sales p).filter (fun sale => sale.units.basis < date) =
      (b.sales p).filter fun sale => sale.units.basis < date := by
  let read : Db → ParcelAllocation → Option Sale := fun s a =>
    ((s.trade? a.sale).map fun t => ⟨a.sale, ⟨a.quantity, t.date⟩, t.settled⟩ : Option Sale).filter
      fun sale => sale.units.basis < date
  have hread : ∀ s : Db, (s.sales p).filter (fun sale => sale.units.basis < date) =
      (StableSort.sortBy ParcelAllocation.sale
        (s.allocations.filter fun a => a.purchase = p)).filterMap (read s) := by
    intro s
    exact List.filter_filterMap
  have hself : b'.trade? sell.id = some sell := by
    unfold Db.trade?
    rw [h.trades]
    exact Keyed.get?_put_self R.trades _
  have hsame : read b' = read b := by
    funext a
    by_cases ha : a.sale = sell.id
    · simp [read, ha, hself, hfresh, hdate]
    · simp only [read, h.trade? R ha]
  -- the Sell's own allocation reads nothing
  have hnone : ∀ a : ParcelAllocation, ¬ a.sale ≠ sell.id → read b a = none := by
    intro a ha
    simp [read, not_not.mp ha, hfresh]
  have hothers : ∀ rows : List ParcelAllocation,
      (StableSort.sortBy ParcelAllocation.sale rows).filterMap (read b) =
        (StableSort.sortBy ParcelAllocation.sale
          (rows.filter fun a => a.sale ≠ sell.id)).filterMap (read b) := by
    intro rows
    rw [← StableSort.filter_sortBy, List.filterMap_filter]
    refine List.filterMap_congr fun a _ => ?_
    by_cases ha : a.sale ≠ sell.id
    · rw [if_pos (decide_eq_true ha)]
    · rw [hnone a ha, ite_self]
  have hgone : ([drawn].filter fun a => a.purchase = p).filter (fun a => a.sale ≠ sell.id) = [] := by
    refine List.filter_eq_nil_iff.mpr fun a ha => ?_
    obtain rfl := List.mem_singleton.mp (List.mem_of_mem_filter ha)
    simp [hdrawn]
  rw [hread, hread, hsame, h.allocations, hothers, List.filter_append, List.filter_append, hgone,
    List.append_nil, ← hothers]

theorem SellAdded.alikeBefore (h : SellAdded b b' sell drawn) (R : b.Rows)
    (hdrawn : drawn.sale = sell.id) (hsell : sell.tradeType = .sell)
    (hfresh : b.trade? sell.id = none) (l : ListingId) :
    (b.facts l).AlikeBefore (b'.facts l) sell.date where
  parcels := h.parcels hsell hfresh
  scale := by
    unfold Db.facts
    rw [h.unitScale]
  received := h.overrides
  sales := fun p _ hdate => h.sales R hdrawn hfresh p hdate

/-- The stored rows of an action asked for as they are stay as they are. -/
theorem reconcile_filter {s : Db} {actions : List ℤ} {rows : List CountRow} {i : ℤ}
    (hcounts : (s.counts.map CountRow.key).Nodup) (hrows : (rows.map CountRow.key).Nodup)
    (hi : i ∈ actions) (hsame : ∀ r : CountRow, r.action = i → (r ∈ rows ↔ r ∈ s.counts)) :
    (reconcile s actions rows).counts.filter (fun r => r.action = i) =
      s.counts.filter fun r => r.action = i := by
  have hkept : (s.counts.filterMap fun r => if r.action ∈ actions then
      Keyed.get? CountRow.key rows r.key else some r).filter (fun r => r.action = i) =
        s.counts.filter fun r => r.action = i := by
    rw [List.filter_filterMap, ← List.filterMap_eq_filter]
    refine List.filterMap_congr fun r hr => ?_
    by_cases hri : r.action = i
    · rw [if_pos (hri ▸ hi), (Keyed.get?_eq_some hrows).mpr ⟨(hsame r hri).mpr hr, rfl⟩]
      simp [Option.guard, hri]
    · -- a row rewritten in place keeps its action
      have hother : ∀ q ∈ (if r.action ∈ actions then Keyed.get? CountRow.key rows r.key
          else some r), q.action = r.action := by
        intro q hq
        split at hq
        · exact congrArg Prod.fst ((Keyed.get?_eq_some hrows).mp hq).2
        · exact congrArg CountRow.action (Option.some.inj hq).symm
      have hgone : decide (r.action = i) = false := decide_eq_false hri
      refine (Option.filter_eq_none_iff.mpr fun q hq => ?_).trans (if_neg (by simp [hgone])).symm
      rw [hother q hq, hgone]
      exact Bool.false_ne_true
  have hnew : ((StableSort.sortBy (fun r => toLex r.key) rows).filter fun r =>
      Keyed.get? CountRow.key s.counts r.key = none).filter (fun r => r.action = i) = [] := by
    refine List.filter_eq_nil_iff.mpr fun r hr haction => ?_
    obtain ⟨hr, hnone⟩ := List.mem_filter.mp hr
    have hmem := (hsame r (of_decide_eq_true haction)).mp (StableSort.mem_sortBy.mp hr)
    rw [(Keyed.get?_eq_some hcounts).mpr ⟨hmem, rfl⟩] at hnone
    cases of_decide_eq_true hnone
  unfold reconcile
  rw [List.filter_append, hkept, hnew, List.append_nil]

/-- The recompute a Sell triggers stores what is stored of the actions dated up to it. -/
theorem SellAdded.recompute {D : DecimalRounding} {b'' : Db} (h : SellAdded b b' sell drawn)
    (hdrawn : drawn.sale = sell.id) (hsell : sell.tradeType = .sell)
    (hfresh : b.trade? sell.id = none) (R : b.Rows) (S : Settled D b l)
    (hrecompute : recompute D b' l = .ok b'') {a : ActionRow} (ha : a ∈ b.splitActions l)
    (hdate : a.date ≤ sell.date) :
    b''.counts.filter (fun r => r.action = a.id) = b.counts.filter fun r => r.action = a.id := by
  obtain ⟨rows, hrows, hstored, hasked⟩ := S
  obtain ⟨rows', hrows', rfl⟩ := recompute_ok.mp hrecompute
  have hactions : b'.splitActions l = b.splitActions l := by
    unfold Db.splitActions
    rw [h.actions]
  have hprior : b'.prior = b.prior := by
    funext action parcel
    unfold Db.prior
    rw [h.counts]
  rw [hactions, hprior] at hrows'
  have halike := h.alikeBefore R hdrawn hsell hfresh l
  have hids := R.splitActions_nodup l
  have hsorted : (b.splitActions l).Pairwise fun a b => a.date ≤ b.date := by
    refine (StableSort.sortBy_sorted ActionRow.order _).imp fun {a b} hab => ?_
    rcases Prod.Lex.le_iff.mp hab with hlt | ⟨heq, -⟩
    · exact hlt.le
    · exact heq.le
  have hparcels := R.parcels_nodup l
  have hsame : ∀ r : CountRow, r.action = a.id → (r ∈ rows' ↔ r ∈ b.counts) := by
    intro r hr
    rw [desired_before halike hparcels hsorted hids hrows hrows' ha hdate hr]
    exact ⟨hasked r, fun hmem => hstored r hmem (hr ▸ List.mem_map_of_mem ha)⟩
  have hnodup : (rows'.map CountRow.key).Nodup := by
    refine desired_nodup ?_ hids hrows'
    rw [halike.parcels]
    exact hparcels
  have hkept := reconcile_filter (s := b') (h.counts ▸ R.counts) hnodup (List.mem_map_of_mem ha)
    (h.counts ▸ hsame)
  rw [h.counts] at hkept
  rw [hactions]
  exact hkept

end Sell

end ShareTracker.RoundedCounts
