import ShareTracker.Substitutions

/-!
The internal legs of the performance report: they balance over all holdings,
and stay in the holding whose parcels they came out of wherever nothing is
carried out of another account than the closing Sell's.
-/
namespace ShareTracker.Performance
namespace Book

/-- The rollovers the report covers. -/
def inScope (b : Book) (asOf : NaiveDate) : List Rollover := b.rollovers.filter fun r => r.date ≤ asOf

/-- The trades of no rollover the report covers. -/
def ownTrades (b : Book) (asOf : NaiveDate) : List TradeRow :=
  (b.recorded.map Subtype.val).filter fun t => t.date ≤ asOf

section Legs
variable (b : Book) (fx : FxRates) (asOf : NaiveDate) (r : Rollover)

/-- The AUD cost base the replacements of one parcel carry. -/
def carried (m : Moved) : ℚ := (m.into.map fun p => (b.records fx).cost (r.buy p)).sum

/-- The cost base carried out of exactly the parcels of a holding. -/
def carriedOut (k : HoldingKey) : ℚ :=
  ((r.moved.filter fun m => (b.trade? m.parcel).map TradeRow.holding = some k).map
    (b.carried fx r)).sum

/-- What a rollover brings into all holdings, and into one. -/
def legsIn : ℚ := (r.buys.map (b.records fx).cost).sum

def entering (k : HoldingKey) : ℚ :=
  ((r.buys.filter fun t => t.holding = k).map (b.records fx).cost).sum

/-- What the report takes out of all holdings for a rollover, and out of one. -/
def legsOut : ℚ := (b.records fx).groupCost asOf r.group

def leaving (k : HoldingKey) : ℚ := if r.closing.holding = k then b.legsOut fx asOf r else 0

end Legs

/-- The figures of all holdings less the overall ones are the internal legs,
which sum to nothing; a holding's are its own trades' and the legs' at it. -/
structure LegsBalance (b : Book) (fx : FxRates) (asOf : NaiveDate) (s : Accumulated) : Prop where
  invested : Tally.total Acc.invested s.holdings - s.overall.invested =
    ((b.inScope asOf).map (b.legsIn fx)).sum
  proceeds : Tally.total Acc.proceeds s.holdings - s.overall.proceeds =
    ((b.inScope asOf).map (b.legsOut fx asOf)).sum
  income : Tally.total Acc.income s.holdings - s.overall.income = 0
  balanced : ((b.inScope asOf).map fun r => b.legsOut fx asOf r - b.legsIn fx r).sum = 0
  heldInvested : ∀ k, (s.holding k).invested =
    ((((b.ownTrades asOf).filter fun t => !t.isSell).filter fun t => t.holding = k).map
      (b.records fx).cost).sum + ((b.inScope asOf).map fun r => b.entering fx r k).sum
  heldProceeds : ∀ k, (s.holding k).proceeds =
    ((((b.records fx).sells asOf).filter fun t => t.holding = k).map
      (b.records fx).external).sum + ((b.inScope asOf).map fun r => b.leaving fx asOf r k).sum

/-- What leaves a holding is what its own parcels carried out of it. -/
def LegsStay (b : Book) (fx : FxRates) (asOf : NaiveDate) : Prop :=
  ∀ r ∈ b.inScope asOf, ∀ k, b.leaving fx asOf r k = b.carriedOut fx r k

section Sums
variable {b : Book} {fx : FxRates} {asOf : NaiveDate}

variable (b fx asOf) in
/-- A sum over the covered trades, split into the own ones and the rollovers'. -/
theorem sum_tradesBy (p : TradeRow → Bool) (f : TradeRow → ℚ) :
    ((((b.records fx).tradesBy asOf).filter p).map f).sum =
      (((b.ownTrades asOf).filter p).map f).sum +
        ((b.inScope asOf).map fun r => ((r.rows.filter p).map f).sum).sum := by
  have hrolled : ∀ l : List Rollover,
      ((((l.flatMap Rollover.rows).filter fun t => decide (t.date ≤ asOf)).filter p).map f).sum =
        ((l.filter fun r => r.date ≤ asOf).map fun r => ((r.rows.filter p).map f).sum).sum := by
    intro l
    induction l with
    | nil => rfl
    | cons r l ih =>
      rw [List.flatMap_cons, List.filter_append, List.filter_append, List.map_append,
        List.sum_append, ih, List.filter_cons]
      by_cases hr : r.date ≤ asOf
      · have hall : r.rows.filter (fun t => decide (t.date ≤ asOf)) = r.rows :=
          List.filter_eq_self.mpr fun t ht => decide_eq_true (Rollover.date_of_mem ht ▸ hr)
        rw [hall, if_pos (decide_eq_true hr), List.map_cons, List.sum_cons]
      · have hnone : r.rows.filter (fun t => decide (t.date ≤ asOf)) = [] :=
          List.filter_eq_nil_iff.mpr fun t ht h =>
            hr (Rollover.date_of_mem ht ▸ of_decide_eq_true h)
        rw [hnone, if_neg (by simpa using hr)]
        simp
  change ((((b.recorded.map Subtype.val ++ b.rollovers.flatMap Rollover.rows).filter _).filter p).map
    f).sum = _
  rw [List.filter_append, List.filter_append, List.map_append, List.sum_append, hrolled]
  rfl

theorem rows_buys (r : Rollover) : (r.rows.filter fun t => !t.isSell) = r.buys := by
  rw [Rollover.rows, List.filter_cons]
  exact List.filter_eq_self.mpr fun t ht => by rw [Rollover.buys_isSell ht]; rfl

theorem rows_closing (r : Rollover) : (r.rows.filter fun t => t.isSell) = [r.closing] := by
  have hbuys : (r.buys.filter fun t => t.isSell) = [] :=
    List.filter_eq_nil_iff.mpr fun t ht => by rw [Rollover.buys_isSell ht]; exact Bool.false_ne_true
  rw [Rollover.rows, List.filter_cons, hbuys]
  rfl

theorem ownTrades_group {t : TradeRow} (ht : t ∈ b.ownTrades asOf) : t.group = none := by
  obtain ⟨row, -, rfl⟩ := List.mem_map.mp (List.mem_filter.mp ht).1
  exact row.2

/-- Only the rows of its one rollover have a group. -/
theorem rows_of_group {l : List Rollover} (hl : (l.map Rollover.group).Nodup) {r : Rollover}
    (hr : r ∈ l) : (l.flatMap Rollover.rows).filter (fun t => t.group = some r.group) = r.rows := by
  have hself : ∀ r' : Rollover, r'.group = r.group →
      r'.rows.filter (fun t => decide (t.group = some r.group)) = r'.rows := fun r' h =>
    List.filter_eq_self.mpr fun t ht => decide_eq_true ((Rollover.group_of_mem ht).trans (congrArg some h))
  have hother : ∀ r' : Rollover, r'.group ≠ r.group →
      r'.rows.filter (fun t => decide (t.group = some r.group)) = [] := fun r' h =>
    List.filter_eq_nil_iff.mpr fun t ht hg =>
      h (Option.some.inj ((Rollover.group_of_mem ht).symm.trans (of_decide_eq_true hg)))
  induction l with
  | nil => cases hr
  | cons r' l ih =>
    rw [List.map_cons, List.nodup_cons] at hl
    rw [List.flatMap_cons, List.filter_append]
    rcases List.mem_cons.mp hr with rfl | hmem
    · have hrest : (l.flatMap Rollover.rows).filter (fun t => decide (t.group = some r.group)) = [] := by
        rw [List.filter_eq_nil_iff]
        intro t ht hg
        obtain ⟨r', hr', htr'⟩ := List.mem_flatMap.mp ht
        have hsame := (Rollover.group_of_mem htr').symm.trans (of_decide_eq_true hg)
        exact hl.1 (Option.some.inj hsame ▸ List.mem_map_of_mem hr')
      rw [hself r rfl, hrest, List.append_nil]
    · have hne : r'.group ≠ r.group := fun h => hl.1 (h ▸ List.mem_map_of_mem hmem)
      rw [hother r' hne, List.nil_append]
      exact ih hl.2 hmem

/-- A covered rollover's closing Sell is worth what its replacements cost. -/
theorem legsOut_eq (hs : Sound b) {r : Rollover} (hr : r ∈ b.inScope asOf) :
    b.legsOut fx asOf r = b.legsIn fx r := by
  obtain ⟨hmem, hdate⟩ := List.mem_filter.mp hr
  have hown : (b.recorded.map Subtype.val).filter (fun t => decide (t.group = some r.group)) = [] := by
    rw [List.filter_eq_nil_iff]
    intro t ht hg
    obtain ⟨row, -, rfl⟩ := List.mem_map.mp ht
    exact Option.some_ne_none r.group ((of_decide_eq_true hg).symm.trans row.2)
  have hgroup : b.trades.filter (fun t => decide (t.group = some r.group)) = r.rows := by
    rw [trades, List.filter_append, hown, List.nil_append, rows_of_group hs.groups hmem]
  have hdates : r.rows.filter (fun t => decide (t.date ≤ asOf)) = r.rows :=
    List.filter_eq_self.mpr fun t ht => by rw [Rollover.date_of_mem ht]; exact hdate
  unfold legsOut legsIn Records.groupCost Records.acquisitions Records.tradesBy
  rw [List.filter_comm, List.filter_comm (p := fun t : TradeRow => decide (t.group = some r.group))]
  change (((((b.trades.filter _).filter _).filter _)).map _).sum = _
  rw [hgroup, hdates, rows_buys]

/-! ### The report's figures -/

variable {s : Accumulated}

theorem map_congr_sum {α : Type} {f g : α → ℚ} {l : List α} (h : ∀ a ∈ l, f a = g a) :
    (l.map f).sum = (l.map g).sum := by rw [List.map_congr_left h]

theorem invested_less_overall (h : Records.Accounts (b.records fx) asOf s) :
    Tally.total Acc.invested s.holdings - s.overall.invested =
      ((b.inScope asOf).map (b.legsIn fx)).sum := by
  have htotal := h.invested.total
  have hoverall := h.invested.overall
  rw [List.map_map] at htotal hoverall
  have hsum := sum_tradesBy b fx asOf (fun t => !t.isSell)
    fun t => (b.records fx).cost t - if t.group = none then (b.records fx).cost t else 0
  have hown : (((b.ownTrades asOf).filter fun t => !t.isSell).map fun t =>
      (b.records fx).cost t - if t.group = none then (b.records fx).cost t else 0).sum = 0 := by
    refine List.sum_eq_zero fun x hx => ?_
    obtain ⟨t, ht, rfl⟩ := List.mem_map.mp hx
    rw [if_pos (ownTrades_group (List.mem_filter.mp ht).1), sub_self]
  have hlegs : ∀ r ∈ b.inScope asOf, ((r.rows.filter fun t => !t.isSell).map fun t =>
      (b.records fx).cost t - if t.group = none then (b.records fx).cost t else 0).sum =
        b.legsIn fx r := by
    intro r _
    rw [rows_buys]
    refine map_congr_sum fun t ht => ?_
    rw [if_neg (by rw [Rollover.group_of_mem (List.mem_cons_of_mem _ ht)]; exact nofun), sub_zero]
  rw [hown, zero_add, map_congr_sum hlegs] at hsum
  calc Tally.total Acc.invested s.holdings - s.overall.invested
      = (((b.records fx).acquisitions asOf).map (b.records fx).cost).sum -
          (((b.records fx).acquisitions asOf).map fun t =>
            if t.group = none then (b.records fx).cost t else 0).sum := by
        rw [htotal, hoverall]
        exact congrArg₂ (· - ·) (zero_add _) (zero_add _)
    _ = _ := by rw [← Tally.sum_map_sub]; exact hsum

theorem proceeds_less_overall (h : Records.Accounts (b.records fx) asOf s) :
    Tally.total Acc.proceeds s.holdings - s.overall.proceeds =
      ((b.inScope asOf).map (b.legsOut fx asOf)).sum := by
  have htotal := h.proceeds.total
  have hoverall := h.proceeds.overall
  rw [List.map_map] at htotal hoverall
  have hsum := sum_tradesBy b fx asOf (fun t => t.isSell)
    fun t => t.group.elim 0 ((b.records fx).groupCost asOf)
  have hown : (((b.ownTrades asOf).filter fun t => t.isSell).map fun t =>
      t.group.elim 0 ((b.records fx).groupCost asOf)).sum = 0 := by
    refine List.sum_eq_zero fun x hx => ?_
    obtain ⟨t, ht, rfl⟩ := List.mem_map.mp hx
    rw [ownTrades_group (List.mem_filter.mp ht).1, Option.elim_none]
  have hlegs : ∀ r ∈ b.inScope asOf, ((r.rows.filter fun t => t.isSell).map fun t =>
      t.group.elim 0 ((b.records fx).groupCost asOf)).sum = b.legsOut fx asOf r := by
    intro r _
    rw [rows_closing, List.map_singleton, List.sum_singleton, r.closing_group]
    rfl
  rw [hown, zero_add, map_congr_sum hlegs] at hsum
  calc Tally.total Acc.proceeds s.holdings - s.overall.proceeds
      = (((b.records fx).sells asOf).map fun t =>
            t.group.elim 0 ((b.records fx).groupCost asOf) + (b.records fx).external t).sum -
          (((b.records fx).sells asOf).map (b.records fx).external).sum := by
        rw [htotal, hoverall]
        exact congrArg₂ (· - ·) (zero_add _) (zero_add _)
    _ = _ := by
        rw [← Tally.sum_map_sub]
        simp only [add_sub_cancel_right]
        exact hsum

theorem income_less_overall (h : Records.Accounts (b.records fx) asOf s) :
    Tally.total Acc.income s.holdings - s.overall.income = 0 := by
  have hboth : ((((b.records fx).incomeRows asOf).flatMap (b.records fx).earned).map
      Posting.toHolding) = (((b.records fx).incomeRows asOf).flatMap (b.records fx).earned).map
        Posting.toOverall := by
    refine List.map_congr_left fun p hp => ?_
    obtain ⟨i, -, hi⟩ := List.mem_flatMap.mp hp
    unfold Records.earned at hi
    split at hi
    · cases hi
    · rw [List.mem_singleton.mp hi]
  rw [h.income.total, h.income.overall, hboth]
  exact sub_self _

theorem invested_of (h : Records.Accounts (b.records fx) asOf s) (k : HoldingKey) :
    (s.holding k).invested =
      ((((b.ownTrades asOf).filter fun t => !t.isSell).filter fun t => t.holding = k).map
        (b.records fx).cost).sum + ((b.inScope asOf).map fun r => b.entering fx r k).sum := by
  have hheld := h.invested.held k
  rw [List.filter_map, List.map_map] at hheld
  have hsum := sum_tradesBy b fx asOf
    (fun t => decide (t.holding = k) && !t.isSell) (b.records fx).cost
  simp only [← List.filter_filter, rows_buys] at hsum
  rw [hheld]
  exact (zero_add _).trans hsum

theorem proceeds_of (h : Records.Accounts (b.records fx) asOf s) (k : HoldingKey) :
    (s.holding k).proceeds =
      ((((b.records fx).sells asOf).filter fun t => t.holding = k).map (b.records fx).external).sum +
        ((b.inScope asOf).map fun r => b.leaving fx asOf r k).sum := by
  have hheld := h.proceeds.held k
  rw [List.filter_map, List.map_map] at hheld
  have hsum := sum_tradesBy b fx asOf
    (fun t => decide (t.holding = k) && t.isSell)
    fun t => t.group.elim 0 ((b.records fx).groupCost asOf)
  simp only [← List.filter_filter, rows_closing] at hsum
  have hown : ((((b.ownTrades asOf).filter fun t => t.isSell).filter fun t => decide (t.holding = k)).map
      fun t => t.group.elim 0 ((b.records fx).groupCost asOf)).sum = 0 := by
    refine List.sum_eq_zero fun x hx => ?_
    obtain ⟨t, ht, rfl⟩ := List.mem_map.mp hx
    rw [ownTrades_group (List.mem_filter.mp (List.mem_filter.mp ht).1).1, Option.elim_none]
  have hlegs : ∀ r ∈ b.inScope asOf, (([r.closing].filter fun t => decide (t.holding = k)).map
      fun t => t.group.elim 0 ((b.records fx).groupCost asOf)).sum = b.leaving fx asOf r k := by
    intro r _
    unfold leaving
    by_cases hk : r.closing.holding = k
    · simp [hk, r.closing_group, legsOut]
    · simp [hk]
  rw [hown, zero_add, map_congr_sum hlegs] at hsum
  rw [hheld, add_comm _ ((b.inScope asOf).map _).sum, ← hsum]
  refine (zero_add _).trans ?_
  exact List.sum_map_add

theorem legs_balance (hs : Sound b) (h : Records.Accounts (b.records fx) asOf s) :
    LegsBalance b fx asOf s where
  invested := invested_less_overall h
  proceeds := proceeds_less_overall h
  income := income_less_overall h
  balanced := by
    refine List.sum_eq_zero fun x hx => ?_
    obtain ⟨r, hr, rfl⟩ := List.mem_map.mp hx
    rw [legsOut_eq hs hr, sub_self]
  heldInvested := invested_of h
  heldProceeds := proceeds_of h

/-! ### Where a leg leaves from -/

theorem legsIn_eq (r : Rollover) : b.legsIn fx r = (r.moved.map (b.carried fx r)).sum := by
  unfold legsIn carried Rollover.buys
  induction r.moved with
  | nil => rfl
  | cons m l ih =>
    rw [List.flatMap_cons, List.map_append, List.sum_append, ih, List.map_map, List.map_cons,
      List.sum_cons]
    rfl

/-- The holding of a consumed parcel. -/
def heldBy (b : Book) (m : Moved) : Option HoldingKey := (b.trade? m.parcel).map TradeRow.holding

theorem heldBy_of_moved (hs : Sound b) {r : Rollover} (hr : r ∈ b.rollovers) {m : Moved}
    (hm : m ∈ r.moved) : ∃ account, b.heldBy m = some (r.listing, account) ∧
      (r.group.1 = .transfer → account = r.account) := by
  obtain ⟨t, ht, hid, -, hlisting, haccount⟩ := hs.consumed r hr m hm
  refine ⟨t.account, ?_, haccount⟩
  rw [heldBy, (trade?_eq_some hs).mpr ⟨ht, hid⟩, Option.map_some, TradeRow.holding, hlisting]

/-- A rollover's legs, over the holdings its parcels stood in. -/
theorem legsIn_by_holding (r : Rollover) {keys : List HoldingKey} (hn : keys.Nodup)
    (h : ∀ m ∈ r.moved, ∃ k ∈ keys, b.heldBy m = some k) :
    b.legsIn fx r = (keys.map (b.carriedOut fx r)).sum := by
  have hkeys : (keys.map some).Nodup := hn.map (Option.some_injective _)
  rw [legsIn_eq, Tally.sum_by_key b.heldBy (b.carried fx r) hkeys, List.map_map]
  · rfl
  · intro m hm
    obtain ⟨k, hk, hkey⟩ := h m hm
    exact hkey ▸ List.mem_map_of_mem hk

theorem carriedOut_of_elsewhere (r : Rollover) {k : HoldingKey}
    (h : ∀ m ∈ r.moved, b.heldBy m ≠ some k) : b.carriedOut fx r k = 0 := by
  unfold carriedOut
  have hnone : (r.moved.filter fun m => decide ((b.trade? m.parcel).map TradeRow.holding = some k)) = [] :=
    List.filter_eq_nil_iff.mpr fun m hm hk => h m hm (of_decide_eq_true hk)
  rw [hnone]
  rfl

/-- Nothing is carried out of another account of the listing than the closing
Sell's. -/
def FromOneAccount (b : Book) (fx : FxRates) (r : Rollover) : Prop :=
  ∀ account, account ≠ r.account → b.carriedOut fx r (r.listing, account) = 0

theorem fromOneAccount_of_held {r : Rollover}
    (h : ∀ m ∈ r.moved, b.heldBy m = some r.closing.holding) : FromOneAccount b fx r := by
  intro account hne
  refine carriedOut_of_elsewhere r fun m hm hk => hne ?_
  exact (congrArg Prod.snd (Option.some.inj ((h m hm).symm.trans hk))).symm

theorem fromOneAccount_transfer (hs : Sound b) {r : Rollover} (hr : r ∈ b.rollovers)
    (hkind : r.group.1 = .transfer) : FromOneAccount b fx r := by
  refine fromOneAccount_of_held fun m hm => ?_
  obtain ⟨account, hheld, hsame⟩ := heldBy_of_moved hs hr hm
  rw [hheld, hsame hkind]
  rfl

theorem leaves_iff (hs : Sound b) {r : Rollover} (hr : r ∈ b.inScope asOf) :
    (∀ k, b.leaving fx asOf r k = b.carriedOut fx r k) ↔ FromOneAccount b fx r := by
  have hmem := (List.mem_filter.mp hr).1
  constructor
  · intro h account hne
    rw [← h, leaving, if_neg fun hk => hne (congrArg Prod.snd hk).symm]
  · intro h k
    by_cases hk : r.closing.holding = k
    · subst hk
      rw [leaving, if_pos rfl, legsOut_eq hs hr]
      have hheld : ∀ m ∈ r.moved, ∃ k ∈ (r.moved.filterMap b.heldBy).dedup, b.heldBy m = some k := by
        intro m hm
        obtain ⟨account, hm', -⟩ := heldBy_of_moved hs hmem hm
        exact ⟨_, List.mem_dedup.mpr (List.mem_filterMap.mpr ⟨m, hm, hm'⟩), hm'⟩
      have hzero : ∀ k ∈ (r.moved.filterMap b.heldBy).dedup, k ≠ r.closing.holding →
          b.carriedOut fx r k = 0 := by
        intro k hk hne
        obtain ⟨m, hm, hkey⟩ := List.mem_filterMap.mp (List.mem_dedup.mp hk)
        obtain ⟨account, hm', -⟩ := heldBy_of_moved hs hmem hm
        obtain rfl := Option.some.inj (hm'.symm.trans hkey)
        exact h account fun heq => hne (congrArg (Prod.mk r.listing) heq)
      rw [legsIn_by_holding r (List.nodup_dedup _) hheld]
      by_cases hown : r.closing.holding ∈ (r.moved.filterMap b.heldBy).dedup
      · rw [← List.sum_toFinset _ (List.nodup_dedup _)]
        exact Finset.sum_eq_single_of_mem _ (List.mem_toFinset.mpr hown)
          fun k hk hne => hzero k (List.mem_toFinset.mp hk) hne
      · rw [carriedOut_of_elsewhere r fun m hm hm' =>
          hown (List.mem_dedup.mpr (List.mem_filterMap.mpr ⟨m, hm, hm'⟩))]
        exact List.sum_eq_zero fun x hx => by
          obtain ⟨k, hk, rfl⟩ := List.mem_map.mp hx
          exact hzero k hk fun heq => hown (heq ▸ hk)
    · rw [leaving, if_neg hk]
      refine (Eq.symm ?_)
      rcases eq_or_ne k.1 r.listing with hl | hl
      · have hne : k.2 ≠ r.account := fun heq => hk (Prod.ext hl.symm heq.symm)
        have hzero := h k.2 hne
        rwa [← hl] at hzero
      · refine carriedOut_of_elsewhere r fun m hm hm' => hl ?_
        obtain ⟨account, hm'', -⟩ := heldBy_of_moved hs hmem hm
        exact congrArg Prod.fst (Option.some.inj (hm'.symm.trans hm''))

/-- In every state a run of writes reaches, the report's internal legs balance,
and they stay in the holdings they belong to exactly where no exchange or
demerger it covers carries cost out of another account than its closing
Sell's. -/
theorem run_legs_stay {ws : List Write} (hrun : empty.run ws = .ok b)
    (h : (b.records fx).accumulate asOf = .ok (some s)) :
    (LegsBalance b fx asOf s ∧ LegsStay b fx asOf) ↔
      ∀ r ∈ b.inScope asOf, r.group.1 ≠ .transfer → FromOneAccount b fx r := by
  have hs := run_sound sound_empty hrun
  have hbalance := legs_balance hs (Records.accumulate_accounts h)
  constructor
  · rintro ⟨-, hstay⟩ r hr -
    exact (leaves_iff hs hr).mp (hstay r hr)
  · intro hone
    refine ⟨hbalance, fun r hr => (leaves_iff hs hr).mpr ?_⟩
    by_cases hkind : r.group.1 = .transfer
    · exact fromOneAccount_transfer hs (List.mem_filter.mp hr).1 hkind
    · exact hone r hr hkind

end Sums

/-! ### Runs -/

/-- `units` of listing 1 bought for a dollar each on 10 January 2024. -/
def purchase (id account : ℤ) (units : ℚ) : Recorded :=
  ⟨{ id, listing := 1, account, date := ymd 2024 1 10, isSell := false, averagePrice := 1
     quantity := units, brokerage := 0, gstOnBrokerage := 0, currency := ⟨"AUD"⟩, fxRate := 1
     spotFxRate := none, deemedAcquisitionDate := none, transferId := none, scripActionId := none
     demergerActionId := none }, rfl⟩

/-- Listing 1 demerges listing 2 on 1 July 2024, a unit for a unit; a tenth of
the cost goes with it. -/
def demergerTerms : Terms where
  actionId := 7
  listing := 1
  date := ymd 2024 7 1
  averagePrice := 0
  currency := ⟨"AUD"⟩
  fxRate := 1
  closingId := 9
  shares parcel units :=
    [⟨10 * parcel.id, 1, units, parcel.initialCost * 9 / 10⟩,
      ⟨10 * parcel.id + 1, 2, units, parcel.initialCost / 10⟩]

/-- The demerged units of parcel 1 moved on to account 2. -/
def moveDemerged : TransferBody where
  id := 5
  date := ymd 2024 8 1
  listing := 2
  fromAccount := 1
  toAccount := 2
  listingCurrency := ⟨"AUD"⟩
  closingId := 30
  allocations := [⟨11, 100, 31, 10⟩]

def noRates : FxRates := ⟨fun _ => none⟩

/-- 100 units in account 1 and 200 in account 2: the demerger's closing Sell
takes the cost of all 300 out of account 1. -/
theorem run_legs_stray : ∃ ws b s, empty.run ws = .ok b ∧
    (b.records noRates).accumulate (ymd 2024 12 31) = .ok (some s) ∧
    ¬ (LegsBalance b noRates (ymd 2024 12 31) s ∧ LegsStay b noRates (ymd 2024 12 31)) := by
  have hrun : Checked.accepts
      (empty.run [.putTrade (purchase 1 1 100) [], .putTrade (purchase 2 2 200) [],
        .demerge demergerTerms])
      (fun b => Checked.accepts ((b.records noRates).accumulate (ymd 2024 12 31)) (fun o => o.isSome) &&
        (b.inScope (ymd 2024 12 31)).any fun r =>
          b.leaving noRates (ymd 2024 12 31) r (1, 1) ≠ b.carriedOut noRates r (1, 1)) = true := by
    decide +kernel
  obtain ⟨b, hb, hreport⟩ := Checked.accepts_iff.mp hrun
  obtain ⟨hreport, hstray⟩ := (Bool.and_eq_true _ _).mp hreport
  obtain ⟨o, ho, hsome⟩ := Checked.accepts_iff.mp hreport
  obtain ⟨s, rfl⟩ := Option.isSome_iff_exists.mp hsome
  obtain ⟨r, hr, hne⟩ := List.any_eq_true.mp hstray
  exact ⟨_, b, s, hb, ho, fun hkept => of_decide_eq_true hne (hkept.2 r hr _)⟩

/-- One account's units demerged, then moved on: the legs stay. -/
theorem run_legs_stay_one_account : ∃ ws b s, empty.run ws = .ok b ∧
    (b.records noRates).accumulate (ymd 2024 12 31) = .ok (some s) ∧
    LegsBalance b noRates (ymd 2024 12 31) s ∧ LegsStay b noRates (ymd 2024 12 31) := by
  have hrun : Checked.accepts
      (empty.run [.putTrade (purchase 1 1 100) [], .demerge demergerTerms, .transfer moveDemerged])
      (fun b => Checked.accepts ((b.records noRates).accumulate (ymd 2024 12 31)) (fun o => o.isSome) &&
        (b.inScope (ymd 2024 12 31)).all fun r =>
          r.moved.all fun m => b.heldBy m = some r.closing.holding) = true := by
    decide +kernel
  obtain ⟨b, hb, hreport⟩ := Checked.accepts_iff.mp hrun
  obtain ⟨hreport, hheld⟩ := (Bool.and_eq_true _ _).mp hreport
  obtain ⟨o, ho, hsome⟩ := Checked.accepts_iff.mp hreport
  obtain ⟨s, rfl⟩ := Option.isSome_iff_exists.mp hsome
  refine ⟨_, b, s, hb, ho, (run_legs_stay hb ho).mpr fun r hr _ => fromOneAccount_of_held fun m hm => ?_⟩
  exact of_decide_eq_true (List.all_eq_true.mp (List.all_eq_true.mp hheld r hr) m hm)

end Book
end ShareTracker.Performance
