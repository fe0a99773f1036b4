import ShareTracker.DesiredCounts

/-!
A listing whose stored counts are what its recompute asks for is left as it is
by another recompute, and stays so under every write that moves none of the
facts the recompute reads.
-/
namespace ShareTracker.RoundedCounts

/-- The rows hold together, whatever the counts are. -/
structure Db.Rows (s : Db) : Prop where
  trades : (s.trades.map TradeRow.id).Nodup
  actions : (s.actions.map ActionRow.id).Nodup
  counts : (s.counts.map CountRow.key).Nodup
  /-- The foreign key of a count on its action. -/
  counted : ∀ r ∈ s.counts, ∃ a ∈ s.actions, a.id = r.action

section Tables
variable {s : Db} {l : ListingId}

theorem Db.mem_parcels {t : TradeRow} :
    t ∈ s.parcels l ↔ t ∈ s.trades ∧ t.listing = l ∧ t.tradeType.isAcquisition = true := by
  unfold Db.parcels
  rw [StableSort.mem_sortBy, List.mem_filter, Bool.and_eq_true, decide_eq_true_eq]

theorem Db.mem_splitActions {a : ActionRow} :
    a ∈ s.splitActions l ↔ a ∈ s.actions ∧ a.listing = l ∧ a.event.isSome = true := by
  unfold Db.splitActions
  rw [StableSort.mem_sortBy, List.mem_filter, Bool.and_eq_true, decide_eq_true_eq]

theorem Db.hasRounded_iff :
    s.hasRounded l = true ↔ ∃ a ∈ s.actions, a.listing = l ∧ a.rounded = true := by
  unfold Db.hasRounded
  simp only [List.any_eq_true, Bool.and_eq_true, decide_eq_true_eq]

theorem ActionRow.event_of_rounded {a : ActionRow} (h : a.rounded = true) : a.event.isSome = true :=
  ((Bool.and_eq_true _ _).mp h).1

theorem ActionRow.order_inj {a b : ActionRow} (h : a.order = b.order) : a.id = b.id :=
  congrArg (fun k => (ofLex k).2) h

theorem Db.Rows.parcels_nodup (R : s.Rows) (l : ListingId) :
    ((s.parcels l).map TradeRow.id).Nodup :=
  ((StableSort.sortBy_perm _ _).map TradeRow.id).nodup_iff.mpr (Keyed.nodup_filter R.trades _)

theorem Db.Rows.splitActions_nodup (R : s.Rows) (l : ListingId) :
    ((s.splitActions l).map ActionRow.id).Nodup :=
  ((StableSort.sortBy_perm _ _).map ActionRow.id).nodup_iff.mpr (Keyed.nodup_filter R.actions _)

theorem Db.Rows.trade? (R : s.Rows) {id : TradeId} {t : TradeRow} :
    s.trade? id = some t ↔ t ∈ s.trades ∧ t.id = id := Keyed.get?_eq_some R.trades

theorem Db.Rows.action? (R : s.Rows) {id : ℤ} {a : ActionRow} :
    s.action? id = some a ↔ a ∈ s.actions ∧ a.id = id := Keyed.get?_eq_some R.actions

theorem Db.putTrade_trades (s : Db) (t : TradeRow) :
    (s.putTrade t).trades = Keyed.put TradeRow.id s.trades t := by
  unfold Db.putTrade
  dsimp only
  split
  · rfl
  · split <;> rfl

theorem Db.putTrade_rest (s : Db) (t : TradeRow) :
    (s.putTrade t).actions = s.actions ∧ (s.putTrade t).counts = s.counts ∧
      (s.putTrade t).allocations = s.allocations ∧ (s.putTrade t).overrides = s.overrides ∧
      (s.putTrade t).unitScale = s.unitScale := by
  unfold Db.putTrade
  dsimp only
  split
  · exact ⟨rfl, rfl, rfl, rfl, rfl⟩
  · split <;> exact ⟨rfl, rfl, rfl, rfl, rfl⟩

end Tables

/-! ### The actions the counts depend on -/

/-- A listing's share splits and bonus issues up to its last rounded one. -/
def Db.core (s : Db) (l : ListingId) : List ActionRow :=
  (s.splitActions l).filter fun a =>
    s.actions.any fun b => b.listing = l && b.rounded && decide (a.order ≤ b.order)

section Core
variable {s s' : Db} {l : ListingId}

theorem Db.mem_core {a : ActionRow} : a ∈ s.core l ↔ a ∈ s.splitActions l ∧
    ∃ b ∈ s.actions, b.listing = l ∧ b.rounded = true ∧ a.order ≤ b.order := by
  unfold Db.core
  rw [List.mem_filter, List.any_eq_true]
  simp only [Bool.and_eq_true, decide_eq_true_eq, and_assoc]

theorem Db.core_rounded {a : ActionRow} (ha : a ∈ s.splitActions l) (h : a.rounded = true) :
    a ∈ s.core l := by
  obtain ⟨hmem, hlisting, -⟩ := Db.mem_splitActions.mp ha
  exact Db.mem_core.mpr ⟨ha, a, hmem, hlisting, h, le_rfl⟩

theorem Db.splitActions_eq (s : Db) (l : ListingId) :
    ∃ trailing, s.splitActions l = s.core l ++ trailing ∧ ∀ a ∈ trailing, a.rounded = false := by
  let upto : ActionRow → Bool := fun a =>
    s.actions.any fun b => b.listing = l && b.rounded && decide (a.order ≤ b.order)
  have hsorted : (s.splitActions l).Pairwise fun a b => a.order ≤ b.order :=
    StableSort.sortBy_sorted _ _
  have hparts := StableSort.takeWhile_dropWhile_eq_filter (p := upto) (hsorted.imp fun {a b} hab hb => by
    obtain ⟨c, hc, hbound⟩ := List.any_eq_true.mp hb
    obtain ⟨hrounded, hbc⟩ := (Bool.and_eq_true _ _).mp hbound
    exact List.any_eq_true.mpr ⟨c, hc, (Bool.and_eq_true _ _).mpr
      ⟨hrounded, decide_eq_true (hab.trans (of_decide_eq_true hbc))⟩⟩)
  refine ⟨(s.splitActions l).filter fun a => !upto a, ?_, ?_⟩
  · rw [← hparts.2]
    exact (List.takeWhile_append_dropWhile (p := upto)).symm.trans (by rw [hparts.1]; rfl)
  · intro a ha
    obtain ⟨hmem, hnot⟩ := List.mem_filter.mp ha
    cases hrounded : a.rounded with
    | false => rfl
    | true =>
      have hcore := (List.mem_filter.mp (Db.core_rounded hmem hrounded)).2
      change upto a = true at hcore
      rw [hcore] at hnot
      cases hnot

theorem Db.core_eq (R : s.Rows) (R' : s'.Rows) (h : ∀ a, a ∈ s'.core l ↔ a ∈ s.core l) :
    s'.core l = s.core l := by
  have hcore : ∀ {t : Db}, t.core l = StableSort.sortBy ActionRow.order
      ((t.actions.filter fun a => a.listing = l && a.event.isSome).filter fun a =>
        t.actions.any fun b => b.listing = l && b.rounded && decide (a.order ≤ b.order)) :=
    fun {t} => StableSort.filter_sortBy _ _ _
  have hnodup : ∀ {t : Db}, t.Rows →
      ((t.actions.filter fun a => a.listing = l && a.event.isSome).filter fun a =>
        t.actions.any fun b => b.listing = l && b.rounded && decide (a.order ≤ b.order)).Nodup :=
    fun Rt => ((Rt.actions.of_map _).filter _).filter _
  have hmem : ∀ {t : Db} {a : ActionRow}, a ∈ t.core l ↔
      a ∈ (t.actions.filter fun a => a.listing = l && a.event.isSome).filter fun a =>
        t.actions.any fun b => b.listing = l && b.rounded && decide (a.order ≤ b.order) := by
    intro t a
    rw [hcore, StableSort.mem_sortBy]
  rw [hcore, hcore]
  refine Keyed.sortBy_eq (hnodup R') (hnodup R) (fun a => hmem.symm.trans ((h a).trans hmem)) ?_
  intro a ha b hb hab
  have ha := List.mem_of_mem_filter (List.mem_of_mem_filter ha)
  have hb := List.mem_of_mem_filter (List.mem_of_mem_filter hb)
  exact Keyed.eq_of_key R'.actions ha hb (ActionRow.order_inj hab)

end Core

/-! ### The statements of the reconcile -/

/-- A statement against `corporate_action_parcel_counts`. -/
inductive CountWrite where
  | update (row : CountRow)
  | delete (key : ℤ × TradeId)
  | insert (row : CountRow)
  deriving DecidableEq

/-- One stored row against what should be stored: the same row is left alone. -/
def rowWrite (rows : List CountRow) (r : CountRow) : Option CountWrite :=
  match Keyed.get? CountRow.key rows r.key with
  | some asked => if asked = r then none else some (.update asked)
  | none => some (.delete r.key)

/-- `reconcile`, statement by statement: each action's stored rows, then what is
asked for and not stored. -/
def countWrites (s : Db) (actions : List ℤ) (rows : List CountRow) : List CountWrite :=
  (actions.flatMap fun a => (s.counts.filter fun r => r.action = a).filterMap (rowWrite rows)) ++
    ((StableSort.sortBy (fun r => toLex r.key) rows).filter fun r =>
      Keyed.get? CountRow.key s.counts r.key = none).map CountWrite.insert

section Writes
variable {s : Db} {actions : List ℤ} {rows : List CountRow}

theorem rowWrite_none {r : CountRow} :
    rowWrite rows r = none ↔ Keyed.get? CountRow.key rows r.key = some r := by
  unfold rowWrite
  cases Keyed.get? CountRow.key rows r.key with
  | none => simp
  | some asked =>
    by_cases h : asked = r
    · simp [h]
    · simp [h]

/-- Nothing is written exactly when every row stored of the actions is asked for
as it is, and every row asked for is stored. -/
theorem countWrites_nil :
    countWrites s actions rows = [] ↔
      (∀ r ∈ s.counts, r.action ∈ actions → Keyed.get? CountRow.key rows r.key = some r) ∧
        ∀ r ∈ rows, Keyed.get? CountRow.key s.counts r.key ≠ none := by
  unfold countWrites
  rw [List.append_eq_nil_iff, List.flatMap_eq_nil_iff, List.map_eq_nil_iff, List.filter_eq_nil_iff]
  constructor
  · rintro ⟨hstored, hasked⟩
    refine ⟨fun r hr ha => rowWrite_none.mp ?_, fun r hr hnone => ?_⟩
    · exact List.filterMap_eq_nil_iff.mp (hstored r.action ha) r (List.mem_filter.mpr ⟨hr, by simp⟩)
    · exact hasked r (StableSort.mem_sortBy.mpr hr) (decide_eq_true hnone)
  · rintro ⟨hstored, hasked⟩
    refine ⟨fun a ha => List.filterMap_eq_nil_iff.mpr fun r hr => ?_, fun r hr hnone => ?_⟩
    · obtain ⟨hr, haction⟩ := List.mem_filter.mp hr
      exact rowWrite_none.mpr (hstored r hr (of_decide_eq_true haction ▸ ha))
    · exact hasked r (StableSort.mem_sortBy.mp hr) (of_decide_eq_true hnone)

/-- Without a statement the table is as it was. -/
theorem reconcile_of_no_writes (h : countWrites s actions rows = []) : reconcile s actions rows = s := by
  obtain ⟨hstored, hasked⟩ := countWrites_nil.mp h
  have hkept : (s.counts.filterMap fun r =>
      if r.action ∈ actions then Keyed.get? CountRow.key rows r.key else some r) = s.counts := by
    rw [List.filterMap_congr (g := some), List.filterMap_some]
    intro r hr
    split
    · rename_i hmem
      exact hstored r hr hmem
    · rfl
  have hnew : ((StableSort.sortBy (fun r => toLex r.key) rows).filter fun r =>
      Keyed.get? CountRow.key s.counts r.key = none) = [] :=
    List.filter_eq_nil_iff.mpr fun r hr hnone =>
      hasked r (StableSort.mem_sortBy.mp hr) (of_decide_eq_true hnone)
  unfold reconcile
  rw [hkept, hnew, List.append_nil]

end Writes

/-! ### Settled listings -/

section Settled
variable (D : DecimalRounding)

/-- The stored counts of the listing's actions are what its recompute asks for. -/
def Settled (s : Db) (l : ListingId) : Prop := ∃ rows,
  desired D (s.facts l) s.prior [] (s.splitActions l) = .ok rows ∧
    (∀ r ∈ s.counts, r.action ∈ (s.splitActions l).map ActionRow.id → r ∈ rows) ∧
    ∀ r ∈ rows, r ∈ s.counts

variable {D} {s s' : Db} {l : ListingId}

theorem desired_core (s : Db) (l : ListingId) (F : Facts) (prior : ℤ → TradeId → Option Prior) :
    desired D F prior [] (s.splitActions l) = desired D F prior [] (s.core l) := by
  obtain ⟨trailing, heq, hunrounded⟩ := s.splitActions_eq l
  rw [heq, desired_trailing hunrounded]

theorem Db.Rows.prior (R : s.Rows) {r : CountRow} (hr : r ∈ s.counts) :
    s.prior r.action r.count.tradeId = some r.count.prior := by
  have hget : Keyed.get? CountRow.key s.counts (r.action, r.count.tradeId) = some r :=
    (Keyed.get?_eq_some R.counts).mpr ⟨hr, rfl⟩
  unfold Db.prior
  rw [hget]
  rfl

theorem recompute_ok : recompute D s l = .ok s' ↔ ∃ rows,
    desired D (s.facts l) s.prior [] (s.splitActions l) = .ok rows ∧
      s' = reconcile s ((s.splitActions l).map ActionRow.id) rows := by
  unfold recompute
  change (desired D (s.facts l) s.prior [] (s.splitActions l) >>= fun rows =>
    pure (reconcile s ((s.splitActions l).map ActionRow.id) rows)) = _ ↔ _
  constructor
  · intro h
    obtain ⟨rows, hrows, h⟩ := bind_ok h
    exact ⟨rows, hrows, (Except.ok.inj h).symm⟩
  · rintro ⟨rows, hrows, rfl⟩
    rw [hrows]
    rfl

/-- A settled listing asks for the rows it stores, and writes none. -/
theorem Settled.no_writes (R : s.Rows) (h : Settled D s l) : ∃ rows,
    desired D (s.facts l) s.prior [] (s.splitActions l) = .ok rows ∧
      (∀ r ∈ s.counts, r.action ∈ (s.splitActions l).map ActionRow.id → r ∈ rows) ∧
      (∀ r ∈ rows, r ∈ s.counts) ∧
      countWrites s ((s.splitActions l).map ActionRow.id) rows = [] := by
  obtain ⟨rows, hrows, hstored, hasked⟩ := h
  have hnodup := desired_nodup (R.parcels_nodup l) (R.splitActions_nodup l) hrows
  refine ⟨rows, hrows, hstored, hasked,
    countWrites_nil.mpr ⟨fun r hr haction => ?_, fun r hr hnone => ?_⟩⟩
  · exact (Keyed.get?_eq_some hnodup).mpr ⟨hstored r hr haction, rfl⟩
  · have hget := (Keyed.get?_eq_some R.counts).mpr ⟨hasked r hr, rfl⟩
    rw [hnone] at hget
    cases hget

/-- A settled listing is left as it is. -/
theorem Settled.recompute (R : s.Rows) (h : Settled D s l) : recompute D s l = .ok s := by
  obtain ⟨rows, hrows, -, -, hwrites⟩ := h.no_writes R
  exact recompute_ok.mpr ⟨rows, hrows, (reconcile_of_no_writes hwrites).symm⟩

/-- A write that moves nothing the recompute reads leaves the listing settled. -/
theorem Settled.carry (R : s.Rows) (R' : s'.Rows) (h : Settled D s l)
    (hcore : s'.core l = s.core l)
    (hfacts : s.hasRounded l = true → (s.facts l).Alike (s'.facts l) (s.core l))
    (hstored : ∀ r ∈ s'.counts, r.action ∈ (s'.splitActions l).map ActionRow.id →
      r ∈ s.counts ∧ r.action ∈ (s.splitActions l).map ActionRow.id)
    (hkept : ∀ r ∈ s.counts, ∀ a ∈ s.actions, a.listing = l → a.rounded = true → a.id = r.action →
      (∃ t ∈ s.trades, t.listing = l ∧ t.id = r.count.tradeId) → r ∈ s'.counts) :
    Settled D s' l := by
  obtain ⟨rows, hrows, hof, hasked⟩ := h
  have hasked' : ∀ r ∈ rows, r ∈ s'.counts := by
    intro r hr
    obtain ⟨⟨a, ha, hrounded, hid⟩, p, hp, hpid⟩ := desired_rows (R.parcels_nodup l) hrows r hr
    obtain ⟨ha, hlisting, -⟩ := Db.mem_splitActions.mp ha
    obtain ⟨hp, hplisting, -⟩ := Db.mem_parcels.mp hp
    exact hkept r (hasked r hr) a ha hlisting hrounded hid ⟨p, hp, hplisting, hpid⟩
  refine ⟨rows, ?_, fun r hr hmem => ?_, hasked'⟩
  · have hsame : desired D (s'.facts l) s.prior [] (s.core l) =
        desired D (s.facts l) s.prior [] (s.core l) := by
      by_cases hrounded : s.hasRounded l = true
      · exact desired_congr (hfacts hrounded) fun a ha => ha
      · have hnone : ∀ a ∈ s.core l, a.rounded = false := by
          intro a ha
          obtain ⟨-, b, hb, hlisting, hb', -⟩ := Db.mem_core.mp ha
          exact absurd (Db.hasRounded_iff.mpr ⟨b, hb, hlisting, hb'⟩) hrounded
        rw [desired_unrounded hnone, desired_unrounded hnone]
    rw [desired_core] at hrows
    rw [desired_core, hcore]
    exact desired_again (hsame.trans hrows) fun r hr => R'.prior (hasked' r hr)
  · obtain ⟨hr, hmem⟩ := hstored r hr hmem
    exact hof r hr hmem

end Settled

/-! ### The recompute -/

section Reconcile
variable {D : DecimalRounding} {s s' : Db} {l : ListingId} {actions : List ℤ}
  {rows : List CountRow}

theorem mem_reconcile (R : s.Rows) (hactions : ∀ r ∈ rows, r.action ∈ actions)
    (hrows : (rows.map CountRow.key).Nodup) {r : CountRow} :
    r ∈ (reconcile s actions rows).counts ↔ r ∈ rows ∨ (r ∈ s.counts ∧ r.action ∉ actions) := by
  unfold reconcile
  rw [List.mem_append, List.mem_filterMap, List.mem_filter, StableSort.mem_sortBy,
    decide_eq_true_eq]
  constructor
  · rintro (⟨q, hq, heq⟩ | ⟨hr, -⟩)
    · split at heq
      · exact .inl ((Keyed.get?_eq_some hrows).mp heq).1
      · rename_i hnot
        obtain rfl := Option.some.inj heq
        exact .inr ⟨hq, hnot⟩
    · exact .inl hr
  · rintro (hr | ⟨hr, hnot⟩)
    · cases hget : Keyed.get? CountRow.key s.counts r.key with
      | none => exact .inr ⟨hr, rfl⟩
      | some q =>
        obtain ⟨hq, hkey⟩ := (Keyed.get?_eq_some R.counts).mp hget
        have haction : q.action ∈ actions := by
          rw [show q.action = r.action from congrArg Prod.fst hkey]
          exact hactions r hr
        refine .inl ⟨q, hq, ?_⟩
        rw [if_pos haction]
        exact (Keyed.get?_eq_some hrows).mpr ⟨hr, hkey.symm⟩
    · exact .inl ⟨r, hr, if_neg hnot⟩

theorem reconcile_nodup (R : s.Rows) (hrows : (rows.map CountRow.key).Nodup) :
    ((reconcile s actions rows).counts.map CountRow.key).Nodup := by
  have hkept : ((s.counts.filterMap fun r => if r.action ∈ actions then
      Keyed.get? CountRow.key rows r.key else some r).map CountRow.key).Sublist
        (s.counts.map CountRow.key) := by
    refine Keyed.filterMap_sublist (fun q r heq => ?_) s.counts
    split at heq
    · exact ((Keyed.get?_eq_some hrows).mp heq).2
    · exact congrArg CountRow.key (Option.some.inj heq).symm
  unfold reconcile
  rw [List.map_append, List.nodup_append]
  refine ⟨hkept.nodup R.counts, ?_, ?_⟩
  · have hsorted : ((StableSort.sortBy (fun r => toLex r.key) rows).map CountRow.key).Nodup :=
      ((StableSort.sortBy_perm _ rows).map CountRow.key).nodup_iff.mpr hrows
    exact Keyed.nodup_filter hsorted _
  · intro k hk k' hk' heq
    obtain ⟨q, hq, hkey⟩ := List.mem_map.mp (hkept.subset hk)
    obtain ⟨r, hr, rfl⟩ := List.mem_map.mp hk'
    have hnone := of_decide_eq_true (List.mem_filter.mp hr).2
    rw [(Keyed.get?_eq_some R.counts).mpr ⟨hq, hkey.trans heq⟩] at hnone
    cases hnone

/-- The recompute settles its listing and leaves every other as it was. -/
theorem recompute_settled (R : s.Rows) (h : recompute D s l = .ok s') :
    s'.Rows ∧ Settled D s' l ∧ ∀ k, Settled D s k → Settled D s' k := by
  obtain ⟨rows, hrows, rfl⟩ := recompute_ok.mp h
  have hnodup := desired_nodup (R.parcels_nodup l) (R.splitActions_nodup l) hrows
  have hof := desired_rows (R.parcels_nodup l) hrows
  have hactions : ∀ r ∈ rows, r.action ∈ (s.splitActions l).map ActionRow.id := by
    intro r hr
    obtain ⟨⟨a, ha, -, hid⟩, -⟩ := hof r hr
    exact hid ▸ List.mem_map_of_mem ha
  have hmem := fun {r} => mem_reconcile (r := r) R hactions hnodup
  have R' : (reconcile s ((s.splitActions l).map ActionRow.id) rows).Rows := by
    refine ⟨R.trades, R.actions, reconcile_nodup R hnodup, fun r hr => ?_⟩
    rcases hmem.mp hr with hr | ⟨hr, -⟩
    · obtain ⟨⟨a, ha, -, hid⟩, -⟩ := hof r hr
      exact ⟨a, (Db.mem_splitActions.mp ha).1, hid⟩
    · exact R.counted r hr
  have hsettled : Settled D (reconcile s ((s.splitActions l).map ActionRow.id) rows) l := by
    refine ⟨rows, ?_, fun r hr haction => ?_, fun r hr => hmem.mpr (.inl hr)⟩
    · exact desired_again hrows fun r hr => R'.prior (hmem.mpr (.inl hr))
    · rcases hmem.mp hr with hr | ⟨-, hnot⟩
      · exact hr
      · exact absurd haction hnot
  refine ⟨R', hsettled, fun k hk => ?_⟩
  by_cases hkl : k = l
  · exact hkl ▸ hsettled
  -- an action is of one listing
  have hapart : ∀ {i : ℤ}, i ∈ (s.splitActions k).map ActionRow.id →
      i ∉ (s.splitActions l).map ActionRow.id := by
    intro i hi hi'
    obtain ⟨a, ha, rfl⟩ := List.mem_map.mp hi
    obtain ⟨b, hb, hid⟩ := List.mem_map.mp hi'
    obtain ⟨ha, hak, -⟩ := Db.mem_splitActions.mp ha
    obtain ⟨hb, hbl, -⟩ := Db.mem_splitActions.mp hb
    exact hkl (hak.symm.trans ((Keyed.eq_of_key R.actions ha hb hid.symm) ▸ hbl))
  refine Settled.carry R R' hk rfl (fun _ => ⟨rfl, fun _ _ => rfl, fun _ _ => rfl, fun _ _ _ => rfl⟩)
    (fun r hr hk => ?_) fun r hr a ha hlisting hrounded hid _ => ?_
  · rcases hmem.mp hr with hr | ⟨hr, -⟩
    · exact absurd (hactions r hr) (hapart hk)
    · exact ⟨hr, hk⟩
  · have ha := Db.mem_splitActions.mpr ⟨ha, hlisting, ActionRow.event_of_rounded hrounded⟩
    exact hmem.mpr (.inr ⟨hr, hapart (hid ▸ List.mem_map_of_mem ha)⟩)

end Reconcile

end ShareTracker.RoundedCounts
