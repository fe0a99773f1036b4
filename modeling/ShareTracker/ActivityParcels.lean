import ShareTracker.ActivityBalance
import ShareTracker.WholeHoldingRun

/-!
One parcel's part of a listing's balance. The records re-base it as the parcel's
own events do, so it comes to what the parcel holds once each sale has taken the
units it states.
-/
namespace ShareTracker.Activity
open RebasedBalance

/-! ### Action ids -/

/-- No two actions share an id. -/
def UniqueActions (s : Ledger) : Prop := (s.actions.map CorporateAction.id).Nodup

theorem uniqueActions_kept (D : DecimalRounding) : WholeHolding.KeptByChanges D UniqueActions where
  upsertSell := by
    intro s s' id provenance body h ht
    unfold UniqueActions
    rw [WholeHolding.actions_upsert ht]
    exact h
  recordParcel := by
    intro s s' t h ht
    obtain ⟨rfl, -, -⟩ := WholeHolding.recordParcel_effect ht
    exact h
  remove := by
    intro s s' gone h ht
    rw [WholeHolding.remove_effect ht]
    exact Keyed.nodup_map h fun _ => rfl
  recompute := by
    intro s recount listing h
    refine Keyed.nodup_map h fun a => ?_
    split <;> rfl
  putTrade := fun _ h => h
  putTransfers := fun _ h => h
  putAction := fun action h => Keyed.nodup_put h action
  dropAction := fun _ h => Keyed.nodup_filter h _
  setUnitScale := fun _ h => h

/-! ### Levels -/

/-- The ratio an event re-bases by. -/
def ratio (event : SplitEvent) : ℚ := event.newUnits / event.oldUnits

/-- What an action multiplies one parcel's units by. -/
def actionFactor (parcel : TradeId) (a : CorporateAction) : ℚ := (a.eventFor parcel).elim 1 ratio

theorem actionFactor_pos (parcel : TradeId) (a : CorporateAction) : 0 < actionFactor parcel a := by
  unfold actionFactor
  cases a.eventFor parcel with
  | none => exact one_pos
  | some event => exact div_pos event.newUnits_pos event.oldUnits_pos

theorem prod_events (parcel : TradeId) (l : List CorporateAction) :
    ((l.filterMap fun a => a.eventFor parcel).map ratio).prod =
      (l.map (actionFactor parcel)).prod := by
  induction l with
  | nil => rfl
  | cons a l ih =>
    cases he : a.eventFor parcel with
    | none => simp [actionFactor, he, ih]
    | some event => simp [actionFactor, he, ih]

theorem basisLevel_events (parcel : TradeId) (d : NaiveDate) (l : List CorporateAction) :
    basisLevel (l.filterMap fun a => a.eventFor parcel) d =
      ((l.filter fun a => a.date ≤ d).map (actionFactor parcel)).prod := by
  induction l with
  | nil => rfl
  | cons a l ih =>
    cases he : a.eventFor parcel with
    | none =>
      simp only [List.filterMap_cons, he]
      rw [ih]
      by_cases hd : a.date ≤ d <;> simp [hd, actionFactor, he]
    | some event =>
      simp only [List.filterMap_cons, he]
      rw [basisLevel_cons, ih, WholeHolding.eventFor_date he]
      by_cases hd : a.date ≤ d <;> simp [hd, actionFactor, ratio, he]

section Levels
variable {s : Ledger} {listing : ListingId} {notes : List Note} {p : Trade}

theorem basisLevel_splits (s : Ledger) (listing : ListingId) (parcel : TradeId) (d : NaiveDate) :
    basisLevel (s.splitsForParcel listing parcel) d =
      (((s.actions.filter fun a => a.listing = listing).filter fun a => a.date ≤ d).map
        (actionFactor parcel)).prod := by
  have hperm := StableSort.sortBy_perm (fun a : CorporateAction => toLex (a.date, a.id))
    (s.actions.filter fun a => a.listing = listing)
  rw [Ledger.splitsForParcel, basisLevel_events]
  exact ((hperm.filter _).map _).prod_eq

theorem level_parcel (keep : Entry → Bool) :
    level (Entry.parcelFactor p) ((inOrder s listing notes).filter keep) =
      (((s.actions.filter fun a => a.listing = listing).filter fun a => keep (.action a)).map
        (actionFactor p.id)).prod := by
  have hperm := (StableSort.sortBy_perm Entry.key (entries s listing notes)).filter keep
  have hone : ∀ {ι : Type} (l : List ι), (l.map fun _ => (1 : ℚ)).prod = 1 := by
    intro ι l
    simp
  rw [level, inOrder, (hperm.map _).prod_eq, entries]
  simp only [List.filter_append, List.map_append, List.prod_append, List.filter_map, List.map_map]
  have hnotes := hone (notes.filter (keep ∘ Entry.note))
  have htrades := hone ((s.trades.filter fun t => t.listing = listing).filter (keep ∘ Entry.trade))
  exact (congrArg₂ (· * ·) (congrArg₂ (· * ·) rfl hnotes) htrades).trans
    ((mul_one _).trans (mul_one _))

theorem levelOn_parcel {keep : Entry → Bool} {d : NaiveDate}
    (hkeep : ∀ a ∈ s.actions, a.listing = listing → a.date ≤ d → keep (.action a) = true) :
    levelOn (Entry.parcelFactor p) Entry.date ((inOrder s listing notes).filter keep) d =
      basisLevel (s.splitsForParcel listing p.id) d := by
  rw [levelOn, List.filter_filter, level_parcel, basisLevel_splits]
  refine congrArg List.prod (congrArg (List.map _) (List.filter_congr fun a ha => ?_))
  obtain ⟨ha, hlisting⟩ := List.mem_filter.mp ha
  by_cases hd : a.date ≤ d
  · simp [Entry.date, hd, hkeep a ha (of_decide_eq_true hlisting) hd]
  · simp [Entry.date, hd]

end Levels

/-! ### What the trades move of a parcel -/

section Moves
variable {D : DecimalRounding} {s : Ledger} {listing : ListingId} {p : Trade}

/-- The sales of a parcel are its allocations, each on its Sell's date. -/
theorem sum_parcelSales (s : Ledger) (parcel : TradeId) (w : NaiveDate → ℚ) :
    ((s.parcelSales parcel).map fun sale => sale.quantity.value * w sale.basis).sum =
      ((s.allocations.filter fun a => a.purchase = parcel).map fun a =>
        a.quantity.value * (s.trade? a.sale).elim 0 fun t => w t.date).sum := by
  unfold Ledger.parcelSales Ledger.saleRows
  generalize s.allocations = allocations
  induction allocations with
  | nil => rfl
  | cons a allocations ih =>
    by_cases hp : a.purchase = parcel
    · cases ht : s.trade? a.sale with
      | none => simpa [hp, ht] using ih
      | some t => simpa [hp, ht] using ih
    · simpa [hp] using ih

theorem moved_eq (hvalid : s.Valid D) (hnet : s.TransfersNet) {t : Trade} (ht : t ∈ s.trades)
    (hacq : p.tradeType.isAcquisition = true) (hp : p ∈ s.trades) :
    moved s p t = (if t.id = p.id then p.quantity else 0) -
      ((s.allocations.filter fun a => a.sale = t.id && a.purchase = p.id).map
        fun a => a.quantity.value).sum := by
  have hrow := Ledger.trade?_of_mem hnet.unique ht
  cases htype : t.tradeType.isAcquisition with
  | true =>
    have hnone : s.allocations.filter (fun a => a.sale = t.id && a.purchase = p.id) = [] := by
      refine List.filter_eq_nil_iff.mpr fun a ha hkept => ?_
      obtain ⟨sale, -, hsale, hsell, -⟩ := (hvalid.rows.drawn a ha).rows
      have hid : a.sale = t.id := of_decide_eq_true ((Bool.and_eq_true _ _).mp hkept).1
      rw [hid, hrow] at hsale
      obtain rfl := Option.some_inj.mp hsale
      rw [hsell] at htype
      cases htype
    rw [hnone, moved, htype, if_pos rfl, List.map_nil, List.sum_nil, sub_zero]
    by_cases hid : t.id = p.id
    · rw [if_pos hid, if_pos hid, Keyed.eq_of_key hnet.unique ht hp hid]
    · rw [if_neg hid, if_neg hid]
  | false =>
    have hne : t.id ≠ p.id := by
      intro hid
      rw [Keyed.eq_of_key hnet.unique ht hp hid, hacq] at htype
      cases htype
    rw [moved, htype, if_neg Bool.false_ne_true, if_neg hne, zero_sub]

/-- The trades of a listing move a parcel by its own units and its sales, whatever
a date weighs. -/
theorem sum_moves (hvalid : s.Valid D) (hnet : s.TransfersNet) (hp : p ∈ s.parcelsOf listing)
    (w : NaiveDate → ℚ) :
    ((s.trades.filter fun t => t.listing = listing).map fun t => moved s p t * w t.date).sum =
      p.quantity * w p.date -
        ((s.parcelSales p.id).map fun sale => sale.quantity.value * w sale.basis).sum := by
  obtain ⟨hmem, hacq, hlisting⟩ := mem_parcelsOf.mp hp
  set trades := s.trades.filter fun t => t.listing = listing with htrades
  have hunique : (trades.map Trade.id).Nodup := Keyed.nodup_filter hnet.unique _
  have hsplit : ∀ t ∈ trades, moved s p t * w t.date =
      (if t.id = p.id then p.quantity else 0) * w t.date -
        ((s.allocations.filter fun a => a.sale = t.id && a.purchase = p.id).map
          fun a => a.quantity.value).sum * w t.date := by
    intro t ht
    rw [moved_eq hvalid hnet (List.mem_filter.mp ht).1 hacq hmem, sub_mul]
  have hown : (trades.map fun t => (if t.id = p.id then p.quantity else 0) * w t.date).sum =
      p.quantity * w p.date := by
    have hkeys : ∀ u ∈ [p], u.id ∈ trades.map Trade.id := by
      intro u hu
      rw [List.mem_singleton.mp hu]
      exact List.mem_map_of_mem (List.mem_filter.mpr ⟨hmem, decide_eq_true hlisting⟩)
    have hsum := Tally.sum_by_key Trade.id (fun u => u.quantity * w u.date) hunique hkeys
    rw [List.map_singleton, List.sum_singleton, List.map_map] at hsum
    rw [hsum]
    refine congrArg List.sum (List.map_congr_left fun t ht => ?_)
    by_cases hid : t.id = p.id
    · obtain rfl := Keyed.eq_of_key hnet.unique (List.mem_filter.mp ht).1 hmem hid
      simp
    · simp [hid, Ne.symm hid]
  have hsales : (trades.map fun t =>
      ((s.allocations.filter fun a => a.sale = t.id && a.purchase = p.id).map
        fun a => a.quantity.value).sum * w t.date).sum =
      ((s.parcelSales p.id).map fun sale => sale.quantity.value * w sale.basis).sum := by
    have hkeys : ∀ a ∈ s.allocations.filter (fun a => a.purchase = p.id),
        a.sale ∈ trades.map Trade.id := by
      intro a ha
      obtain ⟨ha, hpurchase⟩ := List.mem_filter.mp ha
      obtain ⟨sale, parcel, hs, -, hparcel, -, hsame, -⟩ := (hvalid.rows.drawn a ha).rows
      rw [of_decide_eq_true hpurchase, Ledger.trade?_of_mem hnet.unique hmem] at hparcel
      obtain rfl := Option.some_inj.mp hparcel
      rw [← Ledger.trade?_id hs]
      exact List.mem_map_of_mem (List.mem_filter.mpr
        ⟨Ledger.mem_of_trade? hs, decide_eq_true (hsame.symm.trans hlisting)⟩)
    rw [sum_parcelSales, Tally.sum_by_key ParcelAllocation.sale _ hunique hkeys, List.map_map]
    refine congrArg List.sum (List.map_congr_left fun t ht => ?_)
    have hrow := Ledger.trade?_of_mem hnet.unique (List.mem_filter.mp ht).1
    rw [Function.comp_apply, List.filter_filter, ← List.sum_map_mul_right]
    refine congrArg List.sum (List.map_congr_left fun a ha => ?_)
    have hsale : a.sale = t.id := of_decide_eq_true
      ((Bool.and_eq_true _ _).mp (List.mem_filter.mp ha).2).1
    rw [hsale, hrow, Option.elim_some]
  rw [List.map_congr_left hsplit, Tally.sum_map_sub, hown, hsales]

end Moves

/-! ### A parcel's part of the rows -/

section Cut
variable {D : DecimalRounding} {s : Ledger} {listing : ListingId} {notes : List Note} {p : Trade}

/-- A sale dated by `dates`, in the units before any event. -/
def levelSales (s : Ledger) (p : Trade) (dates : NaiveDate → Bool) : ℚ :=
  (((s.parcelSales p.id).filter fun sale => dates sale.basis).map
    fun sale => sale.quantity.value / basisLevel (s.splitsForParcel p.listing p.id) sale.basis).sum

/-- The rows dated by `dates` leave what is dated so of a parcel and its sales, at
the level of the actions among them. -/
theorem run_parcel (hvalid : s.Valid D) (hnet : s.TransfersNet) (hp : p ∈ s.parcelsOf listing)
    {keep : Entry → Bool} (dates : NaiveDate → Bool) (htrades : ∀ t, keep (.trade t) = dates t.date)
    (hactions : ∀ a date, dates date = true → a.date ≤ date → keep (.action a) = true) :
    run (Entry.parcelFactor p) (Entry.move s p) 0 ((inOrder s listing notes).filter keep) =
      (((s.actions.filter fun a => a.listing = listing).filter fun a => keep (.action a)).map
        (actionFactor p.id)).prod *
        ((if dates p.date then p.quantity / basisLevel (s.splitsForParcel p.listing p.id) p.date
          else 0) - levelSales s p dates) := by
  obtain ⟨-, -, hlisting⟩ := mem_parcelsOf.mp hp
  let w : NaiveDate → ℚ := fun date =>
    if dates date then (basisLevel (s.splitsForParcel p.listing p.id) date)⁻¹ else 0
  have hfactor : ∀ e ∈ (inOrder s listing notes).filter keep, e.parcelFactor p ≠ 0 := by
    intro e _
    cases e with
    | action a => exact (actionFactor_pos p.id a).ne'
    | note n => exact one_ne_zero
    | trade t => exact one_ne_zero
  have hstill : ∀ e ∈ (inOrder s listing notes).filter keep, e.rebases = false →
      e.parcelFactor p = 1 := by
    intro e _ he
    cases e with
    | action a => cases he
    | note n => rfl
    | trade t => rfl
  have hmove : ∀ e ∈ (inOrder s listing notes).filter keep, e.rebases = true →
      e.move s p = 0 := by
    intro e _ he
    cases e with
    | action a => rfl
    | note n => cases he
    | trade t => cases he
  have hterm : ∀ e ∈ (inOrder s listing notes).filter keep, e.move s p /
      levelOn (Entry.parcelFactor p) Entry.date ((inOrder s listing notes).filter keep) e.date =
        e.move s p * w e.date := by
    intro e he
    cases e with
    | action a => exact (zero_div _).trans (zero_mul _).symm
    | note n => exact (zero_div _).trans (zero_mul _).symm
    | trade t =>
      have hdate : dates t.date = true := (htrades t).symm.trans (List.mem_filter.mp he).2
      have hlevel : levelOn (Entry.parcelFactor p) Entry.date
          ((inOrder s listing notes).filter keep) t.date =
            basisLevel (s.splitsForParcel listing p.id) t.date :=
        levelOn_parcel fun a _ _ ha => hactions a t.date hdate ha
      change Entry.move s p (.trade t) / levelOn _ _ _ t.date = _ * w t.date
      rw [hlevel, div_eq_mul_inv, ← hlisting]
      exact congrArg _ (if_pos hdate).symm
  have hdropped : ∀ e ∈ inOrder s listing notes,
      (if keep e then e.move s p * w e.date else 0) = e.move s p * w e.date := by
    intro e _
    cases hk : keep e with
    | true => exact if_pos rfl
    | false =>
      cases e with
      | action a => exact (zero_mul _).symm
      | note n => exact (zero_mul _).symm
      | trade t =>
        have hw : w t.date = 0 := if_neg (by rw [← htrades t, hk]; exact Bool.false_ne_true)
        exact (mul_eq_zero_of_right _ hw).symm
  have hall : ((inOrder s listing notes).map fun e => e.move s p * w e.date).sum =
      ((s.trades.filter fun t => t.listing = listing).map fun t => moved s p t * w t.date).sum := by
    have hzero : ∀ {ι : Type} (l : List ι) (f : ι → NaiveDate),
        (l.map fun i => (0 : ℚ) * w (f i)).sum = 0 := by
      intro ι l f
      simp
    rw [inOrder, ((StableSort.sortBy_perm Entry.key (entries s listing notes)).map _).sum_eq,
      entries]
    simp only [List.map_append, List.sum_append, List.map_map]
    have hactions := hzero (s.actions.filter fun a => a.listing = listing) CorporateAction.date
    have hnotes := hzero notes Note.date
    exact (congrArg₂ (· + ·) (congrArg₂ (· + ·) hactions hnotes) rfl).trans
      ((congrArg₂ (· + ·) (add_zero (0 : ℚ)) rfl).trans (zero_add _))
  have hsales : ((s.parcelSales p.id).map fun sale => sale.quantity.value * w sale.basis).sum =
      levelSales s p dates := by
    rw [levelSales, Tally.sum_filter]
    refine congrArg List.sum (List.map_congr_left fun sale _ => ?_)
    exact (mul_ite _ _ _ _).trans (by rw [mul_zero, ← div_eq_mul_inv])
  have hown : p.quantity * w p.date =
      if dates p.date then p.quantity / basisLevel (s.splitsForParcel p.listing p.id) p.date
      else 0 := (mul_ite _ _ _ _).trans (by rw [mul_zero, ← div_eq_mul_inv])
  rw [run_eq_level ((inOrder_dated s listing notes).filter keep) hfactor hstill hmove,
    level_parcel, List.map_congr_left hterm, Tally.sum_filter, List.map_congr_left hdropped,
    hall, sum_moves hvalid hnet hp w, hown, hsales]

end Cut

/-! ### The rows before an action -/

namespace Entry

def action? : Entry → Option CorporateAction
  | action a => some a
  | note _ | trade _ => none

/-- Whether a row comes before an action's. -/
def precedes (a : CorporateAction) (e : Entry) : Bool := decide (e.key < (Entry.action a).key)

theorem precedes_action (a b : CorporateAction) :
    precedes a (.action b) = decide (Ledger.order b < Ledger.order a) := by
  refine decide_eq_decide.mpr ?_
  simp [key, Proto.key, proto, Ledger.order, Prod.Lex.toLex_lt_toLex]

theorem precedes_trade (a : CorporateAction) (t : Trade) :
    precedes a (.trade t) = decide (t.date < a.date) := by
  refine decide_eq_decide.mpr ?_
  simp [key, Proto.key, proto, tradeProto, Prod.Lex.toLex_lt_toLex]

theorem date_of_precedes {a : CorporateAction} {e : Entry} (h : precedes a e = true) :
    e.date ≤ a.date := (dated_of_key (of_decide_eq_true h).le).1

theorem action_of_key {a : CorporateAction} {e : Entry} (h : e.key = (Entry.action a).key) :
    ∃ b, e.action? = some b ∧ b.id = a.id := by
  cases e with
  | action b =>
    refine ⟨b, rfl, ?_⟩
    simpa [key, Proto.key, proto] using (congrArg (fun k => (ofLex (ofLex (ofLex k).2).2).2) h)
  | note n => exact absurd (congrArg (fun k => (ofLex (ofLex k).2).1) h) (by
      simp [key, Proto.key, proto, Note.proto])
  | trade t => exact absurd (congrArg (fun k => (ofLex (ofLex k).2).1) h) (by
      simp [key, Proto.key, proto, tradeProto])

end Entry

section Before
variable {D : DecimalRounding} {s : Ledger} {listing : ListingId} {notes : List Note} {p : Trade}
  {d : NaiveDate}

theorem upTo_actions (hunique : UniqueActions s) :
    (((upTo s listing notes d).filterMap Entry.action?).map CorporateAction.id).Nodup := by
  have hentries : (entries s listing notes).filterMap Entry.action? =
      s.actions.filter fun a => a.listing = listing := by
    simp [entries, List.filterMap_append, List.filterMap_map, Function.comp_def, Entry.action?]
  have hall : (((inOrder s listing notes).filterMap Entry.action?).map CorporateAction.id).Nodup := by
    have hperm := (StableSort.sortBy_perm Entry.key (entries s listing notes)).filterMap Entry.action?
    rw [hentries] at hperm
    exact (hperm.map _).nodup_iff.mpr (Keyed.nodup_filter hunique _)
  exact hall.sublist ((List.filter_sublist.filterMap _).map _)

/-- What the rows hold before an action's are those that come before it. -/
theorem before_action (hunique : UniqueActions s) {a : CorporateAction} {before after : List Entry}
    (hsplit : upTo s listing notes d = before ++ .action a :: after) :
    before = (inOrder s listing notes).filter (Entry.precedes a) := by
  have hsorted : (upTo s listing notes d).Pairwise fun e e' => e.key ≤ e'.key :=
    (StableSort.sortBy_sorted Entry.key _).filter _
  have hids : (((upTo s listing notes d).filterMap Entry.action?).map CorporateAction.id).Nodup :=
    upTo_actions hunique
  have hself : Entry.precedes a (.action a) = false := decide_eq_false (lt_irrefl _)
  have hby : a.date ≤ d := by
    have hmem : Entry.action a ∈ upTo s listing notes d := hsplit ▸ List.mem_append_right _ List.mem_cons_self
    exact of_decide_eq_true (List.mem_filter.mp hmem).2
  have hcut : (inOrder s listing notes).filter (Entry.precedes a) =
      (upTo s listing notes d).filter (Entry.precedes a) := by
    rw [upTo, List.filter_filter]
    refine List.filter_congr fun e _ => ?_
    cases hp : Entry.precedes a e with
    | false => rfl
    | true => exact (decide_eq_true ((Entry.date_of_precedes hp).trans hby)).symm
  rw [hsplit] at hsorted hids
  have hbefore : ∀ e ∈ before, Entry.precedes a e = true := by
    intro e he
    refine decide_eq_true (lt_of_le_of_ne
      ((List.pairwise_append.mp hsorted).2.2 e he _ List.mem_cons_self) fun hkey => ?_)
    -- its row would be another of the action's id
    obtain ⟨b, hb, hid⟩ := Entry.action_of_key hkey
    rw [List.filterMap_append, List.map_append, List.nodup_append] at hids
    refine hids.2.2 b.id (List.mem_map_of_mem (List.mem_filterMap.mpr ⟨e, he, hb⟩)) a.id ?_ hid
    exact List.mem_map_of_mem (List.mem_filterMap.mpr ⟨_, List.mem_cons_self, rfl⟩)
  have hafter : ∀ e ∈ after, ¬ Entry.precedes a e = true := by
    intro e he hp
    have hle := (List.pairwise_cons.mp (List.pairwise_append.mp hsorted).2.1).1 e he
    exact absurd (of_decide_eq_true hp) (not_lt.mpr hle)
  rw [hcut, hsplit, List.filter_append, List.filter_eq_self.mpr hbefore,
    List.filter_cons_of_neg (by rw [hself]; exact Bool.false_ne_true),
    List.filter_eq_nil_iff.mpr hafter, List.append_nil]

theorem sale_since (hvalid : s.Valid D) (hnet : s.TransfersNet) (hp : p ∈ s.trades) :
    ∀ sale ∈ s.parcelSales p.id, p.date ≤ sale.basis := by
  intro sale hsale
  obtain ⟨r, hr, rfl⟩ := List.mem_map.mp hsale
  obtain ⟨a, ha, t, hpurchase, ht, rfl⟩ := Ledger.mem_saleRows hr
  obtain ⟨sold, parcel, hsold, -, hparcel, -, -, hdate⟩ := (hvalid.rows.drawn a ha).rows
  rw [ht] at hsold
  obtain rfl := Option.some_inj.mp hsold
  rw [hpurchase, Ledger.trade?_of_mem hnet.unique hp] at hparcel
  obtain rfl := Option.some_inj.mp hparcel
  exact hdate

/-- The rows before an action leave of a parcel what the action finds of it. -/
theorem run_before (hvalid : s.Valid D) (hnet : s.TransfersNet) (hp : p ∈ s.parcelsOf listing)
    (a : CorporateAction) :
    run (Entry.parcelFactor p) (Entry.move s p) 0
      ((inOrder s listing notes).filter (Entry.precedes a)) = unitsEntering s p a := by
  obtain ⟨hmem, -, hlisting⟩ := mem_parcelsOf.mp hp
  have hlevel : (((s.actions.filter fun b => b.listing = listing).filter fun b =>
      Entry.precedes a (.action b)).map (actionFactor p.id)).prod =
        (((s.actions.filter fun b => b.listing = p.listing && Ledger.order b < Ledger.order a).filterMap
          fun b => b.eventFor p.id).map ratio).prod := by
    rw [prod_events, List.filter_filter, hlisting]
    simp only [Entry.precedes_action, Bool.and_comm]
  rw [run_parcel hvalid hnet hp (fun date => date < a.date) (Entry.precedes_trade a)
    fun b date hdate hb => by
      rw [Entry.precedes_action]
      exact decide_eq_true (Prod.Lex.toLex_lt_toLex.mpr
        (.inl (hb.trans_lt (of_decide_eq_true hdate)))), hlevel, unitsEntering]
  by_cases hdate : p.date < a.date
  · rw [if_pos hdate, if_pos (decide_eq_true hdate), mul_comm]
    rfl
  · have hnone : (s.parcelSales p.id).filter (fun sale => decide (sale.basis < a.date)) = [] := by
      refine List.filter_eq_nil_iff.mpr fun sale hsale hkept => hdate ?_
      exact (sale_since hvalid hnet hmem sale hsale).trans_lt (of_decide_eq_true hkept)
    rw [if_neg hdate, if_neg (by simpa using hdate), levelSales, hnone, List.map_nil, List.sum_nil,
      sub_zero, mul_zero]

/-- Where each count starts from what the action finds, the ratio of a parcel's own
counts re-bases its part of the rows. -/
theorem run_part (hvalid : s.Valid D) (hnet : s.TransfersNet) (hunique : UniqueActions s)
    (hcounts : CountsEnter s listing) (hp : p ∈ s.parcelsOf listing) (d : NaiveDate) :
    run Entry.factor (Entry.part s p) 0 (upTo s listing notes d) =
      run (Entry.parcelFactor p) (Entry.move s p) 0 (upTo s listing notes d) := by
  refine run_eq_of_prefix fun before e after hsplit => ?_
  have he : e ∈ inOrder s listing notes := by
    have hmem : e ∈ upTo s listing notes d := hsplit ▸ List.mem_append_right _ List.mem_cons_self
    exact (List.mem_filter.mp hmem).1
  rcases mem_inOrder he with ⟨a, ha, hlisting, rfl⟩ | ⟨n, rfl⟩ | ⟨t, -, -, rfl⟩
  · rw [before_action hunique hsplit, run_before hvalid hnet hp a]
    cases hr : a.rebase with
    | none => simp [Entry.factor, Entry.part, Entry.parcelFactor, Entry.move,
        CorporateAction.eventFor, hr]
    | some event =>
      obtain ⟨hkeys, hentered⟩ := hcounts a ha hlisting (by rw [hr]; rfl)
      cases hfind : a.counts.find? (fun c => c.1 = p.id) with
      | none =>
        have hnone : a.counts.filter (fun c => c.1 = p.id) = [] :=
          List.filter_eq_nil_iff.mpr (List.find?_eq_none.mp hfind)
        simp [Entry.factor, Entry.part, Entry.parcelFactor, Entry.move,
          CorporateAction.eventFor, hr, hfind, hnone]
      | some c =>
        obtain ⟨hc, hid⟩ := (Keyed.get?_eq_some hkeys).mp hfind
        obtain ⟨t, ht, htid, hbefore⟩ := hentered c hc
        obtain rfl : t = p := Keyed.eq_of_key (parcels_unique hnet) ht hp (htid.trans hid)
        have hone : a.counts.filter (fun c => c.1 = t.id) = [c] :=
          Keyed.filter_key hkeys hc hid
        have hpos := c.2.before_pos.ne'
        simp only [Entry.factor, Entry.part, Entry.parcelFactor, Entry.move,
          CorporateAction.eventFor, hr, hfind, hone, Option.elim_some, Option.map_some,
          List.map_cons, List.map_nil, List.sum_singleton, Entry.gained, ← hbefore]
        field_simp
        ring
  · simp [Entry.factor, Entry.part, Entry.parcelFactor, Entry.move]
  · simp [Entry.factor, Entry.part, Entry.parcelFactor, Entry.move]

end Before

/-! ### The units of a parcel -/

/-- What is left of a parcel at a date once each sale has taken the units it
states, in the basis of the date. -/
def unitsStated (s : Ledger) (t : Trade) (date : NaiveDate) : ℚ :=
  let splits := s.splitsForParcel t.listing t.id
  if t.date ≤ date then
    (t.quantity - ((s.unitsSold date t.id).map
      fun sale => sale.quantity.value / basisFactor splits t.date sale.basis).sum) *
        basisFactor splits t.date date
  else 0

section Stated
variable {D : DecimalRounding} {s : Ledger} {listing : ListingId} {notes : List Note} {p : Trade}

theorem run_upTo (hvalid : s.Valid D) (hnet : s.TransfersNet) (hp : p ∈ s.parcelsOf listing)
    (d : NaiveDate) :
    run (Entry.parcelFactor p) (Entry.move s p) 0 (upTo s listing notes d) = unitsStated s p d := by
  obtain ⟨hmem, -, hlisting⟩ := mem_parcelsOf.mp hp
  rw [upTo, run_parcel hvalid hnet hp (fun date => date ≤ d) (fun t => rfl)
    fun a date hdate ha => decide_eq_true (ha.trans (of_decide_eq_true hdate))]
  have hlevel : (((s.actions.filter fun a => a.listing = listing).filter fun a =>
      decide (Entry.date (.action a) ≤ d)).map (actionFactor p.id)).prod =
        basisLevel (s.splitsForParcel p.listing p.id) d := by
    rw [hlisting, basisLevel_splits]
    rfl
  rw [hlevel, unitsStated]
  have hpos := fun date => (basisLevel_pos (s.splitsForParcel p.listing p.id) date).ne'
  by_cases hdate : p.date ≤ d
  · rw [if_pos (decide_eq_true hdate), if_pos hdate]
    have hsales : ((s.unitsSold d p.id).map fun sale => sale.quantity.value /
        basisFactor (s.splitsForParcel p.listing p.id) p.date sale.basis).sum =
          levelSales s p (fun date => decide (date ≤ d)) *
            basisLevel (s.splitsForParcel p.listing p.id) p.date := by
      rw [levelSales, ← List.sum_map_mul_right, Ledger.unitsSold]
      refine congrArg List.sum (List.map_congr_left fun sale _ => ?_)
      rw [basisFactor, rebaseRatio_factor]
      field_simp [hpos]
    rw [hsales, basisFactor, rebaseRatio_factor]
    field_simp [hpos]
  · have hnone : (s.parcelSales p.id).filter (fun sale => decide (sale.basis ≤ d)) = [] := by
      refine List.filter_eq_nil_iff.mpr fun sale hsale hkept => hdate ?_
      exact (sale_since hvalid hnet hmem sale hsale).trans (of_decide_eq_true hkept)
    rw [if_neg hdate, if_neg (by simpa using hdate), levelSales, hnone, List.map_nil, List.sum_nil,
      sub_zero, mul_zero]

/-- The balance of a listing's rows is what is left of its parcels, each sale taking
the units it states. -/
theorem run_stated (hvalid : s.Valid D) (hnet : s.TransfersNet) (hunique : UniqueActions s)
    (hcounts : CountsEnter s listing) (d : NaiveDate) :
    run Entry.factor Entry.shift 0 (upTo s listing notes d) =
      ((s.parcelsOf listing).map fun p => unitsStated s p d).sum := by
  rw [run_parts hvalid hnet hcounts d]
  refine congrArg List.sum (List.map_congr_left fun p hp => ?_)
  rw [run_part hvalid hnet hunique hcounts hp d, run_upTo hvalid hnet hp d]

end Stated

end ShareTracker.Activity
