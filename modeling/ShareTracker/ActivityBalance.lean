import ShareTracker.ActivityLedger

/-!
The balance running down a listing's activity ledger, beside the units its open
parcels hold: the same count, taken once for the listing and once parcel by
parcel.
-/
namespace ShareTracker.Activity
open RebasedBalance

/-! ### The rows with the records behind them -/

/-- A record of the listing; unlike the ledger's rows, a transfer's trades too. -/
inductive Entry where
  | action (a : CorporateAction)
  | note (n : Note)
  | trade (t : Trade)

namespace Entry

def date : Entry → NaiveDate
  | action a => a.date
  | note n => n.date
  | trade t => t.date

def rebases : Entry → Bool
  | action _ => true
  | note _ | trade _ => false

def inTransfer : Entry → Bool
  | action _ | note _ => false
  | trade t => t.inTransfer

/-- The units either side of an action's stored counts. -/
def countsTotal (a : CorporateAction) : Option (ℚ × ℚ) :=
  if a.counts = [] then none
  else some ((a.counts.map fun c => c.2.before).sum, (a.counts.map fun c => c.2.after).sum)

def proto : Entry → Proto
  | action a => ⟨a.date, 0, .corporateActions, a.id, none,
      a.rebase.map fun event => ⟨event.newUnits, event.oldUnits, countsTotal a⟩⟩
  | note n => n.proto
  | trade t => tradeProto t

def key (e : Entry) : NaiveDate ×ₗ ℕ ×ₗ ℕ ×ₗ ℤ := e.proto.key

/-- What a stored count adds to its units, beside the ratio. -/
def gained (ratio : ℚ) (c : StoredCount) : ℚ := c.after - c.before * ratio

/-- What the record multiplies the units by. -/
def factor : Entry → ℚ
  | action a => a.rebase.elim 1 fun event => event.newUnits / event.oldUnits
  | note _ | trade _ => 1

/-- What the record moves the units by, once re-based. -/
def shift : Entry → ℚ
  | action a => a.rebase.elim 0 fun event =>
    (a.counts.map fun c => gained (event.newUnits / event.oldUnits) c.2).sum
  | note _ => 0
  | trade t => t.signed

theorem proto_factor (e : Entry) : e.proto.factor = e.factor := by
  cases e with
  | action a =>
    cases hr : a.rebase <;> simp [proto, Proto.factor, factor, hr]
  | note n => rfl
  | trade t => rfl

theorem proto_shift (e : Entry) : e.proto.shift = e.shift := by
  cases e with
  | action a =>
    cases hr : a.rebase with
    | none => simp [proto, Proto.shift, shift, hr]
    | some event =>
      by_cases hc : a.counts = []
      · simp [proto, Proto.shift, shift, hr, countsTotal, hc]
      · simp [proto, Proto.shift, shift, hr, countsTotal, hc, gained, Tally.sum_map_sub,
          List.sum_map_mul_right]
  | note n => exact zero_add _
  | trade t => exact zero_add _

theorem date_proto (e : Entry) : e.proto.date = e.date := by
  cases e <;> rfl

theorem old_pos (e : Entry) : ∀ r ∈ e.proto.rebase, 0 < r.old := by
  cases e with
  | action a =>
    intro r hr
    obtain ⟨event, -, rfl⟩ := Option.map_eq_some_iff.mp hr
    exact event.oldUnits_pos
  | note n => exact fun r hr => absurd hr (by simp [proto, Note.proto])
  | trade t => exact fun r hr => absurd hr (by simp [proto, tradeProto])

theorem factor_ne_zero (e : Entry) : e.factor ≠ 0 := by
  cases e with
  | action a =>
    cases hr : a.rebase with
    | none => simp [factor, hr]
    | some event =>
      simpa [factor, hr] using ⟨event.newUnits_pos.ne', event.oldUnits_pos.ne'⟩
  | note n => exact one_ne_zero
  | trade t => exact one_ne_zero

/-- By date, a day's actions before the rest. -/
theorem dated_of_key {e e' : Entry} (h : e.key ≤ e'.key) :
    e.date ≤ e'.date ∧ (e.rebases = false → e'.rebases = true → e.date < e'.date) := by
  rcases Prod.Lex.toLex_le_toLex.mp h with hlt | ⟨heq, hrest⟩
  · rw [date_proto, date_proto] at hlt
    exact ⟨hlt.le, fun _ _ => hlt⟩
  · rw [date_proto, date_proto] at heq
    refine ⟨heq.le, fun he he' => ?_⟩
    exfalso
    have hrank : e.proto.rank ≤ e'.proto.rank := by
      rcases Prod.Lex.toLex_le_toLex.mp hrest with hlt | ⟨heq, -⟩
      · exact hlt.le
      · exact heq.le
    cases e' with
    | note n => cases he'
    | trade t => cases he'
    | action a =>
      cases e with
      | action b => cases he
      | note n => exact absurd hrank (by simp [proto, Note.proto])
      | trade t => exact absurd hrank (by simp [proto, tradeProto])

end Entry

/-- The records of a listing, as the tables give them. -/
def entries (s : Ledger) (listing : ListingId) (notes : List Note) : List Entry :=
  (s.actions.filter fun a => a.listing = listing).map .action ++ notes.map .note ++
    (s.trades.filter fun t => t.listing = listing).map .trade

/-- The records of a listing in the ledger's order. -/
def inOrder (s : Ledger) (listing : ListingId) (notes : List Note) : List Entry :=
  StableSort.sortBy Entry.key (entries s listing notes)

theorem inOrder_dated (s : Ledger) (listing : ListingId) (notes : List Note) :
    Dated Entry.date Entry.rebases (inOrder s listing notes) :=
  (StableSort.sortBy_sorted Entry.key _).imp Entry.dated_of_key

section Rows
variable {D : DecimalRounding} {s : Ledger} {listing : ListingId} {notes : List Note}

theorem storedCounts_yields {a : CorporateAction} {stored : Option (ℚ × ℚ)}
    (h : (storedCounts D a : Attempt Refusal _).Yields stored) : stored = Entry.countsTotal a := by
  unfold storedCounts at h
  unfold Entry.countsTotal
  split at h
  · rename_i hnil
    rw [if_pos hnil, yields_pure.mp h]
  · rename_i hsome
    obtain ⟨before, hbefore, h⟩ := yields_bind.mp h
    obtain ⟨after, hafter, h⟩ := yields_bind.mp h
    rw [if_neg hsome, ← yields_pure.mp h, DecimalRounding.of_yields_sum hbefore,
      DecimalRounding.of_yields_sum hafter]

theorem actionProto_yields {a : CorporateAction} {r : Proto}
    (h : (actionProto D a : Attempt Refusal _).Yields r) : r = (Entry.action a).proto := by
  unfold actionProto at h
  cases hr : a.rebase with
  | none =>
    rw [hr] at h
    rw [← yields_pure.mp h, Entry.proto, hr]
    rfl
  | some event =>
    rw [hr] at h
    obtain ⟨stored, hstored, h⟩ := yields_bind.mp h
    rw [← yields_pure.mp h, storedCounts_yields hstored, Entry.proto, hr]
    rfl

/-- The rows of the ledger are those of the records, a transfer's trades apart. -/
theorem activity_yields {events : List ActivityEvent}
    (h : (activity D s listing notes : Attempt Refusal _).Yields events) :
    (ledgerFrom D .zero (((inOrder s listing notes).filter fun e => !e.inTransfer).map
      Entry.proto) : Attempt Refusal _).Yields events := by
  unfold activity at h
  obtain ⟨actions, hactions, h⟩ := yields_bind.mp h
  have hrows : actions = (s.actions.filter fun a => a.listing = listing).map
      fun a => (Entry.action a).proto :=
    Ledger.eq_map_of_forall₂ ((Attempt.yields_mapM hactions).imp fun a r => actionProto_yields)
  have hall : actions ++ notes.map Note.proto ++ ((s.trades.filter fun t =>
      t.listing = listing).filter fun t => !t.inTransfer).map tradeProto =
        ((entries s listing notes).filter fun e => !e.inTransfer).map Entry.proto := by
    rw [hrows, entries]
    simp only [List.filter_append, List.map_append, List.filter_map, List.map_map]
    simp [Function.comp_def, Entry.inTransfer, Entry.proto]
  change (ledger D (actions ++ notes.map Note.proto ++ ((s.trades.filter fun t =>
    t.listing = listing).filter fun t => !t.inTransfer).map tradeProto) : Attempt Refusal _).Yields
      events at h
  rw [hall] at h
  unfold ledger at h
  have hsorted : StableSort.sortBy Proto.key
      (((entries s listing notes).filter fun e => !e.inTransfer).map Entry.proto) =
        ((inOrder s listing notes).filter fun e => !e.inTransfer).map Entry.proto := by
    rw [← @StableSort.map_sortBy _ _ _ _ Entry.key Proto.key Entry.proto fun _ => rfl, inOrder,
      StableSort.filter_sortBy]
  rwa [hsorted] at h

theorem run_proto (x : ℚ) (l : List Entry) :
    run Proto.factor Proto.shift x (l.map Entry.proto) = run Entry.factor Entry.shift x l := by
  induction l generalizing x with
  | nil => rfl
  | cons e l ih =>
    rw [List.map_cons, run_cons, run_cons, Entry.proto_factor, Entry.proto_shift, ih]

/-- The records up to a date. -/
def upTo (s : Ledger) (listing : ListingId) (notes : List Note) (d : NaiveDate) : List Entry :=
  (inOrder s listing notes).filter fun e => e.date ≤ d

/-- The last row by a date reads out the balance of all the rows up to it. -/
theorem last_by {events : List ActivityEvent}
    (h : (activity D s listing notes : Attempt Refusal _).Yields events)
    {pre post : List ActivityEvent} {e : ActivityEvent} (hsplit : events = pre ++ e :: post)
    {d : NaiveDate} (hby : e.date ≤ d) (hlast : ∀ later ∈ post, d < later.date) :
    e.unitsAfter = D.round (run Entry.factor Entry.shift 0
      ((upTo s listing notes d).filter fun e => !e.inTransfer)) := by
  have hold : ∀ r ∈ ((inOrder s listing notes).filter fun e => !e.inTransfer).map Entry.proto,
      ∀ rebase ∈ r.rebase, 0 < rebase.old := by
    intro r hr
    obtain ⟨entry, -, rfl⟩ := List.mem_map.mp hr
    exact entry.old_pos
  obtain ⟨before, r, later, hrows, hdate, hlater, hunits⟩ :=
    ledgerFrom_yields Balance.sound_zero hold (activity_yields h) hsplit
  have hsorted : (((inOrder s listing notes).filter fun e => !e.inTransfer).map
      Entry.proto).Pairwise fun r r' => r.date ≤ r'.date := by
    refine List.pairwise_map.mpr (((inOrder_dated s listing notes).filter _).imp fun hdated => ?_)
    rw [Entry.date_proto, Entry.date_proto]
    exact hdated.1
  rw [hrows] at hsorted
  have hself : r.date ≤ d := hdate.trans_le hby
  have hbefore : ∀ r' ∈ before, r'.date ≤ d := fun r' hr' =>
    ((List.pairwise_append.mp hsorted).2.2 r' hr' r List.mem_cons_self).trans hself
  have hafter : ∀ r' ∈ later, ¬ r'.date ≤ d := by
    intro r' hr'
    have hmem : r'.date ∈ post.map ActivityEvent.date := hlater ▸ List.mem_map_of_mem hr'
    obtain ⟨event, hevent, heq⟩ := List.mem_map.mp hmem
    exact not_le.mpr (heq ▸ hlast event hevent)
  have hkept : (((inOrder s listing notes).filter fun e => !e.inTransfer).map Entry.proto).filter
      (fun r' => r'.date ≤ d) = before ++ [r] := by
    rw [hrows, List.filter_append, List.filter_cons, if_pos (decide_eq_true hself),
      List.filter_eq_self.mpr fun r' hr' => decide_eq_true (hbefore r' hr'),
      List.filter_eq_nil_iff.mpr fun r' hr' => by simpa using hafter r' hr']
  have hvalue : Balance.zero.value = 0 := div_one 0
  rw [hunits, ← hkept, hvalue, List.filter_map, run_proto, upTo, List.filter_filter,
    List.filter_filter]
  simp only [Function.comp_def, Entry.date_proto, Bool.and_comm]

end Rows


/-! ### Transfers move nothing -/

section Transfers
variable {s : Ledger} {listing : ListingId} {notes : List Note}

theorem upTo_perm (keep : Entry → Bool) (d : NaiveDate) :
    ((upTo s listing notes d).filter keep).Perm
      (((entries s listing notes).filter fun e => e.date ≤ d).filter keep) :=
  ((StableSort.sortBy_perm Entry.key _).filter _).filter _

/-- What a transfer's trade moves its listing by. -/
def transferShift (e : Entry) : ℚ := if e.inTransfer then e.shift else 0

theorem sum_transfers (hnet : s.TransfersNet) (d : NaiveDate) :
    (((s.trades.filter fun t => t.listing = listing && t.date = d).filter Trade.inTransfer).map
      Trade.signed).sum = 0 := by
  set l := (s.trades.filter fun t => t.listing = listing && t.date = d).filter Trade.inTransfer
    with hl
  have hkeys : ∀ t ∈ l, t.provenance ∈ (l.map Trade.provenance).dedup :=
    fun t ht => List.mem_dedup.mpr (List.mem_map_of_mem ht)
  rw [Tally.sum_by_key Trade.provenance _ (List.nodup_dedup _) hkeys]
  refine List.sum_eq_zero fun x hx => ?_
  obtain ⟨k, hk, rfl⟩ := List.mem_map.mp hx
  obtain ⟨t, ht, rfl⟩ := List.mem_map.mp (List.mem_dedup.mp hk)
  obtain ⟨hplace, hmoved⟩ := List.mem_filter.mp ht
  obtain ⟨hmem, hplace⟩ := List.mem_filter.mp hplace
  simp only [Bool.and_eq_true, decide_eq_true_eq] at hplace
  obtain ⟨id, hprov⟩ : ∃ id, t.provenance = some (.transfer id) := by
    unfold Trade.inTransfer at hmoved
    cases hprov : t.provenance with
    | none => simp [hprov] at hmoved
    | some p => cases p <;> simp_all [Provenance.isTransfer]
  have hgroup : l.filter (fun u => u.provenance = t.provenance) = s.transferGroup id := by
    rw [hl, List.filter_filter, List.filter_filter, Ledger.transferGroup]
    refine List.filter_congr fun u hu => ?_
    by_cases hsame : u.provenance = some (.transfer id)
    · have hin : t ∈ s.transferGroup id := List.mem_filter.mpr ⟨hmem, decide_eq_true hprov⟩
      have hin' : u ∈ s.transferGroup id := List.mem_filter.mpr ⟨hu, decide_eq_true hsame⟩
      obtain ⟨hlisting, hdate⟩ := hnet.together id u hin' t hin
      simp [hsame, hprov, hlisting, hdate, hplace, Trade.inTransfer, Provenance.isTransfer]
    · simp [hsame, hprov]
  rw [hgroup, hnet.nets id]

theorem sum_transferShift (hnet : s.TransfersNet) (d d' : NaiveDate) :
    (((upTo s listing notes d).filter fun e => e.date = d').map transferShift).sum = 0 := by
  rw [((upTo_perm _ d).map transferShift).sum_eq, List.filter_filter]
  by_cases hd : d' ≤ d
  · have hkeep : ∀ l : List Entry, (l.filter fun e => decide (e.date = d') && decide (e.date ≤ d)) =
        l.filter fun e => e.date = d' := by
      intro l
      refine List.filter_congr fun e _ => ?_
      by_cases he : e.date = d' <;> simp [he, hd]
    have hnone : ∀ l : List Entry, (∀ e ∈ l, e.inTransfer = false) →
        ((l.filter fun e => e.date = d').map transferShift).sum = 0 := by
      intro l h
      refine List.sum_eq_zero fun x hx => ?_
      obtain ⟨e, he, rfl⟩ := List.mem_map.mp hx
      rw [transferShift, h e (List.mem_filter.mp he).1]
      rfl
    have hactions : ∀ e ∈ (s.actions.filter fun a => a.listing = listing).map Entry.action,
        e.inTransfer = false := by
      intro e he
      obtain ⟨a, -, rfl⟩ := List.mem_map.mp he
      rfl
    have hnotes : ∀ e ∈ notes.map Entry.note, e.inTransfer = false := by
      intro e he
      obtain ⟨n, -, rfl⟩ := List.mem_map.mp he
      rfl
    rw [hkeep, entries, List.filter_append, List.filter_append, List.map_append, List.map_append,
      List.sum_append, List.sum_append, hnone _ hactions, hnone _ hnotes, zero_add, zero_add,
      List.filter_map, List.map_map, List.filter_filter, ← @sum_transfers s listing hnet d']
    have hmoves : ∀ l : List Trade, (l.map (transferShift ∘ Entry.trade)).sum =
        ((l.filter Trade.inTransfer).map Trade.signed).sum := by
      intro l
      induction l with
      | nil => rfl
      | cons t l ih =>
        cases ht : t.inTransfer with
        | true =>
          rw [List.filter_cons_of_pos ht, List.map_cons, List.sum_cons, ih, List.map_cons,
            List.sum_cons]
          simp [transferShift, Entry.inTransfer, ht, Entry.shift]
        | false =>
          rw [List.filter_cons_of_neg (by simp [ht]), List.map_cons, List.sum_cons, ih]
          simp [transferShift, Entry.inTransfer, ht]
    rw [hmoves]
    refine congrArg (fun l : List Trade => ((l.filter Trade.inTransfer).map Trade.signed).sum) ?_
    refine List.filter_congr fun t _ => ?_
    rw [Bool.and_comm]
    exact congrArg₂ and rfl (decide_eq_decide.mpr Iff.rfl)
  · have hnone : (entries s listing notes).filter
        (fun e => decide (e.date = d') && decide (e.date ≤ d)) = [] := by
      refine List.filter_eq_nil_iff.mpr fun e _ hkept => ?_
      simp only [Bool.and_eq_true, decide_eq_true_eq] at hkept
      exact hd (hkept.1 ▸ hkept.2)
    rw [hnone, List.map_nil, List.sum_nil]

theorem upTo_dated (d : NaiveDate) : Dated Entry.date Entry.rebases (upTo s listing notes d) :=
  (inOrder_dated s listing notes).filter _

theorem factor_of_still (e : Entry) (h : e.rebases = false) : e.factor = 1 := by
  cases e with
  | action a => cases h
  | note n => rfl
  | trade t => rfl

/-- The rows leave out the trades of transfers and lose nothing by it. -/
theorem run_without_transfers (hnet : s.TransfersNet) (d : NaiveDate) :
    run Entry.factor Entry.shift 0 ((upTo s listing notes d).filter fun e => !e.inTransfer) =
      run Entry.factor Entry.shift 0 (upTo s listing notes d) := by
  have htransfers : run Entry.factor transferShift 0 (upTo s listing notes d) = 0 := by
    refine run_of_balanced (upTo_dated d) (fun e _ => e.factor_ne_zero)
      (fun e _ he => factor_of_still e he) (fun e _ he => ?_) fun d' => ?_
    · cases e with
      | action a => rfl
      | note n => cases he
      | trade t => cases he
    · have hday := @sum_transferShift s listing notes hnet d d'
      rw [← hday]
      congr
      funext e
      exact decide_eq_decide.mpr Iff.rfl
  have hrest : run Entry.factor Entry.shift 0 (upTo s listing notes d) =
      run Entry.factor (fun e => if e.inTransfer then 0 else e.shift) 0 (upTo s listing notes d) := by
    have hsplit := run_add (f := Entry.factor) (c := fun e => if e.inTransfer then 0 else e.shift)
      transferShift 0 0 (upTo s listing notes d)
    rw [htransfers, add_zero, add_zero] at hsplit
    rw [← hsplit]
    refine run_congr (fun e _ => ⟨rfl, ?_⟩) 0
    cases he : e.inTransfer <;> simp [transferShift, he]
  have hstill : ∀ e ∈ upTo s listing notes d, (!e.inTransfer) = false →
      e.factor = 1 ∧ (if e.inTransfer then 0 else e.shift) = 0 := by
    intro e _ he
    have hin : e.inTransfer = true := by simpa using he
    refine ⟨?_, if_pos hin⟩
    cases e with
    | action a => cases hin
    | note n => cases hin
    | trade t => rfl
  rw [hrest, ← run_filter hstill]
  refine run_congr (fun e he => ⟨rfl, ?_⟩) 0
  have hnot : e.inTransfer = false := by simpa using (List.mem_filter.mp he).2
  simp [hnot]

end Transfers


/-! ### The listing's units, parcel by parcel -/

/-- What a trade of the listing moves one parcel by. -/
def moved (s : Ledger) (p t : Trade) : ℚ :=
  if t.tradeType.isAcquisition then (if t.id = p.id then t.quantity else 0)
  else -((s.allocations.filter fun a => a.sale = t.id && a.purchase = p.id).map
    fun a => a.quantity.value).sum

namespace Entry

/-- One parcel's part of what a record moves. -/
def part (s : Ledger) (p : Trade) : Entry → ℚ
  | action a => a.rebase.elim 0 fun event =>
    ((a.counts.filter fun c => c.1 = p.id).map
      fun c => gained (event.newUnits / event.oldUnits) c.2).sum
  | note _ => 0
  | trade t => moved s p t

/-- What a record multiplies one parcel's units by: its stored count's ratio. -/
def parcelFactor (p : Trade) : Entry → ℚ
  | action a => (a.eventFor p.id).elim 1 fun event => event.newUnits / event.oldUnits
  | note _ | trade _ => 1

def move (s : Ledger) (p : Trade) : Entry → ℚ
  | action _ | note _ => 0
  | trade t => moved s p t

end Entry

/-- The units of a parcel as an action of its listing finds them: what the
earlier sales state less, in the basis the earlier actions leave. -/
def unitsEntering (s : Ledger) (t : Trade) (a : CorporateAction) : ℚ :=
  let splits := s.splitsForParcel t.listing t.id
  let earlier := (s.actions.filter fun b => b.listing = t.listing && Ledger.order b < Ledger.order a)
  let level := ((earlier.filterMap fun b => b.eventFor t.id).map
    fun event => event.newUnits / event.oldUnits).prod
  if t.date < a.date then
    (t.quantity / basisLevel splits t.date -
      (((s.parcelSales t.id).filter fun sale => sale.basis < a.date).map
        fun sale => sale.quantity.value / basisLevel splits sale.basis).sum) * level
  else 0

/-- Every stored count is of a parcel of the listing, and starts from exactly
the units the action finds of it. -/
def CountsEnter (s : Ledger) (listing : ListingId) : Prop :=
  ∀ a ∈ s.actions, a.listing = listing → a.rebase.isSome = true →
    (a.counts.map Prod.fst).Nodup ∧ ∀ c ∈ a.counts,
      ∃ t ∈ s.parcelsOf listing, t.id = c.1 ∧ c.2.before = unitsEntering s t a

instance decidableCountsEnter (s : Ledger) (listing : ListingId) :
    Decidable (CountsEnter s listing) :=
  inferInstanceAs (Decidable (∀ a ∈ s.actions, a.listing = listing → a.rebase.isSome = true → _))

section Parts
variable {D : DecimalRounding} {s : Ledger} {listing : ListingId} {notes : List Note}

theorem mem_inOrder {e : Entry} (h : e ∈ inOrder s listing notes) :
    (∃ a ∈ s.actions, a.listing = listing ∧ e = .action a) ∨ (∃ n, e = .note n) ∨
      ∃ t ∈ s.trades, t.listing = listing ∧ e = .trade t := by
  have h := StableSort.mem_sortBy.mp h
  rcases List.mem_append.mp h with h | h
  · rcases List.mem_append.mp h with h | h
    · obtain ⟨a, ha, rfl⟩ := List.mem_map.mp h
      obtain ⟨hmem, hlisting⟩ := List.mem_filter.mp ha
      exact Or.inl ⟨a, hmem, of_decide_eq_true hlisting, rfl⟩
    · obtain ⟨n, -, rfl⟩ := List.mem_map.mp h
      exact Or.inr (Or.inl ⟨n, rfl⟩)
  · obtain ⟨t, ht, rfl⟩ := List.mem_map.mp h
    obtain ⟨hmem, hlisting⟩ := List.mem_filter.mp ht
    exact Or.inr (Or.inr ⟨t, hmem, of_decide_eq_true hlisting, rfl⟩)

theorem parcels_unique (hnet : s.TransfersNet) :
    ((s.parcelsOf listing).map Trade.id).Nodup := Keyed.nodup_filter hnet.unique _

theorem mem_parcelsOf {t : Trade} : t ∈ s.parcelsOf listing ↔
    t ∈ s.trades ∧ t.tradeType.isAcquisition = true ∧ t.listing = listing := by
  simp [Ledger.parcelsOf]

/-- An acquisition moves its own parcel, a Sell the parcels it draws on. -/
theorem sum_moved (hvalid : s.Valid D) (hnet : s.TransfersNet) {t : Trade} (ht : t ∈ s.trades)
    (hlisting : t.listing = listing) :
    t.signed = ((s.parcelsOf listing).map fun p => moved s p t).sum := by
  cases hacq : t.tradeType.isAcquisition with
  | true =>
    have hkeys : ∀ u ∈ [t], u.id ∈ (s.parcelsOf listing).map Trade.id := by
      intro u hu
      rw [List.mem_singleton.mp hu]
      exact List.mem_map_of_mem (mem_parcelsOf.mpr ⟨ht, hacq, hlisting⟩)
    have hsum := Tally.sum_by_key Trade.id Trade.quantity (parcels_unique hnet) hkeys
    rw [List.map_cons, List.map_nil, List.sum_singleton, List.map_map] at hsum
    rw [Trade.signed, if_pos hacq, hsum]
    refine congrArg List.sum (List.map_congr_left fun p _ => ?_)
    by_cases hid : t.id = p.id <;> simp [moved, hacq, hid]
  | false =>
    have hsell : t.tradeType = .sell := by
      cases htype : t.tradeType with
      | sell => rfl
      | buy => rw [htype] at hacq; cases hacq
      | drp => rw [htype] at hacq; cases hacq
    have hkeys : ∀ a ∈ s.allocations.filter (fun a => a.sale = t.id),
        a.purchase ∈ (s.parcelsOf listing).map Trade.id := by
      intro a ha
      obtain ⟨ha, hsale⟩ := List.mem_filter.mp ha
      obtain ⟨sale, parcel, hs, -, hp, hpacq, hsame, -⟩ := (hvalid.rows.drawn a ha).rows
      rw [of_decide_eq_true hsale, Ledger.trade?_of_mem hnet.unique ht] at hs
      obtain rfl := Option.some_inj.mp hs
      rw [← Ledger.trade?_id hp]
      exact List.mem_map_of_mem
        (mem_parcelsOf.mpr ⟨Ledger.mem_of_trade? hp, hpacq, hsame.trans hlisting⟩)
    have hsum := Tally.sum_by_key ParcelAllocation.purchase (fun a => a.quantity.value)
      (parcels_unique hnet) hkeys
    have hsold := hvalid.sums t.id t (Ledger.trade?_of_mem hnet.unique ht) hsell
    rw [Ledger.SumsTo] at hsold
    rw [hsold, List.map_map] at hsum
    rw [Trade.signed, hacq, if_neg Bool.false_ne_true, hsum, List.sum_neg, List.map_map]
    refine congrArg List.sum (List.map_congr_left fun p _ => ?_)
    rw [moved, hacq, if_neg Bool.false_ne_true, Function.comp_apply, Function.comp_apply,
      List.filter_filter]
    simp only [Bool.and_comm]

/-- A record moves the listing by what it moves its parcels. -/
theorem sum_parts (hvalid : s.Valid D) (hnet : s.TransfersNet) (hcounts : CountsEnter s listing)
    {e : Entry} (he : e ∈ inOrder s listing notes) :
    e.shift = ((s.parcelsOf listing).map fun p => e.part s p).sum := by
  rcases mem_inOrder he with ⟨a, ha, hlisting, rfl⟩ | ⟨n, rfl⟩ | ⟨t, ht, hlisting, rfl⟩
  · cases hr : a.rebase with
    | none => simp [Entry.shift, Entry.part, hr]
    | some event =>
      obtain ⟨-, hparcels⟩ := hcounts a ha hlisting (by rw [hr]; rfl)
      have hkeys : ∀ c ∈ a.counts, c.1 ∈ (s.parcelsOf listing).map Trade.id := by
        intro c hc
        obtain ⟨t, ht, hid, -⟩ := hparcels c hc
        exact hid ▸ List.mem_map_of_mem ht
      have hsum := Tally.sum_by_key Prod.fst
        (fun c => Entry.gained (event.newUnits / event.oldUnits) c.2) (parcels_unique hnet) hkeys
      rw [List.map_map] at hsum
      simp only [Entry.shift, Entry.part, hr, Option.elim_some]
      exact hsum
  · simp [Entry.shift, Entry.part]
  · exact sum_moved hvalid hnet ht hlisting

theorem run_parts (hvalid : s.Valid D) (hnet : s.TransfersNet) (hcounts : CountsEnter s listing)
    (d : NaiveDate) : run Entry.factor Entry.shift 0 (upTo s listing notes d) =
      ((s.parcelsOf listing).map fun p =>
        run Entry.factor (Entry.part s p) 0 (upTo s listing notes d)).sum := by
  rw [← run_sum]
  exact run_congr (fun e he =>
    ⟨rfl, sum_parts hvalid hnet hcounts (List.mem_filter.mp he).1⟩) 0

end Parts

end ShareTracker.Activity
