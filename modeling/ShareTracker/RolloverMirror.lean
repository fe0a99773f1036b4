import ShareTracker.AmitPairing

/-!
The two walks along the rollover chains. Down from a parcel and up from it they
read the same links, but for a closing Sell, which is no parcel and which only
the walk up answers for.
-/
namespace ShareTracker.Amit
open Performance BoundedSearch

/-- The parcels the rollovers that consumed this one wrote. -/
def replacements (b : Book) (id : TradeId) : List TradeId :=
  (groupsConsuming b id).flatMap (groupReplacements b)

/-- Every parcel a chain of at most `depth` rollovers carried this one's units into. -/
def replacementDescendants (b : Book) (depth : ℕ) (id : TradeId) : List TradeId :=
  StableSort.sortBy (fun i => i) (search (replacements b) depth [id] [id])

/-- The trade is a rollover's closing Sell. -/
def ClosingSell (b : Book) (id : TradeId) : Prop := ∃ r ∈ b.rollovers, r.closingId = id

/-- Each trade is one row, and what a closing Sell consumed is a parcel. -/
structure Linked (b : Book) : Prop where
  ids : (b.trades.map TradeRow.id).Nodup
  parcels : ∀ r ∈ b.rollovers, ∀ m ∈ r.moved, Acquired b m.parcel

/-! ### Links -/

section Links
variable {b : Book}

theorem mem_replacements {id source : TradeId} :
    id ∈ replacements b source ↔
      ∃ r ∈ b.rollovers, (∃ m ∈ r.moved, m.parcel = source) ∧
        ∃ r' ∈ b.rollovers, r'.group = r.group ∧ ∃ t ∈ r'.buys, t.id = id := by
  unfold replacements groupsConsuming groupReplacements
  simp only [List.mem_flatMap, List.mem_map, List.mem_filter, List.any_eq_true,
    decide_eq_true_eq]
  constructor
  · rintro ⟨_, ⟨r, ⟨hr, hmoved⟩, rfl⟩, r', ⟨hr', hgroup⟩, hbuy⟩
    exact ⟨r, hr, hmoved, r', hr', hgroup, hbuy⟩
  · rintro ⟨r, hr, hmoved, r', hr', hgroup, hbuy⟩
    exact ⟨r.group, ⟨r, ⟨hr, hmoved⟩, rfl⟩, r', ⟨hr', hgroup⟩, hbuy⟩

theorem Linked.not_closing (hb : Linked b) {t : TradeRow} (ht : t ∈ b.trades)
    (hsell : t.isSell = false) : ¬ ClosingSell b t.id := by
  rintro ⟨r, hr, hid⟩
  have hclosing : r.closing ∈ b.trades :=
    Book.mem_trades.mpr (Or.inr ⟨r, hr, List.mem_cons_self⟩)
  have hsame : r.closing = t := Keyed.eq_of_key hb.ids hclosing ht hid
  rw [← hsame] at hsell
  cases hsell

/-- The walk up from a source does not pass through a closing Sell. -/
theorem Linked.source_not_closing (hb : Linked b) {id source : TradeId}
    (h : source ∈ sources b id) : ¬ ClosingSell b source := by
  unfold sources at h
  cases hgroup : groupCreating b id with
  | none =>
    rw [hgroup] at h
    cases h
  | some group =>
    rw [hgroup] at h
    obtain ⟨r, hr, -, m, hm, rfl⟩ := mem_groupSources_iff.mp h
    obtain ⟨t, ht, hid, hsell⟩ := hb.parcels r hr m hm
    rw [← hid]
    exact hb.not_closing ht hsell

/-- Off the closing Sells, the links up are the links down. -/
theorem Linked.mem_sources_iff (hb : Linked b) {id source : TradeId} (hid : ¬ ClosingSell b id) :
    source ∈ sources b id ↔ id ∈ replacements b source := by
  unfold sources groupCreating
  rw [mem_replacements]
  constructor
  · intro h
    cases hget : b.trade? id with
    | none =>
      rw [hget] at h
      cases h
    | some t =>
      obtain ⟨ht, rfl⟩ := (Keyed.get?_eq_some hb.ids).mp hget
      rw [hget, Option.bind_some] at h
      cases hgroup : t.group with
      | none =>
        rw [hgroup] at h
        cases h
      | some group =>
        rw [hgroup] at h
        obtain ⟨r, hr, hrgroup, hmoved⟩ := mem_groupSources_iff.mp h
        rcases Book.mem_trades.mp ht with ⟨row, -, rfl⟩ | ⟨r', hr', htr⟩
        · cases row.2.symm.trans hgroup
        · have hgroup' : r'.group = group :=
            Option.some.inj ((Rollover.group_of_mem htr).symm.trans hgroup)
          rcases List.mem_cons.mp htr with rfl | hbuy
          · exact absurd ⟨r', hr', rfl⟩ hid
          · exact ⟨r, hr, hmoved, r', hr', hgroup'.trans hrgroup.symm, t, hbuy, rfl⟩
  · rintro ⟨r, hr, hmoved, r', hr', hgroup, t, hbuy, rfl⟩
    have hrow : t ∈ r'.rows := List.mem_cons_of_mem r'.closing hbuy
    have hget : b.trade? t.id = some t :=
      (Keyed.get?_eq_some hb.ids).mpr ⟨Book.mem_trades.mpr (Or.inr ⟨r', hr', hrow⟩), rfl⟩
    rw [hget, Option.bind_some, Rollover.group_of_mem hrow]
    exact mem_groupSources_iff.mpr ⟨r, hr, hgroup.symm, hmoved⟩

end Links

/-! ### Walks -/

section Walks
variable {b : Book}

theorem mem_sourceAncestors {depth : ℕ} {id ancestor : TradeId} :
    ancestor ∈ sourceAncestors b depth id ↔
      ancestor ≠ id ∧ Within (fun x y => y ∈ sources b x) depth id ancestor := by
  unfold sourceAncestors
  rw [StableSort.mem_sortBy, mem_search_singleton]

theorem mem_replacementDescendants {depth : ℕ} {id descendant : TradeId} :
    descendant ∈ replacementDescendants b depth id ↔
      descendant ≠ id ∧ Within (fun x y => y ∈ replacements b x) depth id descendant := by
  unfold replacementDescendants
  rw [StableSort.mem_sortBy, mem_search_singleton]

/-- A chain up from a trade that closes no holding is a chain down to it. -/
theorem Linked.within_sources_iff (hb : Linked b) {depth : ℕ} {id ancestor : TradeId}
    (hid : ¬ ClosingSell b id) :
    Within (fun x y => y ∈ sources b x) depth id ancestor ↔
      Within (fun x y => y ∈ replacements b x) depth ancestor id := by
  have hflip : Within (fun x y => y ∈ replacements b x) depth ancestor id ↔
      Within (fun x y => x ∈ replacements b y) depth id ancestor := within_flip
  rw [hflip]
  apply within_congr (S := fun x => ¬ ClosingSell b x) _ _ hid
  · intro x hx y
    exact hb.mem_sources_iff hx
  · intro x y _ hstep
    exact hb.source_not_closing hstep

theorem Linked.mirror (hb : Linked b) {depth : ℕ} {p q : TradeId} (hp : ¬ ClosingSell b p) :
    q ∈ sourceAncestors b depth p ↔ p ∈ replacementDescendants b depth q := by
  rw [mem_sourceAncestors, mem_replacementDescendants, hb.within_sources_iff hp]
  exact and_congr_left fun _ => ne_comm

theorem nodup_sourceAncestors {depth : ℕ} {id : TradeId} :
    (sourceAncestors b depth id).Nodup :=
  (StableSort.sortBy_perm _ _).nodup_iff.mpr nodup_search

theorem nodup_replacementDescendants {depth : ℕ} {id : TradeId} :
    (replacementDescendants b depth id).Nodup :=
  (StableSort.sortBy_perm _ _).nodup_iff.mpr nodup_search

/-- Up and down the chains the walks mirror each other off the closing Sells, and
each returns every other trade it meets once. -/
theorem walks_mirror (b : Book) (hb : Linked b) (p q : TradeId) :
    (¬ ClosingSell b p →
      (q ∈ sourceAncestors b maxRolloverDepth p ↔
        p ∈ replacementDescendants b maxRolloverDepth q)) ∧
      p ∉ sourceAncestors b maxRolloverDepth p ∧
      q ∉ replacementDescendants b maxRolloverDepth q ∧
      (sourceAncestors b maxRolloverDepth p).Nodup ∧
      (replacementDescendants b maxRolloverDepth q).Nodup := by
  refine ⟨fun hp => hb.mirror hp, ?_, ?_, nodup_sourceAncestors, nodup_replacementDescendants⟩
  · intro h
    exact (mem_sourceAncestors.mp h).1 rfl
  · intro h
    exact (mem_replacementDescendants.mp h).1 rfl

end Walks

/-! ### A cycle of transfers -/

/-- Units moved into a replacement parcel of listing 1. -/
def moveInto (parcel replacement : TradeId) : Moved :=
  ⟨parcel, 10, [⟨replacement, 1, 1, 10, 100, ⟨"AUD"⟩, 1, none, ymd 2024 1 10⟩]⟩

/-- The transfer of one parcel into another. -/
def transferInto (id : ℤ) (closing parcel replacement : TradeId) : Rollover where
  group := (.transfer, id)
  date := ymd 2024 8 1
  closingId := closing
  listing := 1
  account := 1
  averagePrice := 0
  currency := ⟨"AUD"⟩
  fxRate := 1
  moved := [moveInto parcel replacement]

/-- Parcels 2 and 4, each written by the transfer of the other. -/
def cycle : Book where
  recorded := []
  rollovers := [transferInto 1 1 4 2, transferInto 2 3 2 4]
  income := []
  draws := []
  splits := fun _ => []

theorem linked_cycle : Linked cycle where
  ids := by decide
  parcels := by
    intro r hr m hm
    simp only [cycle, List.mem_cons, List.not_mem_nil, or_false] at hr
    rcases hr with rfl | rfl
    · obtain rfl := List.mem_singleton.mp hm
      exact ⟨(transferInto 2 3 2 4).buy ⟨4, 1, 1, 10, 100, ⟨"AUD"⟩, 1, none, ymd 2024 1 10⟩,
        by decide, rfl, rfl⟩
    · obtain rfl := List.mem_singleton.mp hm
      exact ⟨(transferInto 1 1 4 2).buy ⟨2, 1, 1, 10, 100, ⟨"AUD"⟩, 1, none, ymd 2024 1 10⟩,
        by decide, rfl, rfl⟩

theorem walks_mirror_cycle :
    (¬ ClosingSell cycle 2 →
      (4 ∈ sourceAncestors cycle maxRolloverDepth 2 ↔
        2 ∈ replacementDescendants cycle maxRolloverDepth 4)) ∧
      2 ∉ sourceAncestors cycle maxRolloverDepth 2 ∧
      4 ∉ replacementDescendants cycle maxRolloverDepth 4 ∧
      (sourceAncestors cycle maxRolloverDepth 2).Nodup ∧
      (replacementDescendants cycle maxRolloverDepth 4).Nodup :=
  walks_mirror cycle linked_cycle 2 4

/-- The walk up from a closing Sell finds what it consumed; no walk down finds the Sell. -/
theorem closing_sell_unmirrored :
    ¬ ∀ b : Book, Linked b → ∀ p q : TradeId,
      q ∈ sourceAncestors b maxRolloverDepth p ↔
        p ∈ replacementDescendants b maxRolloverDepth q := by
  intro h
  have hup : 4 ∈ sourceAncestors cycle maxRolloverDepth 1 := by
    rw [mem_sourceAncestors]
    refine ⟨by decide, 1, by decide, 4, by decide, rfl⟩
  have hdown : 1 ∉ replacementDescendants cycle maxRolloverDepth 4 := by
    decide
  exact hdown ((h cycle linked_cycle 1 4).mp hup)

end ShareTracker.Amit
