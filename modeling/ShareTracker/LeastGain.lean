import ShareTracker.PickedUnits

/-!
The min-gain strategy. Losses are taken first, and what is left is split between
the two classes of gain where their cost beyond the losses is least: the net gain
is the least of all allocations at the quantities' own decimal places, and of all
allocations where the gains overtake the losses at such a quantity.
-/
namespace ShareTracker.ParcelOptimiser
open CheapestFill CandidateParcel

/-! ### The net gain -/

/-- Losses against the gains that get no discount first, the rest against the
discounted ones, which are then halved. -/
def netGain (other discounted loss : ℚ) : ℚ :=
  max (other - loss) 0 + max (discounted - max (loss - other) 0) 0 / 2

theorem netGain_nonneg (other discounted loss : ℚ) : 0 ≤ netGain other discounted loss :=
  add_nonneg (le_max_right _ _) (div_nonneg (le_max_right _ _) zero_le_two)

theorem netGain_mono {n n' d d' l l' : ℚ} (hn : n ≤ n') (hd : d ≤ d') (hl : l' ≤ l) :
    netGain n d l ≤ netGain n' d' l' := by
  unfold netGain
  gcongr

theorem netGain_eq {d : ℚ} (hd : 0 ≤ d) (n l : ℚ) :
    netGain n d l = max ((d + n + max (n - l) 0 - l) / 2) 0 := by
  unfold netGain
  rcases le_total n l with h | h
  · rw [max_eq_right (sub_nonpos.mpr h), max_eq_left (sub_nonneg.mpr h), zero_add, add_zero,
      ← max_div_div_right zero_le_two, zero_div]
    congr 2
    ring
  · rw [max_eq_left (sub_nonneg.mpr h), max_eq_right (sub_nonpos.mpr h), sub_zero, max_eq_left hd,
      max_eq_left (by linarith)]
    ring

section Allocation
variable (price : ℚ) (saleDate : NaiveDate)

/-- The net gain of an allocation. -/
def netGainOf (parcels : List CandidateParcel) (taken : CandidateParcel → ℚ) : ℚ :=
  netGain (dilutingGain price saleDate parcels taken) (discountedGain price saleDate parcels taken)
    (lossRealised price parcels taken)

/-- The units the strategy takes of each parcel. -/
def minGainTaken (parcels : List CandidateParcel) (sold : Decimal) (p : CandidateParcel) : ℚ :=
  takenOf (minGainPicks id price parcels sold saleDate) p.tradeId

/-- Quantities at the decimal places of the finest in play. -/
def AtPlaces (parcels : List CandidateParcel) (sold : Decimal) (taken : CandidateParcel → ℚ) : Prop :=
  ∀ p ∈ parcels, Grid.On (gridStep (quantityScale parcels sold)) (taken p)

/-- The gains that get no discount overtake all the losses at such a quantity,
where they overtake them at all. -/
def CrossesAtPlaces (parcels : List CandidateParcel) (sold : Decimal) : Prop :=
  ∀ c ∈ crossings units (gainPerUnit id price) (lossRealised price parcels units) 0 0
    (other id price saleDate parcels), Grid.On (gridStep (quantityScale parcels sold)) c

end Allocation

/-! ### The operations, kept whole -/

section Exact
variable {price : ℚ} {parcels : List CandidateParcel}

theorem takeLosses_eq (price : ℚ) (parcels : List CandidateParcel) {left : ℚ} (hleft : 0 ≤ left)
    (loss : ℚ) :
    takeLosses id price left loss parcels =
      (consume id left parcels, left - min left (amount parcels units),
        loss - fillCost units (gainPerUnit id price) left parcels) := by
  induction parcels generalizing left loss with
  | nil =>
    have hnone : amount ([] : List CandidateParcel) units = 0 := rfl
    rw [takeLosses, consume, fillCost, hnone, min_eq_right hleft, sub_zero, sub_zero]
  | cons p parcels ih =>
    have htotal : amount (p :: parcels) units = p.units + amount parcels units := List.sum_cons
    rcases hleft.eq_or_lt with rfl | hpos
    · have hroom : ∀ q ∈ p :: parcels, 0 ≤ q.units := fun q _ => q.units_pos.le
      rw [takeLosses, if_pos le_rfl, consume_of_nonpos le_rfl, fillCost_zero hroom,
        min_eq_left (amount_nonneg_of hroom), sub_self, sub_zero]
    · have hrest := ih (sub_nonneg.mpr (min_le_right p.units left))
        (loss - gainPerUnit id price p * min p.units left)
      rw [takeLosses, if_neg (not_le.mpr hpos), consume_cons hpos, fillCost]
      simp only [id] at hrest ⊢
      have hothers : 0 ≤ amount parcels units := amount_nonneg_of fun q _ => q.units_pos.le
      rw [hrest, htotal, ← sub_sub, sub_sub left, min_add_min_sub hothers]

theorem prefixGain_eq (gain taken : ℚ) :
    prefixGain id price gain taken parcels =
      gain + fillCost units (gainPerUnit id price) taken parcels := by
  induction parcels generalizing gain taken with
  | nil => exact (add_zero gain).symm
  | cons p parcels ih =>
    rw [prefixGain, fillCost, ← add_assoc]
    exact ih _ _

theorem classTotal_eq : classTotal id parcels = amount parcels units := sumKept_exact _

theorem splitCost_eq (others discounts : List CandidateParcel) (left loss k : ℚ) :
    splitCost id price others discounts left loss k =
      dividedCost units (gainPerUnit id price) others discounts left loss k := by
  simp only [splitCost, prefixGain_eq, dividedCost, id, zero_add]

end Exact

/-! ### The breakpoints -/

section Breakpoints
variable {price step : ℚ} {parcels : List CandidateParcel}

theorem boundary_mem_otherBreakpoints {loss before gain c : ℚ}
    (hc : c ∈ boundaries units before parcels) :
    c ∈ otherBreakpoints id price step loss before gain parcels := by
  induction parcels generalizing before gain with
  | nil => cases hc
  | cons p parcels ih =>
    refine List.mem_append_right _ ?_
    rcases List.mem_cons.mp hc with rfl | hc
    · exact List.mem_cons_self
    · exact List.mem_cons_of_mem _ (ih hc)

theorem crossing_mem_otherBreakpoints (step : ℚ) {loss before gain c : ℚ}
    (hc : c ∈ crossings units (gainPerUnit id price) loss before gain parcels) :
    Grid.truncOn step c ∈ otherBreakpoints id price step loss before gain parcels ∧
      awayOn step c ∈ otherBreakpoints id price step loss before gain parcels := by
  induction parcels generalizing before gain with
  | nil => cases hc
  | cons p parcels ih =>
    rcases List.mem_append.mp hc with hhere | hrest
    · split at hhere
      · rename_i hcross
        obtain rfl := List.mem_singleton.mp hhere
        constructor
        · refine List.mem_append_left _ ?_
          simp [if_pos hcross]
        · refine List.mem_append_left _ ?_
          simp [if_pos hcross]
      · cases hhere
    · obtain ⟨htrunc, haway⟩ := ih hrest
      exact ⟨List.mem_append_right _ (List.mem_cons_of_mem _ htrunc),
        List.mem_append_right _ (List.mem_cons_of_mem _ haway)⟩

theorem boundary_mem_discountedBreakpoints {left before c : ℚ}
    (hc : c ∈ boundaries units before parcels) :
    left - c ∈ discountedBreakpoints id left before parcels := by
  induction parcels generalizing before with
  | nil => cases hc
  | cons p parcels ih =>
    rcases List.mem_cons.mp hc with rfl | hc
    · exact List.mem_cons_self
    · exact List.mem_cons_of_mem _ (ih hc)

theorem awayOn_on (x : ℚ) : Grid.On step (awayOn step x) := by
  unfold awayOn
  split
  · exact Grid.ceilOn_on step x
  · exact Grid.floorOn_on step x

theorem otherBreakpoints_on {loss before gain : ℚ} (hunits : ∀ p ∈ parcels, Grid.On step p.units)
    (hbefore : Grid.On step before) :
    ∀ c ∈ otherBreakpoints id price step loss before gain parcels, Grid.On step c := by
  induction parcels generalizing before gain with
  | nil => exact fun c hc => absurd hc List.not_mem_nil
  | cons p parcels ih =>
    have hafter : Grid.On step (before + p.units) := hbefore.add (hunits p List.mem_cons_self)
    intro c hc
    rcases List.mem_append.mp hc with hhere | hrest
    · split at hhere
      · rcases List.mem_cons.mp hhere with rfl | hlast
        · exact Grid.truncOn_on _ _
        · rw [List.mem_singleton.mp hlast]
          exact awayOn_on _
      · cases hhere
    · rcases List.mem_cons.mp hrest with rfl | hrest
      · exact hafter
      · exact ih (fun q hq => hunits q (List.mem_cons_of_mem p hq)) hafter c hrest

theorem discountedBreakpoints_on {left before : ℚ} (hunits : ∀ p ∈ parcels, Grid.On step p.units)
    (hleft : Grid.On step left) (hbefore : Grid.On step before) :
    ∀ c ∈ discountedBreakpoints id left before parcels, Grid.On step c := by
  induction parcels generalizing before with
  | nil => exact fun c hc => absurd hc List.not_mem_nil
  | cons p parcels ih =>
    have hafter : Grid.On step (before + p.units) := hbefore.add (hunits p List.mem_cons_self)
    intro c hc
    rcases List.mem_cons.mp hc with rfl | hc
    · exact hleft.sub hafter
    · exact ih (fun q hq => hunits q (List.mem_cons_of_mem p hq)) hafter c hc

/-- The cheapest of the points is one of them, and no other costs less. -/
theorem cheapest_least {points : List ℚ} (cost : ℚ → ℚ) (fallback : ℚ) {c : ℚ} (hc : c ∈ points) :
    cheapest cost fallback points ∈ points ∧ cost (cheapest cost fallback points) ≤ cost c := by
  have hsorted := StableSort.sortBy_sorted (fun k => toLex (cost k, k)) points
  have hmem : ∀ k, k ∈ StableSort.sortBy (fun k => toLex (cost k, k)) points ↔ k ∈ points :=
    fun k => StableSort.mem_sortBy
  unfold cheapest
  generalize StableSort.sortBy (fun k => toLex (cost k, k)) points = sorted at hsorted hmem
  cases sorted with
  | nil => exact absurd ((hmem c).mpr hc) List.not_mem_nil
  | cons first rest =>
    refine ⟨(hmem first).mp List.mem_cons_self, ?_⟩
    rcases List.mem_cons.mp ((hmem c).mpr hc) with rfl | hc
    · exact le_rfl
    · have hle := (List.pairwise_cons.mp hsorted).1 c hc
      exact Prod.Lex.monotone_fst _ _ hle

end Breakpoints

/-! ### The decimal places -/

section Places

theorem le_foldl_max (init : ℕ) (l : List ℕ) :
    init ≤ l.foldl max init ∧ ∀ x ∈ l, x ≤ l.foldl max init := by
  induction l generalizing init with
  | nil => exact ⟨le_rfl, fun _ hx => absurd hx List.not_mem_nil⟩
  | cons y l ih =>
    obtain ⟨hinit, hall⟩ := ih (max init y)
    refine ⟨(le_max_left _ _).trans hinit, fun x hx => ?_⟩
    rcases List.mem_cons.mp hx with rfl | hx
    · exact (le_max_right _ _).trans hinit
    · exact hall x hx

theorem value_on {d : Decimal} {scale : ℕ} (h : d.scale ≤ scale) : Grid.On (gridStep scale) d.value := by
  obtain ⟨places, rfl⟩ := Nat.exists_eq_add_of_le h
  refine ⟨d.mantissa * 10 ^ places, ?_⟩
  rw [Decimal.value, gridStep, pow_add]
  push_cast
  field_simp

theorem amount_on_of {l : List CandidateParcel} {taken : CandidateParcel → ℚ} {step : ℚ}
    (h : ∀ p ∈ l, Grid.On step (taken p)) : Grid.On step (amount l taken) := by
  refine Grid.On.sum fun x hx => ?_
  obtain ⟨p, hp, rfl⟩ := List.mem_map.mp hx
  exact h p hp

theorem units_on (parcels : List CandidateParcel) (sold : Decimal) :
    AtPlaces parcels sold units := fun _ hp =>
  value_on ((le_foldl_max _ _).2 _ (List.mem_map_of_mem hp))

theorem sold_on (parcels : List CandidateParcel) (sold : Decimal) :
    Grid.On (gridStep (quantityScale parcels sold)) sold.value := value_on (le_foldl_max _ _).1

end Places

/-! ### The classes -/

section Classes
variable {price : ℚ} {saleDate : NaiveDate} {parcels : List CandidateParcel}

theorem mem_losses {p : CandidateParcel} :
    p ∈ losses id price parcels ↔ p ∈ parcels ∧ gainPerUnit id price p ≤ 0 := by
  simp [losses]

theorem mem_other {p : CandidateParcel} : p ∈ other id price saleDate parcels ↔
    p ∈ parcels ∧ 0 < gainPerUnit id price p ∧ discountEligible p.acquisitionDate saleDate = false := by
  simp [other]

theorem mem_discounted {p : CandidateParcel} : p ∈ discounted id price saleDate parcels ↔
    p ∈ parcels ∧ 0 < gainPerUnit id price p ∧ discountEligible p.acquisitionDate saleDate = true := by
  simp [discounted]

theorem classes_perm (keep : ℚ → ℚ) (price : ℚ) (saleDate : NaiveDate) (parcels : List CandidateParcel) :
    (losses keep price parcels ++
      (other keep price saleDate parcels ++ discounted keep price saleDate parcels)).Perm parcels := by
  have hother : (parcels.filter fun p => decide (¬ gainPerUnit keep price p ≤ 0 ∧
      ¬ discountEligible p.acquisitionDate saleDate = true)) =
        (parcels.filter fun p => !decide (gainPerUnit keep price p ≤ 0)).filter
          fun p => !discountEligible p.acquisitionDate saleDate := by
    rw [List.filter_filter]
    refine List.filter_congr fun p _ => ?_
    simp [-not_le, and_comm]
  have hdiscounted : (parcels.filter fun p => decide (¬ gainPerUnit keep price p ≤ 0 ∧
      discountEligible p.acquisitionDate saleDate = true)) =
        (parcels.filter fun p => !decide (gainPerUnit keep price p ≤ 0)).filter
          fun p => discountEligible p.acquisitionDate saleDate := by
    rw [List.filter_filter]
    refine List.filter_congr fun p _ => ?_
    simp [-not_le, and_comm]
  have hgains := List.perm_append_comm.trans (List.filter_append_perm
    (fun p : CandidateParcel => discountEligible p.acquisitionDate saleDate)
    (parcels.filter fun p => !decide (gainPerUnit keep price p ≤ 0)))
  rw [← hother, ← hdiscounted] at hgains
  unfold losses other discounted
  refine ((StableSort.sortBy_perm _ _).append
    ((StableSort.sortBy_perm _ _).append (StableSort.sortBy_perm _ _))).trans ?_
  exact (hgains.append_left _).trans (List.filter_append_perm _ parcels)

theorem amount_classes (keep : ℚ → ℚ) (price : ℚ) (saleDate : NaiveDate) (f : CandidateParcel → ℚ) :
    amount parcels f = amount (losses keep price parcels) f +
      (amount (other keep price saleDate parcels) f + amount (discounted keep price saleDate parcels) f) := by
  rw [← amount_append, ← amount_append]
  exact (amount_perm (classes_perm keep price saleDate parcels) f).symm

theorem dilutingGain_eq_cost (taken : CandidateParcel → ℚ) :
    dilutingGain price saleDate parcels taken =
      cost (gainPerUnit id price) (other id price saleDate parcels) taken := by
  rw [other, cost_perm (StableSort.sortBy_perm _ _), dilutingGain, sum_map_ite, cost]
  congr 2
  refine List.filter_congr fun p _ => ?_
  simp [dilutes]

theorem discountedGain_eq_cost (taken : CandidateParcel → ℚ) :
    discountedGain price saleDate parcels taken =
      cost (gainPerUnit id price) (discounted id price saleDate parcels) taken := by
  rw [discounted, cost_perm (StableSort.sortBy_perm _ _), discountedGain, sum_map_ite, cost]
  congr 2
  refine List.filter_congr fun p _ => ?_
  simp

theorem lossRealised_eq_cost (taken : CandidateParcel → ℚ) :
    lossRealised price parcels taken =
      -cost (gainPerUnit id price) (losses id price parcels) taken := by
  rw [losses, cost_perm (StableSort.sortBy_perm _ _), lossRealised, sum_map_ite, cost, List.sum_neg,
    List.map_map]
  rfl

theorem other_nonneg : ∀ p ∈ other id price saleDate parcels, 0 < gainPerUnit id price p :=
  fun _ hp => (mem_other.mp hp).2.1

theorem sorted_by_gain (keep : CandidateParcel → Bool) :
    (StableSort.sortBy (byGain id price) (parcels.filter keep)).Pairwise
      fun p q => gainPerUnit id price p ≤ gainPerUnit id price q :=
  (StableSort.sortBy_sorted (byGain id price) (parcels.filter keep)).imp fun {p q} hle =>
    Prod.Lex.monotone_fst (byGain id price p) (byGain id price q) hle

end Classes

/-! ### The walks -/

/-- Three walks over disjoint parcels fill each of them in order. -/
theorem fills_of_walks {first second third : List CandidateParcel}
    (hids : ((first ++ (second ++ third)).map tradeId).Nodup) (a b c : ℚ) :
    let taken := fun p : CandidateParcel =>
      takenOf (consume id a first ++ consume id b second ++ consume id c third) p.tradeId
    FillsInOrder units a first taken ∧ FillsInOrder units b second taken ∧
      FillsInOrder units c third taken := by
  rw [List.map_append, List.map_append, List.nodup_append, List.nodup_append] at hids
  obtain ⟨hfirst, ⟨hsecond, hthird, hlast⟩, hdisjoint⟩ := hids
  have hother : ∀ {parcels : List CandidateParcel} {p : CandidateParcel} (left : ℚ),
      p.tradeId ∉ parcels.map tradeId → takenOf (consume id left parcels) p.tradeId = 0 :=
    fun _ h => takenOf_consume_of_notMem h
  refine ⟨(consume_fills hfirst a).congr fun p hp => ?_,
    (consume_fills hsecond b).congr fun p hp => ?_, (consume_fills hthird c).congr fun p hp => ?_⟩
  · have hp := List.mem_map_of_mem (f := tradeId) hp
    have hb : p.tradeId ∉ second.map tradeId := fun hmem =>
      hdisjoint _ hp _ (List.mem_append_left _ hmem) rfl
    have hc : p.tradeId ∉ third.map tradeId := fun hmem =>
      hdisjoint _ hp _ (List.mem_append_right _ hmem) rfl
    rw [takenOf_append, takenOf_append, hother b hb, hother c hc, add_zero, add_zero]
  · have hp := List.mem_map_of_mem (f := tradeId) hp
    have ha : p.tradeId ∉ first.map tradeId := fun hmem =>
      hdisjoint _ hmem _ (List.mem_append_left _ hp) rfl
    have hc : p.tradeId ∉ third.map tradeId := fun hmem => hlast _ hp _ hmem rfl
    rw [takenOf_append, takenOf_append, hother a ha, hother c hc, zero_add, add_zero]
  · have hp := List.mem_map_of_mem (f := tradeId) hp
    have ha : p.tradeId ∉ first.map tradeId := fun hmem =>
      hdisjoint _ hmem _ (List.mem_append_right _ hp) rfl
    have hb : p.tradeId ∉ second.map tradeId := fun hmem => hlast _ hmem _ hp rfl
    rw [takenOf_append, takenOf_append, hother a ha, hother b hb, zero_add, zero_add]

/-! ### The split -/

section Split
variable (price : ℚ) (saleDate : NaiveDate) (parcels : List CandidateParcel) (sold : Decimal)

/-- What is left to sell beside the losses, and the dollars these lose. -/
def leftToSell : ℚ := sold.value - min sold.value (amount (losses id price parcels) units)

def lossTaken : ℚ := -fillCost units (gainPerUnit id price) sold.value (losses id price parcels)

/-- What a split of it costs, but for the losses. -/
def costOfSplit (x : ℚ) : ℚ :=
  dividedCost units (gainPerUnit id price) (other id price saleDate parcels)
    (discounted id price saleDate parcels) (leftToSell price parcels sold) (lossTaken price parcels sold) x

/-- The least and the most other units a split can take. -/
def leastOther : ℚ :=
  max (leftToSell price parcels sold - amount (discounted id price saleDate parcels) units) 0

def mostOther : ℚ :=
  min (leftToSell price parcels sold) (amount (other id price saleDate parcels) units)

/-- The breakpoints in range. -/
def splitPoints : List ℚ :=
  ([leastOther price saleDate parcels sold, mostOther price saleDate parcels sold] ++
      otherBreakpoints id price (gridStep (quantityScale parcels sold)) (lossTaken price parcels sold)
        0 0 (other id price saleDate parcels) ++
      discountedBreakpoints id (leftToSell price parcels sold) 0
        (discounted id price saleDate parcels)).filter fun x =>
    leastOther price saleDate parcels sold ≤ x ∧ x ≤ mostOther price saleDate parcels sold

/-- The splits that both classes hold. -/
structure SplitInRange (x : ℚ) : Prop where
  nonneg : 0 ≤ x
  le_left : x ≤ leftToSell price parcels sold
  le_other : x ≤ amount (other id price saleDate parcels) units
  rest_le : leftToSell price parcels sold - x ≤ amount (discounted id price saleDate parcels) units

end Split

section Least
variable {price : ℚ} {saleDate : NaiveDate} {parcels : List CandidateParcel} {sold : Decimal}

theorem units_nonneg {l : List CandidateParcel} : ∀ p ∈ l, 0 ≤ p.units := fun p _ => p.units_pos.le

theorem leftToSell_nonneg (price : ℚ) (parcels : List CandidateParcel) (sold : Decimal) :
    0 ≤ leftToSell price parcels sold := sub_nonneg.mpr (min_le_left _ _)

theorem lossTaken_eq (h : 0 < leftToSell price parcels sold) :
    lossTaken price parcels sold = lossRealised price parcels units := by
  have hlt : amount (losses id price parcels) units < sold.value := by
    rcases min_lt_iff.mp (sub_pos.mp h) with hself | hlt
    · exact absurd hself (lt_irrefl _)
    · exact hlt
  rw [lossTaken, fillCost_full units_nonneg hlt.le, lossRealised_eq_cost]

theorem splitInRange_iff (x : ℚ) : SplitInRange price saleDate parcels sold x ↔
    leastOther price saleDate parcels sold ≤ x ∧ x ≤ mostOther price saleDate parcels sold := by
  rw [leastOther, mostOther, max_le_iff, le_min_iff]
  constructor
  · intro h
    exact ⟨⟨by linarith [h.rest_le], h.nonneg⟩, h.le_left, h.le_other⟩
  · rintro ⟨⟨hrest, hnonneg⟩, hleft, hother⟩
    exact ⟨hnonneg, hleft, hother, by linarith⟩

/-- The quantities in play are on one grid, and so is what is left. -/
theorem amount_on {l : List CandidateParcel} {taken : CandidateParcel → ℚ}
    (hat : AtPlaces parcels sold taken) (hl : ∀ p ∈ l, p ∈ parcels) :
    Grid.On (gridStep (quantityScale parcels sold)) (amount l taken) :=
  amount_on_of fun p hp => hat p (hl p hp)

theorem leftToSell_on :
    Grid.On (gridStep (quantityScale parcels sold)) (leftToSell price parcels sold) :=
  (sold_on parcels sold).sub ((sold_on parcels sold).min
    (amount_on (units_on parcels sold) fun _ hp => (mem_losses.mp hp).1))

/-- Some split is in range where the parcels hold the sale. -/
theorem leastOther_le_mostOther (henough : sold.value ≤ amount parcels units) :
    leastOther price saleDate parcels sold ≤ mostOther price saleDate parcels sold := by
  have hother : 0 ≤ amount (other id price saleDate parcels) units := amount_nonneg_of units_nonneg
  have hdiscounted : 0 ≤ amount (discounted id price saleDate parcels) units :=
    amount_nonneg_of units_nonneg
  have hleft := leftToSell_nonneg price parcels sold
  have hshort : leftToSell price parcels sold ≤ amount (other id price saleDate parcels) units +
      amount (discounted id price saleDate parcels) units := by
    rw [amount_classes id price saleDate] at henough
    rcases le_total sold.value (amount (losses id price parcels) units) with h | h
    · rw [leftToSell, min_eq_left h]
      linarith
    · rw [leftToSell, min_eq_right h]
      linarith
  refine max_le (le_min ?_ ?_) (le_min hleft hother)
  · linarith
  · linarith

theorem mem_splitPoints {c : ℚ} : c ∈ splitPoints price saleDate parcels sold ↔
    (c ∈ [leastOther price saleDate parcels sold, mostOther price saleDate parcels sold] ∨
      c ∈ otherBreakpoints id price (gridStep (quantityScale parcels sold))
        (lossTaken price parcels sold) 0 0 (other id price saleDate parcels) ∨
      c ∈ discountedBreakpoints id (leftToSell price parcels sold) 0
        (discounted id price saleDate parcels)) ∧ SplitInRange price saleDate parcels sold c := by
  rw [splitInRange_iff, splitPoints, List.mem_filter, List.append_assoc, List.mem_append,
    List.mem_append, decide_eq_true_iff]

theorem leastOther_mem (price : ℚ) (saleDate : NaiveDate)
    (henough : sold.value ≤ amount parcels units) :
    leastOther price saleDate parcels sold ∈ splitPoints price saleDate parcels sold :=
  mem_splitPoints.mpr ⟨.inl List.mem_cons_self,
    (splitInRange_iff _).mpr ⟨le_rfl, leastOther_le_mostOther henough⟩⟩

theorem splitPoints_on : ∀ c ∈ splitPoints price saleDate parcels sold,
    Grid.On (gridStep (quantityScale parcels sold)) c := by
  have hothers : ∀ p ∈ other id price saleDate parcels, p ∈ parcels := fun p hp => (mem_other.mp hp).1
  have hdiscounts : ∀ p ∈ discounted id price saleDate parcels, p ∈ parcels := fun p hp =>
    (mem_discounted.mp hp).1
  have hunits := units_on parcels sold
  intro c hc
  rcases (mem_splitPoints.mp hc).1 with hends | hother | hdiscounted
  · rcases List.mem_cons.mp hends with rfl | hlast
    · exact (leftToSell_on.sub (amount_on hunits hdiscounts)).max (.zero _)
    · rw [List.mem_singleton.mp hlast]
      exact leftToSell_on.min (amount_on hunits hothers)
  · exact otherBreakpoints_on (fun p hp => hunits p (hothers p hp)) (.zero _) c hother
  · exact discountedBreakpoints_on (fun p hp => hunits p (hdiscounts p hp)) leftToSell_on (.zero _) c
      hdiscounted

/-- Between a quantity at the places and a crossing there is a breakpoint. -/
theorem crossing_between {y c : ℚ} (hleft : 0 < leftToSell price parcels sold)
    (hy : SplitInRange price saleDate parcels sold y)
    (hat : Grid.On (gridStep (quantityScale parcels sold)) y ∨ CrossesAtPlaces price saleDate parcels sold)
    (hc : c ∈ crossings units (gainPerUnit id price) (lossTaken price parcels sold) 0 0
      (other id price saleDate parcels))
    (hrange : SplitInRange price saleDate parcels sold c) :
    (y ≤ c → ∃ d ∈ splitPoints price saleDate parcels sold, y ≤ d ∧ d ≤ c) ∧
      (c ≤ y → ∃ d ∈ splitPoints price saleDate parcels sold, c ≤ d ∧ d ≤ y) := by
  have hs := gridStep_pos (quantityScale parcels sold)
  have hinrange : ∀ d, min y c ≤ d → d ≤ max y c → SplitInRange price saleDate parcels sold d := by
    intro d hmin hmax
    rw [splitInRange_iff] at hy hrange ⊢
    exact ⟨(le_min hy.1 hrange.1).trans hmin, hmax.trans (max_le hy.2 hrange.2)⟩
  obtain ⟨htrunc, haway⟩ := crossing_mem_otherBreakpoints (gridStep (quantityScale parcels sold)) hc
  rw [Grid.truncOn, if_pos hrange.nonneg] at htrunc
  rw [awayOn, if_pos hrange.nonneg] at haway
  have hon : Grid.On (gridStep (quantityScale parcels sold)) y ∨
      Grid.On (gridStep (quantityScale parcels sold)) c := by
    refine hat.imp_right fun hcrosses => hcrosses c ?_
    rwa [← lossTaken_eq hleft]
  constructor
  · intro hyc
    have hbelow : y ≤ Grid.floorOn (gridStep (quantityScale parcels sold)) c := by
      rcases hon with hony | honc
      · exact Grid.le_floorOn hs hony hyc
      · rwa [Grid.floorOn_of_on hs honc]
    refine ⟨_, mem_splitPoints.mpr ⟨.inr (.inl htrunc), hinrange _ ?_ ?_⟩, hbelow,
      Grid.floorOn_le hs c⟩
    · exact (min_le_left _ _).trans hbelow
    · exact (Grid.floorOn_le hs c).trans (le_max_right _ _)
  · intro hcy
    have habove : Grid.ceilOn (gridStep (quantityScale parcels sold)) c ≤ y := by
      rcases hon with hony | honc
      · exact Grid.ceilOn_le hs hony hcy
      · rwa [Grid.ceilOn_of_on hs honc]
    refine ⟨_, mem_splitPoints.mpr ⟨.inr (.inl haway), hinrange _ ?_ ?_⟩, Grid.le_ceilOn hs c,
      habove⟩
    · exact (min_le_right _ _).trans (Grid.le_ceilOn hs c)
    · exact habove.trans (le_max_left _ _)

/-- A split costs no less than at some breakpoint. -/
theorem exists_splitPoint_le {y : ℚ} (hleft : 0 < leftToSell price parcels sold)
    (hy : SplitInRange price saleDate parcels sold y)
    (hat : Grid.On (gridStep (quantityScale parcels sold)) y ∨
      CrossesAtPlaces price saleDate parcels sold) :
    ∃ c ∈ splitPoints price saleDate parcels sold,
      costOfSplit price saleDate parcels sold c ≤ costOfSplit price saleDate parcels sold y := by
  have hy' := (splitInRange_iff y).mp hy
  have hends := hy'.1.trans hy'.2
  have hlo : SplitInRange price saleDate parcels sold (leastOther price saleDate parcels sold) :=
    (splitInRange_iff _).mpr ⟨le_rfl, hends⟩
  have hhi : SplitInRange price saleDate parcels sold (mostOther price saleDate parcels sold) :=
    (splitInRange_iff _).mpr ⟨hends, le_rfl⟩
  refine exists_divided_le units_nonneg units_nonneg other_nonneg
    (mem_splitPoints.mpr ⟨.inl List.mem_cons_self, hlo⟩)
    (mem_splitPoints.mpr ⟨.inl (List.mem_cons_of_mem _ List.mem_cons_self), hhi⟩)
    hlo.nonneg hhi.le_other hhi.le_left hy'.1 hy'.2 ?_ ?_ ?_ ?_
  · intro c hc hmin hmax
    exact mem_splitPoints.mpr ⟨.inr (.inl (boundary_mem_otherBreakpoints hc)),
      (splitInRange_iff c).mpr ⟨hmin, hmax⟩⟩
  · intro c hc hmin hmax
    exact mem_splitPoints.mpr ⟨.inr (.inr (boundary_mem_discountedBreakpoints hc)),
      (splitInRange_iff _).mpr ⟨hmin, hmax⟩⟩
  · intro c hc hmin hmax
    exact crossing_between hleft hy hat hc ((splitInRange_iff c).mpr ⟨hmin, hmax⟩)
  · intro c hc
    exact (splitInRange_iff c).mp (mem_splitPoints.mp hc).2

/-- The picks: the losses, then the two classes at a split in range that costs
the least of all at the decimal places. -/
theorem minGainPicks_split (price : ℚ) (saleDate : NaiveDate) (hsold : 0 ≤ sold.value)
    (henough : sold.value ≤ amount parcels units) :
    ∃ x, SplitInRange price saleDate parcels sold x ∧
      Grid.On (gridStep (quantityScale parcels sold)) x ∧
      minGainPicks id price parcels sold saleDate =
        consume id sold.value (losses id price parcels) ++
          consume id x (other id price saleDate parcels) ++
          consume id (leftToSell price parcels sold - x) (discounted id price saleDate parcels) ∧
      ∀ y, SplitInRange price saleDate parcels sold y →
        Grid.On (gridStep (quantityScale parcels sold)) y ∨ CrossesAtPlaces price saleDate parcels sold →
        costOfSplit price saleDate parcels sold x ≤ costOfSplit price saleDate parcels sold y := by
  have hwalk := takeLosses_eq price (losses id price parcels) hsold 0
  rw [zero_sub] at hwalk
  have hlo := leastOther_mem price saleDate henough
  rcases (leftToSell_nonneg price parcels sold).eq_or_lt with hnone | hleft
  · -- the losses make up the sale
    have hzero : ∀ y, SplitInRange price saleDate parcels sold y → y = 0 := fun y hy =>
      le_antisymm (hnone.symm ▸ hy.le_left) hy.nonneg
    have hinrange := (mem_splitPoints.mp hlo).2
    refine ⟨0, hzero _ hinrange ▸ hinrange, .zero _, ?_,
      fun y hy _ => (congrArg _ (hzero y hy).symm).le⟩
    rw [← hnone, sub_zero, consume_of_nonpos le_rfl, consume_of_nonpos le_rfl, List.append_nil,
      List.append_nil, minGainPicks, hwalk]
    exact if_pos hnone.symm.le
  · have hcost : splitCost id price (other id price saleDate parcels) (discounted id price saleDate parcels)
        (leftToSell price parcels sold) (lossTaken price parcels sold) =
          costOfSplit price saleDate parcels sold :=
      funext fun x => splitCost_eq _ _ _ _ x
    refine ⟨cheapest (costOfSplit price saleDate parcels sold) (leastOther price saleDate parcels sold)
      (splitPoints price saleDate parcels sold), ?_, ?_, ?_, fun y hy hat => ?_⟩
    · exact (mem_splitPoints.mp (cheapest_least _ _ hlo).1).2
    · exact splitPoints_on _ (cheapest_least _ _ hlo).1
    · rw [minGainPicks, hwalk]
      refine (if_neg (not_le.mpr hleft)).trans ?_
      simp only [classTotal_eq]
      rw [← hcost]
      rfl
    · obtain ⟨c, hc, hle⟩ := exists_splitPoint_le hleft hy hat
      exact (cheapest_least _ _ hc).2.trans hle

/-! ### The least net gain -/

theorem fillCost_gains_nonneg {l : List CandidateParcel} {x : ℚ}
    (hgain : ∀ p ∈ l, 0 ≤ gainPerUnit id price p) (hx : 0 ≤ x) (hroom : x ≤ amount l units) :
    0 ≤ fillCost units (gainPerUnit id price) x l := by
  have hmono := fillCost_mono units_nonneg hgain le_rfl hx hroom
  rwa [fillCost_zero units_nonneg] at hmono

theorem discounted_nonneg : ∀ p ∈ discounted id price saleDate parcels, 0 ≤ gainPerUnit id price p :=
  fun _ hp => (mem_discounted.mp hp).2.1.le

/-- No allocation realises a larger loss than that of all the losses. -/
theorem lossRealised_le {taken : CandidateParcel → ℚ} (h : ∀ p ∈ parcels, taken p ≤ p.units) :
    lossRealised price parcels taken ≤ lossRealised price parcels units := by
  refine List.sum_le_sum fun p hp => ?_
  split
  · rename_i hloss
    exact neg_le_neg (mul_le_mul_of_nonpos_left (h p hp) hloss)
  · exact le_rfl

/-- Each class costs an allocation no less than its cheapest units. -/
theorem class_cost_le {l : List CandidateParcel} {taken : CandidateParcel → ℚ} {x : ℚ}
    (hsorted : l.Pairwise fun p q => gainPerUnit id price p ≤ gainPerUnit id price q)
    (hgain : ∀ p ∈ l, 0 ≤ gainPerUnit id price p) (hwithin : Within units l taken) (hx : 0 ≤ x)
    (hle : x ≤ amount l taken) :
    fillCost units (gainPerUnit id price) x l ≤ cost (gainPerUnit id price) l taken :=
  calc fillCost units (gainPerUnit id price) x l
      ≤ fillCost units (gainPerUnit id price) (amount l taken) l :=
        fillCost_mono units_nonneg hgain hx hle hwithin.amount_le
    _ ≤ cost (gainPerUnit id price) l taken := fillCost_le hsorted hwithin

/-- No allocation has a smaller net gain than some split in range. -/
theorem exists_split_netGain_le {taken : CandidateParcel → ℚ} (hleft : 0 < leftToSell price parcels sold)
    (hall : Allocates parcels sold.value taken) :
    ∃ y, SplitInRange price saleDate parcels sold y ∧
      (AtPlaces parcels sold taken → Grid.On (gridStep (quantityScale parcels sold)) y) ∧
      max ((costOfSplit price saleDate parcels sold y - lossTaken price parcels sold) / 2) 0 ≤
        netGainOf price saleDate parcels taken := by
  have hothers : ∀ p ∈ other id price saleDate parcels, p ∈ parcels := fun p hp => (mem_other.mp hp).1
  have hdiscounts : ∀ p ∈ discounted id price saleDate parcels, p ∈ parcels := fun p hp =>
    (mem_discounted.mp hp).1
  have hlosses : ∀ p ∈ losses id price parcels, p ∈ parcels := fun p hp => (mem_losses.mp hp).1
  have hwithin : ∀ {l : List CandidateParcel}, (∀ p ∈ l, p ∈ parcels) → Within units l taken :=
    fun hl => ⟨fun p hp => hall.within.nonneg p (hl p hp), fun p hp => hall.within.le_room p (hl p hp)⟩
  have htotal := hall.total
  rw [amount_classes id price saleDate] at htotal
  have hn := (hwithin hothers).amount_le
  have hm := (hwithin hdiscounts).amount_nonneg
  have hm' := (hwithin hdiscounts).amount_le
  have hl := (hwithin hlosses).amount_le
  have hn0 := (hwithin hothers).amount_nonneg
  have hleft' : leftToSell price parcels sold ≤
      amount (other id price saleDate parcels) taken + amount (discounted id price saleDate parcels) taken := by
    rcases min_choice sold.value (amount (losses id price parcels) units) with h | h
    · rw [leftToSell, h, sub_self] at hleft
      exact absurd hleft (lt_irrefl 0)
    · rw [leftToSell, h]
      linarith
  -- as many discounted units as the allocation takes, or all that is left
  let y := leftToSell price parcels sold -
    min (amount (discounted id price saleDate parcels) taken) (leftToSell price parcels sold)
  have hy : 0 ≤ y := sub_nonneg.mpr (min_le_right _ _)
  have hrest : leftToSell price parcels sold - y =
      min (amount (discounted id price saleDate parcels) taken) (leftToSell price parcels sold) :=
    sub_sub_cancel _ _
  have hyother : y ≤ amount (other id price saleDate parcels) taken := by
    rcases min_choice (amount (discounted id price saleDate parcels) taken)
      (leftToSell price parcels sold) with h | h
    · simp only [y, h]
      linarith
    · simp only [y, h, sub_self]
      exact hn0
  have hrange : SplitInRange price saleDate parcels sold y := by
    refine ⟨hy, sub_le_self _ (le_min hm hleft.le), hyother.trans hn, ?_⟩
    rw [hrest]
    exact (min_le_left _ _).trans hm'
  refine ⟨y, hrange, fun hat => ?_, ?_⟩
  · exact leftToSell_on.sub ((amount_on hat hdiscounts).min leftToSell_on)
  · have hcost : fillCost units (gainPerUnit id price) y (other id price saleDate parcels) ≤
        dilutingGain price saleDate parcels taken := by
      rw [dilutingGain_eq_cost]
      exact class_cost_le (sorted_by_gain _) (fun p hp => (other_nonneg p hp).le) (hwithin hothers) hy
        hyother
    have hrest0 : 0 ≤ leftToSell price parcels sold - y := sub_nonneg.mpr hrange.le_left
    have hcost' : fillCost units (gainPerUnit id price) (leftToSell price parcels sold - y)
        (discounted id price saleDate parcels) ≤ discountedGain price saleDate parcels taken := by
      rw [discountedGain_eq_cost]
      exact class_cost_le (sorted_by_gain _) discounted_nonneg (hwithin hdiscounts) hrest0
        (hrest ▸ min_le_left _ _)
    have hloss : lossRealised price parcels taken ≤ lossTaken price parcels sold := by
      rw [lossTaken_eq hleft]
      exact lossRealised_le hall.within.le_room
    refine le_of_eq_of_le ?_ (netGain_mono hcost hcost' hloss)
    rw [netGain_eq (fillCost_gains_nonneg discounted_nonneg hrest0 hrange.rest_le), costOfSplit,
      dividedCost, add_comm (fillCost _ _ (_ - y) _)]

theorem forall_classes (price : ℚ) (saleDate : NaiveDate) {motive : CandidateParcel → Prop}
    (hloss : ∀ p ∈ losses id price parcels, motive p)
    (hother : ∀ p ∈ other id price saleDate parcels, motive p)
    (hdiscounted : ∀ p ∈ discounted id price saleDate parcels, motive p) :
    ∀ p ∈ parcels, motive p := by
  intro p hp
  have hmem := (classes_perm id price saleDate parcels).mem_iff.mpr hp
  rcases List.mem_append.mp hmem with h | h
  · exact hloss p h
  · rcases List.mem_append.mp h with h | h
    · exact hother p h
    · exact hdiscounted p h

theorem fills_on {l : List CandidateParcel} {filled step : ℚ} {taken : CandidateParcel → ℚ}
    (h : FillsInOrder units filled l taken) (hunits : ∀ p ∈ l, Grid.On step p.units)
    (hfilled : Grid.On step filled) : ∀ p ∈ l, Grid.On step (taken p) := by
  intro p hp
  obtain ⟨before, rest, rfl⟩ := List.append_of_mem hp
  have hbefore : Grid.On step (amount before units) := by
    refine Grid.On.sum fun x hx => ?_
    obtain ⟨q, hq, rfl⟩ := List.mem_map.mp hx
    exact hunits q (List.mem_append_left _ hq)
  rw [h before p rest rfl]
  exact (Grid.On.zero step).max ((hunits p hp).min (hfilled.sub hbefore))

/-- The picks make up the sale at the places, and their net gain is that of a
split that costs the least. -/
theorem minGainTaken_spec (price : ℚ) (saleDate : NaiveDate) (hids : (parcels.map tradeId).Nodup)
    (hsold : 0 ≤ sold.value) (henough : sold.value ≤ amount parcels units) :
    Allocates parcels sold.value (minGainTaken price saleDate parcels sold) ∧
      AtPlaces parcels sold (minGainTaken price saleDate parcels sold) ∧
      ∃ x, SplitInRange price saleDate parcels sold x ∧
        netGainOf price saleDate parcels (minGainTaken price saleDate parcels sold) =
          max ((costOfSplit price saleDate parcels sold x - lossTaken price parcels sold) / 2) 0 ∧
        ∀ y, SplitInRange price saleDate parcels sold y →
          Grid.On (gridStep (quantityScale parcels sold)) y ∨
            CrossesAtPlaces price saleDate parcels sold →
          costOfSplit price saleDate parcels sold x ≤ costOfSplit price saleDate parcels sold y := by
  obtain ⟨x, hrange, hon, hpicks, hleast⟩ := minGainPicks_split price saleDate hsold henough
  have hids' := ((classes_perm id price saleDate parcels).map tradeId).nodup_iff.mpr hids
  have hwalks := fills_of_walks hids' sold.value x (leftToSell price parcels sold - x)
  rw [← hpicks] at hwalks
  obtain ⟨hlosses, hothers, hdiscounts⟩ := hwalks
  have hrest : 0 ≤ leftToSell price parcels sold - x := sub_nonneg.mpr hrange.le_left
  refine ⟨⟨⟨?_, ?_⟩, ?_⟩, ?_, x, hrange, ?_, hleast⟩
  · exact forall_classes price saleDate (hlosses.within units_nonneg).nonneg
      (hothers.within units_nonneg).nonneg (hdiscounts.within units_nonneg).nonneg
  · exact forall_classes price saleDate (hlosses.within units_nonneg).le_room
      (hothers.within units_nonneg).le_room (hdiscounts.within units_nonneg).le_room
  · have hall : 0 ≤ amount (losses id price parcels) units := amount_nonneg_of units_nonneg
    calc amount parcels (minGainTaken price saleDate parcels sold)
        = min sold.value (amount (losses id price parcels) units) +
            (x + (leftToSell price parcels sold - x)) := by
          rw [amount_classes id price saleDate]
          congr 1
          · exact (hlosses.amount_eq units_nonneg).trans (max_eq_right (le_min hsold hall))
          · congr 1
            · refine (hothers.amount_eq units_nonneg).trans ?_
              rw [min_eq_left hrange.le_other, max_eq_right hrange.nonneg]
            · refine (hdiscounts.amount_eq units_nonneg).trans ?_
              rw [min_eq_left hrange.rest_le, max_eq_right hrest]
      _ = sold.value := by
          rw [add_sub_cancel, leftToSell, add_sub_cancel]
  · have hunits := units_on parcels sold
    refine forall_classes price saleDate ?_ ?_ ?_
    · exact fills_on hlosses (fun p hp => hunits p (mem_losses.mp hp).1) (sold_on parcels sold)
    · exact fills_on hothers (fun p hp => hunits p (mem_other.mp hp).1) hon
    · exact fills_on hdiscounts (fun p hp => hunits p (mem_discounted.mp hp).1) (leftToSell_on.sub hon)
  · have hloss : lossRealised price parcels (minGainTaken price saleDate parcels sold) =
        lossTaken price parcels sold := by
      rw [lossRealised_eq_cost, lossTaken]
      exact congrArg Neg.neg (hlosses.cost_eq units_nonneg hsold)
    have hother : dilutingGain price saleDate parcels (minGainTaken price saleDate parcels sold) =
        fillCost units (gainPerUnit id price) x (other id price saleDate parcels) := by
      rw [dilutingGain_eq_cost]
      exact hothers.cost_eq units_nonneg hrange.nonneg
    have hdiscounted : discountedGain price saleDate parcels (minGainTaken price saleDate parcels sold) =
        fillCost units (gainPerUnit id price) (leftToSell price parcels sold - x)
          (discounted id price saleDate parcels) := by
      rw [discountedGain_eq_cost]
      exact hdiscounts.cost_eq units_nonneg hrest
    rw [netGainOf, hloss, hother, hdiscounted,
      netGain_eq (fillCost_gains_nonneg discounted_nonneg hrest hrange.rest_le), costOfSplit,
      dividedCost, add_comm (fillCost _ _ (_ - x) _)]

/-- The strategy's net gain is the least of all allocations at the quantities'
decimal places, and of all allocations where the gains overtake the losses at
such a quantity. -/
theorem minGain_least (parcels : List CandidateParcel) (hids : (parcels.map tradeId).Nodup)
    (sold : Decimal) (hsold : 0 ≤ sold.value) (henough : sold.value ≤ amount parcels units) (price : ℚ)
    (saleDate : NaiveDate) :
    Allocates parcels sold.value (minGainTaken price saleDate parcels sold) ∧
      AtPlaces parcels sold (minGainTaken price saleDate parcels sold) ∧
      ∀ taken, Allocates parcels sold.value taken →
        AtPlaces parcels sold taken ∨ CrossesAtPlaces price saleDate parcels sold →
        netGainOf price saleDate parcels (minGainTaken price saleDate parcels sold) ≤
          netGainOf price saleDate parcels taken := by
  obtain ⟨hall, hat, x, hinrange, hnet, hleast⟩ := minGainTaken_spec price saleDate hids hsold henough
  refine ⟨hall, hat, fun taken htaken hplaces => ?_⟩
  rcases (leftToSell_nonneg price parcels sold).eq_or_lt with hnone | hleft
  · -- only losses are sold: there is no gain
    have hsplit : x = 0 := le_antisymm (hnone.symm ▸ hinrange.le_left) hinrange.nonneg
    have hloss : 0 ≤ lossTaken price parcels sold := neg_nonneg.mpr
      (fillCost_nonpos units_nonneg (fun p hp => (mem_losses.mp hp).2) hsold)
    have hcost : costOfSplit price saleDate parcels sold x = 0 := by
      rw [costOfSplit, dividedCost, ← hnone, hsplit, sub_zero, fillCost_zero units_nonneg,
        fillCost_zero units_nonneg, zero_sub, max_eq_right (neg_nonpos.mpr hloss), add_zero, add_zero]
    rw [hnet, hcost, max_eq_right (by linarith)]
    exact netGain_nonneg _ _ _
  · obtain ⟨y, hrange, hon, hle⟩ := exists_split_netGain_le hleft htaken
    have hcost := hleast y hrange (hplaces.imp_left hon)
    rw [hnet]
    refine le_trans ?_ hle
    gcongr

end Least

/-- The net gain beside gains and losses realised elsewhere. -/
def netGainBeside (baseDiscounted baseLoss price : ℚ) (saleDate : NaiveDate)
    (parcels : List CandidateParcel) (taken : CandidateParcel → ℚ) : ℚ :=
  netGain (dilutingGain price saleDate parcels taken)
    (baseDiscounted + discountedGain price saleDate parcels taken)
    (baseLoss + lossRealised price parcels taken)

/-- A gain of three dollars without the discount, of four with it, and a loss of
one. -/
def threeAndFour : List CandidateParcel :=
  [⟨1, ymd 2024 1 10, oneUnit, 7, oneUnit_pos⟩,
    ⟨2, ymd 2022 1 10, oneUnit, 6, oneUnit_pos⟩]

def withLoss : List CandidateParcel :=
  threeAndFour ++ [⟨3, ymd 2024 1 10, oneUnit, 11, oneUnit_pos⟩]

def twoUnits : Decimal := ⟨2, 0, by decide, Decimal.no_scale_le⟩

theorem minGain_least_threeAndFour :
    Allocates threeAndFour oneUnit.value (minGainTaken 10 (ymd 2024 6 1) threeAndFour oneUnit) ∧
      AtPlaces threeAndFour oneUnit (minGainTaken 10 (ymd 2024 6 1) threeAndFour oneUnit) ∧
      ∀ taken, Allocates threeAndFour oneUnit.value taken →
        AtPlaces threeAndFour oneUnit taken ∨ CrossesAtPlaces 10 (ymd 2024 6 1) threeAndFour oneUnit →
        netGainOf 10 (ymd 2024 6 1) threeAndFour
            (minGainTaken 10 (ymd 2024 6 1) threeAndFour oneUnit) ≤
          netGainOf 10 (ymd 2024 6 1) threeAndFour taken :=
  minGain_least threeAndFour (by decide) oneUnit (by simp [oneUnit_value])
    (by simp [threeAndFour, amount, units, oneUnit_value]) 10 (ymd 2024 6 1)

/-- Beside losses realised elsewhere the undiscounted gain is the smaller, and
between whole units a fraction of one. -/
theorem minGain_not_least :
    (¬ ∀ (parcels : List CandidateParcel) (sold : Decimal) (price : ℚ) (saleDate : NaiveDate)
      (baseDiscounted baseLoss : ℚ) (taken : CandidateParcel → ℚ), Allocates parcels sold.value taken →
      AtPlaces parcels sold taken →
      netGainBeside baseDiscounted baseLoss price saleDate parcels
          (minGainTaken price saleDate parcels sold) ≤
        netGainBeside baseDiscounted baseLoss price saleDate parcels taken) ∧
    ¬ ∀ (parcels : List CandidateParcel) (sold : Decimal) (price : ℚ) (saleDate : NaiveDate)
      (taken : CandidateParcel → ℚ), Allocates parcels sold.value taken →
      netGainBeside 0 0 price saleDate parcels (minGainTaken price saleDate parcels sold) ≤
        netGainBeside 0 0 price saleDate parcels taken := by
  constructor
  · intro h
    have hle := h threeAndFour oneUnit 10 (ymd 2024 6 1) 200 100
      (fun p => if p.tradeId = 1 then 1 else 0) ⟨⟨?_, ?_⟩, ?_⟩ ?_
    · revert hle
      decide +kernel
    · intro p _
      split <;> norm_num
    · simp [threeAndFour, units, oneUnit_value]
    · simp [threeAndFour, amount, oneUnit_value]
    · intro p _
      dsimp only
      split
      · rw [← oneUnit_value]
        exact sold_on threeAndFour oneUnit
      · exact .zero _
  · intro h
    have hle := h withLoss twoUnits 10 (ymd 2024 6 1)
      (fun p => if p.tradeId = 1 then 33 / 100 else if p.tradeId = 2 then 67 / 100 else 1) ⟨⟨?_, ?_⟩, ?_⟩
    · revert hle
      decide +kernel
    · intro p _
      split
      · norm_num
      · split <;> norm_num
    · simp [withLoss, threeAndFour, units, oneUnit_value]
      norm_num
    · simp [withLoss, threeAndFour, amount, twoUnits, Decimal.value]
      norm_num

end ShareTracker.ParcelOptimiser
