import ShareTracker.Calendar
import ShareTracker.FigureSums
import ShareTracker.Lib.Checked
import ShareTracker.Lib.StableSort
import ShareTracker.ParcelLedger

/-!
The rollover-consistency report: what each substituting operation stored as
carried against what its consumed units are worth now, and how far the two may
part by rounding.
-/
namespace ShareTracker.RolloverConsistency

inductive RolloverKind where
  | transfer
  | scripForScrip
  | demerger
  | worthlessShares
  deriving DecidableEq

/-- A stored figure that is never negative. -/
structure Amount where
  figure : Decimal
  nonneg : 0 ≤ figure.value

structure Replacement where
  id : TradeId
  currency : CurrencyCode
  quantity : Amount
  averagePrice : Amount
  brokerage : Amount
  gstOnBrokerage : Amount

/-- A parcel the closing Sell consumed, and how much of it. -/
structure Allocation where
  parcel : TradeId
  currency : CurrencyCode
  allocated : Decimal

/-- A parcel still open at the operation's date. -/
structure OpenParcel where
  id : TradeId
  listing : ListingId
  date : NaiveDate
  remaining : ℚ
  deriving DecidableEq

/-- An operation with what it consumed and created. Rows are numbered by 64-bit
ids, so there are fewer than that of them. -/
structure Group where
  kind : RolloverKind
  date : NaiveDate
  listing : ListingId
  partialRollover : Bool
  allocations : List Allocation
  replacements : List Replacement
  openParcels : List OpenParcel
  terms_lt : allocations.length + replacements.length < 2 ^ 63

inductive Problem where
  | unconsumed (parcel : OpenParcel)
  | notChecked (date : NaiveDate)
  | costBase (currency : CurrencyCode) (stored expected : Decimal)
  | units (moved held : Decimal)
  deriving DecidableEq

/-- How far two totals summed from so many figures can part by rounding alone. -/
def summationSlack (terms : ℕ) (a b : Decimal) : Decimal :=
  if !(a.fullPrecision || b.fullPrecision) then Decimal.zero
  else Decimal.new terms (min a.scale b.scale)

/-- A currency's two totals. -/
structure Totals where
  currency : CurrencyCode
  expected : Decimal
  stored : Decimal
  deriving DecidableEq

namespace Totals

def difference (t : Totals) : ℚ := |t.expected.value - t.stored.value|

/-- Whether the report says the two differ. -/
def differ (A : FigureArithmetic) (terms : ℕ) (t : Totals) : Bool :=
  (summationSlack terms t.expected t.stored).value < A.round t.difference

def larger (t : Totals) : Decimal :=
  if t.stored.value ≤ t.expected.value then t.expected else t.stored

def scale (t : Totals) : ℕ := min t.expected.scale t.stored.scale

/-- The two part by more than the rounding of so many figures. -/
def Apart (terms : ℕ) (t : Totals) : Prop := terms * t.larger.lastPlace < t.difference

instance decidableApart (terms : ℕ) (t : Totals) : Decidable (t.Apart terms) :=
  inferInstanceAs (Decidable (_ < _))

/-- One total has used all its digits and the other is kept at fewer places than
the larger's digits reach. -/
def Coarse (t : Totals) : Prop :=
  (t.expected.fullPrecision = true ∨ t.stored.fullPrecision = true) ∧
    t.larger.lastPlace < 1 / 10 ^ t.scale

instance decidableCoarse (t : Totals) : Decidable t.Coarse :=
  inferInstanceAs (Decidable (_ ∧ _))

/-- Totals apart by more than rounding, within a unit a figure of the coarser. -/
def Masked (A : FigureArithmetic) (terms : ℕ) (t : Totals) : Prop :=
  t.Apart terms ∧ t.Coarse ∧ A.round t.difference ≤ terms / 10 ^ t.scale

end Totals

/-- What a group's figures add up to. -/
structure Tally where
  byCurrency : List Totals
  movedUnits : Decimal
  heldUnits : Decimal
  deriving DecidableEq

namespace Group

/-- The operations whose stored figures are compared. -/
def compared (g : Group) : Bool := !g.partialRollover && g.kind ≠ .worthlessShares

def terms (g : Group) : ℕ := g.allocations.length + g.replacements.length

/-- A transfer moves the units it chooses; the others consume the whole holding. -/
def unconsumed (g : Group) : List OpenParcel :=
  if g.kind = .transfer then []
  else g.openParcels.filter fun p =>
    p.listing = g.listing && !(g.replacements.map Replacement.id).contains p.id

def storedCostBase (A : FigureArithmetic) (r : Replacement) : Option (CurrencyCode × Decimal) := do
  let cost ← A.mul r.averagePrice.figure r.quantity.figure
  let cost ← A.add cost r.brokerage.figure
  let cost ← A.add cost r.gstOnBrokerage.figure
  some (r.currency, cost)

/-- What the operations' own pipeline makes of the consumed units today. -/
def expectedCostBase (carried : Allocation → Option Amount) (a : Allocation) :
    Option (CurrencyCode × Decimal) := do
  let amount ← carried a
  some (a.currency, amount.figure)

def totalIn (A : FigureArithmetic) (currency : CurrencyCode) (rows : List (CurrencyCode × Decimal)) :
    Option Decimal :=
  A.sum ((rows.filter fun r => r.1 = currency).map Prod.snd)

def currencies (rows : List (CurrencyCode × Decimal)) : List CurrencyCode :=
  (StableSort.sortBy CurrencyCode.code (rows.map Prod.fst)).dedup

def totals (A : FigureArithmetic) (expected stored : List (CurrencyCode × Decimal))
    (currency : CurrencyCode) : Option Totals := do
  let expected ← totalIn A currency expected
  let stored ← totalIn A currency stored
  some ⟨currency, expected, stored⟩

/-- The sums of a group; none where one panics or a parcel cannot be read. -/
def tally (A : FigureArithmetic) (carried : Allocation → Option Amount) (g : Group) :
    Option Tally := do
  let stored ← g.replacements.mapM (storedCostBase A)
  let expected ← g.allocations.mapM (expectedCostBase carried)
  let moved ← A.sum (g.allocations.map Allocation.allocated)
  let held ← A.sum (g.replacements.map fun r => r.quantity.figure)
  let byCurrency ← (currencies (expected ++ stored)).mapM (totals A expected stored)
  some ⟨byCurrency, moved, held⟩

def costProblems (A : FigureArithmetic) (g : Group) (t : Tally) : List Problem :=
  (t.byCurrency.filter (Totals.differ A g.terms)).map fun totals =>
    .costBase totals.currency totals.stored totals.expected

def unitsProblem (g : Group) (t : Tally) : List Problem :=
  if g.kind = .transfer ∧ t.movedUnits.value ≠ t.heldUnits.value then
    [.units t.movedUnits t.heldUnits]
  else []

/-- The comparison of a group whose sums are known; none where a subtraction panics. -/
def compare (A : FigureArithmetic) (g : Group) (t : Tally) : Option (List Problem) :=
  if t.byCurrency.all fun totals => A.inRange totals.difference then
    some (g.unconsumed.map Problem.unconsumed ++ g.costProblems A t ++ g.unitsProblem t)
  else none

/-- `problems_for`: a group it answers no problem for is left out of the report. -/
def problemsFor (A : FigureArithmetic) (carried : Allocation → Option Amount) (g : Group) :
    Option (List Problem) := do
  let _ ← g.replacements.mapM (storedCostBase A)
  if g.partialRollover then
    some (g.unconsumed.map Problem.unconsumed ++ [.notChecked g.date])
  else if g.kind = .worthlessShares then some (g.unconsumed.map Problem.unconsumed)
  else do
    let t ← g.tally A carried
    g.compare A t

/-- What a group is reported for whatever its totals. -/
def Flagged (A : FigureArithmetic) (g : Group) (t : Tally) : Prop :=
  g.unconsumed ≠ [] ∨ (∃ totals ∈ t.byCurrency, totals.differ A g.terms = true) ∨
    (g.kind = .transfer ∧ t.movedUnits.value ≠ t.heldUnits.value)

end Group

/-! ### The slack of two totals -/

namespace Totals

variable {A : FigureArithmetic} {terms : ℕ} {t : Totals}

theorem value_le_larger (t : Totals) :
    t.expected.value ≤ t.larger.value ∧ t.stored.value ≤ t.larger.value := by
  rw [larger]
  split
  · exact ⟨le_rfl, ‹_›⟩
  · exact ⟨(not_le.mp ‹_›).le, le_rfl⟩

theorem difference_le (he : 0 ≤ t.expected.value) (hs : 0 ≤ t.stored.value) :
    t.difference ≤ t.larger.value := by
  obtain ⟨hexpected, hstored⟩ := t.value_le_larger
  rw [difference, abs_le]
  constructor
  · linarith
  · linarith

/-- A difference of two totals is a whole number of units at the finer scale. -/
theorem difference_scaled (t : Totals) :
    ∃ k : ℕ, t.difference = (k : ℚ) / 10 ^ max t.expected.scale t.stored.scale := by
  obtain ⟨i, hi⟩ := Nat.exists_eq_add_of_le (le_max_left t.expected.scale t.stored.scale)
  obtain ⟨j, hj⟩ := Nat.exists_eq_add_of_le (le_max_right t.expected.scale t.stored.scale)
  refine ⟨(t.expected.mantissa * 10 ^ i - t.stored.mantissa * 10 ^ j).natAbs, ?_⟩
  have hten : (0 : ℚ) < 10 ^ max t.expected.scale t.stored.scale := by positivity
  rw [difference, Decimal.value, Decimal.value, rescaled t.expected.mantissa t.expected.scale i,
    rescaled t.stored.mantissa t.stored.scale j, ← hi, ← hj, scaled_sub, abs_div, abs_of_pos hten,
    Nat.cast_natAbs, Int.cast_abs]

theorem larger_pos (he : 0 ≤ t.expected.value) (hs : 0 ≤ t.stored.value) (h : t.Apart terms) :
    0 < t.larger.value := by
  have hle := difference_le he hs
  have hlast := t.larger.lastPlace_pos
  have hslack : 0 ≤ terms * t.larger.lastPlace := by positivity
  exact (hslack.trans_lt h).trans_le hle

/-- Where neither total is at full precision any difference at all is reported. -/
theorem differ_of_short (hexpected : ¬ t.expected.fullPrecision = true)
    (hstored : ¬ t.stored.fullPrecision = true) (h : 0 < t.difference) : t.differ A terms = true := by
  obtain ⟨k, hk⟩ := t.difference_scaled
  have hten : (0 : ℚ) < 10 ^ max t.expected.scale t.stored.scale := by positivity
  have hpos : 0 < k := by
    rw [hk, div_pos_iff_of_pos_right hten] at h
    exact_mod_cast h
  have hunit : (1 : ℚ) / 10 ^ max t.expected.scale t.stored.scale ≤ A.round t.difference := by
    apply A.le_round
    · apply holds_of_scaled (m := 1)
      · rw [Int.cast_one]
      · exact max_le t.expected.scale_le t.stored.scale_le
      · decide
    · rw [hk, div_le_div_iff_of_pos_right hten]
      exact_mod_cast hpos
  have hslack : summationSlack terms t.expected t.stored = Decimal.zero := by
    rw [summationSlack, if_pos]
    simp only [Bool.not_eq_true] at hexpected hstored
    rw [hexpected, hstored]
    rfl
  rw [differ, hslack, Decimal.zero_value]
  apply decide_eq_true
  exact lt_of_lt_of_le (by positivity) hunit

theorem slack_value (hfull : t.expected.fullPrecision = true ∨ t.stored.fullPrecision = true)
    (hterms : terms < 2 ^ 63) :
    (summationSlack terms t.expected t.stored).value = terms / 10 ^ t.scale := by
  have hor : (t.expected.fullPrecision || t.stored.fullPrecision) = true :=
    (Bool.or_eq_true _ _).mpr hfull
  rw [summationSlack, hor, if_neg (by decide), Decimal.new_value]
  · rw [scale, Int.cast_natCast]
  · omega
  · exact (min_le_left _ _).trans t.expected.scale_le

/-- A figure of 26 digits above a scale has at most two places more than it. -/
theorem places_lt {d : Decimal} {m k : ℕ} (hscale : d.scale = m + k)
    (h : (10 ^ 26 : ℚ) / 10 ^ m ≤ d.value) : k < 3 := by
  have hmant := d.mantissa_lt
  rw [Decimal.value, hscale, show (10 ^ 26 : ℚ) = ((10 ^ 26 : ℤ) : ℚ) by norm_num,
    rescaled (10 ^ 26) m k, scaled_le] at h
  by_contra hnot
  have hgrows : (10 : ℤ) ^ 3 ≤ 10 ^ k := pow_le_pow_right₀ (by norm_num) (not_lt.mp hnot)
  omega

/-- Two totals that differ by little and reach as far as the larger's 28 digits
differ by a figure the library keeps. -/
theorem holds_difference (hfine : 1 / 10 ^ t.scale ≤ t.larger.lastPlace)
    (hlarger : 0 < t.larger.value) (hlt : t.difference < 2 ^ 63 / 10 ^ t.scale) : holds t.difference = true := by
  have hten : (0 : ℚ) < 10 ^ t.scale := by positivity
  -- both totals are far above the coarser scale, so the finer has few places more
  have hbig : (10 ^ 27 : ℚ) / 10 ^ t.scale ≤ t.larger.value := by
    calc (10 ^ 27 : ℚ) / 10 ^ t.scale = 10 ^ 27 * (1 / 10 ^ t.scale) := by ring
      _ ≤ 10 ^ 27 * t.larger.lastPlace := mul_le_mul_of_nonneg_left hfine (by positivity)
      _ ≤ t.larger.value := Decimal.lastPlace_mul_le hlarger
  have hgap : (10 ^ 26 : ℚ) / 10 ^ t.scale + 2 ^ 63 / 10 ^ t.scale ≤ 10 ^ 27 / 10 ^ t.scale := by
    rw [← add_div, div_le_div_iff_of_pos_right hten]
    norm_num
  have hnear : ∀ d ∈ [t.expected, t.stored], (10 ^ 26 : ℚ) / 10 ^ t.scale ≤ d.value := by
    intro d hd
    have habove : t.larger.value - t.difference ≤ d.value := by
      rw [larger, difference]
      rcases List.mem_pair.mp hd with rfl | rfl
      · split
        · linarith [abs_nonneg (t.expected.value - t.stored.value)]
        · linarith [neg_abs_le (t.expected.value - t.stored.value)]
      · split
        · linarith [le_abs_self (t.expected.value - t.stored.value)]
        · linarith [abs_nonneg (t.expected.value - t.stored.value)]
    linarith
  obtain ⟨k, hk⟩ := Nat.exists_eq_add_of_le (min_le_max (a := t.expected.scale) (b := t.stored.scale))
  have hfew : k < 3 := by
    rcases max_choice t.expected.scale t.stored.scale with hmax | hmax
    · exact places_lt (hmax.symm.trans hk) (hnear t.expected (List.mem_cons_self))
    · exact places_lt (hmax.symm.trans hk) (hnear t.stored (by simp))
  obtain ⟨n, hn⟩ := t.difference_scaled
  have hsmall : n < 2 ^ 63 * 10 ^ k := by
    rw [hn, hk, pow_add, div_lt_div_iff₀ (by positivity) hten] at hlt
    have hcancel : (n : ℚ) < 2 ^ 63 * 10 ^ k := by
      rw [mul_comm (10 ^ min t.expected.scale t.stored.scale : ℚ), ← mul_assoc] at hlt
      exact lt_of_mul_lt_mul_right hlt hten.le
    exact_mod_cast hcancel
  have hten' : 10 ^ k ≤ 10 ^ 2 := Nat.pow_le_pow_right (by norm_num) (by omega)
  apply holds_of_scaled (m := n) (s := max t.expected.scale t.stored.scale)
  · rw [hn, Int.cast_natCast]
  · exact max_le t.expected.scale_le t.stored.scale_le
  · omega

/-- Past the slack, a difference is reported. -/
theorem differ_of_fine (he : 0 ≤ t.expected.value) (hs : 0 ≤ t.stored.value)
    (hterms : terms < 2 ^ 63)
    (hfull : t.expected.fullPrecision = true ∨ t.stored.fullPrecision = true)
    (hfine : 1 / 10 ^ t.scale ≤ t.larger.lastPlace) (h : t.Apart terms) :
    t.differ A terms = true := by
  have hten : (0 : ℚ) < 10 ^ t.scale := by positivity
  have hpast : (terms : ℚ) / 10 ^ t.scale < t.difference := by
    calc (terms : ℚ) / 10 ^ t.scale = terms * (1 / 10 ^ t.scale) := by ring
      _ ≤ terms * t.larger.lastPlace := mul_le_mul_of_nonneg_left hfine (Nat.cast_nonneg terms)
      _ < t.difference := h
  rw [differ, slack_value hfull hterms]
  apply decide_eq_true
  rcases le_or_gt ((terms + 1 : ℕ) / 10 ^ t.scale : ℚ) t.difference with hnext | hnear
  · calc (terms : ℚ) / 10 ^ t.scale < (terms + 1 : ℕ) / 10 ^ t.scale := by
          rw [div_lt_div_iff_of_pos_right hten]
          exact_mod_cast Nat.lt_succ_self terms
      _ ≤ A.round t.difference := by
          apply A.le_round _ hnext
          apply holds_of_scaled (m := (terms + 1 : ℕ)) (s := t.scale)
          · rw [Int.cast_natCast]
          · exact (min_le_left _ _).trans t.expected.scale_le
          · omega
  · have hsmall : t.difference < 2 ^ 63 / 10 ^ t.scale := by
      apply hnear.trans_le
      rw [div_le_div_iff_of_pos_right hten]
      exact_mod_cast hterms
    have hkept := holds_difference hfine (larger_pos he hs h) hsmall
    rw [DecimalRounding.round_holds _ hkept]
    exact hpast

/-- Totals apart by more than rounding are reported unless they are masked. -/
theorem differ_or_masked (he : 0 ≤ t.expected.value) (hs : 0 ≤ t.stored.value)
    (hterms : terms < 2 ^ 63) (h : t.Apart terms) : t.differ A terms = true ∨ t.Masked A terms := by
  by_cases hfull : t.expected.fullPrecision = true ∨ t.stored.fullPrecision = true
  · by_cases hcoarse : t.larger.lastPlace < 1 / 10 ^ t.scale
    · rcases le_or_gt (A.round t.difference) (terms / 10 ^ t.scale) with hle | hlt
      · exact .inr ⟨h, ⟨hfull, hcoarse⟩, hle⟩
      · left
        rw [differ, slack_value hfull hterms]
        exact decide_eq_true hlt
    · exact .inl (differ_of_fine he hs hterms hfull (not_lt.mp hcoarse) h)
  · obtain ⟨hexpected, hstored⟩ := not_or.mp hfull
    left
    apply differ_of_short hexpected hstored
    have hlast := t.larger.lastPlace_pos
    have hslack : 0 ≤ terms * t.larger.lastPlace := by positivity
    exact hslack.trans_lt h

end Totals

namespace Group

variable {A : FigureArithmetic} {carried : Allocation → Option Amount} {g : Group} {t : Tally}

theorem storedCostBase_nonneg {r : Replacement} {row : CurrencyCode × Decimal}
    (h : storedCostBase A r = some row) : 0 ≤ row.2.value := by
  rw [storedCostBase] at h
  obtain ⟨product, hproduct, h⟩ := Option.bind_eq_some_iff.mp h
  obtain ⟨brokered, hbrokered, h⟩ := Option.bind_eq_some_iff.mp h
  obtain ⟨cost, hcost, h⟩ := Option.bind_eq_some_iff.mp h
  obtain rfl := Option.some.inj h
  have hnonneg := FigureArithmetic.mul_value_nonneg hproduct r.averagePrice.nonneg r.quantity.nonneg
  have hnonneg := FigureArithmetic.add_value_nonneg hbrokered hnonneg r.brokerage.nonneg
  exact FigureArithmetic.add_value_nonneg hcost hnonneg r.gstOnBrokerage.nonneg

theorem expectedCostBase_nonneg {a : Allocation} {row : CurrencyCode × Decimal}
    (h : expectedCostBase carried a = some row) : 0 ≤ row.2.value := by
  rw [expectedCostBase] at h
  obtain ⟨amount, -, h⟩ := Option.bind_eq_some_iff.mp h
  obtain rfl := Option.some.inj h
  exact amount.nonneg

theorem totalIn_nonneg {currency : CurrencyCode} {rows : List (CurrencyCode × Decimal)}
    {total : Decimal} (h : totalIn A currency rows = some total)
    (hrows : ∀ row ∈ rows, 0 ≤ row.2.value) : 0 ≤ total.value := by
  apply FigureArithmetic.sum_nonneg h
  intro d hd
  obtain ⟨row, hrow, rfl⟩ := List.mem_map.mp hd
  exact hrows row (List.mem_filter.mp hrow).1

theorem tally_nonneg (h : g.tally A carried = some t) {totals : Totals}
    (ht : totals ∈ t.byCurrency) : 0 ≤ totals.expected.value ∧ 0 ≤ totals.stored.value := by
  rw [tally] at h
  obtain ⟨stored, hstored, h⟩ := Option.bind_eq_some_iff.mp h
  obtain ⟨expected, hexpected, h⟩ := Option.bind_eq_some_iff.mp h
  obtain ⟨_, -, h⟩ := Option.bind_eq_some_iff.mp h
  obtain ⟨_, -, h⟩ := Option.bind_eq_some_iff.mp h
  obtain ⟨byCurrency, hrows, h⟩ := Option.bind_eq_some_iff.mp h
  obtain rfl := Option.some.inj h
  obtain ⟨currency, -, hrow⟩ := Checked.mem_mapM_some hrows ht
  rw [Group.totals] at hrow
  obtain ⟨e, he, hrow⟩ := Option.bind_eq_some_iff.mp hrow
  obtain ⟨s, hs, hrow⟩ := Option.bind_eq_some_iff.mp hrow
  obtain rfl := Option.some.inj hrow
  constructor
  · apply totalIn_nonneg he
    intro row hmem
    obtain ⟨a, -, ha⟩ := Checked.mem_mapM_some hexpected hmem
    exact expectedCostBase_nonneg ha
  · apply totalIn_nonneg hs
    intro row hmem
    obtain ⟨r, -, hr⟩ := Checked.mem_mapM_some hstored hmem
    exact storedCostBase_nonneg hr

/-- A difference of two totals is in the range of the larger. -/
theorem compare_some (h : g.tally A carried = some t) : g.compare A t =
    some (g.unconsumed.map Problem.unconsumed ++ g.costProblems A t ++ g.unitsProblem t) := by
  rw [compare, if_pos]
  rw [List.all_eq_true]
  intro totals ht
  obtain ⟨he, hs⟩ := tally_nonneg h ht
  have hlarger : holds totals.larger.value = true := holds_iff.mpr ⟨totals.larger, rfl⟩
  apply A.inRange_le _ _ (abs_nonneg _) (Totals.difference_le he hs)
  exact A.inRange_holds hlarger

theorem problemsFor_compared (hg : g.compared = true) (h : g.tally A carried = some t) :
    g.problemsFor A carried = g.compare A t := by
  rw [compared, Bool.and_eq_true, Bool.not_eq_true', decide_eq_true_eq] at hg
  have hstored : ∃ stored, g.replacements.mapM (storedCostBase A) = some stored := by
    rw [tally] at h
    obtain ⟨stored, hstored, -⟩ := Option.bind_eq_some_iff.mp h
    exact ⟨stored, hstored⟩
  obtain ⟨stored, hstored⟩ := hstored
  rw [problemsFor, hstored, hg.1, if_neg hg.2, h]
  rfl

theorem problems_ne_nil : g.unconsumed.map Problem.unconsumed ++ g.costProblems A t ++
    g.unitsProblem t ≠ [] ↔ g.Flagged A t := by
  rw [Flagged, ne_eq, List.append_eq_nil_iff, List.append_eq_nil_iff, List.map_eq_nil_iff]
  rw [costProblems, List.map_eq_nil_iff, List.filter_eq_nil_iff, unitsProblem]
  split
  · rename_i hunits
    simp [hunits]
  · rename_i hunits
    simp only [and_true, hunits, or_false]
    rw [not_and_or]
    push Not
    rfl

end Group

/-- A compared group whose sums can be formed is answered, and one whose totals in some currency
are apart by more than rounding is reported exactly where no currency is
masked or something else flags the group. -/
theorem noFalseSilence_iff (A : FigureArithmetic) (carried : Allocation → Option Amount) (g : Group)
    (t : Tally) (hg : g.compared = true) (ht : g.tally A carried = some t) :
    ∃ problems, g.problemsFor A carried = some problems ∧
      (((∃ totals ∈ t.byCurrency, totals.Apart g.terms) → problems ≠ []) ↔
        ((∃ totals ∈ t.byCurrency, totals.Masked A g.terms) → g.Flagged A t)) := by
  refine ⟨_, (Group.problemsFor_compared hg ht).trans (Group.compare_some ht), ?_⟩
  rw [Group.problems_ne_nil]
  constructor
  · rintro h ⟨totals, hmem, hmasked⟩
    exact h ⟨totals, hmem, hmasked.1⟩
  · rintro h ⟨totals, hmem, hapart⟩
    obtain ⟨he, hs⟩ := Group.tally_nonneg ht hmem
    rcases Totals.differ_or_masked (A := A) he hs g.terms_lt hapart with hdiffer | hmasked
    · exact .inr (.inl ⟨totals, hmem, hdiffer⟩)
    · exact h ⟨totals, hmem, hmasked⟩

theorem new_nonneg (mantissa scale : ℕ) : 0 ≤ (Decimal.new mantissa scale).value := by
  rw [Decimal.new]
  split
  · rw [Decimal.value]
    positivity
  · exact Decimal.zero_value.ge

def Amount.new (mantissa scale : ℕ) : Amount := ⟨Decimal.new mantissa scale, new_nonneg mantissa scale⟩

theorem two_terms_lt : 1 + 1 < 2 ^ 63 := by decide

/-- A transfer of some units of one parcel, whose cost base it carried on the
brokerage column. -/
def transferOf (units : ℕ) (cost : Amount) : Group where
  kind := .transfer
  date := ymd 2023 8 1
  listing := 1
  partialRollover := false
  allocations := [⟨1, ⟨"AUD"⟩, Decimal.new units 0⟩]
  replacements := [⟨3, ⟨"AUD"⟩, Amount.new units 0, Amount.new 0 0, cost, Amount.new 0 0⟩]
  openParcels := []
  terms_lt := two_terms_lt

/-- A hundred units carried at 500 whose source parcel is worth 600 now. -/
theorem noFalseSilence_repriced :
    ∃ problems, (transferOf 100 (Amount.new 500 0)).problemsFor halfEvenArithmetic
      (fun _ => some (Amount.new 600 0)) = some problems ∧ problems ≠ [] := by
  obtain ⟨problems, hproblems, hiff⟩ := noFalseSilence_iff halfEvenArithmetic
    (fun _ => some (Amount.new 600 0)) (transferOf 100 (Amount.new 500 0))
    ⟨[⟨⟨"AUD"⟩, Decimal.new 600 0, Decimal.new 500 0⟩], Decimal.new 100 0, Decimal.new 100 0⟩
    (by decide) (by decide +kernel)
  have hapart : (⟨⟨"AUD"⟩, Decimal.new 600 0, Decimal.new 500 0⟩ : Totals).Apart 2 := by
    decide +kernel
  have hfine : ¬ (⟨⟨"AUD"⟩, Decimal.new 600 0, Decimal.new 500 0⟩ : Totals).Coarse := by
    decide
  refine ⟨problems, hproblems, hiff.mpr ?_ ⟨_, List.mem_singleton_self _, hapart⟩⟩
  rintro ⟨totals, hmem, hmasked⟩
  obtain rfl := List.mem_singleton.mp hmem
  exact absurd hmasked.2.1 hfine

/-- One of three units carried at a third of 13.00: the parcel's brokerage
corrected by a cent leaves a third of 12.99, and nothing is reported. -/
theorem cent_goes_unreported :
    ∃ t problems, (transferOf 1 (Amount.new 43333333333333333333333333333 28)).tally
        halfEvenArithmetic (fun _ => some (Amount.new 433 2)) = some t ∧
      (transferOf 1 (Amount.new 43333333333333333333333333333 28)).problemsFor halfEvenArithmetic
        (fun _ => some (Amount.new 433 2)) = some problems ∧
      (∃ totals ∈ t.byCurrency, totals.Apart 2) ∧ problems = [] := by
  refine ⟨⟨[⟨⟨"AUD"⟩, Decimal.new 433 2, Decimal.new 43333333333333333333333333333 28⟩],
    Decimal.new 1 0, Decimal.new 1 0⟩, [], ?_, ?_, ?_, rfl⟩
  · decide +kernel
  · decide +kernel
  · decide +kernel

end ShareTracker.RolloverConsistency
