import Mathlib
import ShareTracker.Adjustments
import ShareTracker.Lib.FlooredWalk
import ShareTracker.Lib.StableSort

/-!
The cost-base pipeline: the adjusted cost base of some or all of a parcel's
units, and the itemised rows behind it. All figures are in the parcel's own
currency and all counts in its as-acquired units.
-/
namespace ShareTracker

/-- The facts of a Buy or DRP parcel as transacted. -/
structure Parcel where
  quantity : ℚ
  averagePrice : ℚ
  brokerage : ℚ
  gstOnBrokerage : ℚ
  currency : CurrencyCode
  tradeDate : NaiveDate
  settled : NaiveDate
  rollover : Option RolloverOrigin
  averagePrice_nonneg : 0 ≤ averagePrice
  brokerage_nonneg : 0 ≤ brokerage
  gstOnBrokerage_nonneg : 0 ≤ gstOnBrokerage
  settled_ge : tradeDate ≤ settled
  rollover_on : ∀ r ∈ rollover, r.on = tradeDate

def Parcel.initialCost (p : Parcel) : ℚ :=
  p.averagePrice * p.quantity + p.brokerage + p.gstOnBrokerage

theorem Parcel.initialCost_nonneg (p : Parcel) (h : 0 ≤ p.quantity) : 0 ≤ p.initialCost := by
  have := mul_nonneg p.averagePrice_nonneg h
  have := p.brokerage_nonneg
  have := p.gstOnBrokerage_nonneg
  unfold initialCost
  positivity

/-- Which of a parcel's three groups of units an adjustment row is asked about. -/
inductive Whereabouts where
  | inParcel
  | disposedOn (date : NaiveDate)
  | carriedOut
  deriving DecidableEq

/-- What became of the units being costed. -/
inductive Held where
  | asAt (date : Option NaiveDate)
  | disposedOn (date : NaiveDate)
  deriving DecidableEq

namespace Held

def upTo : Held → Option NaiveDate
  | asAt date => date
  | disposedOn date => some date

def whereabouts : Held → Whereabouts
  | asAt _ => .inParcel
  | disposedOn date => .disposedOn date

end Held

/-- One statement's cost-base reduction against one parcel. -/
structure AmitReductionEvent where
  ammaStatementId : ℤ
  taxYearEndDate : NaiveDate
  perUnit : ℚ
  covered : ℚ
  disposedByYearEnd : ℚ
  disposedBeforeYearStart : ℚ
  carriedOut : ℚ
  deriving DecidableEq

namespace AmitReductionEvent

/-- Of a `parcelQuantity`-unit parcel, the units a rollover carried out. -/
def carried (e : AmitReductionEvent) (parcelQuantity : ℚ) : ℚ :=
  max (min e.carriedOut parcelQuantity) 0

def disposed (e : AmitReductionEvent) (parcelQuantity : ℚ) : ℚ :=
  max (min e.disposedByYearEnd (parcelQuantity - e.carried parcelQuantity)) 0

def held (e : AmitReductionEvent) (parcelQuantity : ℚ) : ℚ :=
  parcelQuantity - e.carried parcelQuantity - e.disposed parcelQuantity

/-- The units disposed of during the statement's income year. -/
def sold (e : AmitReductionEvent) (parcelQuantity : ℚ) : ℚ :=
  max (e.disposed parcelQuantity - max e.disposedBeforeYearStart 0) 0

/-- The covered units of a group and the group they are spread over: the units
held are covered first, then the carried ones, then those sold in the year. -/
def coverage (e : AmitReductionEvent) (parcelQuantity : ℚ) : Whereabouts → ℚ × ℚ
  | .disposedOn d =>
    if d < fyStart e.taxYearEndDate then (0, 0)
    else if d ≤ e.taxYearEndDate then
      (min (max (e.covered - e.held parcelQuantity - e.carried parcelQuantity) 0)
        (e.sold parcelQuantity), e.sold parcelQuantity)
    else (min e.covered (e.held parcelQuantity), e.held parcelQuantity)
  | .carriedOut =>
    (min (max (e.covered - e.held parcelQuantity) 0) (e.carried parcelQuantity),
      e.carried parcelQuantity)
  | .inParcel => (min e.covered (e.held parcelQuantity), e.held parcelQuantity)

/-- The reduction reaching `units` of the parcel. -/
def reductionForUnits (e : AmitReductionEvent) (parcelQuantity units : ℚ)
    (whereabouts : Whereabouts) : ℚ :=
  let (coverage, group) := e.coverage parcelQuantity whereabouts
  if group ≤ 0 then 0 else e.perUnit * coverage * units / group

def perUnitFor (e : AmitReductionEvent) (parcelQuantity : ℚ) (whereabouts : Whereabouts) : ℚ :=
  e.reductionForUnits parcelQuantity 1 whereabouts

end AmitReductionEvent

/-- The share of a `quantity`-unit parcel's initial cost base of `units` of them. -/
def proratedInitialCost (initialCost units quantity : ℚ) : ℚ :=
  if units = quantity then initialCost else initialCost * units / quantity

theorem proratedInitialCost_eq {initialCost units quantity : ℚ} (h : 0 < quantity) :
    proratedInitialCost initialCost units quantity = initialCost * units / quantity := by
  unfold proratedInitialCost
  split
  · rename_i heq
    rw [heq, mul_div_cancel_right₀ _ h.ne']
  · rfl

inductive AdjustmentKind where
  | amitCostBase
  | returnOfCapital
  | splitRebase
  deriving DecidableEq

/-- The parts of a row's printed source. -/
inductive Reference where
  | ammaStatement (id : ℤ) (yearEnd : NaiveDate)
  | returnOfCapital (perUnit : ℚ) (currency : CurrencyCode)
  | rebase (terms : RebaseTerms)
  deriving DecidableEq

/-- One line of the reason the adjusted cost base is what it is. -/
structure CostBaseAdjustment where
  kind : AdjustmentKind
  date : NaiveDate
  reference : Reference
  perUnit : Option ℚ
  amount : ℚ
  capped : Bool
  deriving DecidableEq

def kindRank : AdjustmentKind → ℕ
  | .amitCostBase => 0
  | .returnOfCapital => 1
  | .splitRebase => 2

namespace CostBaseAdjustment

/-- Date order, an adjustment before a payment before the split of the same date. -/
def order (row : CostBaseAdjustment) : NaiveDate ×ₗ ℕ := toLex (row.date, kindRank row.kind)

/-- A row that draws the balance down. -/
def reduces (row : CostBaseAdjustment) : Bool := row.kind != .splitRebase

end CostBaseAdjustment

section Rows
variable (parcel : Parcel) (units : ℚ)

def amitRow (whereabouts : Whereabouts) (e : AmitReductionEvent) : CostBaseAdjustment where
  kind := .amitCostBase
  date := e.taxYearEndDate
  reference := .ammaStatement e.ammaStatementId e.taxYearEndDate
  perUnit := some (e.perUnitFor parcel.quantity whereabouts)
  amount := e.reductionForUnits parcel.quantity units whereabouts
  capped := false

def rocRow (date : NaiveDate) (perUnit : ℚ) : CostBaseAdjustment where
  kind := .returnOfCapital
  date := date
  reference := .returnOfCapital perUnit parcel.currency
  perUnit := some perUnit
  amount := perUnit * units
  capped := false

def splitRow (s : SplitEvent) : CostBaseAdjustment where
  kind := .splitRebase
  date := s.date
  reference := .rebase s.terms
  perUnit := none
  amount := 0
  capped := false

/-- A payment's row, where it reaches the units by its own test. -/
def paymentRow (splits : List SplitEvent) (held : Held) (e : RocEvent) :
    Except CurrencyDiffers (Option CostBaseAdjustment) := do
  let perUnit ← e.perUnitFor splits parcel.currency parcel.tradeDate parcel.settled
    parcel.rollover held.upTo
  return perUnit.map (rocRow parcel units e.date)

def rocRows (splits : List SplitEvent) (held : Held) (rocEvents : List RocEvent) :
    Except CurrencyDiffers (List CostBaseAdjustment) :=
  gather (paymentRow parcel units splits held) rocEvents

/-- The informational rows of the re-basing events, in the ratio's own window. -/
def splitRows (splits : List SplitEvent) (held : Held) : List CostBaseAdjustment :=
  (splits.filter fun s => inWindow parcel.tradeDate held.upTo s.date).map splitRow

end Rows

/-- The running balance over the sorted rows, floored at nil after each. -/
def applyRows (running : ℚ) : List CostBaseAdjustment → List CostBaseAdjustment × ℚ
  | [] => ([], running)
  | row :: rows =>
    if row.kind = .splitRebase then
      let (rest, left) := applyRows running rows
      (row :: rest, left)
    else
      let before := running
      let (rest, left) := applyRows (max (before - row.amount) 0) rows
      ({ row with capped := before < row.amount } :: rest, left)

/-- What the walk starts from: the units' share of the initial cost base. -/
def startingCost (parcel : Parcel) (units : ℚ) : ℚ :=
  if 0 < parcel.quantity then proratedInitialCost parcel.initialCost units parcel.quantity else 0

/-- Steps 2 to 4 of the pipeline: the itemised rows and the balance they leave. -/
def reductionWalk (parcel : Parcel) (units : ℚ) (amitEvents : List AmitReductionEvent)
    (rocEvents : List RocEvent) (splits : List SplitEvent) (held : Held) :
    Except CurrencyDiffers (List CostBaseAdjustment × ℚ) := do
  let payments ← rocRows parcel units splits held rocEvents
  let rows := amitEvents.map (amitRow parcel units held.whereabouts) ++ payments ++
    splitRows parcel splits held
  return applyRows (startingCost parcel units) (StableSort.sortBy CostBaseAdjustment.order rows)

structure CostBase where
  initialCost : ℚ
  costedInitialCost : ℚ
  amitReduction : ℚ
  rocReduction : ℚ
  adjusted : ℚ
  deriving DecidableEq

def reductionOf (kind : AdjustmentKind) (rows : List CostBaseAdjustment) : ℚ :=
  ((rows.filter fun row => row.kind = kind).map (·.amount)).sum

/-- The breakdown of the cost base of `units` units of the parcel. -/
def adjustedCostBase (parcel : Parcel) (units : ℚ) (amitEvents : List AmitReductionEvent)
    (rocEvents : List RocEvent) (splits : List SplitEvent) (held : Held) :
    Except CurrencyDiffers CostBase := do
  let (rows, adjusted) ← reductionWalk parcel units amitEvents rocEvents splits held
  return {
    initialCost := parcel.initialCost
    costedInitialCost := startingCost parcel units
    amitReduction := reductionOf .amitCostBase rows
    rocReduction := reductionOf .returnOfCapital rows
    adjusted := adjusted }

def adjustmentDetail (parcel : Parcel) (units : ℚ) (amitEvents : List AmitReductionEvent)
    (rocEvents : List RocEvent) (splits : List SplitEvent) (held : Held) :
    Except CurrencyDiffers (List CostBaseAdjustment) := do
  return (← reductionWalk parcel units amitEvents rocEvents splits held).1

section ApplyRows

theorem applyRows_split {row : CostBaseAdjustment} (h : row.reduces = false) (balance : ℚ)
    (rows : List CostBaseAdjustment) :
    applyRows balance (row :: rows) =
      (row :: (applyRows balance rows).1, (applyRows balance rows).2) := by
  simp only [CostBaseAdjustment.reduces, bne_eq_false_iff_eq] at h
  simp only [applyRows, if_pos h]

theorem applyRows_reducing {row : CostBaseAdjustment} (h : row.reduces = true) (balance : ℚ)
    (rows : List CostBaseAdjustment) :
    applyRows balance (row :: rows) =
      ({ row with capped := balance < row.amount } ::
          (applyRows (FlooredWalk.draw balance row.amount) rows).1,
        (applyRows (FlooredWalk.draw balance row.amount) rows).2) := by
  simp only [CostBaseAdjustment.reduces, bne_iff_ne] at h
  simp only [applyRows, if_neg h, FlooredWalk.draw]

theorem applyRows_final (balance : ℚ) (rows : List CostBaseAdjustment) :
    (applyRows balance rows).2 = FlooredWalk.final (·.amount) balance (rows.filter (·.reduces)) := by
  induction rows generalizing balance with
  | nil => rfl
  | cons row rows ih =>
    cases h : row.reduces with
    | false =>
      rw [applyRows_split h, List.filter_cons_of_neg (by simp [h])]
      exact ih balance
    | true =>
      rw [applyRows_reducing h, List.filter_cons_of_pos h]
      exact ih _

/-- The rows flagged are the rows that run past nil. -/
theorem applyRows_capped (balance : ℚ) {rows : List CostBaseAdjustment}
    (h : ∀ row ∈ rows, row.capped = false) :
    (applyRows balance rows).1.filter (·.capped) =
      (FlooredWalk.overruns (·.amount) balance (rows.filter (·.reduces))).map
        fun s => { s.1 with capped := true } := by
  induction rows generalizing balance with
  | nil => rfl
  | cons row rows ih =>
    have hrows : ∀ row ∈ rows, row.capped = false :=
      fun r hr => h r (List.mem_cons_of_mem row hr)
    cases hr : row.reduces with
    | false =>
      rw [applyRows_split hr, List.filter_cons_of_neg (by simp [h row List.mem_cons_self]),
        List.filter_cons_of_neg (by simp [hr])]
      exact ih balance hrows
    | true =>
      rw [applyRows_reducing hr, List.filter_cons_of_pos hr]
      rcases le_or_gt row.amount balance with hle | hlt
      · rw [FlooredWalk.overruns_cons_of_le _ hle, FlooredWalk.draw_of_le hle,
          List.filter_cons_of_neg (by simpa using hle)]
        exact ih _ hrows
      · rw [FlooredWalk.overruns_cons_of_lt _ hlt, FlooredWalk.draw_of_lt hlt,
          List.filter_cons_of_pos (by simpa using hlt), ih 0 hrows]
        simp [hlt]

/-- The walk changes no row but for its flag. -/
theorem applyRows_map {β : Type*} {f : CostBaseAdjustment → β}
    (hf : ∀ row c, f { row with capped := c } = f row) (balance : ℚ)
    (rows : List CostBaseAdjustment) : (applyRows balance rows).1.map f = rows.map f := by
  induction rows generalizing balance with
  | nil => rfl
  | cons row rows ih =>
    cases h : row.reduces with
    | false => rw [applyRows_split h, List.map_cons, List.map_cons, ih]
    | true => rw [applyRows_reducing h, List.map_cons, List.map_cons, ih, hf]

theorem sum_filter (keep : CostBaseAdjustment → Bool) (rows : List CostBaseAdjustment) :
    ((rows.filter keep).map (·.amount)).sum =
      (rows.map fun row => if keep row then row.amount else 0).sum := by
  induction rows with
  | nil => rfl
  | cons row rows ih =>
    cases h : keep row with
    | true => simp only [List.filter_cons_of_pos h, List.map_cons, List.sum_cons, ih, h, if_true]
    | false => simp [List.filter_cons_of_neg, h, ih]

theorem applyRows_reductionOf (kind : AdjustmentKind) (balance : ℚ)
    (rows : List CostBaseAdjustment) :
    reductionOf kind (applyRows balance rows).1 = reductionOf kind rows := by
  unfold reductionOf
  rw [sum_filter, sum_filter]
  exact congrArg List.sum (applyRows_map (fun row c => rfl) balance rows)

/-- The two reductions together are what the reducing rows take. -/
theorem reductionOf_add (rows : List CostBaseAdjustment) :
    reductionOf .amitCostBase rows + reductionOf .returnOfCapital rows =
      ((rows.filter (·.reduces)).map (·.amount)).sum := by
  unfold reductionOf
  rw [sum_filter, sum_filter, sum_filter, ← List.sum_map_add]
  refine congrArg List.sum (List.map_congr_left fun row _ => ?_)
  cases h : row.kind <;> simp [CostBaseAdjustment.reduces, h]

end ApplyRows

end ShareTracker
