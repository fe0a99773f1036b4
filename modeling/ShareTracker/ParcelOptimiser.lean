import ShareTracker.DecimalArithmetic
import ShareTracker.EntitlementRounding
import ShareTracker.Lib.StableSort

/-!
The parcel-selection optimiser: which open parcels a contemplated sale draws on
under each strategy. Every operation of the source is here with what it keeps of
its exact result; kept whole, the figures are exact.
-/
namespace ShareTracker.ParcelOptimiser

inductive Strategy where
  | fifo
  | minGain
  | maxDiscount
  | harvestLosses
  deriving DecidableEq

/-- An open parcel as the strategies see it. -/
structure CandidateParcel where
  tradeId : TradeId
  acquisitionDate : NaiveDate
  remainingQuantity : Decimal
  /-- The adjusted cost base of the remaining units, AUD. -/
  remainingCostBase : ℚ
  quantity_pos : 0 < remainingQuantity.value

namespace CandidateParcel

/-- The remaining units. -/
def units (p : CandidateParcel) : ℚ := p.remainingQuantity.value

theorem units_pos (p : CandidateParcel) : 0 < p.units := p.quantity_pos

/-- Acquisition date, then trade id: the tie-break of every strategy. -/
def fifo (p : CandidateParcel) : NaiveDate ×ₗ TradeId := toLex (p.acquisitionDate, p.tradeId)

end CandidateParcel

section Operations
variable (keep : ℚ → ℚ)

/-- What an operation keeps of its exact result, and the sums made of it. -/
def sumKept (keep : ℚ → ℚ) (figures : List ℚ) : ℚ := figures.foldl (fun sum q => keep (sum + q)) 0

def gainPerUnit (price : ℚ) (p : CandidateParcel) : ℚ :=
  keep (price - keep (p.remainingCostBase / p.units))

/-! ### The walk in a strategy's order -/

/-- Each parcel's remainder in turn, until nothing is left to take. -/
def consume (left : ℚ) : List CandidateParcel → List (TradeId × ℚ)
  | [] => []
  | p :: rest =>
    if left ≤ 0 then []
    else
      let take := min p.units left
      (p.tradeId, take) :: consume (keep (left - take)) rest

/-- The last pick moved by the residue, at most `rounds` times. -/
def settleLast (units : ℚ) : ℕ → List (TradeId × ℚ) → List (TradeId × ℚ)
  | 0, picks => picks
  | rounds + 1, picks =>
    match picks.getLast? with
    | none => picks
    | some last =>
      let residue := keep (units - sumKept keep (picks.map Prod.snd))
      if residue = 0 ∨ keep (|units| * (1 / 10 ^ 20)) < |residue| then picks
      else settleLast units rounds (picks.dropLast ++ [(last.1, keep (last.2 + residue))])

/-- The picks made to sum to the units, in the order they are listed. -/
def addingUpTo (picks : List (TradeId × ℚ)) (units : ℚ) : List (TradeId × ℚ) :=
  settleLast keep units 4 picks

/-! ### The least gain -/

section MinGain
variable (price : ℚ)

def byGain (p : CandidateParcel) : ℚ ×ₗ (NaiveDate ×ₗ TradeId) :=
  toLex (gainPerUnit keep price p, p.fifo)

/-- The parcels that realise no gain, and the gains by their eligibility. -/
def losses (parcels : List CandidateParcel) : List CandidateParcel :=
  StableSort.sortBy (byGain keep price) (parcels.filter fun p => gainPerUnit keep price p ≤ 0)

def discounted (saleDate : NaiveDate) (parcels : List CandidateParcel) : List CandidateParcel :=
  StableSort.sortBy (byGain keep price) (parcels.filter fun p =>
    ¬ gainPerUnit keep price p ≤ 0 ∧ discountEligible p.acquisitionDate saleDate = true)

def other (saleDate : NaiveDate) (parcels : List CandidateParcel) : List CandidateParcel :=
  StableSort.sortBy (byGain keep price) (parcels.filter fun p =>
    ¬ gainPerUnit keep price p ≤ 0 ∧ ¬ discountEligible p.acquisitionDate saleDate = true)

/-- The losses taken: the picks, what is left to sell and the dollars lost. -/
def takeLosses (left loss : ℚ) : List CandidateParcel → List (TradeId × ℚ) × ℚ × ℚ
  | [] => ([], left, loss)
  | p :: rest =>
    if left ≤ 0 then ([], left, loss)
    else
      let take := min p.units left
      let walk := takeLosses (keep (left - take))
        (keep (loss - keep (gainPerUnit keep price p * take))) rest
      ((p.tradeId, take) :: walk.1, walk.2)

/-- The gain of the cheapest `k` units of a class. -/
def prefixGain (gain k : ℚ) : List CandidateParcel → ℚ
  | [] => gain
  | p :: rest =>
    let take := min p.units k
    prefixGain (keep (gain + keep (gainPerUnit keep price p * take))) (keep (k - take)) rest

def classTotal (parcels : List CandidateParcel) : ℚ :=
  sumKept keep (parcels.map CandidateParcel.units)

/-- Towards zero and away from it, at a number of decimal places. -/
def awayOn (step x : ℚ) : ℚ := if 0 ≤ x then Grid.ceilOn step x else Grid.floorOn step x

/-- Where the other gains overtake the losses, either side of it on the grid,
and every parcel boundary of the class. -/
def otherBreakpoints (step loss unitsBefore gainBefore : ℚ) : List CandidateParcel → List ℚ
  | [] => []
  | p :: rest =>
    let g := gainPerUnit keep price p
    let gainAfter := keep (gainBefore + keep (g * p.units))
    let crossing := keep (unitsBefore + keep (keep (loss - gainBefore) / g))
    (if gainBefore < loss ∧ loss ≤ gainAfter then
        [Grid.truncOn step crossing, awayOn step crossing]
      else []) ++
    keep (unitsBefore + p.units) ::
      otherBreakpoints step loss (keep (unitsBefore + p.units)) gainAfter rest

def discountedBreakpoints (left unitsBefore : ℚ) : List CandidateParcel → List ℚ
  | [] => []
  | p :: rest =>
    keep (left - keep (unitsBefore + p.units)) ::
      discountedBreakpoints left (keep (unitsBefore + p.units)) rest

/-- The decimal places of the finest quantity in play. -/
def quantityScale (parcels : List CandidateParcel) (units : Decimal) : ℕ :=
  (parcels.map fun p => p.remainingQuantity.scale).foldl max units.scale

/-- The cost of taking `k` other units and the rest discounted. -/
def splitCost (others discounts : List CandidateParcel) (left loss k : ℚ) : ℚ :=
  let n := prefixGain keep price 0 k others
  keep (keep (n + prefixGain keep price 0 (keep (left - k)) discounts) + max (keep (n - loss)) 0)

/-- The cheapest of the points, the least of them where they cost the same. -/
def cheapest (cost : ℚ → ℚ) (fallback : ℚ) (points : List ℚ) : ℚ :=
  ((StableSort.sortBy (fun k => toLex (cost k, k)) points).head?).getD fallback

def minGainPicks (parcels : List CandidateParcel) (units : Decimal) (saleDate : NaiveDate) :
    List (TradeId × ℚ) :=
  let (picks, left, loss) := takeLosses keep price units.value 0 (losses keep price parcels)
  if left ≤ 0 then picks
  else
    let others := other keep price saleDate parcels
    let discounts := discounted keep price saleDate parcels
    let lo := max (keep (left - classTotal keep discounts)) 0
    let hi := min left (classTotal keep others)
    let step := gridStep (quantityScale parcels units)
    let breakpoints := [lo, hi] ++ otherBreakpoints keep price step loss 0 0 others ++
      discountedBreakpoints keep left 0 discounts
    let k := cheapest (splitCost keep price others discounts left loss) lo
      (breakpoints.filter fun k => lo ≤ k ∧ k ≤ hi)
    picks ++ consume keep k others ++ consume keep (keep (left - k)) discounts

end MinGain

/-! ### The strategies -/

/-- Discounted gains, then losses, then the gains that dilute them. -/
def discountGroup (price : ℚ) (saleDate : NaiveDate) (p : CandidateParcel) : ℕ :=
  let g := gainPerUnit keep price p
  if 0 < g ∧ discountEligible p.acquisitionDate saleDate = true then 0
  else if g ≤ 0 then 1
  else 2

/-- Losses before the rest, the largest per unit first. -/
def harvestKey (price : ℚ) (p : CandidateParcel) : Bool ×ₗ ℚ ×ₗ (NaiveDate ×ₗ TradeId) :=
  let g := gainPerUnit keep price p
  toLex (decide (0 ≤ g), toLex (min g 0, p.fifo))

def allocateParcels (parcels : List CandidateParcel) (units : Decimal) (price : ℚ)
    (saleDate : NaiveDate) (strategy : Strategy) : List (TradeId × ℚ) :=
  let picks := match strategy with
    | .fifo => consume keep units.value (StableSort.sortBy CandidateParcel.fifo parcels)
    | .minGain => minGainPicks keep price parcels units saleDate
    | .maxDiscount => consume keep units.value
        (StableSort.sortBy (fun p => toLex (discountGroup keep price saleDate p, p.fifo)) parcels)
    | .harvestLosses => consume keep units.value
        (StableSort.sortBy (harvestKey keep price) parcels)
  addingUpTo keep picks units.value

end Operations

end ShareTracker.ParcelOptimiser
