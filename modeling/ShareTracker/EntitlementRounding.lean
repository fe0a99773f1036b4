import Mathlib
import ShareTracker.TaxYear
import ShareTracker.Fraction
import ShareTracker.Lib.Apportion

/-! Registry rounding of a ratio-driven action's fractional entitlement: the
rounded total of a holding and its distribution across the holding's parcels,
over exact rationals. -/
namespace ShareTracker

abbrev TradeId := ℤ

/-- How a holding's exact post-action count becomes the count the register holds. -/
inductive Rounding where
  | down
  | up
  | nearest
  | cashInLieu
  deriving DecidableEq, Repr

/-- The rounding of a settlement obligation straddling the action: a
cash-in-lieu fraction belongs to the registered holder, so an obligation has none. -/
def Rounding.forObligation : Rounding → Rounding
  | .cashInLieu | .down => .down
  | .up => .up
  | .nearest => .nearest

/-- A parcel's stored count from the last recompute. -/
structure Prior where
  before : ℚ
  onGrid : ℚ
  deriving DecidableEq

/-- One parcel of the holding immediately before the action. -/
structure ParcelBefore where
  tradeId : TradeId
  acquired : NaiveDate
  units : ℚ
  /-- The same units as the exact fraction they are, where `units` rounds it. -/
  exact : Option Fraction
  prior : Option Prior
  units_pos : 0 < units
  exact_pos : ∀ f, exact = some f → 0 < f.num

/-- One parcel's stored post-action count: on the grid, plus `inLieu`. -/
structure ParcelCount where
  tradeId : TradeId
  before : ℚ
  after : ℚ
  inLieu : ℚ
  deriving DecidableEq, Repr

inductive RoundingError where
  | parcelEmptied (parcel : TradeId)
  | receivedNotPositive (received : ℚ)
  | receivedOffGrid (received : ℚ) (scale : ℕ)
  | unrepresentable
  deriving DecidableEq, Repr

/-- The decimal places beyond the grid a cash-in-lieu fraction is carried to. -/
def inLieuPlaces : ℕ := 12

/-- One unit of the last of `scale` decimal places. -/
def gridStep (scale : ℕ) : ℚ := 1 / 10 ^ scale

theorem gridStep_pos (scale : ℕ) : 0 < gridStep scale := by
  unfold gridStep
  positivity

/-- The ratio of an action re-basing every `old` units into `new`. -/
structure Ratio where
  new : ℚ
  old : ℚ
  new_pos : 0 < new
  old_pos : 0 < old

/-- `while floor × den > num { floor -= step }`, stopped after `fuel` rounds. -/
def lowerWhile (num den step : ℚ) : ℕ → ℚ → ℚ
  | 0, floor => floor
  | fuel + 1, floor =>
    if floor * den > num then lowerWhile num den step fuel (floor - step) else floor

/-- `while (floor + step) × den <= num { floor += step }`, stopped after `fuel` rounds. -/
def raiseWhile (num den step : ℚ) : ℕ → ℚ → ℚ
  | 0, floor => floor
  | fuel + 1, floor =>
    if (floor + step) * den ≤ num then raiseWhile num den step fuel (floor + step) else floor

/-- The floor of `num / den` on the grid and the remainder over `den`. The
quotient is exact here, so one round of each correction is enough. -/
def floorOnGrid (num den : ℚ) (scale : ℕ) : ℚ × ℚ :=
  let step := gridStep scale
  let guess := Grid.truncOn step (num / den)
  let floor := raiseWhile num den step 1 (lowerWhile num den step 1 guess)
  (floor, num - floor * den)

theorem floorOnGrid_eq {num den : ℚ} (hden : 0 < den) (scale : ℕ) :
    floorOnGrid num den scale =
      (Grid.floorOn (gridStep scale) (num / den),
        num - Grid.floorOn (gridStep scale) (num / den) * den) := by
  have hs := gridStep_pos scale
  have hle := (le_div_iff₀ hden).mp (Grid.floorOn_le hs (num / den))
  have hlt := (div_lt_iff₀ hden).mp (Grid.lt_floorOn_add hs (num / den))
  have hguess : Grid.truncOn (gridStep scale) (num / den) =
        Grid.floorOn (gridStep scale) (num / den) ∨
      Grid.truncOn (gridStep scale) (num / den) =
        Grid.floorOn (gridStep scale) (num / den) + gridStep scale := by
    unfold Grid.truncOn
    split
    · exact .inl rfl
    · by_cases hon : Grid.On (gridStep scale) (num / den)
      · exact .inl (by rw [Grid.ceilOn_of_on hs hon, Grid.floorOn_of_on hs hon])
      · exact .inr (Grid.ceilOn_of_not_on hs hon)
  unfold floorOnGrid
  rcases hguess with h | h
  · simp only [h, lowerWhile, raiseWhile, not_lt.mpr hle, not_le.mpr hlt, if_false]
  · simp only [h, lowerWhile, raiseWhile, hlt, if_true, add_sub_cancel_right,
      not_le.mpr hlt, if_false]

/-- `units × new / old` rounded onto the grid by the rule. -/
def roundedTotal (units new old : ℚ) (scale : ℕ) (rule : Rounding) : ℚ :=
  let step := gridStep scale
  let (exactFloor, exactRem) := floorOnGrid (units * new) old scale
  match rule with
  | .down | .cashInLieu => exactFloor
  | .up => if exactRem > 0 then exactFloor + step else exactFloor
  | .nearest => if exactRem * 2 ≥ step * old then exactFloor + step else exactFloor

/-- Under cash in lieu the fraction `total` leaves, cut `inLieuPlaces` beyond the grid. -/
def inLieuFraction (units total new old : ℚ) (scale : ℕ) (rule : Rounding) : Option ℚ :=
  if rule ≠ .cashInLieu then none
  else some (Grid.truncOn (gridStep (scale + inLieuPlaces)) ((units * new - total * old) / old))

/-- A "units received" override, checked: positive and on the grid. -/
def checkedReceived (received : ℚ) (scale : ℕ) : Except RoundingError ℚ :=
  if received ≤ 0 then .error (.receivedNotPositive received)
  else if Grid.floorOn (gridStep scale) received ≠ received then
    .error (.receivedOffGrid received scale)
  else .ok received

/-- A parcel with its share: the share's floor on the grid and the remainder
over the shares' divisor. -/
structure Slot where
  parcel : ParcelBefore
  floor : ℚ
  rem : ℚ

namespace Slot

/-- Rounding down would leave the parcel with nothing. -/
def emptied (s : Slot) : Bool := s.floor = 0 && s.parcel.units > 0

/-- The order of the extra steps: a parcel the round-down would have emptied,
then the largest remainder, then the earlier acquisition, then the lower id. -/
def key (s : Slot) : Bool ×ₗ ℚᵒᵈ ×ₗ NaiveDate ×ₗ TradeId :=
  toLex (!s.emptied, toLex (OrderDual.toDual s.rem, toLex (s.parcel.acquired, s.parcel.tradeId)))

/-- Whether the stored count was made from other units. -/
def changed (s : Slot) : Bool :=
  match s.parcel.prior with
  | some p => p.before ≠ s.parcel.units
  | none => false

/-- The release order: changed first, then the latest acquisition, then the higher id. -/
def releaseKey (s : Slot) : Bool ×ₗ NaiveDateᵒᵈ ×ₗ TradeIdᵒᵈ :=
  toLex (!s.changed,
    toLex (OrderDual.toDual s.parcel.acquired, OrderDual.toDual s.parcel.tradeId))

/-- The prior count, when it is still a valid count for the parcel. -/
def keepable (s : Slot) (step : ℚ) : Option ℚ :=
  let ceiling := if s.rem = 0 then s.floor else s.floor + step
  (s.parcel.prior.map (·.onGrid)).filter fun count =>
    0 < count ∧ Grid.floorOn step count = count ∧ s.floor ≤ count ∧ count ≤ ceiling

end Slot

section Distribute
variable {n : ℕ} (slots : Fin n → Slot) (step : ℚ)

/-- The parcels in the order of the extra steps. -/
def order : List (Fin n) :=
  (List.finRange n).insertionSort fun a b => (slots a).key ≤ (slots b).key

def keepablePriors (i : Fin n) : Option ℚ := (slots i).keepable step

/-- The parcels with a keepable prior in the order they are released. -/
def releaseOrder : List (Fin n) :=
  ((List.finRange n).filter fun i => (keepablePriors slots step i).isSome).insertionSort
    fun a b => (slots a).releaseKey ≤ (slots b).releaseKey

variable (total : ℚ) (kept : Fin n → Option ℚ)

def sumOver {n : ℕ} (f : Fin n → ℚ) : ℚ := ((List.finRange n).map f).sum

def keptSum : ℚ := sumOver fun i => (kept i).getD 0

/-- The free parcels' floors, and the steps they must and may take on top. -/
def lower : ℚ := sumOver fun i => if (kept i).isNone then (slots i).floor else 0

def must : ℚ := sumOver fun i => if (kept i).isNone && (slots i).emptied then step else 0

def may : ℚ := sumOver fun i => if (kept i).isNone && (slots i).rem ≠ 0 then step else 0

/-- The free parcels can absorb what the kept ones leave. -/
def fits : Bool :=
  total - keptSum kept ≥ lower slots kept + must slots step kept &&
    total - keptSum kept ≤ lower slots kept + may slots step kept

/-- Release kept parcels one at a time until the free ones can absorb the rest. -/
def releaseUntilFits (kept : Fin n → Option ℚ) :
    List (Fin n) → (Fin n → Option ℚ)
  | [] => kept
  | i :: release =>
    if fits slots step total kept then kept
    else releaseUntilFits (Function.update kept i none) release

/-- `Decimal::to_usize`: nothing for a negative value. -/
def toUsize (x : ℚ) : Option ℕ := if x < 0 then none else some ⌊x⌋.toNat

/-- The free parcels that take an extra step. -/
def bumped (extra : ℕ) : List (Fin n) :=
  ((order slots).filter fun i => (kept i).isNone).take extra

instance lawful_fin (m : ℕ) : LawfulBEq (Fin m) := inferInstance

def gridCount (extra : ℕ) (i : Fin n) : ℚ :=
  (kept i).getD (slots i).floor + if i ∈ bumped slots kept extra then step else 0

/-- The parcel a positive cash-in-lieu fraction rides on: the first in the
order of the extra steps whose count is its floor. -/
def carrier (inLieu : Option ℚ) (count : Fin n → ℚ) : Option (Fin n) :=
  match inLieu with
  | some fraction =>
    if fraction > 0 then (order slots).find? fun i => count i = (slots i).floor else none
  | none => none

/-- A parcel's stored count: its count on the grid and the fraction it carries. -/
def slotCount (inLieu : Option ℚ) (count : Fin n → ℚ) (carrying : Option (Fin n)) (i : Fin n) :
    ParcelCount :=
  let fraction := if carrying = some i then inLieu.getD 0 else 0
  { tradeId := (slots i).parcel.tradeId
    before := (slots i).parcel.units
    after := count i + fraction
    inLieu := fraction }

/-- A parcel left with no units would strand its cost base. -/
def refuseEmptied (counts : List ParcelCount) : Except RoundingError (List ParcelCount) :=
  match counts.find? fun c => c.after = 0 with
  | some emptied => .error (.parcelEmptied emptied.tradeId)
  | none => .ok counts

/-- The distribution over the slots. -/
def distributeSlots (inLieu : Option ℚ) : Except RoundingError (List ParcelCount) :=
  let kept := releaseUntilFits slots step total (keepablePriors slots step)
    (releaseOrder slots step)
  let rest := total - keptSum kept
  match toUsize ((rest - lower slots kept) / step) with
  | none => .error .unrepresentable
  | some extra =>
    let count := gridCount slots step kept extra
    refuseEmptied ((List.finRange n).map
      (slotCount slots inLieu count (carrier slots inLieu count)))

end Distribute

/-- Each parcel with the share its `units` entry makes. -/
def slotsOf (parcels : List ParcelBefore) (units : List ℚ) (multiplier divisor : ℚ) (scale : ℕ)
    (i : Fin parcels.length) : Slot :=
  let (floor, rem) := floorOnGrid (units.getD i 0 * multiplier) divisor scale
  { parcel := parcels.get i, floor, rem }

/-- Distribute `total` across the parcels, each parcel's share its `units`
entry times `multiplier / divisor`. -/
def distribute (parcels : List ParcelBefore) (units : List ℚ) (total multiplier divisor : ℚ)
    (scale : ℕ) (inLieu : Option ℚ) : Except RoundingError (List ParcelCount) :=
  distributeSlots (slotsOf parcels units multiplier divisor scale) (gridStep scale) total inLieu

def ParcelBefore.fraction (p : ParcelBefore) : Fraction := p.exact.getD (Fraction.whole p.units)

/-- The parcels' exact units as numerators over one common denominator. -/
def exactUnits (parcels : List ParcelBefore) : List ℚ × ℚ :=
  Fraction.overCommonDenominator (parcels.map ParcelBefore.fraction)

/-- The holding's rounded count, or its statement's, distributed across its parcels. -/
def roundHolding (parcels : List ParcelBefore) (ratio : Ratio) (scale : ℕ) (rule : Rounding)
    (unitsReceived : Option ℚ) : Except RoundingError (List ParcelCount) :=
  if parcels.isEmpty || (parcels.map (·.units)).sum ≤ 0 then .ok []
  else
    let (nums, den) := exactUnits parcels
    let held := nums.sum
    let old := ratio.old * den
    let total := match unitsReceived with
      | some received => checkedReceived received scale
      | none => .ok (roundedTotal held ratio.new old scale rule)
    match total with
    | .error e => .error e
    | .ok total =>
      let inLieu := inLieuFraction held total ratio.new old scale rule
      match unitsReceived with
      | some received => distribute parcels nums total received held scale inLieu
      | none => distribute parcels nums total ratio.new old scale inLieu

/-- Each straddling sale's units, delivered out of the holding's rounded count. -/
structure Register where
  delivered : List Fraction

/-- `roundHolding` for a holding whose register at the record date also held
the units of straddling sales. -/
def roundRegisteredHolding (parcels : List ParcelBefore) (register : Register) (ratio : Ratio)
    (scale : ℕ) (rule : Rounding) (unitsReceived : Option ℚ) :
    Except RoundingError (List ParcelCount) :=
  match parcels with
  | [] => .ok []
  | first :: _ =>
    if (parcels.map (·.units)).sum ≤ 0 then .ok []
    else
      let (nums, den) := Fraction.overCommonDenominator
        (parcels.map ParcelBefore.fraction ++ register.delivered)
      let parcelNums := nums.take parcels.length
      let deliveredNums := nums.drop parcels.length
      let held := parcelNums.sum
      let registerUnits := held + deliveredNums.sum
      let old := ratio.old * den
      let registered := match unitsReceived with
        | some received => checkedReceived received scale
        | none => .ok (roundedTotal registerUnits ratio.new old scale rule)
      match registered with
      | .error e => .error e
      | .ok registered =>
        let total := deliveredNums.foldl (fun total units =>
          total - roundedTotal units ratio.new old scale rule.forObligation) registered
        if total ≤ 0 then .error (.parcelEmptied first.tradeId)
        else
          let inLieu := inLieuFraction registerUnits registered ratio.new old scale rule
          distribute parcels parcelNums total total held scale inLieu

end ShareTracker
