import ShareTracker.AcquiredUnits
import ShareTracker.CorporateActions

/-!
The guard on re-based quantities: every recorded parcel and allocation of a
listing taken through its splits and bonus issues, and whether what it lets
through can be read back.
-/
namespace ShareTracker.RangeGuard
open CorporateActions (Positive)

inductive Failure where
  | overflow
  deriving DecidableEq

instance panics : Panics Failure := ⟨.overflow⟩

theorem abs_value_lt (d : Decimal) : |d.value| < 2 ^ 96 := by
  have hten : (1 : ℚ) ≤ 10 ^ d.scale := one_le_pow₀ (by norm_num)
  have hmant : |(d.mantissa : ℚ)| < 2 ^ 96 := by
    have hlt := d.mantissa_lt
    rw [← Int.cast_abs]
    have habs : |d.mantissa| < 2 ^ 96 := by
      rw [abs_lt]
      omega
    exact_mod_cast habs
  rw [Decimal.value, abs_div, abs_of_pos (zero_lt_one.trans_le hten)]
  exact (div_le_self (abs_nonneg _) hten).trans_lt hmant

theorem inRange_value (d : Decimal) : decide (|d.value| < 2 ^ 96) = true :=
  decide_eq_true (abs_value_lt d)

/-- Arithmetic that panics where the integer part of a result does not fit 96 bits. -/
def integerPart : DecimalRounding where
  round := id
  inRange := fun q => decide (|q| < 2 ^ 96)
  round_mono := monotone_id
  round_value := fun _ => rfl
  inRange_value := inRange_value

/-- A recorded split or bonus issue, with its terms as entered. -/
inductive Rebasing where
  | shareSplit (date : NaiveDate) (newUnits oldUnits : Positive)
  | bonusIssue (date : NaiveDate) (bonusUnits heldUnits : Positive)

namespace Rebasing

def date : Rebasing → NaiveDate
  | shareSplit date .. | bonusIssue date .. => date

theorem term_pos (term : Positive) : (0 : ℚ) < term := term.2

def announced : Rebasing → SplitEvent
  | shareSplit date new old => .shareSplit date new old (term_pos new) (term_pos old)
  | bonusIssue date bonus held => .bonusIssue date bonus held (term_pos bonus) (term_pos held)

/-- The units a bonus issue's equivalent split comes to. -/
def TermsFit : Rebasing → Prop
  | shareSplit .. => True
  | bonusIssue _ bonus held => (held : ℚ) + bonus < 2 ^ 96

/-- A row read as an event; the terms of a bonus issue are added. -/
def event : Rebasing → Attempt Failure SplitEvent
  | shareSplit date new old => pure (announced (shareSplit date new old))
  | bonusIssue date bonus held => do
      let _ ← integerPart.op ((held : ℚ) + bonus)
      pure (announced (bonusIssue date bonus held))

end Rebasing

structure UnrepresentableQuantity where
  units : String × ℚ
  new : String × ℚ
  old : String × ℚ

/-- `units × new / old`, dividing first where the product does not fit. -/
def scaledQuantity (units new old : ℚ) : Attempt Failure (Option ℚ) := do
  match ← integerPart.checked (units * new) with
  | some product => integerPart.checked (product / old)
  | none =>
    match ← integerPart.checked (units / old) with
    | some divided => integerPart.checked (divided * new)
    | none => pure none

def checkedRebasedQuantity (units new old : String × ℚ) :
    Attempt Failure (Except UnrepresentableQuantity ℚ) := do
  match ← scaledQuantity units.2 new.2 old.2 with
  | some quantity => pure (.ok quantity)
  | none => pure (.error ⟨units, new, old⟩)

/-- A Buy or DRP row of the listing. -/
structure Parcel where
  date : NaiveDate
  quantity : Decimal
  pos : 0 < quantity.value

/-- Units of a parcel a sale drew on, in the sale date's basis. -/
structure Allocation where
  parcel : Parcel
  saleDate : NaiveDate
  quantity : Decimal
  pos : 0 < quantity.value
  acquired_le : parcel.date ≤ saleDate

/-- What the guard reads of a listing, its rows in the order of their ids. -/
structure Listing where
  rebasings : List Rebasing
  parcels : List Parcel
  allocations : List Allocation
  drawn : ∀ a ∈ allocations, a.parcel ∈ parcels

/-- The first refusal of a list of checks. -/
def firstRefusal {α β : Type} (check : α → Attempt Failure (Option β)) :
    List α → Attempt Failure (Option β)
  | [] => pure none
  | a :: rest => do
      match ← check a with
      | some refusal => pure (some refusal)
      | none => firstRefusal check rest

/-- A quantity checked at every split boundary, the terms multiplied on. -/
def walkSplits (quantity : ℚ) : ℚ × ℚ → List SplitEvent →
    Attempt Failure (Option UnrepresentableQuantity)
  | _, [] => pure none
  | (new, old), split :: rest => do
      let new ← integerPart.op (new * split.newUnits)
      let old ← integerPart.op (old * split.oldUnits)
      match ← checkedRebasedQuantity ("quantity", quantity) ("new units", new) ("old units", old) with
      | .error e => pure (some e)
      | .ok _ => walkSplits quantity (new, old) rest

def splitsAfter (splits : List SplitEvent) (acquired : NaiveDate) : List SplitEvent :=
  splits.filter fun split => acquired < split.date

def checkParcel (splits : List SplitEvent) (p : Parcel) :
    Attempt Failure (Option UnrepresentableQuantity) :=
  walkSplits p.quantity.value (1, 1) (splitsAfter splits p.date)

def checkAllocation (splits : List SplitEvent) (a : Allocation) :
    Attempt Failure (Option UnrepresentableQuantity) := do
  let (new, old) ← integerPart.splitTerms splits a.parcel.date (some a.saleDate)
  match ← checkedRebasedQuantity ("quantity_allocated", a.quantity.value) ("old units", old)
    ("new units", new) with
  | .error e => pure (some e)
  | .ok _ => pure none

namespace Listing

/-- `db_splits_for_listing`, as announced. -/
def dbSplits (l : Listing) : Attempt Failure (List SplitEvent) :=
  (StableSort.sortBy Rebasing.date l.rebasings).mapM Rebasing.event

def checkAll (l : Listing) (splits : List SplitEvent) :
    Attempt Failure (Option UnrepresentableQuantity) := do
  match ← firstRefusal (checkParcel splits) l.parcels with
  | some e => pure (some e)
  | none => firstRefusal (checkAllocation splits) l.allocations

def rebasedQuantityBeyondRange (l : Listing) : Attempt Failure (Option UnrepresentableQuantity) := do
  let splits ← l.dbSplits
  if splits = [] then pure none else l.checkAll splits

/-- The guard never panics, and what it lets through every later read can
re-base: a parcel forward to any date, an allocation back to its parcel. -/
def Complete (l : Listing) : Prop :=
  (∃ answer, l.rebasedQuantityBeyondRange.answer = .ok answer) ∧
    (l.rebasedQuantityBeyondRange.answer = .ok none →
      ∃ splits, l.dbSplits.answer = .ok splits ∧
        (∀ p ∈ l.parcels, ∀ date, p.date ≤ date → ∃ figure : ℚ,
          (integerPart.splitAdjustedQuantity (.new p.quantity.value) splits p.date date :
            Attempt Failure ℚ).answer = .ok figure) ∧
        ∀ a ∈ l.allocations, ∃ units : AcquiredUnits,
          (integerPart.asAcquiredQuantity ⟨a.quantity, a.saleDate⟩ splits a.parcel.date :
            Attempt Failure AcquiredUnits).answer = .ok units)

/-! ### When it is -/

def splits (l : Listing) : List SplitEvent :=
  (StableSort.sortBy Rebasing.date l.rebasings).map Rebasing.announced

end Listing

/-- The terms of the cumulative ratio after each of some splits. -/
def products : ℚ × ℚ → List SplitEvent → List (ℚ × ℚ)
  | _, [] => []
  | terms, split :: rest =>
    (terms.1 * split.newUnits, terms.2 * split.oldUnits) ::
      products (terms.1 * split.newUnits, terms.2 * split.oldUnits) rest

/-- Both products of terms fit, up to the first basis the quantity does not fit. -/
def WalkFits (quantity : ℚ) : List (ℚ × ℚ) → Prop
  | [] => True
  | terms :: rest =>
    terms.1 < 2 ^ 96 ∧ terms.2 < 2 ^ 96 ∧
      (quantity * terms.1 / terms.2 < 2 ^ 96 → WalkFits quantity rest)

def Parcel.terms (splits : List SplitEvent) (p : Parcel) : List (ℚ × ℚ) :=
  products (1, 1) (splitsAfter splits p.date)

/-- The quantity fits in every later basis. -/
def Parcel.QuantityFits (splits : List SplitEvent) (p : Parcel) : Prop :=
  ∀ terms ∈ p.terms splits, p.quantity.value * terms.1 / terms.2 < 2 ^ 96

/-- The products fit for every parcel up to the first whose quantity does not. -/
def ParcelsFit (splits : List SplitEvent) : List Parcel → Prop
  | [] => True
  | p :: rest => WalkFits p.quantity.value (p.terms splits) ∧ (p.QuantityFits splits → ParcelsFit splits rest)

/-- The candidates tried before one re-bases to the quantity stated fit there. -/
def CandidatesFit (quantity factor : ℚ) : List ℚ → Prop
  | [] => True
  | candidate :: rest =>
    candidate * factor < 2 ^ 96 ∧ (candidate * factor ≠ quantity → CandidatesFit quantity factor rest)

namespace Allocation

def factor (splits : List SplitEvent) (a : Allocation) : ℚ :=
  basisFactor splits a.parcel.date a.saleDate

def QuantityFits (splits : List SplitEvent) (a : Allocation) : Prop :=
  a.quantity.value / a.factor splits < 2 ^ 96

/-- A full-precision quantity finds the count it was rounded from within range. -/
def RestatesInRange (splits : List SplitEvent) (a : Allocation) : Prop :=
  10 ^ 27 ≤ a.quantity.mantissa.natAbs → a.factor splits ≠ 1 →
    a.quantity.value * (splitRatio splits a.parcel.date (some a.saleDate)).old < 2 ^ 96 →
      CandidatesFit a.quantity.value (a.factor splits)
        (DecimalRounding.candidates (a.quantity.value / a.factor splits))

end Allocation

end ShareTracker.RangeGuard
