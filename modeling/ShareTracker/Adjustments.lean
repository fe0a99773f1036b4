import Mathlib
import ShareTracker.Lib.Checked
import ShareTracker.Fx

/-!
Adjustment events derived from corporate actions: return-of-capital payments
and the events that re-base unit counts. Counts are exact rationals here.
-/
namespace ShareTracker
export Checked (bind_ok mapM_ok)

/-- What a re-basing event was announced as; names it, never computes with it. -/
inductive RebaseTerms where
  | split (newUnits oldUnits : ℚ)
  | consolidation (newUnits oldUnits : ℚ)
  | bonusIssue (bonusUnits heldUnits : ℚ)
  deriving DecidableEq

/-- On `date` every `oldUnits` units become `newUnits`. -/
structure SplitEvent where
  date : NaiveDate
  newUnits : ℚ
  oldUnits : ℚ
  terms : RebaseTerms
  newUnits_pos : 0 < newUnits
  oldUnits_pos : 0 < oldUnits

namespace SplitEvent

def shareSplit (date : NaiveDate) (newUnits oldUnits : ℚ) (hn : 0 < newUnits) (ho : 0 < oldUnits) :
    SplitEvent where
  date := date
  newUnits := newUnits
  oldUnits := oldUnits
  terms :=
    if newUnits < oldUnits then .consolidation newUnits oldUnits else .split newUnits oldUnits
  newUnits_pos := hn
  oldUnits_pos := ho

/-- The equivalent split: `held + bonus` units for every `held`. -/
def bonusIssue (date : NaiveDate) (bonusUnits heldUnits : ℚ) (hb : 0 < bonusUnits)
    (hh : 0 < heldUnits) : SplitEvent where
  date := date
  newUnits := heldUnits + bonusUnits
  oldUnits := heldUnits
  terms := .bonusIssue bonusUnits heldUnits
  newUnits_pos := by positivity
  oldUnits_pos := hh

end SplitEvent

/-- `new` units for every `old`. -/
structure SplitRatio where
  new : ℚ
  old : ℚ
  new_pos : 0 < new
  old_pos : 0 < old

namespace SplitRatio

theorem unit_pos : (0 : ℚ) < 1 := one_pos

def identity : SplitRatio := ⟨1, 1, unit_pos, unit_pos⟩

def inverse (r : SplitRatio) : SplitRatio := ⟨r.old, r.new, r.old_pos, r.new_pos⟩

/-- The factor the ratio scales a count by. -/
def factor (r : SplitRatio) : ℚ := r.new / r.old

theorem factor_pos (r : SplitRatio) : 0 < r.factor := div_pos r.new_pos r.old_pos

@[simp] theorem identity_factor : identity.factor = 1 := div_one 1

theorem inverse_factor (r : SplitRatio) : r.inverse.factor = r.factor⁻¹ := (inv_div _ _).symm

theorem new_eq_old (r : SplitRatio) : r.new = r.old ↔ r.factor = 1 :=
  (div_eq_one_iff_eq r.old_pos.ne').symm

end SplitRatio

/-- The largest figure both are whole multiples of. -/
def gcd (a b : ℚ) : ℚ :=
  (Int.gcd (a.num * b.den) (b.num * a.den) : ℚ) / (a.den * b.den)

/-- Both terms over their greatest common divisor, where that shrinks them. -/
def lowestTerms (r : SplitRatio) : SplitRatio :=
  if h : 1 < gcd r.new r.old then
    have hg : 0 < gcd r.new r.old := one_pos.trans h
    ⟨r.new / gcd r.new r.old, r.old / gcd r.new r.old, div_pos r.new_pos hg, div_pos r.old_pos hg⟩
  else r

theorem lowestTerms_factor (r : SplitRatio) : (lowestTerms r).factor = r.factor := by
  unfold lowestTerms
  split
  · rename_i h
    exact div_div_div_cancel_right₀ (one_pos.trans h).ne' r.new r.old
  · rfl

/-- Whether `date` falls in the half-open window `(since, upTo]`. -/
def inWindow (since : NaiveDate) (upTo : Option NaiveDate) (date : NaiveDate) : Bool :=
  !(decide (date ≤ since) || upTo.any fun d => decide (d < date))

/-- One event multiplied into a ratio. -/
def SplitRatio.times (r : SplitRatio) (s : SplitEvent) : SplitRatio :=
  lowestTerms ⟨r.new * s.newUnits, r.old * s.oldUnits, mul_pos r.new_pos s.newUnits_pos,
    mul_pos r.old_pos s.oldUnits_pos⟩

theorem SplitRatio.times_factor (r : SplitRatio) (s : SplitEvent) :
    (r.times s).factor = r.factor * (s.newUnits / s.oldUnits) := by
  rw [SplitRatio.times, lowestTerms_factor]
  exact mul_div_mul_comm _ _ _ _

/-- The cumulative ratio of the events dated in `(since, upTo]`. -/
def splitRatio (splits : List SplitEvent) (since : NaiveDate) (upTo : Option NaiveDate) :
    SplitRatio :=
  splits.foldl (fun r s => if inWindow since upTo s.date then r.times s else r) .identity

/-- The ratio between the bases at two dates, in whichever direction they sit;
no date is later than any. -/
def rebaseRatio (splits : List SplitEvent) : Option NaiveDate → Option NaiveDate → SplitRatio
  | none, none => .identity
  | some f, none => splitRatio splits f none
  | some f, some t =>
    if f ≤ t then splitRatio splits f (some t) else (splitRatio splits t (some f)).inverse
  | none, some t => (splitRatio splits t none).inverse

theorem splitRatio_self (splits : List SplitEvent) (date : NaiveDate) :
    splitRatio splits date (some date) = .identity := by
  have hout : ∀ d, inWindow date (some date) d = false := by
    intro d
    simp [inWindow]
  unfold splitRatio
  induction splits with
  | nil => rfl
  | cons s splits ih =>
    rw [List.foldl_cons, hout, if_neg Bool.false_ne_true]
    exact ih

/-- Events outside the window leave the ratio alone. -/
theorem splitRatio_filterMap {α : Type*} {event : α → Option SplitEvent} {keep : α → Bool}
    {l : List α} {since : NaiveDate} {upTo : Option NaiveDate}
    (h : ∀ a ∈ l, keep a = false → ∀ e ∈ event a, inWindow since upTo e.date = false) :
    splitRatio ((l.filter keep).filterMap event) since upTo =
      splitRatio (l.filterMap event) since upTo := by
  unfold splitRatio
  generalize SplitRatio.identity = acc
  induction l generalizing acc with
  | nil => rfl
  | cons a l ih =>
    have hl : ∀ b ∈ l, keep b = false → ∀ e ∈ event b, inWindow since upTo e.date = false :=
      fun b hb => h b (List.mem_cons_of_mem a hb)
    cases hk : keep a with
    | true =>
      rw [List.filter_cons_of_pos hk]
      cases he : event a with
      | none => rw [List.filterMap_cons_none he, List.filterMap_cons_none he, ih hl]
      | some e =>
        rw [List.filterMap_cons_some he, List.filterMap_cons_some he, List.foldl_cons,
          List.foldl_cons, ih hl]
    | false =>
      rw [List.filter_cons_of_neg (by simp [hk])]
      cases he : event a with
      | none => rw [List.filterMap_cons_none he, ih hl]
      | some e =>
        have hout := h a List.mem_cons_self hk e he
        rw [List.filterMap_cons_some he, List.foldl_cons, hout, if_neg Bool.false_ne_true,
          ih hl]

/-- Back from a date's basis is the inverse of forward to it. -/
theorem rebaseRatio_symm (splits : List SplitEvent) (f t : NaiveDate) :
    (rebaseRatio splits (some f) (some t)).factor =
      (rebaseRatio splits (some t) (some f)).factor⁻¹ := by
  rcases lt_trichotomy f t with h | rfl | h
  · rw [rebaseRatio, rebaseRatio, if_pos h.le, if_neg (not_le.mpr h), SplitRatio.inverse_factor,
      inv_inv]
  · rw [rebaseRatio, if_pos le_rfl, splitRatio_self, SplitRatio.identity_factor, inv_one]
  · rw [rebaseRatio, rebaseRatio, if_neg (not_le.mpr h), if_pos h.le, SplitRatio.inverse_factor]

/-- The factor of every event up to a date. -/
def basisLevel (splits : List SplitEvent) (date : NaiveDate) : ℚ :=
  ((splits.filter fun s => decide (s.date ≤ date)).map fun s => s.newUnits / s.oldUnits).prod

theorem basisLevel_pos (splits : List SplitEvent) (date : NaiveDate) : 0 < basisLevel splits date := by
  refine List.prod_pos ?_
  intro f hf
  obtain ⟨s, _, rfl⟩ := List.mem_map.mp hf
  exact div_pos s.newUnits_pos s.oldUnits_pos

theorem basisLevel_cons (s : SplitEvent) (splits : List SplitEvent) (date : NaiveDate) :
    basisLevel (s :: splits) date =
      (if s.date ≤ date then s.newUnits / s.oldUnits else 1) * basisLevel splits date := by
  unfold basisLevel
  by_cases h : s.date ≤ date
  · simp [h]
  · simp [h]

theorem basisLevel_perm {splits splits' : List SplitEvent} (h : splits.Perm splits')
    (date : NaiveDate) : basisLevel splits date = basisLevel splits' date :=
  ((h.filter _).map _).prod_eq

theorem splitRatio_factor (splits : List SplitEvent) {since upTo : NaiveDate} (h : since ≤ upTo) :
    (splitRatio splits since (some upTo)).factor =
      basisLevel splits upTo / basisLevel splits since := by
  rw [eq_div_iff (basisLevel_pos splits since).ne']
  have hfold : ∀ acc : SplitRatio,
      (splits.foldl (fun r s => if inWindow since (some upTo) s.date then r.times s else r)
        acc).factor * basisLevel splits since = acc.factor * basisLevel splits upTo := by
    induction splits with
    | nil => exact fun acc => rfl
    | cons s splits ih =>
      intro acc
      rw [List.foldl_cons, basisLevel_cons, basisLevel_cons]
      by_cases hbefore : s.date ≤ since
      · have hout : inWindow since (some upTo) s.date = false := by simp [inWindow, hbefore]
        rw [hout, if_neg Bool.false_ne_true, if_pos hbefore, if_pos (hbefore.trans h),
          mul_left_comm, ih, mul_left_comm]
      · by_cases hin : s.date ≤ upTo
        · have hwin : inWindow since (some upTo) s.date = true := by
            simp [inWindow, hbefore, hin]
          rw [hwin, if_pos rfl, if_neg hbefore, if_pos hin, one_mul, ih,
            SplitRatio.times_factor, mul_assoc]
        · have hout : inWindow since (some upTo) s.date = false := by
            simpa [inWindow] using fun _ => not_le.mp hin
          rw [hout, if_neg Bool.false_ne_true, if_neg hbefore, if_neg hin, one_mul, one_mul, ih]
  have hidentity := hfold SplitRatio.identity
  rwa [SplitRatio.identity_factor, one_mul] at hidentity

/-- Between two dates a count scales by the levels of their bases. -/
theorem rebaseRatio_factor (splits : List SplitEvent) (f t : NaiveDate) :
    (rebaseRatio splits (some f) (some t)).factor = basisLevel splits t / basisLevel splits f := by
  rw [rebaseRatio]
  split
  · rename_i h
    exact splitRatio_factor splits h
  · rename_i h
    rw [SplitRatio.inverse_factor, splitRatio_factor splits (not_le.mp h).le, inv_div]

/-- A count at `acquired` re-based to the basis at `upTo`. -/
def splitAdjustedQuantity (quantity : ℚ) (splits : List SplitEvent) (acquired : NaiveDate)
    (upTo : Option NaiveDate) : ℚ :=
  let ratio := rebaseRatio splits (some acquired) upTo
  if ratio.new = ratio.old then quantity else quantity * ratio.new / ratio.old

/-- A count in the basis at its own date `basis` back in the units at `acquired`. -/
def asAcquiredQuantity (quantity : ℚ) (basis : Option NaiveDate) (splits : List SplitEvent)
    (acquired : NaiveDate) : ℚ :=
  let ratio := rebaseRatio splits basis (some acquired)
  if ratio.new = ratio.old then quantity else quantity * ratio.new / ratio.old

theorem SplitRatio.apply_eq (r : SplitRatio) (quantity : ℚ) :
    (if r.new = r.old then quantity else quantity * r.new / r.old) = quantity * r.factor := by
  split
  · rename_i h
    rw [r.new_eq_old.mp h, mul_one]
  · exact mul_div_assoc _ _ _

theorem splitAdjustedQuantity_eq (quantity : ℚ) (splits : List SplitEvent) (acquired : NaiveDate)
    (upTo : Option NaiveDate) : splitAdjustedQuantity quantity splits acquired upTo =
      quantity * (rebaseRatio splits (some acquired) upTo).factor :=
  SplitRatio.apply_eq _ _

theorem asAcquiredQuantity_eq (quantity : ℚ) (basis : Option NaiveDate) (splits : List SplitEvent)
    (acquired : NaiveDate) : asAcquiredQuantity quantity basis splits acquired =
      quantity * (rebaseRatio splits basis (some acquired)).factor :=
  SplitRatio.apply_eq _ _

structure RocEvent where
  date : NaiveDate
  amountPerUnit : ℚ
  currency : CurrencyCode
  recordDate : Option NaiveDate
  amount_pos : 0 < amountPerUnit
  recordDate_le : ∀ d ∈ recordDate, d ≤ date

/-- The rollover that created a parcel: the operation date, and the date the
units joined this listing's register. -/
structure RolloverOrigin where
  on : NaiveDate
  registeredFrom : NaiveDate
  deriving DecidableEq

/-- A payment in another currency than the parcel's is never netted against it. -/
structure CurrencyDiffers where
  payment : CurrencyCode
  parcel : CurrencyCode
  deriving DecidableEq

def CurrencyDiffers.message (e : CurrencyDiffers) : String :=
  "return-of-capital currency " ++ e.payment.code ++ " differs from the parcel's currency " ++
    e.parcel.code

namespace RocEvent

/-- The payment per as-acquired unit of a parcel held at `upTo`, or `none`
where it does not reach those units. -/
def perUnitFor (e : RocEvent) (splits : List SplitEvent) (parcelCurrency : CurrencyCode)
    (acquired settled : NaiveDate) (rollover : Option RolloverOrigin) (upTo : Option NaiveDate) :
    Except CurrencyDiffers (Option ℚ) :=
  let registeredFrom := (rollover.map (·.registeredFrom)).getD settled
  let entitled : Bool := registeredFrom ≤ e.recordDate.getD e.date
  if !entitled || upTo.any (fun d => decide (d < e.date)) then .ok none
  -- the carried cost base already holds every payment up to the operation date
  else if rollover.any (fun r => decide (e.date ≤ r.on)) then .ok none
  else if e.currency ≠ parcelCurrency then .error ⟨e.currency, parcelCurrency⟩
  else
    let ratio := splitRatio splits acquired (some e.date)
    .ok (some (if ratio.new = ratio.old then e.amountPerUnit
      else e.amountPerUnit * ratio.new / ratio.old))

section PerUnitFor
variable (e : RocEvent) (splits : List SplitEvent) (parcelCurrency : CurrencyCode)
  {acquired settled : NaiveDate} {rollover : Option RolloverOrigin}

/-- A bound drops the payments after it and changes no other. -/
theorem perUnitFor_upTo (upTo : Option NaiveDate) :
    e.perUnitFor splits parcelCurrency acquired settled rollover upTo =
      if upTo.any (fun d => decide (d < e.date)) then .ok none
      else e.perUnitFor splits parcelCurrency acquired settled rollover none := by
  unfold perUnitFor
  cases h : upTo.any (fun d => decide (d < e.date)) with
  | true => simp
  | false => simp

/-- A payment before the trade date reaches no unit of the parcel. -/
theorem perUnitFor_before (hsettled : acquired ≤ settled)
    (hrollover : ∀ r ∈ rollover, r.on = acquired) (h : e.date < acquired)
    (upTo : Option NaiveDate) :
    e.perUnitFor splits parcelCurrency acquired settled rollover upTo = .ok none := by
  rw [perUnitFor_upTo]
  split
  · rfl
  cases hr : rollover with
  | none =>
    have hrecord : e.recordDate.getD e.date ≤ e.date := by
      cases hd : e.recordDate with
      | none => exact le_rfl
      | some d => exact e.recordDate_le d hd
    have hnot : ¬ settled ≤ e.recordDate.getD e.date :=
      not_le.mpr (hrecord.trans_lt (h.trans_le hsettled))
    simp [perUnitFor, hnot]
  | some r =>
    have hon : e.date ≤ r.on := by
      rw [hrollover r hr]
      exact h.le
    unfold perUnitFor
    simp [hon]

theorem perUnitFor_currency {e : RocEvent} {splits : List SplitEvent}
    {parcelCurrency : CurrencyCode} {upTo : Option NaiveDate} {perUnit : ℚ}
    (h : e.perUnitFor splits parcelCurrency acquired settled rollover upTo = .ok (some perUnit)) :
    e.currency = parcelCurrency := by
  unfold perUnitFor at h
  simp only [ne_eq, ite_not] at h
  split at h
  · cases h
  split at h
  · cases h
  split at h
  · assumption
  · cases h

theorem perUnitFor_pos {e : RocEvent} {splits : List SplitEvent} {parcelCurrency : CurrencyCode}
    {upTo : Option NaiveDate} {perUnit : ℚ}
    (h : e.perUnitFor splits parcelCurrency acquired settled rollover upTo = .ok (some perUnit)) :
    0 < perUnit := by
  unfold perUnitFor at h
  simp only [SplitRatio.apply_eq] at h
  split at h
  · cases h
  split at h
  · cases h
  split at h
  · cases h
  · cases h
    exact mul_pos e.amount_pos (SplitRatio.factor_pos _)

end PerUnitFor

end RocEvent

/-- The loop `for e in events { let Some(x) = f(e)? else { continue }; out.push(x) }`. -/
def gather {ε α β : Type*} (f : α → Except ε (Option β)) : List α → Except ε (List β)
  | [] => .ok []
  | a :: l =>
    match f a, gather f l with
    | .error e, _ => .error e
    | .ok _, .error e => .error e
    | .ok none, .ok bs => .ok bs
    | .ok (some b), .ok bs => .ok (b :: bs)

theorem mem_gather {ε α β : Type*} {f : α → Except ε (Option β)} {l : List α} {bs : List β}
    (h : gather f l = .ok bs) {b : β} (hb : b ∈ bs) : ∃ a ∈ l, f a = .ok (some b) := by
  induction l generalizing bs with
  | nil =>
    cases h
    cases hb
  | cons a l ih =>
    simp only [gather] at h
    split at h
    · cases h
    · cases h
    · rename_i ha hl
      cases h
      obtain ⟨a', ha', he⟩ := ih hl hb
      exact ⟨a', List.mem_cons_of_mem a ha', he⟩
    · rename_i b' bs' ha hl
      cases h
      rcases List.mem_cons.mp hb with rfl | hb
      · exact ⟨a, List.mem_cons_self, ha⟩
      · obtain ⟨a', ha', he⟩ := ih hl hb
        exact ⟨a', List.mem_cons_of_mem a ha', he⟩

/-- A second loop that keeps a part of what the first keeps, and maps it,
succeeds where the first does. -/
theorem gather_restrict {ε α β γ : Type*} {f : α → Except ε (Option β)}
    {g : α → Except ε (Option γ)} {keep : β → Bool} {h : β → γ}
    (hfg : ∀ a o, f a = .ok o → g a = .ok ((o.filter keep).map h)) {l : List α} {bs : List β}
    (hf : gather f l = .ok bs) : gather g l = .ok ((bs.filter keep).map h) := by
  induction l generalizing bs with
  | nil =>
    cases hf
    rfl
  | cons a l ih =>
    simp only [gather] at hf
    split at hf
    · cases hf
    · cases hf
    · rename_i ha hl
      cases hf
      simp only [gather, hfg a _ ha, ih hl, Option.filter_none, Option.map_none]
    · rename_i b cs ha hl
      cases hf
      simp only [gather, hfg a _ ha, ih hl]
      cases hk : keep b with
      | true => simp [Option.filter, hk]
      | false => simp [Option.filter, hk]

end ShareTracker
