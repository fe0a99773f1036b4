import ShareTracker.SaleWalk
import ShareTracker.RangeGuard

/-!
Sales of one day, in whatever order they are read. The walk keeps that order
within a date, and a sale that states what is left takes it whole, so which of
a day's sales is asked first can show in the units sold.
-/
namespace ShareTracker.SameDaySales
open RangeGuard (Failure)
open EmptyingWalk (TakesOwn EmptiedBefore)

section Walk
variable (D : DecimalRounding) (splits : List SplitEvent) (acquired : NaiveDate)

/-- The units sold, whatever fraction they are held as. -/
def totalSold (parcel : AcquiredUnits) (sales : List UnitsAt) : Attempt Failure ℚ := do
  return (← D.soldInAcquiredUnits splits acquired parcel sales).value

/-- The units the sales up to a date leave. -/
def remainder (parcel : AcquiredUnits) (sales : List UnitsAt) (date : NaiveDate) :
    Attempt Failure ℚ := do
  let sold ← D.soldInAcquiredUnits splits acquired parcel (sales.filter fun s => s.basis ≤ date)
  return (← AcquiredUnits.sub D parcel sold).value

/-- Two orders of the sales come to the same units. -/
def SameUnits (parcel : AcquiredUnits) (order sales : List UnitsAt) : Prop :=
  (totalSold D splits acquired parcel order).answer =
      (totalSold D splits acquired parcel sales).answer ∧
    ∀ date, (remainder D splits acquired parcel order date).answer =
      (remainder D splits acquired parcel sales date).answer

/-- Every order the sales are read in comes to the same units. -/
def OrderFree (parcel : AcquiredUnits) (sales : List UnitsAt) : Prop :=
  ∀ order : List UnitsAt, order.Perm sales → SameUnits D splits acquired parcel order sales

/-- No operation of the walk rounds, in whatever order the sales are read. -/
def RoundsNowhere (parcel : AcquiredUnits) (sales : List UnitsAt) : Prop :=
  ∀ order : List UnitsAt, order.Perm sales →
    (totalSold D splits acquired parcel order).succeeds = true ∧
      ∀ date, (remainder D splits acquired parcel order date).succeeds = true

/-- The sales of one date. -/
def day (sales : List UnitsAt) (date : NaiveDate) : List UnitsAt :=
  sales.filter fun s => s.basis = date

/-- The units of the parcel the figures of the sales before a date read back as leave. -/
def plainLeft (quantity : ℚ) (sales : List UnitsAt) (date : NaiveDate) : ℚ :=
  quantity - ((sales.filter fun s => s.basis < date).map fun s =>
    (saleDraw D splits acquired s).read).sum

/-- In every order of a day's sales, each that states what is left is owed just that. -/
def OwnDay (quantity : ℚ) (sales : List UnitsAt) (date : NaiveDate) : Prop :=
  ∀ order : List UnitsAt, order.Perm (day sales date) →
    TakesOwn (plainLeft D splits acquired quantity sales date)
      (order.map (saleDraw D splits acquired))

/-- Every order of a day's sales comes to one that states what is left, with the same
units of the day to come. -/
def EmptyingDay (quantity : ℚ) (sales : List UnitsAt) (date : NaiveDate) : Prop :=
  ∃ rest, ∀ order : List UnitsAt, order.Perm (day sales date) →
    EmptiedBefore rest (plainLeft D splits acquired quantity sales date)
      (order.map (saleDraw D splits acquired))

/-- The first day on which a sale is owed other than it takes empties the parcel alike
in every order. -/
def DaysAgree (quantity : ℚ) (sales : List UnitsAt) : Prop :=
  ∀ date, (∀ earlier < date, OwnDay D splits acquired quantity sales earlier) →
    OwnDay D splits acquired quantity sales date ∨ EmptyingDay D splits acquired quantity sales date

/-- The sales of one day are of the same units. -/
def EqualInDay (sales : List UnitsAt) : Prop :=
  ∀ s ∈ sales, ∀ s' ∈ sales, s.basis = s'.basis → s = s'

/-- Whether what is left re-bases to just what a sale states. -/
def statesLeft (left : AcquiredUnits) (sale : UnitsAt) : Attempt Failure Bool := do
  if ← AcquiredUnits.lt D .zero left then
    return decide ((← D.splitAdjustedQuantity left splits acquired sale.basis) = sale.quantity.value)
  else return false

/-- What counts of a parcel leave of it. -/
def leftOf (parcel : AcquiredUnits) (counts : List AcquiredUnits) : Attempt Failure AcquiredUnits := do
  AcquiredUnits.sub D parcel (← AcquiredUnits.sum D counts)

/-- Every sale reads back as its own count, rounded or not, and is owed that where it
states what those before it leave; the counts are added exactly, and taken from the
parcel exactly or whole. -/
structure TakesCounts (parcel : AcquiredUnits) (sales : List UnitsAt)
    (count : UnitsAt → AcquiredUnits) : Prop where
  reads : ∀ s ∈ sales, (D.asAcquiredQuantity s splits acquired : Attempt Failure _).answer =
    .ok (count s) ∧ 0 < (count s).den
  adds : ∀ part : List UnitsAt, part.Subperm sales →
    (AcquiredUnits.sum D (part.map count) : Attempt Failure _).succeeds = true
  leaves : (∀ s ∈ sales, (count s).den = 1) ∨
    ∀ part : List UnitsAt, part.Subperm sales → (leftOf D parcel (part.map count)).succeeds = true
  owed : ∀ (before : List UnitsAt) (s : UnitsAt), (s :: before).Subperm sales →
    (∀ b ∈ before, b.basis ≤ s.basis) → (sales.filter fun b => b.basis < s.basis).Subperm before →
      ∃ left, (leftOf D parcel (before.map count)).answer = .ok left ∧
        ((statesLeft D splits acquired left s).answer = .ok false ∨
          (statesLeft D splits acquired left s).answer = .ok true ∧ count s = left)

end Walk

/-! ### One date after another -/

section Dates
variable {D : DecimalRounding} {splits : List SplitEvent} {acquired : NaiveDate} {quantity : ℚ}
  {sales order : List UnitsAt}

/-- The units the sales before a date leave. -/
noncomputable def leftBefore (D : DecimalRounding) (splits : List SplitEvent) (acquired : NaiveDate)
    (quantity : ℚ) (sales : List UnitsAt) (date : NaiveDate) : ℚ :=
  unitsLeft D splits acquired quantity (sales.filter fun s => s.basis < date)

/-- A day's sales leave the same in every order. -/
def DayAgrees (D : DecimalRounding) (splits : List SplitEvent) (acquired : NaiveDate)
    (quantity : ℚ) (sales : List UnitsAt) (date : NaiveDate) : Prop :=
  ∀ order : List UnitsAt, order.Perm (day sales date) →
    EmptyingWalk.remaining (leftBefore D splits acquired quantity sales date)
        (order.map (saleDraw D splits acquired)) =
      EmptyingWalk.remaining (leftBefore D splits acquired quantity sales date)
        ((day sales date).map (saleDraw D splits acquired))

theorem unitsLeft_filter_le (quantity : ℚ) (sales : List UnitsAt) (date : NaiveDate) :
    unitsLeft D splits acquired quantity (sales.filter fun s => s.basis ≤ date) =
      EmptyingWalk.remaining (leftBefore D splits acquired quantity sales date)
        ((day sales date).map (saleDraw D splits acquired)) := by
  have hsort := StableSort.sortBy_filter_le UnitsAt.basis date sales
  unfold leftBefore unitsLeft draws day
  rw [hsort, List.map_append, EmptyingWalk.remaining_append]

/-- The last date of some sales. -/
theorem exists_last (h : sales ≠ []) :
    ∃ s ∈ sales, ∀ s' ∈ sales, s'.basis ≤ s.basis := by
  obtain ⟨s, hs, hlast⟩ := Finset.exists_max_image sales.toFinset UnitsAt.basis
    (List.toFinset_nonempty_iff sales |>.mpr h)
  exact ⟨s, List.mem_toFinset.mp hs, fun s' hs' => hlast s' (List.mem_toFinset.mpr hs')⟩

theorem filter_eq_self {date : NaiveDate} (h : ∀ s ∈ sales, s.basis ≤ date) :
    sales.filter (fun s => s.basis ≤ date) = sales :=
  List.filter_eq_self.mpr fun s hs => decide_eq_true (h s hs)

/-- A day after another of the sales', each from the last before it. -/
theorem dates_induction {P : NaiveDate → Prop}
    (hnone : ∀ date, (sales.filter fun s => s.basis < date) = [] → P date)
    (hlast : ∀ date, ∀ last ∈ sales, (∀ s ∈ sales, s.basis < date ↔ s.basis ≤ last.basis) →
      P last.basis → P date) (date : NaiveDate) : P date := by
  -- by the number of sales before the date
  induction hcount : (sales.filter fun s => s.basis < date).length using Nat.strong_induction_on
    generalizing date with
  | _ count ih =>
    subst hcount
    by_cases h : (sales.filter fun s => s.basis < date) = []
    · exact hnone date h
    · obtain ⟨last, hmem, hmax⟩ := exists_last h
      obtain ⟨hsale, hbefore⟩ := List.mem_filter.mp hmem
      have hearlier : ∀ s ∈ sales, (s.basis < date ↔ s.basis ≤ last.basis) := by
        intro s hs
        constructor
        · intro h
          exact hmax s (List.mem_filter.mpr ⟨hs, decide_eq_true h⟩)
        · intro h
          exact h.trans_lt (of_decide_eq_true hbefore)
      have hfewer : (sales.filter fun s => s.basis < last.basis).length <
          (sales.filter fun s => s.basis < date).length := by
        have hwithin : (sales.filter fun s => s.basis < last.basis) =
            (sales.filter fun s => s.basis < date).filter fun s => s.basis < last.basis := by
          rw [List.filter_filter]
          refine List.filter_congr fun s hs => ?_
          have hlt : s.basis < last.basis → s.basis < date :=
            fun h => (hearlier s hs).mpr h.le
          simpa using hlt
        rw [hwithin, List.length_filter_lt_length_iff_exists]
        exact ⟨last, hmem, by simp⟩
      exact hlast date last hsale hearlier (ih _ hfewer last.basis rfl)

theorem filter_before {date : NaiveDate} {last : UnitsAt}
    (h : ∀ s ∈ sales, s.basis < date ↔ s.basis ≤ last.basis) :
    (sales.filter fun s => s.basis < date) = sales.filter fun s => s.basis ≤ last.basis :=
  List.filter_congr fun s hs => decide_eq_decide.mpr (h s hs)

theorem leftBefore_last {date : NaiveDate} {last : UnitsAt}
    (h : ∀ s ∈ sales, s.basis < date ↔ s.basis ≤ last.basis) :
    leftBefore D splits acquired quantity sales date =
      EmptyingWalk.remaining (leftBefore D splits acquired quantity sales last.basis)
        ((day sales last.basis).map (saleDraw D splits acquired)) := by
  rw [leftBefore, filter_before h, unitsLeft_filter_le]

/-- Where every day agrees, the sales before a date leave the same in every order. -/
theorem leftBefore_perm (hagree : ∀ date, DayAgrees D splits acquired quantity sales date)
    (horder : order.Perm sales) (date : NaiveDate) :
    leftBefore D splits acquired quantity order date =
      leftBefore D splits acquired quantity sales date := by
  induction date using @dates_induction sales with
  | hnone date h =>
    have hbefore : (order.filter fun s => s.basis < date).Perm
        (sales.filter fun s => s.basis < date) := horder.filter _
    rw [h] at hbefore
    rw [leftBefore, leftBefore, h, hbefore.eq_nil]
  | hlast date last hmem hearlier ih =>
    rw [leftBefore_last hearlier, leftBefore_last fun s hs => hearlier s (horder.mem_iff.mp hs), ih]
    exact hagree last.basis _ (horder.filter _)

/-! #### Until the parcel is emptied -/

theorem draws_read_pos (hpos : ∀ s ∈ sales, 0 < s.quantity.value) {date : NaiveDate}
    (horder : order.Perm (day sales date)) :
    ∀ d ∈ order.map (saleDraw D splits acquired), 0 < d.read := by
  intro d hd
  obtain ⟨s, hs, rfl⟩ := List.mem_map.mp hd
  exact restated_pos D (basisFactor_pos splits acquired s.basis)
    (hpos s (List.mem_of_mem_filter (horder.mem_iff.mp hs)))

theorem plainLeft_last {date : NaiveDate} {last : UnitsAt}
    (h : ∀ s ∈ sales, s.basis < date ↔ s.basis ≤ last.basis) :
    plainLeft D splits acquired quantity sales date =
      plainLeft D splits acquired quantity sales last.basis -
        (((day sales last.basis).map (saleDraw D splits acquired)).map EmptyingWalk.Draw.read).sum := by
  have hparted : (sales.filter fun s => s.basis ≤ last.basis).Perm
      ((sales.filter fun s => s.basis < last.basis) ++ day sales last.basis) := by
    have hsort := StableSort.sortBy_filter_le UnitsAt.basis last.basis sales
    have hall := StableSort.sortBy_perm UnitsAt.basis (sales.filter fun s => s.basis ≤ last.basis)
    rw [hsort] at hall
    exact hall.symm.trans ((StableSort.sortBy_perm _ _).append_right _)
  rw [plainLeft, plainLeft, filter_before h, (hparted.map _).sum_eq, List.map_append,
    List.sum_append, List.map_map, sub_sub]
  rfl

/-- While every sale is owed what it takes, what is left is what their figures leave. -/
theorem leftBefore_of_own (hpos : ∀ s ∈ sales, 0 < s.quantity.value) {date : NaiveDate}
    (hown : ∀ earlier < date, OwnDay D splits acquired quantity sales earlier) :
    leftBefore D splits acquired quantity sales date =
      plainLeft D splits acquired quantity sales date := by
  induction date using @dates_induction sales with
  | hnone date h =>
    rw [leftBefore, plainLeft, h, unitsLeft_nil]
    simp
  | hlast date last hmem hearlier ih =>
    have hbefore : last.basis < date := (hearlier last hmem).mpr le_rfl
    have hread : ∀ d ∈ (day sales last.basis).map (saleDraw D splits acquired), 0 < d.read :=
      draws_read_pos hpos (.refl _)
    rw [leftBefore_last hearlier, ih fun earlier h => hown earlier (h.trans hbefore),
      plainLeft_last hearlier]
    exact (EmptyingWalk.remaining_eq_iff hread).mpr (hown last.basis hbefore _ (.refl _))

/-- Past the day that empties it, nothing is left of the parcel. -/
theorem own_or_nothing (hpos : ∀ s ∈ sales, 0 < s.quantity.value)
    (hagree : DaysAgree D splits acquired quantity sales) (date : NaiveDate) :
    (∀ earlier < date, OwnDay D splits acquired quantity sales earlier) ∨
      leftBefore D splits acquired quantity sales date ≤ 0 := by
  induction date using @dates_induction sales with
  | hnone date h =>
    refine .inl fun earlier hlt order horder => ?_
    have hday : day sales earlier = [] := by
      refine List.filter_eq_nil_iff.mpr fun s hs hon => ?_
      have hkept := List.filter_eq_nil_iff.mp h s hs
      exact hkept (decide_eq_true (of_decide_eq_true hon ▸ hlt))
    rw [hday] at horder
    rw [horder.eq_nil]
    trivial
  | hlast date last hmem hearlier ih =>
    have hread : ∀ d ∈ (day sales last.basis).map (saleDraw D splits acquired), 0 < d.read :=
      draws_read_pos hpos (.refl _)
    rcases ih with hown | hnothing
    · rcases hagree last.basis hown with hownLast | ⟨rest, hempties⟩
      · refine .inl fun earlier hlt order horder => ?_
        rcases lt_or_ge earlier last.basis with hbefore | hfrom
        · exact hown earlier hbefore order horder
        · rcases hfrom.eq_or_lt with rfl | hafter
          · exact hownLast order horder
          · have hday : day sales earlier = [] := by
              refine List.filter_eq_nil_iff.mpr fun s hs hon => ?_
              have hle := (hearlier s hs).mp (of_decide_eq_true hon ▸ hlt)
              exact absurd (of_decide_eq_true hon ▸ hle) (not_le.mpr hafter)
            rw [hday] at horder
            rw [horder.eq_nil]
            trivial
      · have hday := hempties _ (.refl _)
        rw [leftBefore_last hearlier, leftBefore_of_own hpos hown,
          EmptyingWalk.remaining_of_emptied hread hday]
        exact .inr (neg_nonpos.mpr (EmptyingWalk.rest_nonneg hread hday))
    · rw [leftBefore_last hearlier, EmptyingWalk.remaining_of_nonpos hnothing hread]
      refine .inr ((sub_le_self _ (List.sum_nonneg fun x hx => ?_)).trans hnothing)
      obtain ⟨d, hd, rfl⟩ := List.mem_map.mp hx
      exact (hread d hd).le

/-- The days agree in what is left exactly where they do up to the one that empties. -/
theorem daysAgree_iff (hpos : ∀ s ∈ sales, 0 < s.quantity.value) :
    DaysAgree D splits acquired quantity sales ↔
      ∀ date, DayAgrees D splits acquired quantity sales date := by
  have hday : ∀ date, (∀ earlier < date, OwnDay D splits acquired quantity sales earlier) →
      (DayAgrees D splits acquired quantity sales date ↔
        OwnDay D splits acquired quantity sales date ∨
          EmptyingDay D splits acquired quantity sales date) := by
    intro date hown
    unfold DayAgrees
    rw [leftBefore_of_own hpos hown]
    exact EmptyingWalk.remaining_perm_iff fun s hs =>
      restated_pos D (basisFactor_pos splits acquired s.basis) (hpos s (List.mem_of_mem_filter hs))
  constructor
  · intro hagree date
    rcases own_or_nothing hpos hagree date with hown | hnothing
    · exact (hday date hown).mpr (hagree date hown)
    · intro order horder
      rw [EmptyingWalk.remaining_of_nonpos hnothing (draws_read_pos hpos horder),
        EmptyingWalk.remaining_of_nonpos hnothing (draws_read_pos hpos (.refl _)),
        ((horder.map _).map _).sum_eq]
  · intro hagree date hown
    exact (hday date hown).mp (hagree date)

/-- Where every day agrees, the sales up to a date leave the same in every order. -/
theorem unitsLeft_upto_perm (hagree : ∀ date, DayAgrees D splits acquired quantity sales date)
    (horder : order.Perm sales) (date : NaiveDate) :
    unitsLeft D splits acquired quantity (order.filter fun s => s.basis ≤ date) =
      unitsLeft D splits acquired quantity (sales.filter fun s => s.basis ≤ date) := by
  rw [unitsLeft_filter_le, unitsLeft_filter_le, leftBefore_perm hagree horder date]
  exact hagree date _ (horder.filter _)

theorem unitsLeft_perm (hagree : ∀ date, DayAgrees D splits acquired quantity sales date)
    (horder : order.Perm sales) :
    unitsLeft D splits acquired quantity order = unitsLeft D splits acquired quantity sales := by
  by_cases hnone : sales = []
  · subst hnone
    rw [horder.eq_nil]
  · obtain ⟨last, -, hmax⟩ := exists_last hnone
    have hmaxOrder : ∀ s ∈ order, s.basis ≤ last.basis :=
      fun s hs => hmax s (horder.mem_iff.mp hs)
    have hupto := unitsLeft_upto_perm hagree horder last.basis
    rwa [filter_eq_self hmax, filter_eq_self hmaxOrder] at hupto

/-- The other days' sales, then one day's in an order of its own. -/
def dayLast (sales : List UnitsAt) (date : NaiveDate) (order : List UnitsAt) : List UnitsAt :=
  sales.filter (fun s => ¬ s.basis = date) ++ order

theorem dayLast_perm {date : NaiveDate} (h : order.Perm (day sales date)) :
    (dayLast sales date order).Perm sales := by
  refine (h.append_left _).trans ?_
  have hsplit := List.filter_append_perm (fun s : UnitsAt => decide (¬ s.basis = date)) sales
  simpa [day] using hsplit

theorem unitsLeft_dayLast {date : NaiveDate} (h : order.Perm (day sales date)) :
    unitsLeft D splits acquired quantity
        ((dayLast sales date order).filter fun s => s.basis ≤ date) =
      EmptyingWalk.remaining (leftBefore D splits acquired quantity sales date)
        (order.map (saleDraw D splits acquired)) := by
  have hon : ∀ s ∈ order, s.basis = date :=
    fun s hs => of_decide_eq_true (List.mem_filter.mp (h.mem_iff.mp hs)).2
  have hbefore : (dayLast sales date order).filter (fun s => s.basis < date) =
      sales.filter fun s => s.basis < date := by
    have hnone : order.filter (fun s => s.basis < date) = [] := by
      rw [List.filter_eq_nil_iff]
      intro s hs
      simp [hon s hs]
    rw [dayLast, List.filter_append, hnone, List.append_nil, List.filter_filter]
    refine List.filter_congr fun s _ => ?_
    have hne : s.basis < date → ¬ s.basis = date := ne_of_lt
    simpa using hne
  have hday : day (dayLast sales date order) date = order := by
    have hall : order.filter (fun s => s.basis = date) = order :=
      List.filter_eq_self.mpr fun s hs => decide_eq_true (hon s hs)
    have hnone : (sales.filter fun s => ¬ s.basis = date).filter (fun s => s.basis = date) = [] := by
      rw [List.filter_filter, List.filter_eq_nil_iff]
      simp
    rw [day, dayLast, List.filter_append, hall, hnone, List.nil_append]
  rw [unitsLeft_filter_le, leftBefore, hbefore, hday, leftBefore]

end Dates

/-! ### The units the code counts -/

section Counts
variable {D : DecimalRounding} {splits : List SplitEvent} {acquired : NaiveDate}
  {parcel : AcquiredUnits} {sales order : List UnitsAt}

theorem totalSold_answer (hden : 0 < parcel.den)
    (h : (totalSold D splits acquired parcel sales).succeeds = true) :
    (totalSold D splits acquired parcel sales).answer =
      .ok (parcel.value - unitsLeft D splits acquired parcel.value sales) := by
  obtain ⟨units, hunits⟩ := Attempt.succeeds_iff.mp h
  rw [hunits.1]
  obtain ⟨total, htotal, hvalue⟩ := yields_bind.mp hunits
  rw [← yields_pure.mp hvalue, (soldInAcquiredUnits_yields hden htotal).1]

theorem remainder_answer (hden : 0 < parcel.den) {date : NaiveDate}
    (h : (remainder D splits acquired parcel sales date).succeeds = true) :
    (remainder D splits acquired parcel sales date).answer =
      .ok (unitsLeft D splits acquired parcel.value (sales.filter fun s => s.basis ≤ date)) := by
  obtain ⟨units, hunits⟩ := Attempt.succeeds_iff.mp h
  rw [hunits.1]
  obtain ⟨sold, hsold, hvalue⟩ := yields_bind.mp hunits
  obtain ⟨left, hleft, hvalue⟩ := yields_bind.mp hvalue
  obtain ⟨htaken, htakenden⟩ := soldInAcquiredUnits_yields hden hsold
  rw [← yields_pure.mp hvalue, (AcquiredUnits.sub_yields hden htakenden hleft).1, htaken,
    sub_sub_cancel]

end Counts

/-! ### Counts that round -/

section Rounded
variable {D : DecimalRounding} {splits : List SplitEvent} {acquired : NaiveDate}
  {parcel : AcquiredUnits} {sales part order : List UnitsAt} {count : UnitsAt → AcquiredUnits}

theorem saleUnits_answer {left : AcquiredUnits} {s : UnitsAt}
    (hread : (D.asAcquiredQuantity s splits acquired : Attempt Failure _).answer = .ok (count s))
    (h : (statesLeft D splits acquired left s).answer = .ok false ∨
      (statesLeft D splits acquired left s).answer = .ok true ∧ count s = left) :
    (D.saleUnits splits acquired left s : Attempt Failure _).answer = .ok (count s) := by
  obtain ⟨stated, hstated, hown⟩ : ∃ stated, (statesLeft D splits acquired left s).answer =
      .ok stated ∧ (stated = true → count s = left) := by
    rcases h with h | ⟨h, hown⟩
    · exact ⟨false, h, nofun⟩
    · exact ⟨true, h, fun _ => hown⟩
  unfold statesLeft at hstated
  obtain ⟨open_, hopen, hstated⟩ := answer_bind.mp hstated
  unfold DecimalRounding.saleUnits
  rw [answer_bind_of hopen]
  cases open_ with
  | false => simpa using hread
  | true =>
    simp only [if_true] at hstated ⊢
    obtain ⟨figure, hfigure, hstated⟩ := answer_bind.mp hstated
    obtain rfl := answer_pure.mp hstated
    rw [answer_bind_of hfigure]
    split
    · rename_i hsame
      rw [hown (decide_eq_true hsame)]
      rfl
    · exact hread

theorem sum_concat (us : List AcquiredUnits) (u : AcquiredUnits) :
    (AcquiredUnits.sum D (us ++ [u]) : Attempt Failure _) =
      AcquiredUnits.sum D us >>= fun total => AcquiredUnits.add D total u := by
  rw [AcquiredUnits.sum, List.foldlM_append]
  simp only [List.foldlM_cons, List.foldlM_nil, bind_pure]
  rfl

theorem TakesCounts.sum_answer (H : TakesCounts D splits acquired parcel sales count)
    (hpart : part.Subperm sales) :
    ∃ total, (AcquiredUnits.sum D (part.map count) : Attempt Failure _).Yields total :=
  Attempt.succeeds_iff.mp (H.adds part hpart)

/-- The walk gives each sale its own count. -/
theorem TakesCounts.walkSales_answer (H : TakesCounts D splits acquired parcel sales count)
    (hpart : part.Subperm sales)
    (hearlier : ∀ s ∈ part, (sales.filter fun b => b.basis < s.basis).Subperm
      (part.filter fun b => b.basis < s.basis))
    {before : List UnitsAt} {rest : List (UnitsAt × ℕ)}
    (hperm : (before ++ rest.map Prod.fst).Perm part)
    (hsorted : (before ++ rest.map Prod.fst).Pairwise fun a b => a.basis ≤ b.basis)
    {sold : AcquiredUnits}
    (hsold : (AcquiredUnits.sum D (before.map count) : Attempt Failure _).answer = .ok sold) :
    (D.walkSales splits acquired parcel sold rest : Attempt Failure _).answer =
      .ok (rest.map fun s => (s.2, count s.1)) := by
  -- on the sales still to come, with what the counts before them add up to
  induction rest generalizing before sold with
  | nil => rfl
  | cons s rest ih =>
    obtain ⟨s, i⟩ := s
    rw [List.map_cons] at hperm hsorted
    have hs : s ∈ part := hperm.mem_iff.mp (List.mem_append_right _ List.mem_cons_self)
    have hnext : (s :: before).Subperm part := by
      have hfront : (s :: before).Perm (before ++ [s]) := List.perm_append_singleton s before |>.symm
      refine (hfront.subperm_right.mpr ?_).trans hperm.subperm
      exact ((List.singleton_sublist.mpr List.mem_cons_self).append_left before).subperm
    obtain ⟨-, hcross, hlater⟩ := List.pairwise_append.mp hsorted
    have hdated : ∀ b ∈ before, b.basis ≤ s.basis :=
      fun b hb => hlater b hb s List.mem_cons_self
    have hbefore : (sales.filter fun b => b.basis < s.basis).Subperm before := by
      have hnone : (s :: rest.map Prod.fst).filter (fun b => b.basis < s.basis) = [] := by
        refine List.filter_eq_nil_iff.mpr fun b hb => ?_
        have hle : s.basis ≤ b.basis := by
          rcases List.mem_cons.mp hb with rfl | hb
          · exact le_rfl
          · exact (List.pairwise_cons.mp hcross).1 b hb
        simpa using hle
      have hkept := hperm.symm.filter fun b => decide (b.basis < s.basis)
      rw [List.filter_append, hnone, List.append_nil] at hkept
      exact ((hearlier s hs).trans hkept.subperm).trans List.filter_sublist.subperm
    obtain ⟨left, hleft, howed⟩ := H.owed before s (hnext.trans hpart) hdated hbefore
    have hread := (H.reads s (hpart.subset hs)).1
    rw [leftOf, answer_bind_of hsold] at hleft
    obtain ⟨total, htotal, -⟩ := H.sum_answer
      (((List.perm_append_singleton s before).subperm).trans (hnext.trans hpart))
    have htotal' := htotal
    rw [List.map_append, List.map_singleton, sum_concat, answer_bind_of hsold] at htotal'
    have hperm' : ((before ++ [s]) ++ rest.map Prod.fst).Perm part := by simpa using hperm
    have hrest := ih hperm' (by simpa using hsorted) htotal
    unfold DecimalRounding.walkSales
    rw [answer_bind_of hleft, answer_bind_of (saleUnits_answer hread howed),
      answer_bind_of htotal', answer_bind_of hrest]
    rfl

theorem TakesCounts.sold_answer (H : TakesCounts D splits acquired parcel sales count)
    (hpart : part.Subperm sales)
    (hearlier : ∀ s ∈ part, (sales.filter fun b => b.basis < s.basis).Subperm
      (part.filter fun b => b.basis < s.basis)) :
    (D.soldInAcquiredUnits splits acquired parcel part : Attempt Failure _).answer =
      (AcquiredUnits.sum D (part.map count) : Attempt Failure _).answer := by
  have hsort := StableSort.sortBy_perm (fun s : UnitsAt × ℕ => s.1.basis) part.zipIdx
  have hperm : ((StableSort.sortBy (fun s => s.1.basis) part.zipIdx).map Prod.fst).Perm part := by
    have hmap := hsort.map Prod.fst
    rwa [List.zipIdx_map_fst] at hmap
  have hnone : (AcquiredUnits.sum D (([] : List UnitsAt).map count) : Attempt Failure _).answer =
      .ok .zero := rfl
  have hsorted : ((StableSort.sortBy (fun s : UnitsAt × ℕ => s.1.basis) part.zipIdx).map
      Prod.fst).Pairwise fun a b => a.basis ≤ b.basis :=
    List.pairwise_map.mpr (StableSort.sortBy_sorted _ _)
  have hwalk := H.walkSales_answer hpart hearlier hperm hsorted hnone
  have hunits : (D.acquiredUnitsOfSales splits acquired parcel part : Attempt Failure _).answer =
      .ok (part.map count) := by
    unfold DecimalRounding.acquiredUnitsOfSales
    rw [answer_bind_of hwalk]
    exact congrArg Except.ok (StableSort.sortBy_indexed count hsort)
  rw [DecimalRounding.soldInAcquiredUnits, answer_bind_of hunits]

theorem fraction_one {num : ℚ} {u : AcquiredUnits}
    (h : (AcquiredUnits.fraction D num 1 : Attempt Failure _).answer = .ok u) : u.den = 1 := by
  rw [AcquiredUnits.fraction, if_pos rfl] at h
  rw [← answer_pure.mp h]
  rfl

theorem add_den_one {u v w : AcquiredUnits} (hu : u.den = 1) (hv : v.den = 1)
    (h : (AcquiredUnits.add D u v : Attempt Failure _).Yields w) : w.den = 1 := by
  unfold AcquiredUnits.add AcquiredUnits.combine AcquiredUnits.overCommonDenominator at h
  rw [if_pos (hu.trans hv.symm), hu] at h
  obtain ⟨_, ho, h⟩ := yields_bind.mp h
  obtain rfl := yields_pure.mp ho
  obtain ⟨_, hn, h⟩ := yields_bind.mp h
  obtain ⟨rfl, -⟩ := DecimalRounding.of_yields_checked hn
  exact fraction_one h.1

/-- Counts whole in the parcel's own basis add up to one figure. -/
theorem sum_den_one {us : List AcquiredUnits} (hus : ∀ u ∈ us, u.den = 1) {total : AcquiredUnits}
    (h : (AcquiredUnits.sum D us : Attempt Failure _).Yields total) : total.den = 1 := by
  have hfold : ∀ (acc : AcquiredUnits), acc.den = 1 →
      (us.foldlM (AcquiredUnits.add D) acc : Attempt Failure _).Yields total → total.den = 1 := by
    clear h
    induction us with
    | nil =>
      intro acc hacc h
      exact yields_pure.mp h ▸ hacc
    | cons u us ih =>
      obtain ⟨hu, hrest⟩ := List.forall_mem_cons.mp hus
      intro acc hacc h
      rw [List.foldlM_cons] at h
      obtain ⟨next, hnext, h⟩ := yields_bind.mp h
      exact ih hrest next (add_den_one hacc hu hnext) h
  exact hfold .zero rfl h

/-- The counts come to the same, in whatever order they are added. -/
theorem TakesCounts.sum_perm (H : TakesCounts D splits acquired parcel sales count)
    (hpart : part.Subperm sales) (horder : order.Perm part) {total total' : AcquiredUnits}
    (h : (AcquiredUnits.sum D (part.map count) : Attempt Failure _).Yields total)
    (h' : (AcquiredUnits.sum D (order.map count) : Attempt Failure _).Yields total') :
    total'.value = total.value ∧ 0 < total.den ∧ 0 < total'.den := by
  have hden : ∀ l : List UnitsAt, l.Subperm sales → ∀ u ∈ l.map count, 0 < u.den := by
    intro l hl u hu
    obtain ⟨s, hs, rfl⟩ := List.mem_map.mp hu
    exact (H.reads s (hl.subset hs)).2
  obtain ⟨hvalue, hpos⟩ := AcquiredUnits.sum_yields (hden part hpart) h
  obtain ⟨hvalue', hpos'⟩ :=
    AcquiredUnits.sum_yields (hden order (horder.subperm.trans hpart)) h'
  refine ⟨?_, hpos, hpos'⟩
  rw [hvalue, hvalue', ((horder.map count).map AcquiredUnits.value).sum_eq]

theorem eq_of_den_one {u v : AcquiredUnits} (hu : u.den = 1) (hv : v.den = 1)
    (h : u.value = v.value) : u = v := by
  obtain ⟨num, den⟩ := u
  obtain ⟨num', den'⟩ := v
  simp only [AcquiredUnits.value] at h hu hv
  subst hu hv
  rw [div_one, div_one] at h
  rw [h]

/-- What counts that add up leave of the parcel. -/
theorem sub_of_succeeds {counts : List AcquiredUnits} {total : AcquiredUnits}
    (hparcel : 0 < parcel.den) (hden : 0 < total.den)
    (hsum : (AcquiredUnits.sum D counts : Attempt Failure _).Yields total)
    (h : (do AcquiredUnits.sub D parcel (← AcquiredUnits.sum D counts) :
      Attempt Failure _).succeeds = true) :
    ∃ left, (AcquiredUnits.sub D parcel total : Attempt Failure _).Yields left ∧
      left.value = parcel.value - total.value := by
  obtain ⟨left, hleft⟩ := Attempt.succeeds_iff.mp h
  obtain ⟨total', hsum', hleft⟩ := yields_bind.mp hleft
  obtain rfl := Except.ok.inj (hsum.1.symm.trans hsum'.1)
  exact ⟨left, hleft, (AcquiredUnits.sub_yields hparcel hden hleft).1⟩

/-- The sales before one up to a date are all up to it. -/
theorem earlier_within {sales part : List UnitsAt} {date : NaiveDate}
    (hpart : part.Perm (sales.filter fun s => s.basis ≤ date)) :
    ∀ s ∈ part, (sales.filter fun b => b.basis < s.basis).Subperm
      (part.filter fun b => b.basis < s.basis) := by
  intro s hs
  have hle : s.basis ≤ date := of_decide_eq_true (List.mem_filter.mp (hpart.mem_iff.mp hs)).2
  have hwithin : (sales.filter fun b => b.basis < s.basis) =
      (sales.filter fun b => b.basis ≤ date).filter fun b => b.basis < s.basis := by
    rw [List.filter_filter]
    refine List.filter_congr fun b _ => ?_
    have hlt : b.basis < s.basis → b.basis ≤ date := fun h => h.le.trans hle
    simpa using hlt
  rw [hwithin]
  exact (hpart.symm.filter _).subperm

/-- Where every sale is owed its own count, the order shows nowhere. -/
theorem TakesCounts.orderFree (H : TakesCounts D splits acquired parcel sales count)
    (hden : 0 < parcel.den) : OrderFree D splits acquired parcel sales := by
  intro order horder
  have hsold : ∀ (l : List UnitsAt), l.Perm sales →
      (D.soldInAcquiredUnits splits acquired parcel l : Attempt Failure _).answer =
        (AcquiredUnits.sum D (l.map count) : Attempt Failure _).answer :=
    fun l hl => H.sold_answer hl.subperm fun s _ => (hl.symm.filter _).subperm
  constructor
  · obtain ⟨total, htotal⟩ := H.sum_answer (.refl sales)
    obtain ⟨total', htotal'⟩ := H.sum_answer horder.subperm
    obtain ⟨hvalue, -⟩ := H.sum_perm (.refl sales) horder htotal htotal'
    rw [totalSold, totalSold, answer_bind_of ((hsold order horder).trans htotal'.1),
      answer_bind_of ((hsold sales (.refl sales)).trans htotal.1), hvalue]
  · intro date
    have hpart : (sales.filter fun s => s.basis ≤ date).Subperm sales := List.filter_sublist.subperm
    have hupto : (order.filter fun s => s.basis ≤ date).Perm (sales.filter fun s => s.basis ≤ date) :=
      horder.filter _
    obtain ⟨total, htotal⟩ := H.sum_answer hpart
    obtain ⟨total', htotal'⟩ := H.sum_answer (hupto.subperm.trans hpart)
    obtain ⟨hvalue, hpos, hpos'⟩ := H.sum_perm hpart hupto htotal htotal'
    rw [remainder, remainder,
      answer_bind_of ((H.sold_answer (hupto.subperm.trans hpart) (earlier_within hupto)).trans
        htotal'.1),
      answer_bind_of ((H.sold_answer hpart (earlier_within (.refl _))).trans htotal.1)]
    rcases H.leaves with hone | hexact
    · have hones : ∀ l : List UnitsAt, l.Subperm sales → ∀ u ∈ l.map count, u.den = 1 := by
        intro l hl u hu
        obtain ⟨s, hs, rfl⟩ := List.mem_map.mp hu
        exact hone s (hl.subset hs)
      have hone' := sum_den_one (hones _ (hupto.subperm.trans hpart)) htotal'
      have hone := sum_den_one (hones _ hpart) htotal
      rw [eq_of_den_one hone' hone hvalue]
    · obtain ⟨left, hsub, hleftv⟩ := sub_of_succeeds hden hpos htotal (hexact _ hpart)
      obtain ⟨left', hsub', hleftv'⟩ :=
        sub_of_succeeds hden hpos' htotal' (hexact _ (hupto.subperm.trans hpart))
      rw [answer_bind_of hsub.1, answer_bind_of hsub'.1, hleftv, hleftv', hvalue]

end Rounded

/-- Equal sales of a day, read with the dates in one order, are read in one order. -/
theorem EqualInDay.order_eq {sales order : List UnitsAt} (h : EqualInDay sales)
    (horder : order.Perm sales) (hdates : order.map UnitsAt.basis = sales.map UnitsAt.basis) :
    order = sales := by
  refine List.ext_getElem horder.length_eq fun i hi hi' => ?_
  refine h _ (horder.mem_iff.mp (List.getElem_mem hi)) _ (List.getElem_mem hi') ?_
  have hat := congrArg (fun dates => dates[i]?) hdates
  simpa [hi, hi'] using hat

/-- The order the sales are read in shows nowhere: whatever rounds, where only equal
sales of a day change places, and where every sale is owed its own count; and where
nothing rounds, exactly where the days agree. -/
theorem orderFree_iff_daysAgree (D : DecimalRounding) (splits : List SplitEvent)
    (acquired : NaiveDate) (parcel : AcquiredUnits) (sales : List UnitsAt)
    (hden : 0 < parcel.den) (hpos : ∀ s ∈ sales, 0 < s.quantity.value) :
    (EqualInDay sales → ∀ order : List UnitsAt, order.Perm sales →
      order.map UnitsAt.basis = sales.map UnitsAt.basis →
        SameUnits D splits acquired parcel order sales) ∧
    (∀ count, TakesCounts D splits acquired parcel sales count →
      OrderFree D splits acquired parcel sales) ∧
    (RoundsNowhere D splits acquired parcel sales →
      (OrderFree D splits acquired parcel sales ↔
        DaysAgree D splits acquired parcel.value sales)) := by
  refine ⟨?_, fun count H => H.orderFree hden, fun hexact => ?_⟩
  · intro hequal order horder hdates
    rw [hequal.order_eq horder hdates]
    exact ⟨rfl, fun date => rfl⟩
  · rw [daysAgree_iff hpos]
    constructor
    · intro hfree date
      -- the remainder at the date, with the day's sales read last in either order
      have hread : ∀ order : List UnitsAt, order.Perm (day sales date) →
          (remainder D splits acquired parcel sales date).answer =
            .ok (EmptyingWalk.remaining (leftBefore D splits acquired parcel.value sales date)
              (order.map (saleDraw D splits acquired))) := by
        intro order horder
        have hperm := dayLast_perm horder
        rw [← (hfree _ hperm).2 date, remainder_answer hden ((hexact _ hperm).2 date),
          unitsLeft_dayLast horder]
      intro order horder
      exact Except.ok.inj ((hread order horder).symm.trans (hread _ (.refl _)))
    · intro hagree order horder
      obtain ⟨htotal, hremainder⟩ := hexact order horder
      obtain ⟨htotal', hremainder'⟩ := hexact sales (.refl sales)
      refine ⟨?_, fun date => ?_⟩
      · rw [totalSold_answer hden htotal, totalSold_answer hden htotal',
          unitsLeft_perm hagree horder]
      · rw [remainder_answer hden (hremainder date), remainder_answer hden (hremainder' date),
          unitsLeft_upto_perm hagree horder date]

/-! ### Two sales on the day that empties a parcel -/

theorem seven_pos : (0 : ℚ) < 7 := by norm_num

theorem three_pos : (0 : ℚ) < 3 := by norm_num

def sevenForThree : SplitEvent := .shareSplit (ymd 2024 3 1) 7 3 seven_pos three_pos

/-- One unit, and all that the schedule shows left after it. -/
def oneUnit : UnitsAt := ⟨.new 1 0, ymd 2024 6 3⟩

def shownLeft : UnitsAt := ⟨.new 23466666666666666666666666667 26, ymd 2024 6 3⟩

/-- The parcel of 101 units bought before the split. -/
abbrev soldOf (order : List UnitsAt) : Attempt Failure ℚ :=
  totalSold halfEvenRounding [sevenForThree] (ymd 2024 1 1) (.new 101) order

abbrev leftOn (date : NaiveDate) (order : List UnitsAt) : Attempt Failure ℚ :=
  remainder halfEvenRounding [sevenForThree] (ymd 2024 1 1) (.new 101) order date

theorem sameDay_answers :
    ((soldOf [oneUnit, shownLeft]).answer = .ok 101 ∧
      (soldOf [shownLeft, oneUnit]).answer = .ok (101 + 1 / (7 * 10 ^ 26))) ∧
    ∀ order ∈ [[oneUnit, shownLeft], [shownLeft, oneUnit]],
      (soldOf order).succeeds = true ∧
        ∀ date ∈ [ymd 2024 6 2, ymd 2024 6 3], (leftOn date order).succeeds = true := by
  decide +kernel

/-- A date is before both sales or after them. -/
theorem leftOn_cases {order : List UnitsAt} (horder : order.Perm [oneUnit, shownLeft])
    (date : NaiveDate) :
    leftOn date order = leftOn (ymd 2024 6 2) order ∨
      leftOn date order = leftOn (ymd 2024 6 3) order := by
  have hbasis : ∀ s ∈ order, s.basis = ymd 2024 6 3 := by
    intro s hs
    rcases List.mem_pair.mp (horder.mem_iff.mp hs) with rfl | rfl
    · rfl
    · rfl
  have hsame : ∀ date', (ymd 2024 6 3 ≤ date ↔ ymd 2024 6 3 ≤ date') →
      leftOn date order = leftOn date' order := by
    intro date' h
    have hfilter : (order.filter fun s => s.basis ≤ date) = order.filter fun s => s.basis ≤ date' :=
      List.filter_congr fun s hs => decide_eq_decide.mpr (hbasis s hs ▸ h)
    rw [leftOn, leftOn, remainder, remainder, hfilter]
  by_cases hafter : ymd 2024 6 3 ≤ date
  · exact .inr (hsame _ (iff_of_true hafter le_rfl))
  · exact .inl (hsame _ (iff_of_false hafter (by decide)))

theorem sameDay_roundsNowhere :
    RoundsNowhere halfEvenRounding [sevenForThree] (ymd 2024 1 1) (.new 101)
      [oneUnit, shownLeft] := by
  intro order horder
  have hmem : order ∈ [[oneUnit, shownLeft], [shownLeft, oneUnit]] :=
    List.mem_permutations'.mpr horder
  obtain ⟨hsold, hleft⟩ := sameDay_answers.2 order hmem
  refine ⟨hsold, fun date => ?_⟩
  rcases leftOn_cases horder date with h | h
  · exact (congrArg Attempt.succeeds h).trans (hleft _ (by simp))
  · exact (congrArg Attempt.succeeds h).trans (hleft _ (by simp))

theorem sameDay_pos : ∀ s ∈ [oneUnit, shownLeft], 0 < s.quantity.value := by decide +kernel

theorem orderFree_iff_daysAgree_twoSales :
    OrderFree halfEvenRounding [sevenForThree] (ymd 2024 1 1) (.new 101) [oneUnit, shownLeft] ↔
      DaysAgree halfEvenRounding [sevenForThree] (ymd 2024 1 1) (AcquiredUnits.new 101).value
        [oneUnit, shownLeft] :=
  (orderFree_iff_daysAgree halfEvenRounding [sevenForThree] (ymd 2024 1 1) (.new 101)
    [oneUnit, shownLeft] one_pos sameDay_pos).2.2 sameDay_roundsNowhere

/-- Asked last, the second sale takes what is left; asked first, it takes its own
count, and more than the parcel is sold. -/
theorem sameDay_order_shows :
    ¬ ∀ (splits : List SplitEvent) (acquired : NaiveDate) (parcel : AcquiredUnits)
        (sales : List UnitsAt), 0 < parcel.den → (∀ s ∈ sales, 0 < s.quantity.value) →
      OrderFree halfEvenRounding splits acquired parcel sales := by
  intro h
  obtain ⟨hfirst, hlast⟩ := sameDay_answers.1
  have hfree := h [sevenForThree] (ymd 2024 1 1) (.new 101) [oneUnit, shownLeft] one_pos
    sameDay_pos
  have hsame := (hfree [shownLeft, oneUnit] (.swap oneUnit shownLeft [])).1
  rw [hfirst, hlast] at hsame
  have hvalue := Except.ok.inj hsame
  norm_num at hvalue

end ShareTracker.SameDaySales
