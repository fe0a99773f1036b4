import ShareTracker.AcquiredUnits
import ShareTracker.Lib.EmptyingWalk
import ShareTracker.Lib.StableSort

/-!
The sales out of one parcel, walked in date order in its as-acquired units: a
sale stating exactly what the remainder re-bases to takes exactly the remainder.
-/
namespace ShareTracker

section Walk
variable {ε : Type} [Panics ε] (D : DecimalRounding) (splits : List SplitEvent)
  (acquired : NaiveDate)

namespace DecimalRounding

/-- The units one sale takes where `left` are left. -/
def saleUnits (left : AcquiredUnits) (sale : UnitsAt) : Attempt ε AcquiredUnits := do
  if ← AcquiredUnits.lt D .zero left then
    if (← D.splitAdjustedQuantity left splits acquired sale.basis) = sale.quantity.value then
      return left
    else D.asAcquiredQuantity sale splits acquired
  else D.asAcquiredQuantity sale splits acquired

def walkSales (parcel : AcquiredUnits) (sold : AcquiredUnits) :
    List (UnitsAt × ℕ) → Attempt ε (List (ℕ × AcquiredUnits))
  | [] => pure []
  | (sale, i) :: rest => do
      let left ← AcquiredUnits.sub D parcel sold
      let units ← D.saleUnits splits acquired left sale
      let sold ← AcquiredUnits.add D sold units
      return (i, units) :: (← walkSales parcel sold rest)

/-- Each sale out of the parcel in its as-acquired units, in the order given;
the walk itself takes them by date, same-day sales in that order. -/
def acquiredUnitsOfSales (parcel : AcquiredUnits) (sales : List UnitsAt) :
    Attempt ε (List AcquiredUnits) := do
  let order := StableSort.sortBy (fun s => s.1.basis) sales.zipIdx
  let drawn ← D.walkSales splits acquired parcel .zero order
  return (StableSort.sortBy Prod.fst drawn).map Prod.snd

def soldInAcquiredUnits (parcel : AcquiredUnits) (sales : List UnitsAt) :
    Attempt ε AcquiredUnits := do
  AcquiredUnits.sum D (← D.acquiredUnitsOfSales splits acquired parcel sales)

end DecimalRounding

/-- A sale as a draw on the parcel: printed in its own date's basis. -/
def saleDraw (sale : UnitsAt) : EmptyingWalk.Draw ℚ ℚ where
  print := fun units => D.round (units * basisFactor splits acquired sale.basis)
  stated := sale.quantity.value
  read := restated D sale.quantity (basisFactor splits acquired sale.basis)
  print_mono := fun _ _ h =>
    D.round_mono (mul_le_mul_of_nonneg_right h (basisFactor_pos splits acquired sale.basis).le)
  print_read := round_restated D sale.quantity (basisFactor_pos splits acquired sale.basis)

/-- The sales as draws, in date order. -/
def draws (sales : List UnitsAt) : List (EmptyingWalk.Draw ℚ ℚ) :=
  (StableSort.sortBy UnitsAt.basis sales).map (saleDraw D splits acquired)

/-- The as-acquired units the sales leave of `quantity`. -/
noncomputable def unitsLeft (quantity : ℚ) (sales : List UnitsAt) : ℚ :=
  EmptyingWalk.remaining quantity (draws D splits acquired sales)

theorem draws_pos {sales : List UnitsAt} (h : ∀ s ∈ sales, 0 < s.quantity.value) :
    ∀ d ∈ draws D splits acquired sales, 0 < d.read := by
  intro d hd
  obtain ⟨s, hs, rfl⟩ := List.mem_map.mp hd
  exact restated_pos D (basisFactor_pos splits acquired s.basis) (h s (StableSort.mem_sortBy.mp hs))

/-- A parcel that covers the sales of `rows` covers what is kept of them. -/
theorem unitsLeft_filter {ρ : Type*} (sale : ρ → UnitsAt) (quantity : ℚ) {rows : List ρ}
    (h : ∀ r ∈ rows, 0 < (sale r).quantity.value) (keep : ρ → Bool) :
    unitsLeft D splits acquired quantity (rows.map sale) ≤
      unitsLeft D splits acquired quantity ((rows.filter keep).map sale) := by
  have hpos : ∀ s ∈ rows.map sale, 0 < s.quantity.value := by
    intro s hs
    obtain ⟨r, hr, rfl⟩ := List.mem_map.mp hs
    exact h r hr
  refine EmptyingWalk.remaining_sublist ?_ (draws_pos D splits acquired hpos) quantity
  exact (StableSort.sortBy_filter_sublist sale UnitsAt.basis keep rows).map _

@[simp] theorem unitsLeft_nil (quantity : ℚ) : unitsLeft D splits acquired quantity [] = quantity :=
  rfl

variable {splits} in
/-- The events reach a parcel's sales through the factors to their dates alone. -/
theorem unitsLeft_congr {splits' : List SplitEvent} {quantity : ℚ} {sales : List UnitsAt}
    (h : ∀ s ∈ sales, basisFactor splits acquired s.basis = basisFactor splits' acquired s.basis) :
    unitsLeft D splits acquired quantity sales = unitsLeft D splits' acquired quantity sales := by
  have hdraws : draws D splits acquired sales = draws D splits' acquired sales := by
    refine List.map_congr_left fun s hs => ?_
    have hs' := h s (StableSort.mem_sortBy.mp hs)
    unfold saleDraw
    simp only [hs']
  rw [unitsLeft, hdraws, unitsLeft]

end Walk

section Exact
variable {ε : Type} [Panics ε] {D : DecimalRounding} {splits : List SplitEvent}
  {acquired : NaiveDate}

theorem saleUnits_yields {left units : AcquiredUnits} {sale : UnitsAt} (hleft : 0 < left.den)
    (h : (D.saleUnits splits acquired left sale : Attempt ε _).Yields units) :
    units.value = (saleDraw D splits acquired sale).units left.value ∧ 0 < units.den := by
  unfold DecimalRounding.saleUnits at h
  obtain ⟨open_, hopen, h⟩ := yields_bind.mp h
  obtain rfl := AcquiredUnits.lt_yields one_pos hleft hopen
  rw [AcquiredUnits.zero_value] at h
  split at h
  · rename_i hpos
    have hpos' := of_decide_eq_true hpos
    obtain ⟨figure, hfigure, h⟩ := yields_bind.mp h
    have hprint := splitAdjustedQuantity_yields hfigure
    split at h
    · rename_i hsame
      rw [← yields_pure.mp h]
      have hall : (saleDraw D splits acquired sale).units left.value = left.value :=
        EmptyingWalk.Draw.units_of_prints hpos' (hprint.symm.trans hsame)
      exact ⟨hall.symm, hleft⟩
    · rename_i hdiff
      obtain ⟨hvalue, hden⟩ := asAcquiredQuantity_yields h
      refine ⟨hvalue.trans (if_neg ?_).symm, hden⟩
      rintro ⟨-, hsame⟩
      exact hdiff (hprint.trans hsame)
  · rename_i hnot
    obtain ⟨hvalue, hden⟩ := asAcquiredQuantity_yields h
    refine ⟨hvalue.trans (if_neg ?_).symm, hden⟩
    rintro ⟨hpos, -⟩
    exact hnot (decide_eq_true hpos)

theorem walkSales_yields {parcel sold : AcquiredUnits} {sales : List (UnitsAt × ℕ)}
    {drawn : List (ℕ × AcquiredUnits)} (hparcel : 0 < parcel.den) (hsold : 0 < sold.den)
    (h : (D.walkSales splits acquired parcel sold sales : Attempt ε _).Yields drawn) :
    drawn.map Prod.fst = sales.map Prod.snd ∧
      drawn.map (fun d => d.2.value) = EmptyingWalk.taken (parcel.value - sold.value)
        (sales.map fun s => saleDraw D splits acquired s.1) ∧
      ∀ d ∈ drawn, 0 < d.2.den := by
  induction sales generalizing sold drawn with
  | nil =>
    rw [← yields_pure.mp h]
    exact ⟨rfl, rfl, fun d hd => absurd hd List.not_mem_nil⟩
  | cons s sales ih =>
    obtain ⟨sale, i⟩ := s
    unfold DecimalRounding.walkSales at h
    obtain ⟨left, hleft, h⟩ := yields_bind.mp h
    obtain ⟨units, hunits, h⟩ := yields_bind.mp h
    obtain ⟨sold', hsold', h⟩ := yields_bind.mp h
    obtain ⟨rest, hrest, h⟩ := yields_bind.mp h
    obtain ⟨hleftv, hleftd⟩ := AcquiredUnits.sub_yields hparcel hsold hleft
    obtain ⟨hunitsv, hunitsd⟩ := saleUnits_yields hleftd hunits
    obtain ⟨hsoldv, hsoldd⟩ := AcquiredUnits.add_yields hsold hunitsd hsold'
    obtain ⟨hidx, htaken, hdens⟩ := ih hsoldd hrest
    have hafter : EmptyingWalk.after (parcel.value - sold.value) (saleDraw D splits acquired sale) =
        parcel.value - sold'.value := by
      rw [EmptyingWalk.after, hsoldv, hunitsv, hleftv]
      ring
    rw [← yields_pure.mp h]
    refine ⟨?_, ?_, ?_⟩
    · rw [List.map_cons, List.map_cons, hidx]
    · rw [List.map_cons, List.map_cons, EmptyingWalk.taken, htaken, hafter, hunitsv, hleftv]
    · intro d hd
      rcases List.mem_cons.mp hd with rfl | hd
      · exact hunitsd
      · exact hdens d hd

theorem draws_zipIdx (sales : List UnitsAt) :
    (StableSort.sortBy (fun s => s.1.basis) sales.zipIdx).map
      (fun s => saleDraw D splits acquired s.1) = draws D splits acquired sales := by
  have hmap : (StableSort.sortBy (fun s => s.1.basis) sales.zipIdx).map Prod.fst =
      StableSort.sortBy UnitsAt.basis (sales.zipIdx.map Prod.fst) :=
    StableSort.map_sortBy Prod.fst (fun _ => rfl) sales.zipIdx
  rw [List.zipIdx_map_fst] at hmap
  rw [draws, ← hmap, List.map_map]
  rfl

/-- Where nothing rounds, the units counted as sold are what the walk took. -/
theorem soldInAcquiredUnits_yields {parcel total : AcquiredUnits} {sales : List UnitsAt}
    (hparcel : 0 < parcel.den)
    (h : (D.soldInAcquiredUnits splits acquired parcel sales : Attempt ε _).Yields total) :
    total.value = parcel.value - unitsLeft D splits acquired parcel.value sales ∧
      0 < total.den := by
  unfold DecimalRounding.soldInAcquiredUnits DecimalRounding.acquiredUnitsOfSales at h
  obtain ⟨us, hus, h⟩ := yields_bind.mp h
  obtain ⟨drawn, hdrawn, hus⟩ := yields_bind.mp hus
  obtain rfl := yields_pure.mp hus
  obtain ⟨-, htaken, hdens⟩ := walkSales_yields hparcel one_pos hdrawn
  have hperm := StableSort.sortBy_perm Prod.fst drawn
  have hpos : ∀ u ∈ (StableSort.sortBy Prod.fst drawn).map Prod.snd, 0 < u.den := by
    intro u hu
    obtain ⟨d, hd, rfl⟩ := List.mem_map.mp hu
    exact hdens d (StableSort.mem_sortBy.mp hd)
  obtain ⟨htotal, hden⟩ := AcquiredUnits.sum_yields hpos h
  refine ⟨?_, hden⟩
  have hsum : ((StableSort.sortBy Prod.fst drawn).map (fun d => d.2.value)).sum =
      (drawn.map fun d => d.2.value).sum := (hperm.map _).sum_eq
  rw [htotal, List.map_map]
  refine hsum.trans ?_
  rw [htaken, draws_zipIdx, AcquiredUnits.zero_value, sub_zero, EmptyingWalk.sum_taken]
  rfl

end Exact

end ShareTracker
