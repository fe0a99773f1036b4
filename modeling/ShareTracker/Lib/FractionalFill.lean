import Mathlib

/-!
# Filling a pool by fractions

Items are taken in fractions. A fraction of an item saves and weighs in
proportion, and weight past the room of the pool costs as much again. The
saving left unclaimed and the weight past the room make the cost of a choice.
-/
namespace FractionalFill

section Taken
variable {ι k : Type*} [Fintype ι] [CommRing k]

/-- What a choice takes of a measure of the items. -/
def taken (measure : ι → k) (fraction : ι → k) : k := ∑ i, measure i * fraction i

theorem taken_update [DecidableEq ι] (measure fraction : ι → k) (i : ι) (x : k) :
    taken measure (Function.update fraction i x) =
      taken measure fraction + measure i * (x - fraction i) := by
  have hdiff : taken measure (Function.update fraction i x) - taken measure fraction =
      ∑ j, if j = i then measure i * (x - fraction i) else 0 := by
    rw [taken, taken, ← Finset.sum_sub_distrib]
    refine Finset.sum_congr rfl fun j _ => ?_
    by_cases hj : j = i
    · rw [if_pos hj, hj, Function.update_self]
      ring
    · rw [if_neg hj, Function.update_of_ne hj, sub_self]
  rw [Finset.sum_ite_eq' Finset.univ i, if_pos (Finset.mem_univ i)] at hdiff
  exact (sub_eq_iff_eq_add'.mp hdiff)

end Taken

variable {ι k : Type*} [Fintype ι] [Field k] [LinearOrder k] [IsStrictOrderedRing k]

/-- The cost of taking `saved` out of `total` and `weighed` into a pool of `room`. -/
def cost (total room saved weighed : k) : k := max (total - saved) 0 + max (weighed - room) 0

theorem cost_nonneg (total room saved weighed : k) : 0 ≤ cost total room saved weighed :=
  add_nonneg (le_max_right _ _) (le_max_right _ _)

theorem cost_of_fits {total room saved weighed : k} (h : weighed ≤ room) :
    cost total room saved weighed = max (total - saved) 0 := by
  rw [cost, max_eq_right (sub_nonpos.mpr h), add_zero]

theorem cost_of_over {total room saved weighed : k} (hroom : room ≤ weighed)
    (hsaved : saved ≤ total) :
    cost total room saved weighed = total - saved + (weighed - room) := by
  rw [cost, max_eq_left (sub_nonneg.mpr hroom), max_eq_left (sub_nonneg.mpr hsaved)]

/-- Saving more within the room costs no more. -/
theorem cost_anti {total room saved saved' weighed weighed' : k} (hs : saved ≤ saved')
    (hfits : weighed' ≤ room) :
    cost total room saved' weighed' ≤ cost total room saved weighed := by
  rw [cost_of_fits hfits]
  calc max (total - saved') 0 ≤ max (total - saved) 0 :=
        max_le_max (sub_le_sub_left hs total) le_rfl
    _ ≤ cost total room saved weighed := le_add_of_nonneg_right (le_max_right _ _)

section Price
variable {saving weight choice bound : ι → k} {total room price : k}

/-- **Weak duality.** With the room priced between nothing and its own cost, a
choice that takes every item worth its price and no other is beaten by no
choice of fractions. -/
theorem priced_le_cost (hprice : 0 ≤ price) (hcap : price ≤ 1)
    (hchoice : ∀ i, (choice i = 1 ∧ price * weight i ≤ saving i) ∨
      (choice i = 0 ∧ saving i ≤ price * weight i) ∨ saving i = price * weight i)
    (hbound : ∀ i, 0 ≤ bound i ∧ bound i ≤ 1) :
    total - taken saving choice + price * (taken weight choice - room) ≤
      cost total room (taken saving bound) (taken weight bound) := by
  have hworth : taken saving bound - price * taken weight bound ≤
      taken saving choice - price * taken weight choice := by
    simp only [taken, Finset.mul_sum, ← Finset.sum_sub_distrib]
    refine Finset.sum_le_sum fun i _ => ?_
    obtain ⟨hnonneg, hone⟩ := hbound i
    rcases hchoice i with ⟨htaken, hpays⟩ | ⟨hleft, hcosts⟩ | hequal
    · rw [htaken]
      nlinarith [mul_le_mul_of_nonneg_left hone (sub_nonneg.mpr hpays)]
    · rw [hleft]
      nlinarith [mul_nonneg hnonneg (sub_nonneg.mpr hcosts)]
    · apply le_of_eq
      rw [hequal]
      ring
  have hover : price * (taken weight bound - room) ≤ max (taken weight bound - room) 0 := by
    rcases le_total 0 (taken weight bound - room) with hpos | hneg
    · exact (mul_le_of_le_one_left hpos hcap).trans (le_max_left _ _)
    · exact (mul_nonpos_of_nonneg_of_nonpos hprice hneg).trans (le_max_right _ _)
  have hleft : total - taken saving bound ≤ max (total - taken saving bound) 0 := le_max_left _ _
  rw [cost]
  linarith

end Price

end FractionalFill
