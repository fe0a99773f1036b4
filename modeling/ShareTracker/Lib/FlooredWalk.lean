import Mathlib

/-!
# Balances drawn down and floored at nil

A balance meets a list of rows in order. Each row takes its amount off and the
balance stops at nil; what a row takes past nil is its excess.
-/
namespace FlooredWalk

variable {α ρ : Type*} [AddCommGroup α] [LinearOrder α] [IsOrderedAddMonoid α]

/-- The balance one amount leaves. -/
def draw (balance amount : α) : α := max (balance - amount) 0

theorem draw_of_le {balance amount : α} (h : amount ≤ balance) :
    draw balance amount = balance - amount := max_eq_left (sub_nonneg.mpr h)

theorem draw_of_lt {balance amount : α} (h : balance < amount) : draw balance amount = 0 :=
  max_eq_right (sub_nonpos.mpr h.le)

omit [IsOrderedAddMonoid α] in
theorem draw_nonneg (balance amount : α) : 0 ≤ draw balance amount := le_max_right _ _

theorem draw_zero {balance : α} (h : 0 ≤ balance) : draw balance 0 = balance := by
  rw [draw_of_le h, sub_zero]

variable (amount : ρ → α)

/-- Every row with the balance it meets. -/
def steps (balance : α) : List ρ → List (ρ × α)
  | [] => []
  | r :: rs => (r, balance) :: steps (draw balance (amount r)) rs

/-- The balance left after the last row. -/
def final (balance : α) : List ρ → α
  | [] => balance
  | r :: rs => final (draw balance (amount r)) rs

omit [IsOrderedAddMonoid α] in
theorem steps_map_fst (balance : α) (rows : List ρ) :
    (steps amount balance rows).map Prod.fst = rows := by
  induction rows generalizing balance with
  | nil => rfl
  | cons r rs ih => rw [steps, List.map_cons, ih]

/-- The rows that run past nil, each with the balance it met. -/
def overruns (balance : α) (rows : List ρ) : List (ρ × α) :=
  (steps amount balance rows).filter fun s => s.2 < amount s.1

theorem overruns_cons_of_le {balance : α} {r : ρ} (h : amount r ≤ balance) (rs : List ρ) :
    overruns amount balance (r :: rs) = overruns amount (balance - amount r) rs := by
  simp only [overruns, steps, draw_of_le h]
  exact List.filter_cons_of_neg (by simpa using h)

theorem overruns_cons_of_lt {balance : α} {r : ρ} (h : balance < amount r) (rs : List ρ) :
    overruns amount balance (r :: rs) = (r, balance) :: overruns amount 0 rs := by
  simp only [overruns, steps, draw_of_lt h]
  exact List.filter_cons_of_pos (by simpa using h)

omit [IsOrderedAddMonoid α] in
theorem final_nonneg {balance : α} (h : 0 ≤ balance) (rows : List ρ) :
    0 ≤ final amount balance rows := by
  induction rows generalizing balance with
  | nil => exact h
  | cons r rs ih => exact ih (draw_nonneg balance (amount r))

/-- What the rows take in all is what the balance lost and what ran past nil. -/
theorem conserves (balance : α) (rows : List ρ) :
    balance - (rows.map amount).sum = final amount balance rows -
      ((overruns amount balance rows).map fun s => amount s.1 - s.2).sum := by
  induction rows generalizing balance with
  | nil => simp [final, overruns, steps]
  | cons r rs ih =>
    rcases le_or_gt (amount r) balance with h | h
    · rw [overruns_cons_of_le amount h, final, draw_of_le h, ← ih, List.map_cons, List.sum_cons]
      abel
    · rw [overruns_cons_of_lt amount h, final, draw_of_lt h, List.map_cons, List.sum_cons,
        List.map_cons, List.sum_cons]
      have := ih 0
      rw [zero_sub] at this
      calc balance - (amount r + (rs.map amount).sum)
          = (balance - amount r) + -(rs.map amount).sum := by abel
        _ = _ := by rw [this]; abel

/-- Rows of nil amount neither move the balance nor run past it. -/
theorem final_filter {balance : α} (hb : 0 ≤ balance) {keep : ρ → Bool} {rows : List ρ}
    (h : ∀ r ∈ rows, keep r = false → amount r = 0) :
    final amount balance (rows.filter keep) = final amount balance rows := by
  induction rows generalizing balance with
  | nil => rfl
  | cons r rs ih =>
    have hrs : ∀ r ∈ rs, keep r = false → amount r = 0 :=
      fun x hx => h x (List.mem_cons_of_mem r hx)
    cases hk : keep r with
    | true =>
      rw [List.filter_cons_of_pos hk]
      exact ih (draw_nonneg _ _) hrs
    | false =>
      rw [List.filter_cons_of_neg (by simp [hk]), ih hb hrs, final,
        h r List.mem_cons_self hk, draw_zero hb]

theorem overruns_filter {balance : α} (hb : 0 ≤ balance) {keep : ρ → Bool} {rows : List ρ}
    (h : ∀ r ∈ rows, keep r = false → amount r = 0) :
    overruns amount balance (rows.filter keep) = overruns amount balance rows := by
  induction rows generalizing balance with
  | nil => rfl
  | cons r rs ih =>
    have hrs : ∀ r ∈ rs, keep r = false → amount r = 0 :=
      fun x hx => h x (List.mem_cons_of_mem r hx)
    cases hk : keep r with
    | true =>
      rw [List.filter_cons_of_pos hk]
      rcases le_or_gt (amount r) balance with hle | hlt
      · rw [overruns_cons_of_le amount hle, overruns_cons_of_le amount hle]
        exact ih (sub_nonneg.mpr hle) hrs
      · rw [overruns_cons_of_lt amount hlt, overruns_cons_of_lt amount hlt, ih le_rfl hrs]
    | false =>
      have h0 := h r List.mem_cons_self hk
      rw [List.filter_cons_of_neg (by simp [hk]), ih hb hrs,
        overruns_cons_of_le amount (h0 ▸ hb), h0, sub_zero]

omit [IsOrderedAddMonoid α] in
theorem final_map {σ : Type*} (f : σ → ρ) (balance : α) (rows : List σ) :
    final amount balance (rows.map f) = final (amount ∘ f) balance rows := by
  induction rows generalizing balance with
  | nil => rfl
  | cons r rs ih => exact ih _

theorem overruns_map {σ : Type*} (f : σ → ρ) (balance : α) (rows : List σ) :
    overruns amount balance (rows.map f) =
      (overruns (amount ∘ f) balance rows).map fun s => (f s.1, s.2) := by
  induction rows generalizing balance with
  | nil => rfl
  | cons r rs ih =>
    rw [List.map_cons]
    rcases le_or_gt (amount (f r)) balance with hle | hlt
    · rw [overruns_cons_of_le amount hle, overruns_cons_of_le (amount ∘ f) hle, ih]
      rfl
    · rw [overruns_cons_of_lt amount hlt, overruns_cons_of_lt (amount ∘ f) hlt, ih]
      rfl

variable {amount} {amount' : ρ → α}

omit [IsOrderedAddMonoid α] in
theorem final_congr {rows : List ρ} (h : ∀ r ∈ rows, amount r = amount' r) (balance : α) :
    final amount balance rows = final amount' balance rows := by
  induction rows generalizing balance with
  | nil => rfl
  | cons r rs ih =>
    rw [final, final, h r List.mem_cons_self]
    exact ih (fun x hx => h x (List.mem_cons_of_mem r hx)) _

omit [LinearOrder α] [IsOrderedAddMonoid α] in
theorem sum_filter {keep : ρ → Bool} {rows : List ρ}
    (h : ∀ r ∈ rows, keep r = false → amount r = 0) :
    ((rows.filter keep).map amount).sum = (rows.map amount).sum := by
  induction rows with
  | nil => rfl
  | cons r rs ih =>
    have hrs := ih fun x hx => h x (List.mem_cons_of_mem r hx)
    cases hk : keep r with
    | true => rw [List.filter_cons_of_pos hk, List.map_cons, List.map_cons, List.sum_cons,
        List.sum_cons, hrs]
    | false => rw [List.filter_cons_of_neg (by simp [hk]), List.map_cons, List.sum_cons,
        h r List.mem_cons_self hk, zero_add, hrs]

theorem overruns_congr {rows : List ρ} (h : ∀ r ∈ rows, amount r = amount' r) (balance : α) :
    overruns amount balance rows = overruns amount' balance rows := by
  induction rows generalizing balance with
  | nil => rfl
  | cons r rs ih =>
    have hr := h r List.mem_cons_self
    have hrs : ∀ r ∈ rs, amount r = amount' r := fun x hx => h x (List.mem_cons_of_mem r hx)
    rcases le_or_gt (amount r) balance with hle | hlt
    · rw [overruns_cons_of_le amount hle, overruns_cons_of_le amount' (hr ▸ hle), ih hrs, hr]
    · rw [overruns_cons_of_lt amount hlt, overruns_cons_of_lt amount' (hr ▸ hlt), ih hrs]

/-- Where no row adds to the balance, flooring each step floors the total once. -/
theorem final_of_nonneg {balance : α} (hb : 0 ≤ balance) {rows : List ρ}
    (h : ∀ r ∈ rows, 0 ≤ amount r) :
    final amount balance rows = max (balance - (rows.map amount).sum) 0 := by
  induction rows generalizing balance with
  | nil => simpa [final] using hb
  | cons r rs ih =>
    have hrs : ∀ r ∈ rs, 0 ≤ amount r := fun x hx => h x (List.mem_cons_of_mem r hx)
    have hsum : 0 ≤ (rs.map amount).sum :=
      List.sum_nonneg (by simpa using hrs)
    rw [final, ih (draw_nonneg _ _) hrs, List.map_cons, List.sum_cons]
    rcases le_or_gt (amount r) balance with hle | hlt
    · rw [draw_of_le hle, sub_sub]
    · rw [draw_of_lt hlt, zero_sub, max_eq_right (neg_nonpos.mpr hsum), max_eq_right]
      exact sub_nonpos.mpr (hlt.le.trans (le_add_of_nonneg_right hsum))

/-- Larger rows leave the same balance exactly where it was nil already or they
take no more in all. -/
theorem final_eq_iff {balance : α} (hb : 0 ≤ balance) {rows : List ρ}
    (h : ∀ r ∈ rows, 0 ≤ amount r) (hle : ∀ r ∈ rows, amount r ≤ amount' r) :
    final amount' balance rows = final amount balance rows ↔
      final amount balance rows = 0 ∨ ¬ (rows.map amount).sum < (rows.map amount').sum := by
  have hsum : (rows.map amount).sum ≤ (rows.map amount').sum := List.sum_le_sum hle
  rw [final_of_nonneg hb h, final_of_nonneg hb fun r hr => (h r hr).trans (hle r hr)]
  constructor
  · intro heq
    refine or_iff_not_imp_left.mpr fun hne hlt => ?_
    have hpos : 0 < balance - (rows.map amount).sum := by
      by_contra hnot
      exact hne (max_eq_right (not_lt.mp hnot))
    have hdrop := sub_lt_sub_left hlt balance
    rw [max_eq_left hpos.le] at heq
    exact (max_lt hdrop hpos).ne heq
  · rintro (h0 | hnot)
    · rw [h0]
      exact max_eq_right ((sub_le_sub_left hsum balance).trans (max_eq_right_iff.mp h0))
    · rw [le_antisymm hsum (not_lt.mp hnot)]

section Field
variable {k : Type*} [Field k] [LinearOrder k] [IsStrictOrderedRing k]

/-- A share of the balance meeting the same share of every row keeps its share. -/
theorem final_mul (amount : ρ → k) {share : k} (hs : 0 ≤ share) (balance : k) (rows : List ρ) :
    final (fun r => amount r * share) (balance * share) rows =
      final amount balance rows * share := by
  induction rows generalizing balance with
  | nil => rfl
  | cons r rs ih =>
    have hdraw : draw (balance * share) (amount r * share) = draw balance (amount r) * share := by
      unfold draw
      rw [← sub_mul, max_mul_of_nonneg _ _ hs, zero_mul]
    rw [final, final, hdraw]
    exact ih _

end Field

end FlooredWalk
