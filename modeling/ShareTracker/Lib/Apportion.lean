import Mathlib
import ShareTracker.Lib.Grid

/-!
# Apportioning a total on a grid

Entries have exact shares; each receives its share rounded down to the grid or
one step more, and the counts sum to a given total. Some entries may be fixed
in advance, and the free ones then have to absorb what is left.
-/
namespace Apportion

section Prefix
variable {ι : Type*} {R : ι → ι → Prop} {P : ι → Bool}

/-- In a list whose order keeps `P` towards the front, a prefix no longer than
the number of `P` entries has only `P` entries. -/
theorem of_mem_take {l : List ι} (hl : l.Pairwise R) (hR : ∀ a b, R a b → P b → P a)
    {k : ℕ} (hk : k ≤ l.countP P) {x : ι} (hx : x ∈ l.take k) : P x := by
  induction l generalizing k with
  | nil => simp at hx
  | cons a l ih =>
    obtain ⟨ha, hl⟩ := List.pairwise_cons.mp hl
    cases k with
    | zero => simp at hx
    | succ k =>
      have hPa : P a := by
        by_contra hcon
        have hzero : l.countP P = 0 := by
          refine List.countP_eq_zero.mpr fun b hb hPb => hcon (hR a b (ha b hb) hPb)
        rw [List.countP_cons_of_neg hcon, hzero] at hk
        omega
      rw [List.countP_cons_of_pos hPa] at hk
      rw [List.take_succ_cons] at hx
      rcases List.mem_cons.mp hx with rfl | hx
      · exact hPa
      · exact ih hl (by omega) hx

/-- A prefix at least as long as the number of `P` entries has all of them. -/
theorem mem_take {l : List ι} (hl : l.Pairwise R) (hR : ∀ a b, R a b → P b → P a)
    {k : ℕ} (hk : l.countP P ≤ k) {x : ι} (hx : x ∈ l) (hPx : P x) : x ∈ l.take k := by
  induction l generalizing k with
  | nil => cases hx
  | cons a l ih =>
    obtain ⟨ha, hl⟩ := List.pairwise_cons.mp hl
    have hPa : P a := by
      rcases List.mem_cons.mp hx with rfl | hx
      · exact hPx
      · exact hR a x (ha x hx) hPx
    rw [List.countP_cons_of_pos hPa] at hk
    obtain ⟨k, rfl⟩ : ∃ m, k = m + 1 := ⟨k - 1, by omega⟩
    rw [List.take_succ_cons]
    rcases List.mem_cons.mp hx with rfl | hx
    · exact List.mem_cons_self
    · exact List.mem_cons_of_mem a (ih hl (by omega) hx)

end Prefix

section Sums
variable {ι α : Type*} [Field α]

theorem sum_ite_step (l : List ι) (P : ι → Bool) (step : α) :
    (l.map fun i => if P i then step else 0).sum = l.countP P * step := by
  induction l with
  | nil => simp
  | cons a l ih =>
    by_cases h : P a
    · simp only [List.map_cons, List.sum_cons, ih, h, if_true, List.countP_cons_of_pos]
      push_cast
      ring
    · simp only [List.map_cons, List.sum_cons, ih, h, Bool.false_eq_true, if_false,
        not_false_eq_true, List.countP_cons_of_neg, zero_add]

/-- Giving one step to each member of a sublist adds that many steps. -/
theorem sum_mem_step [DecidableEq ι] {l b : List ι} (hl : l.Nodup) (hb : b.Nodup)
    (hsub : ∀ i ∈ b, i ∈ l) (step : α) :
    (l.map fun i => if i ∈ b then step else 0).sum = b.length * step := by
  have hcount : l.countP (fun i => decide (i ∈ b)) = b.length := by
    rw [List.countP_eq_length_filter]
    have hperm : (l.filter fun i => decide (i ∈ b)).Perm b := by
      refine (List.perm_ext_iff_of_nodup (hl.filter _) hb).mpr fun i => ?_
      simp only [List.mem_filter, decide_eq_true_eq]
      exact ⟨fun h => h.2, fun h => ⟨hsub i h, h⟩⟩
    exact hperm.length_eq
  have h := sum_ite_step l (fun i => decide (i ∈ b)) step
  simp only [decide_eq_true_eq] at h
  rw [h, hcount]

end Sums

variable {ι α : Type*} [Field α] [LinearOrder α] [FloorRing α]

/-- A count a share permits: on the grid, positive and less than a step from it. -/
def Permitted (step share count : α) : Prop :=
  Grid.On step count ∧ 0 < count ∧ |count - share| < step

/-- Counts with the given total, the fixed entries as fixed, the others as permitted. -/
structure Apportions (entries : List ι) (step total : α) (share : ι → α) (fixed : ι → Option α)
    (count : ι → α) : Prop where
  fixed_eq : ∀ i ∈ entries, ∀ c, fixed i = some c → count i = c
  permitted : ∀ i ∈ entries, fixed i = none → Permitted step (share i) (count i)
  sum_eq : (entries.map count).sum = total

/-- The free entries can absorb what the fixed ones leave of the total. -/
def Absorbs (entries : List ι) (step total : α) (share : ι → α) (fixed : ι → Option α) : Prop :=
  ∃ count, Apportions entries step total share fixed count

variable [IsStrictOrderedRing α]

/-- A count less than a step from a share is its floor or, off the grid, one step more. -/
theorem near_iff {step share count : α} (hs : 0 < step) :
    Grid.On step count ∧ |count - share| < step ↔
      count = Grid.floorOn step share ∨
        (¬ Grid.On step share ∧ count = Grid.floorOn step share + step) := by
  have hle := Grid.floorOn_le hs share
  have hlt := Grid.lt_floorOn_add hs share
  have hon := Grid.floorOn_on step share
  constructor
  · rintro ⟨hg, habs⟩
    obtain ⟨h1, h2⟩ := abs_lt.mp habs
    rcases lt_or_ge count (Grid.floorOn step share + step) with hlow | hhigh
    · exact .inl (hg.eq_of_near hs hon hlow (by linarith))
    · have hc : count = Grid.floorOn step share + step :=
        hg.eq_of_near hs (hon.add ⟨1, by simp⟩) (by linarith) (by linarith)
      refine .inr ⟨fun hshare => ?_, hc⟩
      rw [Grid.floorOn_of_on hs hshare] at hc
      linarith
  · rintro (rfl | ⟨hoff, rfl⟩)
    · exact ⟨hon, abs_lt.mpr ⟨by linarith, by linarith⟩⟩
    · have hne : Grid.floorOn step share ≠ share := fun h => hoff (h ▸ hon)
      have hlt' := lt_of_le_of_ne hle hne
      exact ⟨hon.add ⟨1, by simp⟩, abs_lt.mpr ⟨by linarith, by linarith⟩⟩

/-- The band the free entries can absorb, from any apportionment. -/
theorem Apportions.band {entries : List ι} {step total : α} {share : ι → α}
    {fixed : ι → Option α} {count : ι → α} (hs : 0 < step) (hpos : ∀ i ∈ entries, 0 < share i)
    (h : Apportions entries step total share fixed count) {i : ι} (hi : i ∈ entries)
    (hfree : fixed i = none) :
    (if Grid.floorOn step (share i) = 0 then step else Grid.floorOn step (share i)) ≤ count i ∧
      count i ≤ (if Grid.floorOn step (share i) = share i then Grid.floorOn step (share i)
        else Grid.floorOn step (share i) + step) := by
  obtain ⟨hg, h0, habs⟩ := h.permitted i hi hfree
  have hf := Grid.floorOn_nonneg hs (hpos i hi).le
  rcases (near_iff hs).mp ⟨hg, habs⟩ with he | ⟨hoff, he⟩
  · refine ⟨?_, ?_⟩
    · split
      · rename_i hz
        rw [he, hz] at h0
        exact absurd h0 (lt_irrefl 0)
      · exact he.ge
    · split <;> linarith
  · refine ⟨?_, ?_⟩
    · split <;> linarith
    · rw [if_neg fun h => hoff ((Grid.on_iff_floorOn_eq hs).mpr h)]
      exact he.le

end Apportion
