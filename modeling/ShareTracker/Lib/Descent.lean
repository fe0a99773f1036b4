import Mathlib

/-!
# The greatest element accepted, by walking down

A walk goes down from a start, one predecessor at a time and a given number of
times at most, to the first element accepted.
-/
namespace Descent

variable {α : Type*} [LinearOrder α] [PredOrder α]

def walk (accept : α → Bool) : ℕ → α → Option α
  | 0, _ => none
  | n + 1, a => if accept a then some a else walk accept n (Order.pred a)

variable [NoMinOrder α] {accept : α → Bool} {n : ℕ} {a b : α}

/-- The walk stops at the greatest element accepted of those it may step to. -/
theorem walk_eq_some :
    walk accept n a = some b ↔
      IsGreatest {c | Order.pred^[n] a < c ∧ c ≤ a ∧ accept c = true} b := by
  induction n generalizing a with
  | zero =>
    simp only [walk, Function.iterate_zero, id]
    constructor
    · intro h
      cases h
    · intro h
      exact absurd h.1.1 h.1.2.1.not_gt
  | succ n ih =>
    rw [walk, Function.iterate_succ_apply]
    by_cases haccept : accept a = true
    · have hlow : Order.pred^[n] (Order.pred a) < a :=
        (Order.pred_iterate_le n _).trans_lt (Order.pred_lt a)
      have hgreatest :
          IsGreatest {c | Order.pred^[n] (Order.pred a) < c ∧ c ≤ a ∧ accept c = true} a :=
        ⟨⟨hlow, le_rfl, haccept⟩, fun c hc => hc.2.1⟩
      rw [if_pos haccept, Option.some.injEq]
      constructor
      · rintro rfl
        exact hgreatest
      · exact hgreatest.unique
    · rw [if_neg haccept, ih]
      apply iff_of_eq
      congr 1
      ext c
      refine and_congr_right fun _ => ⟨fun h => ⟨h.1.trans (Order.pred_le a), h.2⟩, fun h => ?_⟩
      have hne : c ≠ a := by
        rintro rfl
        exact haccept h.2
      exact ⟨Order.le_pred_of_lt (lt_of_le_of_ne h.1 hne), h.2⟩

theorem walk_eq_none :
    walk accept n a = none ↔ ∀ c, Order.pred^[n] a < c → c ≤ a → accept c = false := by
  induction n generalizing a with
  | zero =>
    simp only [walk, Function.iterate_zero, id, true_iff]
    exact fun c hlow hle => absurd hlow hle.not_gt
  | succ n ih =>
    rw [walk, Function.iterate_succ_apply]
    by_cases haccept : accept a = true
    · have hlow : Order.pred^[n] (Order.pred a) < a :=
        (Order.pred_iterate_le n _).trans_lt (Order.pred_lt a)
      rw [if_pos haccept]
      constructor
      · intro h
        cases h
      · intro h
        simp [h a hlow le_rfl] at haccept
    · rw [if_neg haccept, ih]
      constructor
      · intro h c hlow hle
        rcases hle.eq_or_lt with rfl | hlt
        · simpa using haccept
        · exact h c hlow (Order.le_pred_of_lt hlt)
      · exact fun h c hlow hle => h c hlow (hle.trans (Order.pred_le a))

/-- Where it stops, no element up to the start is accepted further up. -/
theorem walk_isGreatest (h : walk accept n a = some b) :
    IsGreatest {c | c ≤ a ∧ accept c = true} b := by
  have hwalk := walk_eq_some.mp h
  refine ⟨hwalk.1.2, fun c hc => ?_⟩
  rcases lt_or_ge (Order.pred^[n] a) c with hlow | hlow
  · exact hwalk.2 ⟨hlow, hc⟩
  · exact hlow.trans hwalk.1.1.le

/-- A walk that falls back on the floor it goes down to stops no lower. -/
theorem floor_le_getD {floor : α} (hfloor : Order.pred^[n] a = floor) :
    floor ≤ (walk accept n a).getD floor := by
  subst hfloor
  cases h : walk accept n a with
  | some b => exact (walk_eq_some.mp h).1.1.le
  | none => exact le_rfl

/-- A walk that falls back on the floor it goes down to finds the greatest
element accepted just where there is one at the floor or past it. -/
theorem getD_isGreatest_iff {floor : α} (hfloor : Order.pred^[n] a = floor) :
    IsGreatest {c | c ≤ a ∧ accept c = true} ((walk accept n a).getD floor) ↔
      ∃ c, floor ≤ c ∧ c ≤ a ∧ accept c = true := by
  subst hfloor
  cases h : walk accept n a with
  | some b =>
    have hwalk := walk_eq_some.mp h
    exact iff_of_true (walk_isGreatest h) ⟨b, hwalk.1.1.le, hwalk.1.2⟩
  | none =>
    have hnone := walk_eq_none.mp h
    constructor
    · intro hgreatest
      exact ⟨Order.pred^[n] a, le_rfl, hgreatest.1⟩
    · rintro ⟨c, hlow, hle, haccept⟩
      have hfloor : ∀ d, d ≤ a → accept d = true → d ≤ Order.pred^[n] a := by
        intro d hd hdAccept
        by_contra hpast
        simp [hnone d (not_le.mp hpast) hd] at hdAccept
      obtain rfl : c = Order.pred^[n] a := le_antisymm (hfloor c hle haccept) hlow
      exact ⟨⟨hle, haccept⟩, fun d hd => hfloor d hd.1 hd.2⟩

end Descent
