import Mathlib

/-!
# A balance drawn down in printed steps

A balance loses one amount after another. Each amount is printed as the step
between the rounded balances around it, and the last one lands on a given level.
-/
namespace Drawdown

section Steps
variable {α : Type*} [AddCommGroup α] (round : α → α) (target : α)

/-- The printed steps from a balance whose level was printed as `before`. -/
def steps (balance before : α) : List α → List α
  | [] => []
  | [_] => [before - target]
  | a :: b :: rest =>
    (before - round (balance - a)) :: steps (balance - a) (round (balance - a)) (b :: rest)

theorem length_steps (balance before : α) (amounts : List α) :
    (steps round target balance before amounts).length = amounts.length := by
  induction amounts generalizing balance before with
  | nil => rfl
  | cons a rest ih =>
    cases rest with
    | nil => rfl
    | cons b rest => exact congrArg Nat.succ (ih _ _)

/-- The steps reach the level they are aimed at. -/
theorem sum_steps (balance before : α) {amounts : List α} (h : amounts ≠ []) :
    (steps round target balance before amounts).sum = before - target := by
  induction amounts generalizing balance before with
  | nil => exact absurd rfl h
  | cons a rest ih =>
    cases rest with
    | nil => exact List.sum_singleton
    | cons b rest =>
      rw [steps, List.sum_cons, ih _ _ (List.cons_ne_nil b rest)]
      abel

end Steps

section Near
variable {k : Type*} [AddCommGroup k] [LinearOrder k] [IsOrderedAddMonoid k] {round : k → k} {err : k}

/-- With each level within `err` of its balance, each step is within twice that
of its amount. -/
theorem steps_near (hround : ∀ x, |round x - x| ≤ err) {balance before target : k}
    {amounts : List k} (hbefore : |before - balance| ≤ err)
    (htarget : |target - (balance - amounts.sum)| ≤ err) :
    List.Forall₂ (fun amount step => |step - amount| ≤ err + err) amounts
      (steps round target balance before amounts) := by
  induction amounts generalizing balance before with
  | nil => exact .nil
  | cons a rest ih =>
    have hstep : ∀ after, |after - (balance - a)| ≤ err → |before - after - a| ≤ err + err := by
      intro after hafter
      calc |before - after - a| = |before - balance - (after - (balance - a))| := by
            congr 1
            abel
        _ ≤ |before - balance| + |after - (balance - a)| := abs_sub _ _
        _ ≤ err + err := add_le_add hbefore hafter
    cases rest with
    | nil =>
      rw [List.sum_singleton] at htarget
      exact .cons (hstep target htarget) .nil
    | cons b rest =>
      refine .cons (hstep _ (hround _)) (ih (hround _) ?_)
      rwa [List.sum_cons, ← sub_sub] at htarget

end Near
end Drawdown
