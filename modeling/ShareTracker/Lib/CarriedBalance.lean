import Mathlib

/-!
# Accounts carried from period to period

A run of periods, each with an opening and a closing balance. The run is
chained when every period opens at what the period before it closed with.
-/
namespace CarriedBalance

variable {ρ α : Type*} (opening closing : ρ → α)

/-- The first period opens at `seed`, every later one where its predecessor closed. -/
def Chained (seed : α) : List ρ → Prop
  | [] => True
  | r :: rs => opening r = seed ∧ Chained (closing r) rs

/-- What is carried out of the last period. -/
def final (seed : α) : List ρ → α
  | [] => seed
  | r :: rs => final (closing r) rs

/-- What is carried into the first period that is not `before`. -/
def into (before : ρ → Bool) (seed : α) : List ρ → α
  | [] => seed
  | r :: rs => if before r then into before (closing r) rs else seed

theorem chained_append {seed : α} {rows rest : List ρ} :
    Chained opening closing seed (rows ++ rest) ↔
      Chained opening closing seed rows ∧
        Chained opening closing (final closing seed rows) rest := by
  induction rows generalizing seed with
  | nil => exact ⟨fun h => ⟨trivial, h⟩, fun h => h.2⟩
  | cons r rs ih =>
    rw [List.cons_append]
    change _ ∧ Chained opening closing (closing r) (rs ++ rest) ↔ (_ ∧ _) ∧ _
    rw [ih, and_assoc]
    rfl

theorem final_eq_getLast (seed : α) (rows : List ρ) :
    final closing seed rows = (rows.getLast?.map closing).getD seed := by
  induction rows generalizing seed with
  | nil => rfl
  | cons r rs ih =>
    rw [final, ih, List.getLast?_cons]
    cases rs.getLast? with
    | none => rfl
    | some last => rfl

/-- The chain reads the closing balance of no period but those that have a successor. -/
theorem Chained.congr {closing' : ρ → α} {seed : α} {rows : List ρ}
    (h : Chained opening closing seed rows)
    (hclose : ∀ before r after, rows = before ++ r :: after → after ≠ [] → closing r = closing' r) :
    Chained opening closing' seed rows := by
  induction rows generalizing seed with
  | nil => trivial
  | cons r rs ih =>
    refine ⟨h.1, ?_⟩
    have hrest := ih h.2 fun before x after hrs => hclose (r :: before) x after (by rw [hrs]; rfl)
    cases rs with
    | nil => trivial
    | cons x xs =>
      rw [← hclose [] r (x :: xs) rfl (List.cons_ne_nil _ _)]
      exact hrest

theorem chained_map {σ : Type*} (f : σ → ρ) {seed : α} {rows : List σ} :
    Chained opening closing seed (rows.map f) ↔
      Chained (opening ∘ f) (closing ∘ f) seed rows := by
  induction rows generalizing seed with
  | nil => exact Iff.rfl
  | cons r rs ih => exact and_congr_right fun _ => ih

instance decidableChained [DecidableEq α] :
    (seed : α) → (rows : List ρ) → Decidable (Chained opening closing seed rows)
  | _, [] => instDecidableTrue
  | _, r :: rs => @instDecidableAnd _ _ _ (decidableChained (closing r) rs)

section Group
variable [AddCommGroup α] (inflow outflow : ρ → α)

/-- Balances telescope: what came in over the whole run and the opening
balance is what went out and the final balance. -/
theorem Chained.conserves {seed : α} {rows : List ρ}
    (h : Chained opening closing seed rows)
    (hrow : ∀ r ∈ rows, opening r + inflow r = outflow r + closing r) :
    seed + (rows.map inflow).sum = (rows.map outflow).sum + final closing seed rows := by
  induction rows generalizing seed with
  | nil => simp [final]
  | cons r rs ih =>
    have hr := hrow r (by simp)
    have hrest := ih h.2 fun x hx => hrow x (List.mem_cons_of_mem r hx)
    rw [h.1] at hr
    simp only [List.map_cons, List.sum_cons, final]
    calc seed + (inflow r + (rs.map inflow).sum)
        = (seed + inflow r) + (rs.map inflow).sum := by abel
      _ = outflow r + (closing r + (rs.map inflow).sum) := by rw [hr]; abel
      _ = outflow r + (rs.map outflow).sum + final closing (closing r) rs := by
            rw [hrest]; abel

end Group

end CarriedBalance
