import ShareTracker.Lib.Tally

/-!
# A balance in units that dated rows re-base

Each row multiplies the balance by its factor and then moves it by its amount.
Rows that move several parts move their sum; and what is moved on a date stands
at the end as the factors of the later rows make it.
-/
namespace RebasedBalance

variable {ρ ι K δ : Type*}

section Run
variable [CommSemiring K] (f c : ρ → K)

/-- The balance the rows leave of `x`. -/
def run (x : K) (rows : List ρ) : K := rows.foldl (fun x r => x * f r + c r) x

@[simp] theorem run_nil (x : K) : run f c x [] = x := rfl

@[simp] theorem run_cons (x : K) (r : ρ) (rows : List ρ) :
    run f c x (r :: rows) = run f c (x * f r + c r) rows := rfl

theorem run_concat (x : K) (rows : List ρ) (r : ρ) :
    run f c x (rows ++ [r]) = run f c x rows * f r + c r := by
  simp [run]

variable {f c}

theorem run_congr {f' c' : ρ → K} {rows : List ρ} (h : ∀ r ∈ rows, f r = f' r ∧ c r = c' r)
    (x : K) : run f c x rows = run f' c' x rows := by
  induction rows generalizing x with
  | nil => rfl
  | cons r rows ih =>
    obtain ⟨hf, hc⟩ := h r List.mem_cons_self
    rw [run_cons, run_cons, hf, hc, ih fun r' hr' => h r' (List.mem_cons_of_mem r hr')]

/-- A row that re-bases nothing and moves nothing may be left out. -/
theorem run_filter {keep : ρ → Bool} {rows : List ρ}
    (h : ∀ r ∈ rows, keep r = false → f r = 1 ∧ c r = 0) (x : K) :
    run f c x (rows.filter keep) = run f c x rows := by
  induction rows generalizing x with
  | nil => rfl
  | cons r rows ih =>
    have hrest := ih fun r' hr' => h r' (List.mem_cons_of_mem r hr')
    cases hk : keep r with
    | true => rw [List.filter_cons_of_pos hk, run_cons, run_cons, hrest]
    | false =>
      obtain ⟨hf, hc⟩ := h r List.mem_cons_self hk
      rw [List.filter_cons_of_neg (by simp [hk]), run_cons, hf, hc, mul_one, add_zero, hrest]

theorem run_add (c' : ρ → K) (x y : K) (rows : List ρ) :
    run f (fun r => c r + c' r) (x + y) rows = run f c x rows + run f c' y rows := by
  induction rows generalizing x y with
  | nil => rfl
  | cons r rows ih =>
    have hstep : (x + y) * f r + (c r + c' r) = (x * f r + c r) + (y * f r + c' r) := by ring
    rw [run_cons, run_cons, run_cons, hstep, ih]

/-- Rows that move the balance alike, wherever the rows before each leave it. -/
theorem run_eq_of_prefix {f' c' : ρ → K} {x : K} {rows : List ρ}
    (h : ∀ before r after, rows = before ++ r :: after →
      run f' c' x before * f r + c r = run f' c' x before * f' r + c' r) :
    run f c x rows = run f' c' x rows := by
  induction rows using List.reverseRecOn with
  | nil => rfl
  | append_singleton rows r ih =>
    have hbefore : run f c x rows = run f' c' x rows := by
      refine ih fun before r' after hsplit => h before r' (after ++ [r]) ?_
      rw [hsplit, List.append_assoc, List.cons_append]
    rw [run_concat, run_concat, hbefore]
    exact h rows r [] rfl

theorem run_zero (rows : List ρ) : run f (fun _ => 0) 0 rows = 0 := by
  induction rows with
  | nil => rfl
  | cons r rows ih => rw [run_cons, zero_mul, add_zero, ih]

/-- Rows that move every part move their sum. -/
theorem run_sum (part : ι → ρ → K) (parts : List ι) (rows : List ρ) :
    run f (fun r => (parts.map fun i => part i r).sum) 0 rows =
      (parts.map fun i => run f (part i) 0 rows).sum := by
  induction parts with
  | nil => exact run_zero rows
  | cons i parts ih =>
    simp only [List.map_cons, List.sum_cons]
    rw [← ih, ← run_add, add_zero]

end Run

section Level
variable [Field K] [LinearOrder δ] (f c : ρ → K) (date : ρ → δ) (rebases : ρ → Bool)

/-- The factor of all the rows together. -/
def level (rows : List ρ) : K := (rows.map f).prod

/-- The level of the basis at a date. -/
def levelOn (rows : List ρ) (d : δ) : K := level f (rows.filter fun r => date r ≤ d)

/-- Rows by date, a day's re-basing rows before its others. -/
def Dated (rows : List ρ) : Prop :=
  rows.Pairwise fun r r' =>
    date r ≤ date r' ∧ (rebases r = false → rebases r' = true → date r < date r')

variable {f c date rebases}

theorem level_concat (rows : List ρ) (r : ρ) : level f (rows ++ [r]) = level f rows * f r := by
  simp [level]

theorem level_ne_zero {rows : List ρ} (h : ∀ r ∈ rows, f r ≠ 0) : level f rows ≠ 0 := by
  rw [level]
  simpa using fun r hr => h r hr

theorem levelOn_concat_later (rows : List ρ) {r : ρ} {d : δ} (h : d < date r) :
    levelOn f date (rows ++ [r]) d = levelOn f date rows d := by
  simp [levelOn, List.filter_append, not_le.mpr h]

theorem levelOn_concat_still (rows : List ρ) {r : ρ} (h : f r = 1) (d : δ) :
    levelOn f date (rows ++ [r]) d = levelOn f date rows d := by
  by_cases hd : date r ≤ d
  · simp [levelOn, level, List.filter_append, hd, h]
  · simp [levelOn, List.filter_append, hd]

theorem levelOn_last {rows : List ρ} {d : δ} (h : ∀ r ∈ rows, date r ≤ d) :
    levelOn f date rows d = level f rows := by
  rw [levelOn, List.filter_eq_self.mpr fun r hr => decide_eq_true (h r hr)]

/-- What dated rows leave of nothing: each amount at the level it was moved at,
brought to the level of the end. -/
theorem run_eq_level {rows : List ρ} (hrows : Dated date rebases rows)
    (hf : ∀ r ∈ rows, f r ≠ 0) (hstill : ∀ r ∈ rows, rebases r = false → f r = 1)
    (hmove : ∀ r ∈ rows, rebases r = true → c r = 0) :
    run f c 0 rows =
      level f rows * (rows.map fun r => c r / levelOn f date rows (date r)).sum := by
  induction rows using List.reverseRecOn with
  | nil => simp [level]
  | append_singleton rows r ih =>
    have hbefore : ∀ r' ∈ rows, date r' ≤ date r ∧
        (rebases r' = false → rebases r = true → date r' < date r) :=
      fun r' hr' => (List.pairwise_append.mp hrows).2.2 r' hr' r List.mem_cons_self
    have hmem : ∀ r' ∈ rows, r' ∈ rows ++ [r] := fun r' hr' => List.mem_append_left _ hr'
    have hlast : r ∈ rows ++ [r] := List.mem_append_right _ List.mem_cons_self
    have ih := ih (List.pairwise_append.mp hrows).1 (fun r' hr' => hf r' (hmem r' hr'))
      (fun r' hr' => hstill r' (hmem r' hr')) fun r' hr' => hmove r' (hmem r' hr')
    have hsame : (rows.map fun r' => c r' / levelOn f date (rows ++ [r]) (date r')) =
        rows.map fun r' => c r' / levelOn f date rows (date r') := by
      refine List.map_congr_left fun r' hr' => ?_
      cases hr : rebases r with
      | false => rw [levelOn_concat_still rows (hstill r hlast hr)]
      | true =>
        cases hr'' : rebases r' with
        | true => rw [hmove r' (hmem r' hr') hr'', zero_div, zero_div]
        | false => rw [levelOn_concat_later rows ((hbefore r' hr').2 hr'' hr)]
    rw [run_concat, List.map_append, List.sum_append, hsame, level_concat, ih]
    cases hr : rebases r with
    | true =>
      rw [hmove r hlast hr]
      simp only [List.map_cons, List.map_nil, List.sum_singleton, hmove r hlast hr]
      ring
    | false =>
      have hone := hstill r hlast hr
      have hlevel : levelOn f date (rows ++ [r]) (date r) = level f rows := by
        rw [levelOn_concat_still rows hone, levelOn_last fun r' hr' => (hbefore r' hr').1]
      have hne : level f rows ≠ 0 := level_ne_zero fun r' hr' => hf r' (hmem r' hr')
      simp only [List.map_cons, List.map_nil, List.sum_singleton, hlevel, hone]
      field_simp

/-- Amounts that come to nothing on every date leave nothing. -/
theorem run_of_balanced {rows : List ρ} (hrows : Dated date rebases rows)
    (hf : ∀ r ∈ rows, f r ≠ 0) (hstill : ∀ r ∈ rows, rebases r = false → f r = 1)
    (hmove : ∀ r ∈ rows, rebases r = true → c r = 0)
    (hdays : ∀ d, ((rows.filter fun r => date r = d).map c).sum = 0) : run f c 0 rows = 0 := by
  have hkeys : ∀ r ∈ rows, date r ∈ (rows.map date).dedup :=
    fun r hr => List.mem_dedup.mpr (List.mem_map_of_mem hr)
  rw [run_eq_level hrows hf hstill hmove, Tally.sum_by_key date _ (List.nodup_dedup _) hkeys]
  refine mul_eq_zero_of_right _ (List.sum_eq_zero fun x hx => ?_)
  obtain ⟨d, -, rfl⟩ := List.mem_map.mp hx
  have hday : ((rows.filter fun r => date r = d).map fun r => c r / levelOn f date rows (date r)) =
      (rows.filter fun r => date r = d).map fun r => c r * (levelOn f date rows d)⁻¹ := by
    refine List.map_congr_left fun r hr => ?_
    rw [of_decide_eq_true (List.mem_filter.mp hr).2, div_eq_mul_inv]
  rw [hday, List.sum_map_mul_right, hdays d, zero_mul]

end Level

end RebasedBalance
